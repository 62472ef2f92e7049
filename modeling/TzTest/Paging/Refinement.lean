import TzTest.Paging.Operations

/-!
# The AArch64 tables as a finite map

Any sequence of calls that leaves the pool in its 2 MB region acts on the
hardware's view of the tables as on a map from pages to pages.
-/

namespace TzTest.Aarch64

open BitField

/-- The entry that the hardware reads in a table of the level. -/
def descriptor (mem : BitVec 64 → BitVec 64) (level : Nat)
    (table va : BitVec 64) : BitVec 64 :=
  mem (table ||| (((va >>> (39 - level * 9)) &&& 0x1FF) <<< 3))

/-- The walk of the hardware: three table descriptors and a page descriptor.
`TnSZ` leaves 48 bits of the address for it, and no translation to an address
with a bit above them. -/
def hwWalk (mem : BitVec 64 → BitVec 64) (base va : BitVec 64) :
    Option (Leaf 64) :=
  if va >>> 48 ≠ 0 then
    none
  else do
    let first ← next (descriptor mem 0 base va)
    let second ← next (descriptor mem 1 first va)
    let third ← next (descriptor mem 2 second va)
    leaf (descriptor mem 3 third va)

theorem ushiftRight_eq_zero_iff {va : BitVec 64} :
    va >>> 48 = 0 ↔ va.toNat < 2 ^ 48 := by
  rw [← BitVec.toNat_inj, BitVec.toNat_ushiftRight, Nat.shiftRight_eq_div_pow]
  exact Nat.div_eq_zero_iff_lt (Nat.two_pow_pos 48)

theorem hwWalk_outside {va : BitVec 64} (outside : ¬va.toNat < 2 ^ 48)
    (mem : BitVec 64 → BitVec 64) (base : BitVec 64) :
    hwWalk mem base va = none :=
  if_pos (mt ushiftRight_eq_zero_iff.mp outside)

theorem hwWalk_eq {va : BitVec 64} (inside : va.toNat < 2 ^ 48)
    (mem : BitVec 64 → BitVec 64) (base : BitVec 64) :
    hwWalk mem base va = mapper.translate mem base va := by
  rw [hwWalk, if_neg (not_not.mpr (ushiftRight_eq_zero_iff.mpr inside))]
  change Option.bind (next (descriptor mem 0 base va)) _ =
    Option.bind (Option.bind (Option.bind (next (descriptor mem 0 base va)) _) _) _
  cases next (descriptor mem 0 base va) with
  | none => rfl
  | some first =>
      change Option.bind (next (descriptor mem 1 first va)) _ =
        Option.bind (Option.bind (next (descriptor mem 1 first va)) _) _
      cases next (descriptor mem 1 first va) with
      | none => rfl
      | some second => rfl

theorem hwWalk_congr {mem mem' : BitVec 64 → BitVec 64} {base base' va : BitVec 64}
    (same : mapper.translate mem' base' va = mapper.translate mem base va) :
    hwWalk mem' base' va = hwWalk mem base va := by
  by_cases inside : va.toNat < 2 ^ 48
  · rw [hwWalk_eq inside, hwWalk_eq inside, same]
  · rw [hwWalk_outside inside, hwWalk_outside inside]

theorem hwWalk_none {mem : BitVec 64 → BitVec 64} {base va : BitVec 64}
    (missing : mapper.translate mem base va = none) : hwWalk mem base va = none := by
  by_cases inside : va.toNat < 2 ^ 48
  · rw [hwWalk_eq inside, missing]
  · exact hwWalk_outside inside mem base

theorem hwWalk_some {mem : BitVec 64 → BitVec 64} {base va : BitVec 64} {found : Leaf 64}
    (walked : hwWalk mem base va = some found) :
    va.toNat < 2 ^ 48 ∧ mapper.translate mem base va = some found := by
  by_cases inside : va.toNat < 2 ^ 48
  · exact ⟨inside, (hwWalk_eq inside mem base).symm.trans walked⟩
  · rw [hwWalk_outside inside] at walked
    cases walked

theorem pa_within {mem : BitVec 64 → BitVec 64} {base va : BitVec 64}
    {found : Leaf 64} (translated : mapper.translate mem base va = some found) :
    Within found.pa 12 48 := by
  obtain ⟨last, _, atLeaf⟩ := Option.bind_eq_some_iff.mp translated
  change leaf _ = some found at atLeaf
  unfold leaf at atLeaf
  split at atLeaf
  · cases atLeaf
    exact within_and_mask (by decide) _
  · cases atLeaf

section Pages

variable {mem : BitVec 64 → BitVec 64} {base : BitVec 64}

theorem tableAt_within (rootAligned : base.toNat % 0x1000 = 0)
    {va table : BitVec 64} {level : Nat}
    (here : mapper.tableAt mem base va level = some table) :
    Within table 12 64 := by
  cases level with
  | zero =>
      cases here
      exact within_of_toNat rootAligned base.isLt
  | succ level =>
      obtain ⟨above, _, linked⟩ := Option.bind_eq_some_iff.mp here
      change next _ = some table at linked
      unfold next at linked
      split at linked
      · cases linked
        exact (within_and_mask (by decide : IsMask outputAddress 12 48) _).mono
          (le_refl _) (by decide)
      · cases linked

theorem entryOf_toNat {table : BitVec 64} (inside : Within table 12 64)
    (level : Nat) (va : BitVec 64) :
    (mapper.entryOf level table va).toNat / 0x1000 = table.toNat / 0x1000 := by
  have offset := offset_within level va
  have sum : (mapper.entryOf level table va).toNat =
      table.toNat + (index level va <<< 3).toNat :=
    inside.toNat_or offset (.inr (le_refl _))
  have aligned := inside.toNat_mod
  have small := offset.toNat_lt
  omega

theorem table_eq_of_entryOf_eq {left right table table' : BitVec 64}
    {level level' : Nat} (inside : Within table 12 64)
    (inside' : Within table' 12 64)
    (same : mapper.entryOf level table left = mapper.entryOf level' table' right) :
    table = table' := by
  have here := entryOf_toNat inside level left
  have there := entryOf_toNat inside' level' right
  have aligned := inside.toNat_mod
  have aligned' := inside'.toNat_mod
  apply BitVec.eq_of_toNat_eq
  rw [same, there] at here
  omega

/-- Trees whose tables lie on distinct pages, and on none of the free ones, are
a forest. -/
theorem forest_of_pages {Root : Type} {roots : Root → BitVec 64}
    {free : Set (BitVec 64)}
    (rootAligned : ∀ root, (roots root).toNat % 0x1000 = 0)
    (link : ∀ {root va level table}, level < 3 →
      mapper.tableAt mem (roots root) va level = some table →
      Good (descriptor mem level table va))
    (distinct : ∀ {root other left right level level' table},
      level ≤ 3 → level' ≤ 3 →
      mapper.tableAt mem (roots root) left level = some table →
      mapper.tableAt mem (roots other) right level' = some table →
      root = other ∧ level = level' ∧ mapper.Agree level left right)
    (empty : ∀ {addr}, addr ∈ free → mem addr = 0)
    (apart : ∀ {root va level table}, level ≤ 3 →
      mapper.tableAt mem (roots root) va level = some table →
      ∀ addr ∈ free, addr.toNat / 0x1000 ≠ table.toNat / 0x1000) :
    Radix.Forest mapper.toFormat roots mem free where
  table _ here := tableAt_within (rootAligned _) here
  good below here := link below here
  separated {root other left right level level' table table'} inside inside'
      here there same := by
    have within := tableAt_within (rootAligned root) here
    have sameTable := table_eq_of_entryOf_eq within
      (tableAt_within (rootAligned other) there) same
    subst sameTable
    obtain ⟨sameRoot, sameLevel, agree⟩ := distinct inside inside' here there
    subst sameLevel
    refine ⟨sameRoot, rfl, ?_⟩
    intro lower below
    rcases Nat.lt_or_eq_of_le (Nat.le_of_lt_succ below) with above | last
    · exact agree lower above
    · subst last
      exact @slot_inj lower table left right within same
  empty := empty
  unused {root va level table} inside here free := by
    have within := tableAt_within (rootAligned root) here
    exact apart inside here _ free (entryOf_toNat within level va)

end Pages

/-- What has been mapped, page by page. -/
def mapping (paddr pgattr : BitVec 64) : Leaf 64 :=
  ⟨paddr, ptePage ||| pteAccess ||| pgattr⟩

/-- The mapping of a page that has become a table. -/
def tableMapping (page : BitVec 64) : Change .aarch64 :=
  ⟨page, some (mapping page pteUserRw)⟩

def mappings (s : MemUtil 64) : MemOp .aarch64 → Change .aarch64
  | .mapPa vaddr paddr pgattr => ⟨vaddr, some (mapping paddr pgattr)⟩
  | .mapVa addr pgattr => ⟨addr, some (mapping s.memNextPa pgattr)⟩
  | .unmapVa addr => ⟨addr, none⟩

/-- The mappings and unmappings of a sequence of calls, in their order. -/
def history (base : Word .aarch64) : List (MemOp .aarch64) → MemUtil 64 →
    List (Change .aarch64)
  | [], _ => []
  | op :: ops, s =>
      (op.tables base s).map tableMapping ++ [mappings s op] ++
        ((op.run base 2 s).elim [] (history base ops))

def pageOf (va : BitVec 64) : BitVec 64 :=
  va >>> 12

/-- The last change of the page of an address. -/
def lastChange? (changes : List (Change .aarch64)) (va : BitVec 64) :
    Option (Change .aarch64) :=
  changes.reverse.find? fun change => pageOf change.vaddr = pageOf va

/-- The attributes of `vmsa.h` that callers pass. -/
def pgattrs : List (BitVec 64) := [0 <<< 6, 1 <<< 6, 2 <<< 6, 3 <<< 6]

def Legal : MemOp .aarch64 → Prop
  | .mapPa vaddr paddr pgattr =>
      BitVec.toNat vaddr < 2 ^ 48 ∧ BitVec.toNat paddr % 0x1000 = 0 ∧
        BitVec.toNat paddr < 2 ^ 36 ∧ pgattr ∈ pgattrs
  | .mapVa addr pgattr => BitVec.toNat addr < 2 ^ 48 ∧ pgattr ∈ pgattrs
  | .unmapVa addr => BitVec.toNat addr < 2 ^ 48

/-- The pool has the pages that every call takes. -/
def InRegion (base : Word .aarch64) (stop : Nat) :
    List (MemOp .aarch64) → MemUtil 64 → Prop
  | [], _ => True
  | op :: ops, s =>
      s.memNextPa.toNat + 0x1000 * op.pages base s ≤ stop ∧
        ∀ later, op.run base 2 s = some later → InRegion base stop ops later

instance decidableInRegion (base : Word .aarch64) (stop : Nat) :
    (ops : List (MemOp .aarch64)) → (s : MemUtil 64) →
      Decidable (InRegion base stop ops s)
  | [], _ => inferInstanceAs (Decidable True)
  | op :: ops, s =>
      have rest : DecidablePred (InRegion base stop ops) := decidableInRegion base stop ops
      have : Decidable (∀ later ∈ op.run base 2 s, InRegion base stop ops later) :=
        @Option.decidableForallMem _ _ rest _
      inferInstanceAs (Decidable (_ ∧ _))

/-- A four-level table and the pool pages up to `stop`. -/
structure WellFormed (base : BitVec 64) (stop : Nat) (s : MemUtil 64) : Prop where
  rootAligned : base.toNat % 0x1000 = 0
  /-- An entry above the last level is invalid or leads to a table. -/
  link {va : BitVec 64} {level : Nat} {table : BitVec 64} : level < 3 →
    mapper.tableAt s.mem base va level = some table →
    Good (descriptor s.mem level table va)
  /-- Tables lie on distinct pages. -/
  distinct {left right : BitVec 64} {level level' : Nat} {table : BitVec 64} :
    level ≤ 3 → level' ≤ 3 →
    mapper.tableAt s.mem base left level = some table →
    mapper.tableAt s.mem base right level' = some table →
    level = level' ∧ mapper.Agree level left right
  /-- No table lies on an unused page. -/
  apart {va : BitVec 64} {level : Nat} {table : BitVec 64} : level ≤ 3 →
    mapper.tableAt s.mem base va level = some table →
    table.toNat < s.memNextPa.toNat ∨ stop ≤ table.toNat
  /-- The unused pages are zero. -/
  empty {addr : BitVec 64} : s.memNextPa.toNat ≤ addr.toNat →
    addr.toNat < stop → s.mem addr = 0
  nextAligned : s.memNextPa.toNat % 0x1000 = 0
  stopAligned : stop % 0x1000 = 0
  limit : stop ≤ 2 ^ 36
  /-- The pool lies in one 2 MB region, -/
  region : stop ≤ (s.memNextPa.toNat / 2 ^ 21 + 1) * 2 ^ 21
  /-- whose last-level table is there. -/
  installed : (mapper.tableAt s.mem base s.memNextPa 3).isSome

section Start

variable {base : BitVec 64} {stop : Nat} {s : MemUtil 64}

theorem index_toNat (level : Nat) (va : BitVec 64) :
    (index level va).toNat = va.toNat / 2 ^ (39 - level * 9) % 2 ^ 9 := by
  change ((va >>> (39 - level * 9)) &&& 0x1FF).toNat = _
  rw [BitVec.toNat_and, BitVec.toNat_ushiftRight, Nat.shiftRight_eq_div_pow]
  exact Nat.and_two_pow_sub_one_eq_mod _ 9

/-- The bits of an address that the tables are for. -/
def walkedBits (va : BitVec 64) : BitVec 64 :=
  va &&& 0xFFFFFFFFFFFF

theorem walkedBits_toNat (va : BitVec 64) :
    (walkedBits va).toNat = va.toNat % 2 ^ 48 := by
  rw [walkedBits, BitVec.toNat_and]
  exact Nat.and_two_pow_sub_one_eq_mod _ 48

theorem walkedBits_lt (va : BitVec 64) : (walkedBits va).toNat < 2 ^ 48 := by
  rw [walkedBits_toNat]
  exact Nat.mod_lt _ (Nat.two_pow_pos 48)

theorem samePage_walkedBits (va : BitVec 64) : mapper.SamePage (walkedBits va) va := by
  intro level inside
  apply BitVec.eq_of_toNat_eq
  change (index level (walkedBits va)).toNat = (index level va).toNat
  have shallow : level ≤ 3 := Nat.le_of_lt_succ inside
  have powers : 2 ^ 48 = 2 ^ (39 - level * 9) * 2 ^ (9 + level * 9) := by
    rw [← Nat.pow_add]
    congr 1
    omega
  rw [index_toNat, index_toNat, walkedBits_toNat, powers, Nat.mod_mul_right_div_self]
  exact Nat.mod_mod_of_dvd _ (Nat.pow_dvd_pow 2 (Nat.le_add_right 9 _))

theorem agree_of_region {left right : BitVec 64}
    (same : left.toNat / 2 ^ 21 = right.toNat / 2 ^ 21) :
    mapper.Agree 3 left right := by
  intro level below
  apply BitVec.eq_of_toNat_eq
  change (index level left).toNat = (index level right).toNat
  have split (value : Nat) : value / 2 ^ (39 - level * 9) =
      value / 2 ^ 21 / 2 ^ (18 - level * 9) := by
    rw [Nat.div_div_eq_div_mul, ← Nat.pow_add]
    congr 2
    omega
  rw [index_toNat, index_toNat, split, split right.toNat, same]

/-- Addresses of 48 bits lie on one page when every level takes them the same
way. -/
theorem samePage_iff {left right : BitVec 64} (smallLeft : left.toNat < 2 ^ 48)
    (smallRight : right.toNat < 2 ^ 48) :
    mapper.SamePage left right ↔ pageOf left = pageOf right := by
  have page (va : BitVec 64) : (pageOf va).toNat = va.toNat / 2 ^ 12 := by
    change (va >>> 12).toNat = _
    rw [BitVec.toNat_ushiftRight, Nat.shiftRight_eq_div_pow]
  constructor
  · intro same
    have levels (level : Nat) (below : level < 4) :
        left.toNat / 2 ^ (39 - level * 9) % 2 ^ 9 =
          right.toNat / 2 ^ (39 - level * 9) % 2 ^ 9 := by
      rw [← index_toNat, ← index_toNat]
      exact congrArg BitVec.toNat (same level below)
    apply BitVec.eq_of_toNat_eq
    rw [page, page]
    have first : left.toNat / 2 ^ 39 % 2 ^ 9 = right.toNat / 2 ^ 39 % 2 ^ 9 :=
      levels 0 (by decide)
    have second : left.toNat / 2 ^ 30 % 2 ^ 9 = right.toNat / 2 ^ 30 % 2 ^ 9 :=
      levels 1 (by decide)
    have third : left.toNat / 2 ^ 21 % 2 ^ 9 = right.toNat / 2 ^ 21 % 2 ^ 9 :=
      levels 2 (by decide)
    have last : left.toNat / 2 ^ 12 % 2 ^ 9 = right.toNat / 2 ^ 12 % 2 ^ 9 :=
      levels 3 (by decide)
    omega
  · intro same level below
    have pages := congrArg BitVec.toNat same
    rw [page, page] at pages
    apply BitVec.eq_of_toNat_eq
    change (index level left).toNat = (index level right).toNat
    have split (value : Nat) : value / 2 ^ (39 - level * 9) =
        value / 2 ^ 12 / 2 ^ (27 - level * 9) := by
      rw [Nat.div_div_eq_div_mul, ← Nat.pow_add]
      congr 2
      change level < 4 at below
      omega
    rw [index_toNat, index_toNat, split, split right.toNat, pages]

theorem WellFormed.hosted (start : WellFormed base stop s) :
    @Hosted .aarch64 base stop s := by
  have limit : stop ≤ poolLimit .aarch64 := start.limit
  refine ⟨?_, start.nextAligned, limit⟩
  apply forest_of_pages (fun _ => start.rootAligned) start.link
  · intro _ _ left right level level' table inside inside' here there
    exact ⟨rfl, start.distinct inside inside' here there⟩
  · intro addr free
    exact start.empty free.1 free.2
  · intro _ va level table inside here addr free
    have aligned := (tableAt_within start.rootAligned here).toNat_mod
    have above : s.memNextPa.toNat ≤ addr.toNat := free.1
    have below : addr.toNat < stop := free.2
    have nextAligned := start.nextAligned
    have stopAligned := start.stopAligned
    rcases start.apart inside here with before | after <;> omega

theorem WellFormed.installed_pool (start : WellFormed base stop s)
    {page : BitVec 64} (above : s.memNextPa.toNat ≤ page.toNat)
    (below : page.toNat < stop) : @Installed .aarch64 s.mem base page := by
  have same : page.toNat / 2 ^ 21 = s.memNextPa.toNat / 2 ^ 21 := by
    have region := start.region
    omega
  have tables := (agree_of_region same).tableAt s.mem base
  change (mapper.tableAt s.mem base page 3).isSome
  rw [tables]
  exact start.installed

end Start

theorem pgattrs_bits {pgattr : BitVec 64} (listed : pgattr ∈ pgattrs) :
    (ptePage ||| pteAccess ||| pgattr) &&& 0x3 = 0x3 ∧
      (ptePage ||| pteAccess ||| pgattr) &&& outputAddress = 0 ∧
      (ptePage ||| pteAccess ||| pgattr) &&& ~~~outputAddress =
        ptePage ||| pteAccess ||| pgattr := by
  simp only [pgattrs, List.mem_cons, List.not_mem_nil, or_false] at listed
  rcases listed with rfl | rfl | rfl | rfl <;> decide

theorem pageLeaf_eq {paddr pgattr : BitVec 64} (isPage : Within paddr 12 36)
    (listed : pgattr ∈ pgattrs) :
    leaf (pageEntry paddr pgattr) = some (mapping paddr pgattr) := by
  have low : IsMask (~~~0xFFF : BitVec 64) 12 64 := by decide
  have high : IsMask outputAddress 12 48 := by decide
  obtain ⟨type, address, rest⟩ := pgattrs_bits listed
  have noType : paddr &&& 0x3 = 0 :=
    isPage.and_eq_zero type_within (.inr (by decide))
  have noRest : paddr &&& ~~~outputAddress = 0 := by
    have kept := isPage.and_mask high (le_refl _) (by decide)
    rw [← kept, BitVec.and_assoc,
      show outputAddress &&& ~~~outputAddress = 0 by decide]
    exact BitVec.and_zero
  unfold leaf pageEntry
  rw [isPage.and_mask low (le_refl _) (by decide)]
  simp only [BitVec.and_or_distrib_right, type, address, rest, noType, noRest,
    isPage.and_mask high (le_refl _) (by decide : 36 ≤ 48)]
  rw [if_pos (by decide)]
  exact congrArg some (Leaf.ext BitVec.or_zero BitVec.zero_or)

theorem mappings_eq {s : MemUtil 64} {op : MemOp .aarch64} (legal : Legal op)
    (nextPage : ∀ addr pgattr, op = .mapVa addr pgattr →
      Within (s.memNextPa : BitVec 64) 12 36) :
    mappings s op = op.change s := by
  cases op with
  | mapPa vaddr paddr pgattr =>
      obtain ⟨_, aligned, small, listed⟩ := legal
      have written := pageLeaf_eq (within_of_toNat aligned small) listed
      exact congrArg (Change.mk vaddr) written.symm
  | mapVa addr pgattr =>
      have written := pageLeaf_eq (nextPage addr pgattr rfl) legal.2
      exact congrArg (Change.mk addr) written.symm
  | unmapVa addr => rfl

theorem tableMapping_eq {page : BitVec 64} (isPage : Within page 12 36) :
    tableMapping page = @tableChange .aarch64 page := by
  have written := pageLeaf_eq isPage (by decide : pteUserRw ∈ pgattrs)
  exact congrArg (@Change.mk .aarch64 page) written.symm

theorem foldl_apply_eq {changes : List (Change .aarch64)}
    (small : ∀ change ∈ changes, BitVec.toNat change.vaddr < 2 ^ 48)
    (σ : Word .aarch64 → Option (Leaf (Arch.width .aarch64))) {va : BitVec 64}
    (inside : va.toNat < 2 ^ 48) :
    changes.foldl Change.apply σ va =
      (lastChange? changes va).elim (σ va) Change.leaf := by
  refine @foldl_apply_eq_find .aarch64 _ _ pageOf changes va ?_ σ
  intro change member
  exact (samePage_iff inside (small change member)).trans eq_comm

/-- A hosted table whose pool pages all have their last-level table. -/
structure Ready (base : Word .aarch64) (stop : Nat) (s : MemUtil 64) : Prop where
  hosted : @Hosted .aarch64 base stop s
  installed {page : BitVec 64} : s.memNextPa.toNat ≤ page.toNat →
    page.toNat < stop → @Installed .aarch64 s.mem base page

section Runs

variable {base : Word .aarch64} {stop : Nat} {s : MemUtil 64}

theorem Ready.later (ready : Ready base stop s) {later : MemUtil 64}
    {changes : List (Change .aarch64)}
    (rewrites : @Rewrites .aarch64 base stop s later changes) :
    Ready base stop later where
  hosted := rewrites.hosted
  installed {page} above below :=
    rewrites.keeps page (ready.installed (le_trans rewrites.advances above) below)

variable {op : MemOp .aarch64}

theorem Ready.fits (ready : Ready base stop s)
    (room : s.memNextPa.toNat + 0x1000 * op.pages base s ≤ stop) :
    op.Fits base stop s where
  room := room
  installed page member := by
    obtain ⟨_, above, below⟩ := op.mem_tables ready.hosted.pool room member
    exact ready.installed above below

theorem Ready.table_within (ready : Ready base stop s)
    (room : s.memNextPa.toNat + 0x1000 * op.pages base s ≤ stop)
    {page : BitVec 64} (member : page ∈ op.tables base s) :
    Within page 12 36 := by
  obtain ⟨aligned, _, below⟩ := op.mem_tables ready.hosted.pool room member
  exact within_of_toNat aligned (lt_of_lt_of_le below ready.hosted.pool.limit)

theorem Ready.next_within (ready : Ready base stop s)
    (room : s.memNextPa.toNat + 0x1000 * op.pages base s ≤ stop)
    {addr pgattr : BitVec 64} (takes : op = .mapVa addr pgattr) :
    Within s.memNextPa 12 36 := by
  subst takes
  have below : s.memNextPa.toNat < stop := by
    simp only [MemOp.pages] at room
    omega
  have limit : stop ≤ 2 ^ 36 := ready.hosted.pool.limit
  exact within_of_toNat ready.hosted.pool.aligned (lt_of_lt_of_le below limit)

/-- The history of a call is its log, on pages of 48 bits. -/
theorem Ready.changes_eq (ready : Ready base stop s) (legal : Legal op)
    (room : s.memNextPa.toNat + 0x1000 * op.pages base s ≤ stop) :
    (op.tables base s).map tableMapping ++ [mappings s op] =
        op.changes base s ∧
      ∀ change ∈ op.changes base s,
        BitVec.toNat change.vaddr < 2 ^ 48 := by
  have tableChanges : (op.tables base s).map tableMapping =
      (op.tables base s).map tableChange := by
    apply List.map_congr_left
    intro page member
    exact tableMapping_eq (ready.table_within room member)
  have own := mappings_eq legal fun _ _ takes => ready.next_within room takes
  constructor
  · rw [tableChanges, own]
    rfl
  · intro change member
    rcases List.mem_append.mp member with table | own
    · obtain ⟨page, taken, rfl⟩ := List.mem_map.mp table
      have small := (ready.table_within room taken).toNat_lt
      exact lt_trans small (by decide)
    · cases List.mem_singleton.mp own
      cases op with
      | mapPa vaddr paddr pgattr => exact legal.1
      | mapVa addr pgattr => exact legal.1
      | unmapVa addr => exact legal

theorem history_cons {op : MemOp .aarch64} {ops : List (MemOp .aarch64)}
    {later : MemUtil 64} (ran : op.run base 2 s = some later) :
    history base (op :: ops) s =
      (op.tables base s).map tableMapping ++ [mappings s op] ++
        history base ops later := by
  rw [history, ran]
  rfl

/-- In its region every run fits, and its history is its log. -/
theorem Ready.runs (ready : Ready base stop s) {ops : List (MemOp .aarch64)}
    (legal : ∀ op ∈ ops, Legal op) (inRegion : InRegion base stop ops s) :
    MemOp.FitsAll base stop ops s ∧
      history base ops s = MemOp.log base ops s ∧
      ∀ change ∈ MemOp.log base ops s, BitVec.toNat change.vaddr < 2 ^ 48 := by
  induction ops generalizing s with
  | nil => exact ⟨trivial, rfl, fun _ member => by cases member⟩
  | cons op ops induction =>
      obtain ⟨room, rest⟩ := inRegion
      have here := legal op (List.mem_cons_self ..)
      obtain ⟨later, ran, rewrites⟩ :=
        op.run_rewrites ready.hosted (ready.fits room)
      obtain ⟨same, small⟩ := ready.changes_eq here room
      obtain ⟨fits, sameRest, smallRest⟩ := induction (ready.later rewrites)
        (fun other member => legal other (List.mem_cons_of_mem _ member))
        (rest later (ran 0))
      refine ⟨⟨ready.fits room, ?_⟩, ?_, ?_⟩
      · intro other reached
        rw [ran 0] at reached
        cases reached
        exact fits
      · rw [history_cons (ran 0), MemOp.log_cons (ran 0), same, sameRest]
      · intro change member
        rw [MemOp.log_cons (ran 0)] at member
        rcases List.mem_append.mp member with first | last
        · exact small change first
        · exact smallRest change last

end Runs

/-- Every run of calls comes back, and then the hardware finds for every page
the last mapping that was made for it and not removed since. -/
theorem memOps_refine_map {base : Word .aarch64} {stop : Nat} {s : MemUtil 64}
    (start : WellFormed base stop s) {ops : List (MemOp .aarch64)}
    (legal : ∀ op ∈ ops, Legal op) (inRegion : InRegion base stop ops s) :
    ∃ later, (∀ fuel, MemOp.runAll base (fuel + 2) ops s = some later) ∧
      ∀ va : BitVec 64, va.toNat < 2 ^ 48 →
        hwWalk later.mem base va =
          (lastChange? (history base ops s) va).elim (hwWalk s.mem base va)
            Change.leaf := by
  have ready : Ready base stop s := ⟨start.hosted, start.installed_pool⟩
  obtain ⟨fits, same, small⟩ := ready.runs legal inRegion
  obtain ⟨later, ran, rewrites⟩ := MemOp.runAll_rewrites ready.hosted ops fits
  refine ⟨later, ran, ?_⟩
  intro va inside
  have before := hwWalk_eq inside s.mem base
  have after := hwWalk_eq inside later.mem base
  have changed := foldl_apply_eq small (translate s.mem base) inside
  rw [same, before]
  exact after.trans ((congrFun rewrites.translated va).trans changed)

/-- Four tables, of which each links to the next one for the lowest addresses,
and an empty pool above them. -/
def smallTables : MemUtil 64 where
  mem addr :=
    if addr = 0x1000 then 0x2003
    else if addr = 0x2000 then 0x3003
    else if addr = 0x3000 then 0x4003
    else 0
  memNextPa := 0x5000
  memHeapPool := 0

theorem smallTables_next {addr table : BitVec 64}
    (linked : next (smallTables.mem addr) = some table) :
    (addr.toNat = 0x1000 ∨ addr.toNat = 0x2000 ∨ addr.toNat = 0x3000) ∧
      table.toNat = addr.toNat + 0x1000 := by
  by_cases first : addr = 0x1000
  · subst first
    have table : next (smallTables.mem 0x1000) = some 0x2000 := by decide
    rw [table] at linked
    cases linked
    decide
  by_cases second : addr = 0x2000
  · subst second
    have table : next (smallTables.mem 0x2000) = some 0x3000 := by decide
    rw [table] at linked
    cases linked
    decide
  by_cases third : addr = 0x3000
  · subst third
    have table : next (smallTables.mem 0x3000) = some 0x4000 := by decide
    rw [table] at linked
    cases linked
    decide
  · have empty : smallTables.mem addr = 0 := by
      simp only [smallTables, first, second, third, if_false]
    rw [empty] at linked
    cases linked

theorem smallTables_good (addr : BitVec 64) : Good (smallTables.mem addr) := by
  change Good (if addr = 0x1000 then 0x2003 else if addr = 0x2000 then 0x3003
    else if addr = 0x3000 then 0x4003 else 0)
  split
  · exact .inr (by decide)
  split
  · exact .inr (by decide)
  split
  · exact .inr (by decide)
  · exact .inl (by decide)

theorem smallTables_tableAt {va table : BitVec 64} {level : Nat}
    (inside : level ≤ 3)
    (here : mapper.tableAt smallTables.mem 0x1000 va level = some table) :
    table.toNat = 0x1000 * (level + 1) ∧
      ∀ lower, lower < level → index lower va = 0 := by
  induction level generalizing table with
  | zero =>
      cases here
      exact ⟨rfl, fun _ below => absurd below (Nat.not_lt_zero _)⟩
  | succ level induction =>
      obtain ⟨above, found, linked⟩ := Option.bind_eq_some_iff.mp here
      obtain ⟨place, zeros⟩ := induction (Nat.le_of_succ_le inside) found
      change next (smallTables.mem (slot level above (index level va))) =
        some table at linked
      obtain ⟨entry, target⟩ := smallTables_next linked
      have offset := offset_within level va
      have aboveWithin : Within above 12 64 := by
        apply within_of_toNat _ above.isLt
        rw [place]
        exact Nat.mul_mod_right _ _
      have sum : (slot level above (index level va)).toNat =
          above.toNat + (index level va <<< 3).toNat :=
        aboveWithin.toNat_or offset (.inr (le_refl _))
      have small := offset.toNat_lt
      have zero : (index level va <<< 3).toNat = 0 := by omega
      refine ⟨by omega, ?_⟩
      intro lower below
      rcases Nat.lt_or_eq_of_le (Nat.le_of_lt_succ below) with before | last
      · exact zeros lower before
      · subst last
        apply (index_within lower va).shiftLeft_inj _ (by decide : 9 + 3 ≤ 64)
        · exact BitVec.eq_of_toNat_eq zero
        · exact fun _ one => by simp at one

theorem smallTables_wellFormed : WellFormed 0x1000 0x20000 smallTables where
  rootAligned := by decide
  link _ _ := smallTables_good _
  distinct {left right level level' table} inside inside' here there := by
    obtain ⟨place, zeros⟩ := smallTables_tableAt inside here
    obtain ⟨place', zeros'⟩ := smallTables_tableAt inside' there
    have same : level = level' := by omega
    subst same
    refine ⟨rfl, ?_⟩
    intro lower below
    exact (zeros lower below).trans (zeros' lower below).symm
  apart {va level table} inside here := by
    obtain ⟨place, _⟩ := smallTables_tableAt inside here
    left
    change table.toNat < 0x5000
    omega
  empty {addr} above below := by
    change 0x5000 ≤ addr.toNat at above
    have different (place : BitVec 64) (low : place.toNat < 0x5000) :
        addr ≠ place := by
      rintro rfl
      omega
    simp only [smallTables, different 0x1000 (by decide),
      different 0x2000 (by decide), different 0x3000 (by decide), if_false]
  nextAligned := by decide
  stopAligned := by decide
  limit := by decide
  region := by decide
  installed := by decide

theorem memOps_refine_map_mapVa :
    ∃ later : MemUtil 64,
      MemOp.runAll (0x1000 : Word .aarch64) 2 [.mapVa 0x40000000 0x40]
        smallTables = some later ∧
      hwWalk later.mem 0x1000 0x40000000 = some (mapping 0x5000 0x40) := by
  have legal : ∀ op ∈ [MemOp.mapVa (0x40000000 : Word .aarch64) 0x40], Legal op := by
    intro op member
    cases List.mem_singleton.mp member
    exact ⟨by decide, .tail _ (.head _)⟩
  have inRegion : InRegion 0x1000 0x20000
      [MemOp.mapVa (0x40000000 : Word .aarch64) 0x40] smallTables :=
    ⟨by decide, fun _ _ => trivial⟩
  obtain ⟨later, ran, found⟩ :=
    memOps_refine_map smallTables_wellFormed legal inRegion
  refine ⟨later, ran 0, ?_⟩
  rw [found _ (by decide)]
  rfl

end TzTest.Aarch64
