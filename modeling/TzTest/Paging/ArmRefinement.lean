import TzTest.Paging.Sharing

/-!
# The shared ARM tables as a finite map

Any interleaving of calls of EL3 and secure EL1 that leaves their pools in their
1 MB regions acts on the hardware's view of the tables as on a map from pages to
pages.
-/

namespace TzTest.Arm

open BitField

/-- The walk of the hardware: a table descriptor and a small page descriptor. -/
def hwWalk (mem : BitVec 32 → BitVec 32) (base va : BitVec 32) :
    Option (Leaf 32) := do
  let table ← next (mem ((base &&& 0xFFFFC000) ||| (((va >>> 20) &&& 0xFFF) <<< 2)))
  leaf (mem (table ||| (((va >>> 12) &&& 0xFF) <<< 2)))

theorem hwWalk_eq (mem : BitVec 32 → BitVec 32) (base va : BitVec 32) :
    hwWalk mem base va = mapper.translate mem base va :=
  rfl

/-- The second-level table that the first-level entry of an address leads to. -/
def tableOf (mem : BitVec 32 → BitVec 32) (base va : BitVec 32) :
    Option (BitVec 32) :=
  next (mem (l1Pte base va))

/-- The address of the first-level table, which takes up 16 KB. -/
def firstLevel (base : BitVec 32) : BitVec 32 :=
  base &&& 0xFFFFC000

/-- What has been mapped, page by page. -/
def mapping (paddr pgattr : BitVec 32) : Leaf 32 :=
  ⟨paddr, ptePage ||| pteAccess ||| pgattr⟩

/-- The mapping of a page that has become a table. -/
def tableMapping (page : BitVec 32) : Change .arm :=
  ⟨page, some (mapping page pteUserRw)⟩

def mappings (s : MemUtil 32) : MemOp .arm → Change .arm
  | .mapPa vaddr paddr pgattr => ⟨vaddr, some (mapping paddr pgattr)⟩
  | .mapVa addr pgattr => ⟨addr, some (mapping s.memNextPa pgattr)⟩
  | .unmapVa addr => ⟨addr, none⟩

/-- The mappings and unmappings of both images, in their order. -/
def history (base : Word .arm) : List (SharedCall .arm) → Spaces .arm →
    List (Change .arm)
  | [], _ => []
  | call :: calls, spaces =>
      (call.op.tables base (spaces.image call.sharer.space)).map tableMapping ++
        [mappings (spaces.image call.sharer.space) call.op] ++
        ((call.run base 2 spaces).elim [] (history base calls))

def pageOf (va : BitVec 32) : BitVec 32 :=
  va >>> 12

/-- The last change of the page of an address. -/
def lastChange? (changes : List (Change .arm)) (va : BitVec 32) :
    Option (Change .arm) :=
  changes.reverse.find? fun change => pageOf change.vaddr = pageOf va

/-- `PTE_PRIV_RW`, `PTE_PRIV_RO`, `PTE_USER_RW` and `PTE_USER_RO`. -/
def pgattrs : List (BitVec 32) :=
  [1 <<< 4, (1 <<< 4) ||| (1 <<< 9), pteUserRw, pteUserRw ||| (1 <<< 9)]

def Legal : MemOp .arm → Prop
  | .mapPa _ paddr pgattr => BitVec.toNat paddr % 0x1000 = 0 ∧ pgattr ∈ pgattrs
  | .mapVa _ pgattr => pgattr ∈ pgattrs
  | .unmapVa _ => True

/-- Where the pools of the two images end. -/
abbrev Stops := Sharer → BitVec 32

def Stops.toNats (stop : Stops) (sharer : Sharer) : Nat :=
  (stop sharer).toNat

/-- A two-level table and the two pools. -/
structure WellFormed (base : BitVec 32) (stop : Stops) (spaces : Spaces .arm) :
    Prop where
  /-- A first-level entry is invalid or leads to a table. -/
  link (va : BitVec 32) : Good (spaces.mem (l1Pte base va))
  /-- Second-level tables lie on distinct pages, -/
  distinct {left right first second : BitVec 32} :
    tableOf spaces.mem base left = some first →
    tableOf spaces.mem base right = some second →
    first.toNat / 0x1000 = second.toNat / 0x1000 → l1idx left = l1idx right
  /-- not on those of the first-level table, -/
  apartRoot {va table : BitVec 32} : tableOf spaces.mem base va = some table →
    table.toNat / 0x4000 ≠ base.toNat / 0x4000
  /-- and on no unused page. -/
  apart (sharer : Sharer) {va table : BitVec 32} :
    tableOf spaces.mem base va = some table →
    table.toNat < (spaces.memNextPa sharer.space).toNat ∨
      (stop sharer).toNat ≤ table.toNat
  rootApart (sharer : Sharer) :
    (firstLevel base).toNat + 0x4000 ≤ (spaces.memNextPa sharer.space).toNat ∨
      (stop sharer).toNat ≤ (firstLevel base).toNat
  /-- The unused pages are zero. -/
  empty (sharer : Sharer) {addr : BitVec 32} :
    (spaces.memNextPa sharer.space).toNat ≤ addr.toNat →
    addr.toNat < (stop sharer).toNat → spaces.mem addr = 0
  /-- No page is in both pools. -/
  disjoint {addr : BitVec 32} :
    addr ∈ spaces.restOf stop.toNats .el3 → addr ∉ spaces.restOf stop.toNats .el1
  nextAligned (sharer : Sharer) :
    (spaces.memNextPa sharer.space).toNat % 0x1000 = 0
  stopAligned (sharer : Sharer) : (stop sharer).toNat % 0x1000 = 0
  /-- Each pool lies in one 1 MB region, -/
  region (sharer : Sharer) : (stop sharer).toNat ≤
    ((spaces.memNextPa sharer.space).toNat / 2 ^ 20 + 1) * 2 ^ 20
  /-- whose second-level table is there. -/
  installed (sharer : Sharer) :
    (tableOf spaces.mem base (spaces.memNextPa sharer.space)).isSome

section Start

variable {base : BitVec 32} {stop : Stops} {spaces : Spaces .arm}

theorem l1idx_toNat (va : BitVec 32) : (l1idx va).toNat = va.toNat / 2 ^ 20 := by
  have small := va.isLt
  change ((va >>> 20) &&& 0xFFF).toNat = _
  rw [BitVec.toNat_and, BitVec.toNat_ushiftRight, Nat.shiftRight_eq_div_pow]
  rw [show BitVec.toNat (0xFFF : BitVec 32) = 2 ^ 12 - 1 from rfl,
    Nat.and_two_pow_sub_one_eq_mod]
  omega

theorem l2idx_toNat (va : BitVec 32) :
    (l2idx va).toNat = va.toNat / 2 ^ 12 % 2 ^ 8 := by
  change ((va >>> 12) &&& 0xFF).toNat = _
  rw [BitVec.toNat_and, BitVec.toNat_ushiftRight, Nat.shiftRight_eq_div_pow]
  exact Nat.and_two_pow_sub_one_eq_mod _ 8

theorem samePage_iff (left right : BitVec 32) :
    mapper.SamePage left right ↔ pageOf left = pageOf right := by
  have page (va : BitVec 32) : (pageOf va).toNat = va.toNat / 2 ^ 12 := by
    change (va >>> 12).toNat = _
    rw [BitVec.toNat_ushiftRight, Nat.shiftRight_eq_div_pow]
  constructor
  · intro same
    have first := congrArg BitVec.toNat (same 0 (by decide))
    have second := congrArg BitVec.toNat (same 1 (by decide))
    change (l1idx left).toNat = (l1idx right).toNat at first
    change (l2idx left).toNat = (l2idx right).toNat at second
    rw [l1idx_toNat, l1idx_toNat] at first
    rw [l2idx_toNat, l2idx_toNat] at second
    apply BitVec.eq_of_toNat_eq
    rw [page, page]
    omega
  · intro same level below
    have pages := congrArg BitVec.toNat same
    rw [page, page] at pages
    apply BitVec.eq_of_toNat_eq
    cases level with
    | zero =>
        change (l1idx left).toNat = (l1idx right).toNat
        rw [l1idx_toNat, l1idx_toNat]
        omega
    | succ level =>
        change (l2idx left).toNat = (l2idx right).toNat
        rw [l2idx_toNat, l2idx_toNat, pages]

theorem l1idx_eq_of_region {left right : BitVec 32}
    (same : left.toNat / 2 ^ 20 = right.toNat / 2 ^ 20) : l1idx left = l1idx right := by
  apply BitVec.eq_of_toNat_eq
  rw [l1idx_toNat, l1idx_toNat, same]

/-- A first-level entry lies in the first-level table. -/
theorem l1Pte_toNat (base va : BitVec 32) :
    (l1Pte base va).toNat = (firstLevel base).toNat + (l1idx va <<< 2).toNat ∧
      (l1idx va <<< 2).toNat < 0x4000 ∧ (firstLevel base).toNat % 0x4000 = 0 ∧
      (firstLevel base).toNat / 0x4000 = base.toNat / 0x4000 := by
  have above : Within (firstLevel base) 14 32 :=
    within_and_mask (by decide : IsMask (0xFFFFC000 : BitVec 32) 14 32) base
  have index : Within (l1idx va) 0 12 :=
    within_and_mask (by decide : IsMask (0xFFF : BitVec 32) 0 12) _
  have offset : Within (l1idx va <<< 2) 2 14 := index.shiftLeft 2
  refine ⟨above.toNat_or offset (.inr (le_refl _)), offset.toNat_lt,
    above.toNat_mod, ?_⟩
  have split : base = firstLevel base ||| (base &&& 0x3FFF) := by
    unfold firstLevel
    rw [← BitVec.and_or_distrib_left,
      show (0xFFFFC000 ||| 0x3FFF : BitVec 32) = BitVec.allOnes 32 by decide,
      BitVec.and_allOnes]
  have low : Within (base &&& 0x3FFF) 0 14 :=
    within_and_mask (by decide : IsMask (0x3FFF : BitVec 32) 0 14) base
  have total := congrArg BitVec.toNat split
  rw [above.toNat_or low (.inr (le_refl _))] at total
  have small := low.toNat_lt
  have aligned := above.toNat_mod
  omega

theorem tableOf_within {mem : BitVec 32 → BitVec 32} {base va table : BitVec 32}
    (found : tableOf mem base va = some table) : Within table 10 32 := by
  unfold tableOf next at found
  split at found
  · cases found
    exact within_and_mask (by decide : IsMask tableAddress 10 32) _
  · cases found

theorem entry_toNat {table : BitVec 32} (inside : Within table 10 32)
    (va : BitVec 32) :
    (mapper.entryOf 1 table va).toNat / 0x1000 = table.toNat / 0x1000 := by
  have offset := offset_within 0 va
  have sum : (mapper.entryOf 1 table va).toNat =
      table.toNat + (index 1 va <<< 2).toNat :=
    inside.toNat_or offset (.inr (le_refl _))
  have aligned := inside.toNat_mod
  have small : (index 1 va <<< 2).toNat < 2 ^ 10 := offset.toNat_lt
  omega

theorem tableOf_congr {mem : BitVec 32 → BitVec 32} {base left right : BitVec 32}
    (same : l1idx left = l1idx right) :
    tableOf mem base left = tableOf mem base right := by
  unfold tableOf l1Pte
  rw [same]

section Pages

variable {mem : BitVec 32 → BitVec 32} {base : BitVec 32}

theorem root_ne {va table : BitVec 32} (found : tableOf mem base va = some table)
    (apartRoot : table.toNat / 0x4000 ≠ base.toNat / 0x4000)
    (left right : BitVec 32) : l1Pte base left ≠ mapper.entryOf 1 table right := by
  intro same
  obtain ⟨place, below, aligned, block⟩ := l1Pte_toNat base left
  have page := entry_toNat (tableOf_within found) right
  rw [← same] at page
  omega

theorem separated_of_pages
    (distinct : ∀ {left right first second},
      tableOf mem base left = some first → tableOf mem base right = some second →
      first.toNat / 0x1000 = second.toNat / 0x1000 → l1idx left = l1idx right)
    {left right first second : BitVec 32}
    (found : tableOf mem base left = some first)
    (found' : tableOf mem base right = some second)
    (same : mapper.entryOf 1 first left = mapper.entryOf 1 second right) :
    mapper.Agree 2 left right := by
  have page := entry_toNat (tableOf_within found) left
  have page' := entry_toNat (tableOf_within found') right
  rw [← same] at page'
  have top := distinct found found' (page.symm.trans page')
  have tables := @tableOf_congr mem base _ _ top
  rw [found, found'] at tables
  cases tables
  have low := @slot_inj 1 first left right (.inr (tableOf_within found)) same
  intro level below
  rcases Nat.lt_succ_iff_lt_or_eq.mp below with above | last
  · rw [Nat.lt_one_iff.mp above]
    exact top
  · rw [last]
    exact low

/-- A first-level table and second-level tables on distinct pages, of which none
is free, are a forest. -/
theorem forest_of_pages {free : Set (BitVec 32)}
    (link : ∀ va, Good (mem (l1Pte base va)))
    (distinct : ∀ {left right first second},
      tableOf mem base left = some first → tableOf mem base right = some second →
      first.toNat / 0x1000 = second.toNat / 0x1000 → l1idx left = l1idx right)
    (apartRoot : ∀ {va table}, tableOf mem base va = some table →
      table.toNat / 0x4000 ≠ base.toNat / 0x4000)
    (empty : ∀ {addr}, addr ∈ free → mem addr = 0)
    (rootApart : ∀ addr ∈ free, addr.toNat / 0x4000 ≠ base.toNat / 0x4000)
    (apart : ∀ {va table}, tableOf mem base va = some table →
      ∀ addr ∈ free, addr.toNat / 0x1000 ≠ table.toNat / 0x1000) :
    Radix.Forest mapper.toFormat (fun _ : Unit => base) mem free := by
  have levels {level : Nat} (inside : level ≤ 1) : level = 0 ∨ level = 1 := by omega
  have atOne {va table : BitVec 32} (here : mapper.tableAt mem base va 1 = some table) :
      tableOf mem base va = some table := here
  constructor
  · intro root va level table inside here
    rcases levels inside with rfl | rfl
    · exact .inl rfl
    · exact .inr (tableOf_within (atOne here))
  · intro root va level table below here
    cases Nat.lt_one_iff.mp below
    cases here
    exact link va
  · intro root other left right level level' table table' inside inside' here there
      same
    refine ⟨rfl, ?_⟩
    rcases levels inside with rfl | rfl
    · rcases levels inside' with rfl | rfl
      · cases here
        cases there
        refine ⟨rfl, ?_⟩
        intro level below
        rw [Nat.lt_one_iff.mp below]
        exact @slot_inj 0 base left right (.inl rfl) same
      · cases here
        exact absurd same (root_ne (atOne there) (apartRoot (atOne there)) left right)
    · rcases levels inside' with rfl | rfl
      · cases there
        exact absurd same.symm
          (root_ne (atOne here) (apartRoot (atOne here)) right left)
      · exact ⟨rfl, separated_of_pages distinct (atOne here) (atOne there) same⟩
  · exact empty
  · intro root va level table inside here member
    rcases levels inside with rfl | rfl
    · cases here
      obtain ⟨place, below, aligned, block⟩ := l1Pte_toNat base va
      have inRoot : (l1Pte base va).toNat / 0x4000 = base.toNat / 0x4000 := by
        omega
      exact rootApart _ member inRoot
    · exact apart (atOne here) _ member (entry_toNat (tableOf_within (atOne here)) va)

end Pages

namespace WellFormed

theorem forest (start : WellFormed base stop spaces) :
    Radix.Forest mapper.toFormat (fun _ : Unit => base) spaces.mem
      (spaces.unusedByBoth stop.toNats) := by
  apply forest_of_pages start.link start.distinct start.apartRoot
  · rintro addr ⟨sharer, inside⟩
    exact start.empty sharer inside.1 inside.2
  · rintro addr ⟨sharer, above, below⟩
    have apart := start.rootApart sharer
    obtain ⟨_, _, aligned, block⟩ := l1Pte_toNat base 0
    have low : BitVec.toNat (spaces.memNextPa sharer.space) ≤ addr.toNat := above
    have high : addr.toNat < (stop sharer).toNat := below
    omega
  · rintro va table found addr ⟨sharer, above, below⟩
    have nextAligned := start.nextAligned sharer
    have stopAligned := start.stopAligned sharer
    have apart := start.apart sharer found
    have low : BitVec.toNat (spaces.memNextPa sharer.space) ≤ addr.toNat := above
    have high : addr.toNat < (stop sharer).toNat := below
    omega

theorem shared (start : WellFormed base stop spaces) :
    spaces.Shared (base : Word .arm) stop.toNats where
  forest := start.forest
  pool sharer := by
    refine ⟨start.nextAligned sharer, ?_⟩
    have small := (stop sharer).isLt
    have aligned := start.stopAligned sharer
    change (stop sharer).toNat ≤ 2 ^ 32 - 0x1000
    omega
  disjoint {left right} different := by
    have apart : Disjoint (spaces.restOf stop.toNats .el3)
        (spaces.restOf stop.toNats .el1) :=
      Set.disjoint_left.mpr fun _ inside => start.disjoint inside
    cases left <;> cases right
    · exact absurd rfl different
    · exact apart
    · exact apart.symm
    · exact absurd rfl different
  installed {sharer page} inside := by
    obtain ⟨above, below⟩ := inside
    have region := start.region sharer
    have high : BitVec.toNat page < (stop sharer).toNat := below
    have same : BitVec.toNat page / 2 ^ 20 =
        BitVec.toNat (spaces.memNextPa sharer.space) / 2 ^ 20 := by
      omega
    have tables := @tableOf_congr spaces.mem base _ _ (l1idx_eq_of_region same)
    change (tableOf spaces.mem base page).isSome
    rw [tables]
    exact start.installed sharer

end WellFormed

end Start

theorem pgattrs_bits {pgattr : BitVec 32} (listed : pgattr ∈ pgattrs) :
    (ptePage ||| pteAccess ||| pgattr) &&& 0x2 = 0x2 ∧
      (ptePage ||| pteAccess ||| pgattr) &&& outputAddress = 0 ∧
      (ptePage ||| pteAccess ||| pgattr) &&& ~~~outputAddress =
        ptePage ||| pteAccess ||| pgattr := by
  simp only [pgattrs, List.mem_cons, List.not_mem_nil, or_false] at listed
  rcases listed with rfl | rfl | rfl | rfl <;> decide

theorem pageLeaf_eq {paddr pgattr : BitVec 32} (isPage : Within paddr 12 32)
    (listed : pgattr ∈ pgattrs) :
    leaf (pageEntry paddr pgattr) = some (mapping paddr pgattr) := by
  have high : IsMask (~~~0xFFF : BitVec 32) 12 32 := by decide
  have output : IsMask outputAddress 12 32 := by decide
  obtain ⟨type, address, rest⟩ := pgattrs_bits listed
  have noType : paddr &&& 0x2 = 0 :=
    isPage.and_eq_zero (by decide : IsMask (0x2 : BitVec 32) 1 2).within
      (.inr (by decide))
  have noRest : paddr &&& ~~~outputAddress = 0 := by
    rw [← isPage.and_mask output (le_refl _) (le_refl _), BitVec.and_assoc,
      show outputAddress &&& ~~~outputAddress = 0 by decide]
    exact BitVec.and_zero
  unfold leaf pageEntry
  rw [isPage.and_mask high (le_refl _) (le_refl _)]
  simp only [BitVec.and_or_distrib_right, type, address, rest, noType, noRest,
    isPage.and_mask output (le_refl _) (le_refl _)]
  rw [if_neg (by decide)]
  exact congrArg some (Leaf.ext BitVec.or_zero BitVec.zero_or)

theorem mappings_eq {s : MemUtil 32} {op : MemOp .arm} (legal : Legal op)
    (aligned : s.memNextPa.toNat % 0x1000 = 0) : mappings s op = op.change s := by
  cases op with
  | mapPa vaddr paddr pgattr =>
      have written := pageLeaf_eq (within_of_toNat legal.1 (BitVec.isLt paddr)) legal.2
      exact congrArg (Change.mk vaddr) written.symm
  | mapVa addr pgattr =>
      have written := pageLeaf_eq (within_of_toNat aligned (BitVec.isLt _)) legal
      exact congrArg (Change.mk addr) written.symm
  | unmapVa addr => rfl

theorem tableMapping_eq {page : BitVec 32} (aligned : page.toNat % 0x1000 = 0) :
    tableMapping page = @tableChange .arm page := by
  have isPage : Within page 12 32 := within_of_toNat aligned page.isLt
  have written := pageLeaf_eq isPage (by decide : pteUserRw ∈ pgattrs)
  exact congrArg (@Change.mk .arm page) written.symm

section Runs

variable {base : Word .arm} {stop : Sharer → Nat} {spaces : Spaces .arm}

theorem history_eq (shared : spaces.Shared base stop)
    {calls : List (SharedCall .arm)} (legal : ∀ call ∈ calls, Legal call.op)
    (inRegion : SharedCall.InRegion base stop calls spaces) :
    history base calls spaces = SharedCall.log base calls spaces := by
  induction calls generalizing spaces with
  | nil => rfl
  | cons call calls induction =>
      obtain ⟨room, rest⟩ := inRegion
      obtain ⟨later, ran, after, _⟩ := shared.runs room
      have pool := shared.pool call.sharer
      have tables : (call.op.tables base (spaces.image call.sharer.space)).map
          tableMapping =
            (call.op.tables base (spaces.image call.sharer.space)).map
              tableChange := by
        apply List.map_congr_left
        intro page member
        exact tableMapping_eq (call.op.mem_tables pool room member).1
      have own := @mappings_eq (spaces.image call.sharer.space) _
        (legal call (List.mem_cons_self ..)) pool.aligned
      have before := induction after
        (fun other member => legal other (List.mem_cons_of_mem _ member))
        (rest later (ran 0))
      rw [SharedCall.log_cons base (ran 0), history, ran 0, tables, own, ← before]
      rfl

/-- Every interleaving of calls comes back, and then the hardware finds for
every page the last mapping that either image made for it and that was not
removed since. -/
theorem sharedCalls_refine_map {stop : Stops}
    (start : WellFormed base stop spaces) {calls : List (SharedCall .arm)}
    (legal : ∀ call ∈ calls, Legal call.op)
    (inRegion : SharedCall.InRegion base stop.toNats calls spaces) :
    ∃ later,
      (∀ fuel, SharedCall.runAll base (fuel + 2) calls spaces = some later) ∧
      ∀ va : BitVec 32, hwWalk later.mem base va =
        (lastChange? (history base calls spaces) va).elim
          (hwWalk spaces.mem base va) Change.leaf := by
  obtain ⟨later, ran, _, translated⟩ :=
    SharedCall.runAll_translated start.shared inRegion
  refine ⟨later, ran, ?_⟩
  intro va
  have changed := @foldl_apply_eq_find .arm _ _ pageOf
    (SharedCall.log base calls spaces) va
    (fun change _ => (samePage_iff va change.vaddr).trans eq_comm)
    (translate spaces.mem base)
  rw [history_eq start.shared legal inRegion]
  exact (congrFun translated va).trans changed

end Runs

/-- A first-level table with one second-level table, and two empty pools. -/
def smallShared : Spaces .arm where
  mem addr := if addr = 0x4000 then 0x8001 else 0
  memNextPa
    | .el3 => 0x10000
    | .el1 .secure => 0x20000
    | .el1 .nonsecure => 0x30000
  memHeapPool _ := 0

def smallStops : Stops
  | .el3 => 0x20000
  | .el1 => 0x30000

theorem smallShared_tableOf {va table : BitVec 32}
    (found : tableOf smallShared.mem 0x4000 va = some table) :
    table = 0x8000 ∧ l1Pte 0x4000 va = 0x4000 := by
  have read : tableOf smallShared.mem 0x4000 va =
      next (if l1Pte 0x4000 va = 0x4000 then 0x8001 else 0) := rfl
  rw [read] at found
  split at found
  · rename_i first
    have linked : next 0x8001 = some 0x8000 := by decide
    rw [linked] at found
    exact ⟨(Option.some.inj found).symm, first⟩
  · have zero : next 0 = none := by decide
    rw [zero] at found
    cases found

theorem smallShared_wellFormed : WellFormed 0x4000 smallStops smallShared where
  link va := by
    change Good (if l1Pte 0x4000 va = 0x4000 then 0x8001 else 0)
    split
    · exact .inr (by decide)
    · exact .inl (by decide)
  distinct {left right first second} found found' _ := by
    have same : slot 0 0x4000 (index 0 left) = slot 0 0x4000 (index 0 right) :=
      (smallShared_tableOf found).2.trans (smallShared_tableOf found').2.symm
    exact slot_inj (.inl rfl) same
  apartRoot found := by
    rw [(smallShared_tableOf found).1]
    decide
  apart sharer {va table} found := by
    rw [(smallShared_tableOf found).1]
    cases sharer <;> decide
  rootApart sharer := by
    cases sharer <;> decide
  empty sharer {addr} above below := by
    have different : addr ≠ 0x4000 := by
      rintro rfl
      cases sharer <;> exact absurd above (by decide)
    exact if_neg different
  disjoint {addr} first second := by
    have below : BitVec.toNat addr < 0x20000 := first.2
    have above : 0x20000 ≤ BitVec.toNat addr := second.1
    omega
  nextAligned sharer := by
    cases sharer <;> decide
  stopAligned sharer := by
    cases sharer <;> decide
  region sharer := by
    cases sharer <;> decide
  installed sharer := by
    cases sharer <;> decide

/-- EL3 maps a page in a region that has no table yet, and then secure EL1 maps
the page after it. -/
theorem sharedCalls_refine_map_both :
    ∃ later,
      SharedCall.runAll (0x4000 : Word .arm) 2
        [⟨.el3, .mapVa 0x40000000 (1 <<< 4)⟩, ⟨.el1, .mapVa 0x40001000 pteUserRw⟩]
        smallShared = some later ∧
      hwWalk later.mem 0x4000 0x40000000 = some (mapping 0x10000 (1 <<< 4)) ∧
      hwWalk later.mem 0x4000 0x40001000 = some (mapping 0x20000 pteUserRw) := by
  have legal : ∀ call ∈ [SharedCall.mk .el3 (.mapVa (0x40000000 : Word .arm) (1 <<< 4)),
      ⟨.el1, .mapVa 0x40001000 pteUserRw⟩], Legal call.op := by
    intro call member
    simp only [List.mem_cons, List.not_mem_nil, or_false] at member
    rcases member with rfl | rfl
    · exact (by decide : (1 <<< 4 : BitVec 32) ∈ pgattrs)
    · exact (by decide : pteUserRw ∈ pgattrs)
  have inRegion : SharedCall.InRegion (0x4000 : Word .arm) smallStops.toNats
      [⟨.el3, .mapVa 0x40000000 (1 <<< 4)⟩, ⟨.el1, .mapVa 0x40001000 pteUserRw⟩]
      smallShared := by
    refine ⟨by decide, ?_⟩
    intro later ran
    cases Option.some.inj ran
    exact ⟨by decide, fun _ _ => trivial⟩
  obtain ⟨later, ran, found⟩ :=
    sharedCalls_refine_map smallShared_wellFormed legal inRegion
  refine ⟨later, ran 0, ?_, ?_⟩
  · rw [found]
    decide
  · rw [found]
    decide

end TzTest.Arm
