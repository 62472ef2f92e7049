import TzTest.Paging.Spaces
import TzTest.Paging.Refinement
import TzTest.Protocol.Memory

/-!
# Sharing a page of nonsecure EL1

A map request of nonsecure EL0 with `OP_MAP_ALL` should give EL3 and secure EL1
the page that nonsecure EL1 has.  Nonsecure EL1 looks that page up only when the
descriptor holds some address already, and otherwise sends the zero on.
-/

namespace TzTest

variable {arch : Arch}

/-- All three spaces translate the address to the page, and nothing else has
changed but for pages of the pools that are mapped to themselves. -/
structure SharedMapping (memPgtblBase : Space → Word arch)
    (before after : Spaces arch) (va page : Word arch) : Prop where
  agree (space : Space) :
    ∃ attr, translate after.mem (memPgtblBase space) va = some ⟨page, attr⟩
  frame (space : Space) {other : Word arch} :
    ¬(mapper arch).SamePage other va →
    before.Kept after (memPgtblBase space) other

/-- What a map request relies on: well-formed tables, with room for those that
EL3 and secure EL1 may have to add. -/
structure MapReady {Root : Type} (roots : Root → Word arch) (tree : Space → Root)
    (stop : Space → Nat) (memPgtblBase : Space → Word arch)
    (spaces : Spaces arch) : Prop where
  bases (space : Space) : memPgtblBase space = roots (tree space)
  nonsecure {space : Space} : space ≠ .el1 .nonsecure →
    tree space ≠ tree (.el1 .nonsecure)
  ready : spaces.Ready roots tree stop
  room {space : Space} : space ≠ .el1 .nonsecure →
    (spaces.memNextPa space).toNat + 0x1000 * (mapper arch).depth ≤ stop space

theorem Space.secure_cases {space : Space} (different : space ≠ .el1 .nonsecure) :
    space = .el3 ∨ space = .el1 .secure := by
  cases space with
  | el3 => exact .inl rfl
  | el1 world =>
      cases world with
      | secure => exact .inr rfl
      | nonsecure => exact absurd rfl different

section Calls

variable {Root : Type} [DecidableEq Root] {roots : Root → Word arch}
variable {tree : Space → Root} {stop : Space → Nat}
variable {memPgtblBase : Space → Word arch} {spaces : Spaces arch}

/-- EL3 and then secure EL1 have mapped the page. -/
structure BothMapped (memPgtblBase : Space → Word arch)
    (before after : Spaces arch) (va pa : Word arch) : Prop where
  nonsecure : translate after.mem (memPgtblBase (.el1 .nonsecure)) va =
    translate before.mem (memPgtblBase (.el1 .nonsecure)) va
  mapped {space : Space} : space ≠ .el1 .nonsecure →
    ∃ attr, translate after.mem (memPgtblBase space) va =
      some ⟨pa &&& pageMask arch, attr⟩
  frame (space : Space) {other : Word arch} :
    ¬(mapper arch).SamePage other va →
    before.Kept after (memPgtblBase space) other

theorem bothMapped (env : MapReady roots tree stop memPgtblBase spaces)
    (va pa : Word arch) :
    ∃ middle last,
      (∀ fuel rounds, (imagesMmu memPgtblBase (fuel + 2) rounds).memMapPa .el3 va
        pa 0 (ptePrivRw arch) spaces = some middle) ∧
      (∀ fuel rounds, (imagesMmu memPgtblBase (fuel + 2) rounds).memMapPa
        (.el1 .secure) va pa 0 (pteUserRw arch) middle = some last) ∧
      BothMapped memPgtblBase spaces last va pa := by
  obtain ⟨middle, atEl3, ready, others, first⟩ := env.ready.memMapPa env.bases
    .el3 (env.room (by decide)) va pa (ptePrivRw arch)
  have room : (middle.memNextPa (.el1 .secure)).toNat +
      0x1000 * (mapper arch).depth ≤ stop (.el1 .secure) := by
    rw [others _ (by decide)]
    exact env.room (by decide)
  obtain ⟨last, atEl1, _, _, second⟩ := ready.memMapPa env.bases (.el1 .secure)
    room va pa (pteUserRw arch)
  obtain ⟨privAttr, priv⟩ := leaf_pageEntry pa (.inl rfl : ptePrivRw arch = _ ∨ _)
  obtain ⟨userAttr, user⟩ := leaf_pageEntry pa (.inr rfl : _ ∨ pteUserRw arch = _)
  have self := (mapper arch).toFormat.samePage_refl va
  refine ⟨middle, last, atEl3, atEl1, ?_⟩
  constructor
  · have atSecure := env.nonsecure (by decide : Space.el1 .secure ≠ _)
    have atMonitor := env.nonsecure (by decide : Space.el3 ≠ _)
    rw [env.bases, second.others atSecure.symm, first.others atMonitor.symm]
  · intro space different
    rw [env.bases]
    by_cases shared : tree space = tree (.el1 .secure)
    · rw [shared, second.mapped self, user]
      exact ⟨userAttr, rfl⟩
    · rw [second.others shared]
      rcases Space.secure_cases different with rfl | rfl
      · rw [first.mapped self, priv]
        exact ⟨privAttr, rfl⟩
      · exact absurd rfl shared
  · intro space other different
    rw [env.bases]
    exact (first.kept (tree space) different).trans
      (second.kept (tree space) different) first.advances second.advances

end Calls

/-- The page that nonsecure EL1 sends is its own when the descriptor made it
look, and when there is nothing to find. -/
theorem mapPa_eq_iff {Root : Type} {roots : Root → Word arch}
    {tree : Space → Root} {stop : Space → Nat}
    {memPgtblBase : Space → Word arch} {fuel rounds : Nat}
    {env : Env arch (Spaces arch)} {sys : Sys arch (Spaces arch)}
    (mmu : env.mmu = imagesMmu memPgtblBase fuel rounds)
    (ready : MapReady roots tree stop memPgtblBase sys.paging)
    {desc : Desc arch} {leaf : Leaf arch.width}
    (found : translate sys.paging.mem (memPgtblBase (.el1 .nonsecure))
      desc.map.va = some leaf) :
    mapPa env desc sys &&& pageMask arch = leaf.pa ↔
      if desc.map.pa = 0 then leaf.pa = 0 else readBack leaf.pa = leaf.pa := by
  by_cases zero : desc.map.pa = 0
  · rw [mapPa, if_neg (not_not.mpr zero), if_pos zero, zero]
    have none : (0 : Word arch) &&& pageMask arch = 0 := by cases arch <;> rfl
    rw [none]
    exact eq_comm
  · have looked : memLookupPa (memPgtblBase (.el1 .nonsecure)) desc.map.va
        (sys.paging.image (.el1 .nonsecure)) &&& pageMask arch =
          readBack leaf.pa := by
      rw [ready.bases] at found ⊢
      exact memLookupPa_mask ready.ready.forest found
    rw [mapPa, if_pos zero, if_neg zero, mmu]
    change memLookupPa _ _ _ &&& _ = _ ↔ _
    rw [looked]

section Request

variable {Root : Type} [DecidableEq Root] {roots : Root → Word arch}
variable {tree : Space → Root} {stop : Space → Nat}
variable {memPgtblBase : Space → Word arch} {fuel rounds : Nat}
variable {env : Env arch (Spaces arch)} {sys : Sys arch (Spaces arch)}

/-- A map request with `OP_MAP_ALL` comes back, and what it has shared is the
page that nonsecure EL1 sent. -/
theorem mapAll_shared (mmu : env.mmu = imagesMmu memPgtblBase (fuel + 2) rounds)
    (ready : MapReady roots tree stop memPgtblBase sys.paging)
    {desc : Desc arch} (all : desc.map.type = opMapAll) {leaf : Leaf arch.width}
    (found : translate sys.paging.mem (memPgtblBase (.el1 .nonsecure))
      desc.map.va = some leaf) :
    (∃ value after rest,
      Returns env (svc env .nonsecure SvcOp.map.code desc) sys waiting
        value after rest ∧
      SharedMapping memPgtblBase sys.paging after.paging desc.map.va leaf.pa) ↔
      mapPa env desc sys &&& pageMask arch = leaf.pa := by
  have maps : MapsSecure desc := by
    unfold MapsSecure
    rw [all]
    decide
  obtain ⟨middle, last, atEl3, atEl1, both⟩ :=
    bothMapped ready desc.map.va (mapPa env desc sys)
  have calls : MapCalls env desc sys middle last := by
    constructor
    · rw [mmu]
      exact atEl3 fuel rounds
    · rw [mmu]
      exact atEl1 fuel rounds
  have returned := returns_map_secure desc maps calls
  constructor
  · rintro ⟨value, after, rest, other, shared⟩
    have same := Coroutine.Steps.final_unique returned rfl other rfl
    cases same
    obtain ⟨attr, agreed⟩ := shared.agree .el3
    obtain ⟨attr', mapped⟩ := both.mapped (by decide : Space.el3 ≠ _)
    rw [paging_mapServed, mapped] at agreed
    exact congrArg Leaf.pa (Option.some.inj agreed)
  · intro same
    refine ⟨_, _, _, returned, ?_⟩
    rw [paging_mapServed]
    constructor
    · intro space
      by_cases different : space = .el1 .nonsecure
      · subst different
        rw [both.nonsecure, found]
        exact ⟨leaf.attr, rfl⟩
      · rw [← same]
        exact both.mapped different
    · intro space other different
      exact both.frame space different

/-- The three spaces agree on the page that nonsecure EL1 had exactly when the
descriptor held an address and that page can be read back, or the page is the
one at zero. -/
theorem mapAll_shared_iff
    (mmu : env.mmu = imagesMmu memPgtblBase (fuel + 2) rounds)
    (ready : MapReady roots tree stop memPgtblBase sys.paging)
    {desc : Desc arch} (all : desc.map.type = opMapAll) {leaf : Leaf arch.width}
    (found : translate sys.paging.mem (memPgtblBase (.el1 .nonsecure))
      desc.map.va = some leaf) :
    (∃ value after rest,
      Returns env (svc env .nonsecure SvcOp.map.code desc) sys waiting
        value after rest ∧
      SharedMapping memPgtblBase sys.paging after.paging desc.map.va leaf.pa) ↔
      if desc.map.pa = 0 then leaf.pa = 0 else readBack leaf.pa = leaf.pa :=
  (mapAll_shared mmu ready all found).trans (mapPa_eq_iff mmu ready found)

end Request

namespace Aarch64

open BitField

/-- The first tables of three trees, and a page that nonsecure EL1 has mapped. -/
def smallMem (addr : BitVec 64) : BitVec 64 :=
  if addr ∈ [0x1000, 0x2000, 0x3000, 0x11000, 0x12000, 0x13000, 0x21000,
      0x22000, 0x23000] then
    addr + 0x1003
  else if addr = 0x24008 then 0x80443
  else 0

def smallBase : Space → BitVec 64
  | .el3 => 0x1000
  | .el1 .secure => 0x11000
  | .el1 .nonsecure => 0x21000

def smallStop : Space → Nat
  | .el3 => 0x10000
  | .el1 .secure => 0x20000
  | .el1 .nonsecure => 0x30000

/-- Each space has its own tree, with an empty pool above it. -/
def smallSpaces : Spaces .aarch64 where
  mem := smallMem
  memNextPa space := (smallBase space + 0x4000 : BitVec 64)
  memHeapPool _ := 0#64

theorem smallMem_next {addr table : BitVec 64}
    (linked : next (smallMem addr) = some table) :
    addr.toNat = 0x24008 ∨
      addr.toNat ∈ [0x1000, 0x2000, 0x3000, 0x11000, 0x12000, 0x13000, 0x21000,
        0x22000, 0x23000] ∧ table.toNat = addr.toNat + 0x1000 := by
  unfold smallMem at linked
  split at linked
  · next member =>
      right
      simp only [List.mem_cons, List.not_mem_nil, or_false] at member
      rcases member with rfl | rfl | rfl | rfl | rfl | rfl | rfl | rfl | rfl <;>
        cases linked <;> decide
  · split at linked
    · next leafEntry =>
        left
        rw [leafEntry]
        rfl
    · cases linked

theorem smallMem_good {addr : BitVec 64} (notLeaf : addr.toNat ≠ 0x24008) :
    Good (smallMem addr) := by
  unfold smallMem
  split
  · next member =>
      simp only [List.mem_cons, List.not_mem_nil, or_false] at member
      rcases member with rfl | rfl | rfl | rfl | rfl | rfl | rfl | rfl | rfl <;>
        exact .inr (by decide)
  · split
    · next leafEntry =>
        rw [leafEntry] at notLeaf
        exact absurd rfl notLeaf
    · exact .inl (by decide)

theorem smallBase_cases (space : Space) :
    (smallBase space).toNat = 0x1000 ∨ (smallBase space).toNat = 0x11000 ∨
      (smallBase space).toNat = 0x21000 := by
  rcases space with _ | _ | _ <;> decide

theorem smallMem_tableAt {space : Space} {va table : BitVec 64} {level : Nat}
    (inside : level ≤ 3)
    (here : mapper.tableAt smallMem (smallBase space) va level = some table) :
    table.toNat = (smallBase space).toNat + 0x1000 * level ∧
      ∀ lower, lower < level → index lower va = 0 := by
  have bases := smallBase_cases space
  induction level generalizing table with
  | zero =>
      cases here
      exact ⟨rfl, fun _ below => absurd below (Nat.not_lt_zero _)⟩
  | succ level induction =>
      obtain ⟨above, found, linked⟩ := Option.bind_eq_some_iff.mp here
      obtain ⟨place, zeros⟩ := induction (Nat.le_of_succ_le inside) found
      change next (smallMem (slot level above (index level va))) =
        some table at linked
      have offset := offset_within level va
      have aboveWithin : Within above 12 64 := by
        apply within_of_toNat _ above.isLt
        omega
      have sum : (slot level above (index level va)).toNat =
          above.toNat + (index level va <<< 3).toNat :=
        aboveWithin.toNat_or offset (.inr (le_refl _))
      have small := offset.toNat_lt
      obtain ⟨zero, target⟩ : (index level va <<< 3).toNat = 0 ∧
          table.toNat = above.toNat + 0x1000 := by
        rcases smallMem_next linked with leafEntry | ⟨entry, target⟩
        · omega
        · simp only [List.mem_cons, List.not_mem_nil, or_false] at entry
          omega
      refine ⟨by rw [target, place, Nat.mul_succ, Nat.add_assoc], ?_⟩
      intro lower below
      rcases Nat.lt_or_eq_of_le (Nat.le_of_lt_succ below) with before | last
      · exact zeros lower before
      · subst last
        apply (index_within lower va).shiftLeft_inj _ (by decide : 9 + 3 ≤ 64)
        · exact BitVec.eq_of_toNat_eq zero
        · exact fun _ one => by simp at one

theorem smallBase_inj {left right : Space}
    (same : (smallBase left).toNat = (smallBase right).toNat) : left = right := by
  rcases left with _ | _ | _ <;> rcases right with _ | _ | _ <;>
    first | rfl | exact absurd same (by decide)

theorem smallRest {space : Space} {addr : BitVec 64}
    (inside : addr ∈ smallSpaces.rest smallStop space) :
    (smallBase space).toNat + 0x4000 ≤ addr.toNat ∧
      addr.toNat < (smallBase space).toNat + 0xF000 := by
  rcases space with _ | _ | _ <;> exact inside

theorem smallRest_region {space : Space} {addr : BitVec 64}
    (inside : addr ∈ smallSpaces.rest smallStop space) :
    addr.toNat / 2 ^ 21 = (0 : BitVec 64).toNat / 2 ^ 21 := by
  have place := smallRest inside
  have bases := smallBase_cases space
  change addr.toNat / 2 ^ 21 = 0
  omega

theorem smallMem_rest {space : Space} {addr : BitVec 64}
    (inside : addr ∈ smallSpaces.rest smallStop space) : smallMem addr = 0 := by
  have place := smallRest inside
  have bases := smallBase_cases space
  have different (page : BitVec 64) (below : page.toNat < 0x24009)
      (outside : ∀ base ∈ [0x1000, 0x11000, 0x21000],
        ¬(base + 0x4000 ≤ page.toNat ∧ page.toNat < base + 0xF000)) :
      addr ≠ page := by
    rintro rfl
    rcases bases with here | here | here <;> rw [here] at place
    · exact outside 0x1000 (by decide) place
    · exact outside 0x11000 (by decide) place
    · exact outside 0x21000 (by decide) place
  unfold smallMem
  rw [if_neg, if_neg]
  · exact different 0x24008 (by decide) (by decide)
  · simp only [List.mem_cons, List.not_mem_nil, or_false, not_or]
    refine ⟨?_, ?_, ?_, ?_, ?_, ?_, ?_, ?_, ?_⟩ <;>
      exact different _ (by decide) (by decide)

theorem smallForest :
    Radix.Forest mapper.toFormat smallBase smallMem
      (smallSpaces.unused smallStop) := by
  apply forest_of_pages
  · rintro (_ | _ | _) <;> decide
  · intro space va level table below here
    have place := (smallMem_tableAt (Nat.le_of_lt below) here).1
    have within := tableAt_within
      (by rcases space with _ | _ | _ <;> decide) here
    have entry := entryOf_toNat within level va
    have bases := smallBase_cases space
    apply smallMem_good
    intro leafEntry
    change (mapper.entryOf level table va).toNat = 0x24008 at leafEntry
    omega
  · intro left right va va' level level' table inside inside' here there
    obtain ⟨place, zeros⟩ := smallMem_tableAt inside here
    obtain ⟨place', zeros'⟩ := smallMem_tableAt inside' there
    have bases := smallBase_cases left
    have bases' := smallBase_cases right
    have sameBase : (smallBase left).toNat = (smallBase right).toNat := by omega
    have sameLevel : level = level' := by omega
    subst sameLevel
    refine ⟨smallBase_inj sameBase, rfl, ?_⟩
    intro lower below
    exact (zeros lower below).trans (zeros' lower below).symm
  · rintro addr ⟨space, free⟩
    exact smallMem_rest free
  · rintro space va level table inside here addr ⟨other, free⟩
    have free := smallRest free
    have place := (smallMem_tableAt inside here).1
    have bases := smallBase_cases space
    have bases' := smallBase_cases other
    omega

theorem smallSpaces_ready :
    @MapReady .aarch64 Space smallBase id smallStop smallBase smallSpaces where
  bases _ := rfl
  nonsecure different := different
  ready :=
    { forest := smallForest
      pool := by
        rintro (_ | _ | _) <;> exact ⟨by decide, by decide⟩
      disjoint := by
        intro left right different
        apply Set.disjoint_left.mpr
        intro addr inLeft inRight
        have place := smallRest inLeft
        have place' := smallRest inRight
        have bases := smallBase_cases left
        have bases' := smallBase_cases right
        apply different
        apply smallBase_inj
        omega
      installed := by
        intro space page inside
        have tables := (agree_of_region (smallRest_region inside)).tableAt
          smallMem (smallBase space)
        change (mapper.tableAt smallMem (smallBase space) page 3).isSome
        rw [tables]
        rcases space with _ | _ | _ <;> decide }
  room := by
    rintro (_ | _ | _) different <;> decide

/-- Nonsecure EL0 may run over the small trees. -/
def smallSys : Sys .aarch64 (Spaces .aarch64) where
  interop := (bareEnv .aarch64).stack
  secureState := 1
  regs :=
    { scr := 1#64, cptrEl3 := 0#64, cpacr := 0#64, sctlr := 0#64, cpsr := 0#64 }
  parked := { cpacr := 0#64, sctlr := 0#64 }
  paging := smallSpaces
  testCntl := { failCount := 0, testCount := 0 }
  shutdown := false
  executed := []
  delivered := []

def smallEnv : Env .aarch64 (Spaces .aarch64) where
  mmu := imagesMmu smallBase 2 1
  testFunc := fun _ _ => none
  syscntl := fun _ => 0#64
  stack := (bareEnv .aarch64).stack
  skipped := fun _ _ => 0#64

/-- The descriptor of `map_va` for the page at `0x1000`, with what the caller's
stack held in its `pa` field. -/
def smallDesc (pa : BitVec 64) : Desc .aarch64 where
  word0 := 0xF#64
  word1 := 0x1000#64
  word2 := 0x1000#64
  word3 := pa
  word4 := 0#64

/-- The page that nonsecure EL1 has mapped. -/
def smallLeaf : Leaf 64 :=
  ⟨0x80000, 0x443⟩

theorem smallSys_mmu : smallEnv.mmu = @imagesMmu .aarch64 smallBase (0 + 2) 1 :=
  rfl

theorem smallSys_ready :
    @MapReady .aarch64 Space smallBase id smallStop smallBase smallSys.paging :=
  smallSpaces_ready

theorem smallSys_found (pa : BitVec 64) :
    @translate .aarch64 smallSys.paging.mem (smallBase (.el1 .nonsecure))
      (smallDesc pa).map.va = some smallLeaf := by
  change mapper.translate smallMem (smallBase (.el1 .nonsecure)) 0x1000 = _
  decide

end Aarch64

section Small

open Aarch64

theorem mapAll_shared_iff_looked :
    ∃ value after rest,
      Returns smallEnv (svc smallEnv .nonsecure SvcOp.map.code (smallDesc 1))
        smallSys waiting value after rest ∧
      @SharedMapping .aarch64 smallBase smallSys.paging after.paging
        (smallDesc 1).map.va smallLeaf.pa :=
  (mapAll_shared_iff smallSys_mmu smallSys_ready (by decide)
    (smallSys_found 1)).mpr (by decide)

/-- With a zero in the field, EL3 and secure EL1 get the page at zero. -/
theorem mapAll_zero_not_shared :
    @translate .aarch64 smallSys.paging.mem (smallBase (.el1 .nonsecure))
        (smallDesc 0).map.va = some smallLeaf ∧
      ¬∃ value after rest,
        Returns smallEnv (svc smallEnv .nonsecure SvcOp.map.code (smallDesc 0))
          smallSys waiting value after rest ∧
        @SharedMapping .aarch64 smallBase smallSys.paging after.paging
          (smallDesc 0).map.va smallLeaf.pa := by
  refine ⟨smallSys_found 0, ?_⟩
  intro shared
  have sent := (mapAll_shared smallSys_mmu smallSys_ready (by decide)
    (smallSys_found 0)).mp shared
  exact absurd sent (by decide)

end Small

end TzTest
