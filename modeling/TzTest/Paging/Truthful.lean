import TzTest.Paging.Refinement
import TzTest.Paging.ArmRefinement

/-!
# Whether the routines tell what the hardware does

`mem_lookup_pa` and `mem_unmap_va` walk the tables as the hardware does and
report what they find.  AArch64 drops the page offset and the upper address
bits, and does not look at the bits of the address above those that the tables
are for; ARM does not look at the validity of the last-level entry.
-/

namespace TzTest

variable {arch : Arch}

/-- The walk of the hardware. -/
def hardwareWalk : {arch : Arch} → (mem : Word arch → Word arch) →
    (base va : Word arch) → Option (Leaf arch.width)
  | .aarch64 => Aarch64.hwWalk
  | .arm => Arm.hwWalk

/-- The addresses that the tables are for. -/
def Walked : {arch : Arch} → Word arch → Prop
  | .aarch64, va => va.toNat < 2 ^ 48
  | .arm, _ => True

theorem hardwareWalk_eq {va : Word arch} (walked : Walked va)
    (mem : Word arch → Word arch) (base : Word arch) :
    hardwareWalk mem base va = translate mem base va := by
  cases arch with
  | aarch64 => exact Aarch64.hwWalk_eq walked mem base
  | arm => exact Arm.hwWalk_eq mem base va

theorem walked_of_some {mem : Word arch → Word arch} {base va : Word arch}
    {leaf : Leaf arch.width} (found : hardwareWalk mem base va = some leaf) :
    Walked va := by
  cases arch with
  | aarch64 => exact (Aarch64.hwWalk_some found).1
  | arm => exact trivial

/-- An invalid entry or the descriptor of a page. -/
def Aarch64.GoodPage (entry : BitVec 64) : Prop :=
  entry &&& 0x1 = 0 ∨ entry &&& 0x3 = 0x3

/-- An invalid entry or the descriptor of a small page. -/
def Arm.GoodPage (entry : BitVec 32) : Prop :=
  entry &&& 0x3 = 0 ∨ entry &&& 0x2 ≠ 0

def GoodPage : {arch : Arch} → Word arch → Prop
  | .aarch64 => Aarch64.GoodPage
  | .arm => Arm.GoodPage

/-- Every entry that a walk comes to is of the format of its level. -/
structure WellTyped (mem : Word arch → Word arch) (base : Word arch) : Prop where
  links {va : Word arch} {level : Nat} {table : Word arch} :
    level < (mapper arch).depth →
    (mapper arch).tableAt mem base va level = some table →
    (mapper arch).Good (mem ((mapper arch).entryOf level table va))
  pages {va table : Word arch} :
    (mapper arch).tableAt mem base va (mapper arch).depth = some table →
    GoodPage (mem ((mapper arch).entryOf (mapper arch).depth table va))

/-- The address that an access to `va` goes to. -/
def Leaf.physical (found : Leaf arch.width) (va : Word arch) : Word arch :=
  found.pa ||| (va &&& 0xFFF)

/-- Both routines report the walk of the hardware. -/
structure Truthful (base va : Word arch) (s : MemUtil arch.width) : Prop where
  lookup : memLookupPa base va s =
    ((hardwareWalk s.mem base va).map (Leaf.physical · va)).getD (-1)
  mapped : (hardwareWalk s.mem base va).isSome → (memUnmapVa base va s).1 = 0
  unmapped : hardwareWalk s.mem base va = none → memUnmapVa base va s = (-1, s)

/-- What can be reported of the page that the walked bits name: its first byte,
below the address bits that the routines leave out, and of an address without
other bits. -/
def Aarch64.Reportable (base va : BitVec 64) (s : MemUtil 64) : Prop :=
  ∀ found, hwWalk s.mem base (walkedBits va) = some found →
    va.toNat < 2 ^ 48 ∧ va &&& 0xFFF = 0 ∧ found.pa &&& tableAddress = found.pa

/-- Any mapped page can be reported, but not that a page is missing from a
second-level table. -/
def Arm.Reportable (base va : BitVec 32) (s : MemUtil 32) : Prop :=
  (tableOf s.mem base va).isSome → (hwWalk s.mem base va).isSome

def Reportable : {arch : Arch} → (base va : Word arch) → MemUtil arch.width → Prop
  | .aarch64 => Aarch64.Reportable
  | .arm => Arm.Reportable

namespace Aarch64

open BitField

/-- The routines' walk finds what the tables translate to. -/
theorem walk_of_wellTyped {mem : BitVec 64 → BitVec 64} {base : BitVec 64}
    (typed : @WellTyped .aarch64 mem base) (va : BitVec 64) :
    (mapper.translate mem base va = none ∧ walk mem va 4 0 0 base = none) ∨
      ∃ found pte, mapper.translate mem base va = some found ∧
        walk mem va 4 0 0 base = some (pte, found.pa &&& tableAddress) := by
  have walked := walk_eq typed.links (Nat.zero_add 3) 0
    (rfl : mapper.tableAt mem base va 0 = some base)
  rw [walked]
  change (Option.bind (mapper.tableAt mem base va 3) _ = none ∧ _) ∨
    ∃ found pte, Option.bind (mapper.tableAt mem base va 3) _ = some found ∧ _
  cases bottom : mapper.tableAt mem base va 3 with
  | none => exact .inl ⟨rfl, rfl⟩
  | some last =>
      simp only [Option.bind_some]
      change (leaf (mem (mapper.entryOf 3 last va)) = none ∧ _) ∨
        ∃ found pte, leaf (mem (mapper.entryOf 3 last va)) = some found ∧ _
      have page : GoodPage (mem (mapper.entryOf 3 last va)) := typed.pages bottom
      generalize mem (mapper.entryOf 3 last va) = entry at page
      unfold leaf
      rcases page with invalid | valid
      · rw [if_pos invalid, if_neg (not_link_of_invalid invalid)]
        exact .inl ⟨rfl, rfl⟩
      · rw [if_pos valid, if_neg fun invalid => not_link_of_invalid invalid valid]
        refine .inr ⟨_, mapper.entryOf 3 last va, rfl, ?_⟩
        have masks : outputAddress &&& tableAddress = tableAddress := by decide
        rw [BitVec.and_assoc, masks]

theorem hwWalk_walkedBits (mem : BitVec 64 → BitVec 64) (base va : BitVec 64) :
    hwWalk mem base (walkedBits va) = mapper.translate mem base va :=
  (hwWalk_eq (walkedBits_lt va) mem base).trans
    ((samePage_walkedBits va).translate mem base)

/-- The bits of a page address and those of an offset do not mix. -/
theorem physical_eq_iff {pa va : BitVec 64} (isPage : Within pa 12 48) :
    pa &&& tableAddress = pa ||| (va &&& 0xFFF) ↔
      va &&& 0xFFF = 0 ∧ pa &&& tableAddress = pa := by
  have offset : Within (va &&& 0xFFF) 0 12 := within_and_mask (by decide) _
  constructor
  · intro same
    have low := congrArg (· &&& (0xFFF : BitVec 64)) same
    have masks : tableAddress &&& 0xFFF = 0#64 := by decide
    have none : pa &&& 0xFFF = 0#64 :=
      isPage.and_eq_zero (IsMask.within (by decide : IsMask 0xFFF 0 12))
        (.inr (le_refl _))
    change (pa &&& tableAddress) &&& 0xFFF = (pa ||| (va &&& 0xFFF)) &&& 0xFFF at low
    rw [BitVec.and_assoc, masks, BitVec.and_or_distrib_right, none, BitVec.and_assoc,
      BitVec.and_self, BitVec.and_zero] at low
    have zero : va &&& 0xFFF = 0 := BitVec.zero_or.symm.trans low.symm
    rw [zero] at same
    exact ⟨zero, same.trans BitVec.or_zero⟩
  · rintro ⟨zero, kept⟩
    rw [zero, kept]
    exact BitVec.or_zero.symm

/-- An address that the hardware translates. -/
theorem truthful_iff_of_found {base va : BitVec 64} {s : MemUtil 64}
    {found : Leaf 64} (inside : va.toNat < 2 ^ 48)
    (translated : mapper.translate s.mem base va = some found)
    (looked : memLookupPa base va s = found.pa &&& tableAddress)
    (unmapped : (memUnmapVa base va s).1 = 0) :
    @Truthful .aarch64 base va s ↔
      va &&& 0xFFF = 0 ∧ found.pa &&& tableAddress = found.pa := by
  have walked : @hardwareWalk .aarch64 s.mem base va = some found :=
    (hwWalk_eq inside s.mem base).trans translated
  rw [← physical_eq_iff (pa_within translated)]
  constructor
  · intro truthful
    have lookup := truthful.lookup
    rw [walked] at lookup
    exact looked.symm.trans lookup
  · intro same
    refine ⟨?_, fun _ => unmapped, ?_⟩
    · rw [walked]
      exact looked.trans same
    · intro missing
      rw [walked] at missing
      cases missing

theorem truthful_iff {base va : BitVec 64} {s : MemUtil 64}
    (typed : @WellTyped .aarch64 s.mem base) :
    @Truthful .aarch64 base va s ↔ Reportable base va s := by
  unfold Reportable
  rw [hwWalk_walkedBits]
  rcases walk_of_wellTyped typed va with ⟨missing, stopped⟩ |
    ⟨found, pte, translated, walked⟩
  · have none : @hardwareWalk .aarch64 s.mem base va = none := hwWalk_none missing
    have looked : memLookupPa base va s = -1 := by
      unfold memLookupPa
      rw [stopped]
    have unmapped : memUnmapVa base va s = (-1, s) := by
      unfold memUnmapVa
      rw [stopped]
    refine iff_of_true ⟨?_, ?_, fun _ => unmapped⟩ ?_
    · rw [none]
      exact looked
    · intro present
      rw [none] at present
      cases present
    · intro found present
      cases missing.symm.trans present
  · have looked : memLookupPa base va s = found.pa &&& tableAddress := by
      unfold memLookupPa
      rw [walked]
    have unmapped : (memUnmapVa base va s).1 = 0 := by
      unfold memUnmapVa
      rw [walked]
    by_cases inside : va.toNat < 2 ^ 48
    · rw [truthful_iff_of_found inside translated looked unmapped]
      constructor
      · intro reported other present
        cases translated.symm.trans present
        exact ⟨inside, reported⟩
      · intro reportable
        exact (reportable found translated).2
    · refine iff_of_false ?_ ?_
      · intro truthful
        have failed : (memUnmapVa base va s).1 = -1 :=
          congrArg Prod.fst (truthful.unmapped (hwWalk_outside inside s.mem base))
        exact absurd (unmapped.symm.trans failed) (by decide)
      · intro reportable
        exact inside (reportable found translated).1

end Aarch64

namespace Arm

open BitField

theorem truthful_iff {base va : BitVec 32} {s : MemUtil 32}
    (typed : @WellTyped .arm s.mem base) :
    @Truthful .arm base va s ↔ @TzTest.Reportable .arm base va s := by
  have good : Good (s.mem (l1Pte base va)) :=
    typed.links (by decide : 0 < 1)
      (rfl : mapper.tableAt s.mem base va 0 = some base)
  have table : tableOf s.mem base va = soft (s.mem (l1Pte base va)) :=
    (soft_eq good).symm
  have walk : hwWalk s.mem base va = (tableOf s.mem base va).bind fun table =>
      leaf (s.mem (table ||| (l2idx va <<< 2))) := rfl
  unfold soft at table
  by_cases missing : s.mem (l1Pte base va) &&& 0x3 = 0
  · rw [if_pos missing] at table
    rw [table] at walk
    have walk : @hardwareWalk .arm s.mem base va = none := walk
    refine iff_of_true ⟨?_, ?_, ?_⟩ ?_
    · rw [walk]
      exact if_pos missing
    · intro present
      rw [walk] at present
      cases present
    · intro _
      exact if_pos missing
    · intro present
      rw [table] at present
      cases present
  · rw [if_neg missing] at table
    rw [table, Option.bind_some] at walk
    change _ = leaf (s.mem (l2Pte (s.mem (l1Pte base va)) va)) at walk
    have looked : memLookupPa base va s =
        (s.mem (l2Pte (s.mem (l1Pte base va)) va) &&& 0xFFFFF000) |||
          (va &&& 0xFFF) := if_neg missing
    have unmapped : (memUnmapVa base va s).1 = 0 := congrArg Prod.fst (if_neg missing)
    constructor
    · intro truthful _
      cases translated : hwWalk s.mem base va with
      | none =>
          have failed : (memUnmapVa base va s).1 = -1 :=
            congrArg Prod.fst (truthful.unmapped translated)
          exact absurd (unmapped.symm.trans failed) (by decide)
      | some found => rfl
    · intro reportable
      obtain ⟨found, translated⟩ := Option.isSome_iff_exists.mp
        (reportable (by rw [table]; rfl))
      rw [walk] at translated
      unfold leaf at translated
      refine ⟨?_, fun _ => unmapped, ?_⟩
      · have present : @hardwareWalk .arm s.mem base va = some found :=
          walk.trans translated
        rw [present]
        split at translated
        · cases translated
        · cases translated
          exact looked
      · intro none
        have present : @hardwareWalk .arm s.mem base va = some found :=
          walk.trans translated
        rw [present] at none
        cases none

end Arm

/-- The first page is mapped to `0x80000`. -/
def Aarch64.firstPage : MemUtil 64 where
  mem addr :=
    if addr = 0x1000 then 0x2003
    else if addr = 0x2000 then 0x3003
    else if addr = 0x3000 then 0x4003
    else if addr = 0x4000 then 0x80443
    else 0
  memNextPa := 0x10000
  memHeapPool := 0x40000000

theorem Aarch64.firstPage_wellTyped : @WellTyped .aarch64 firstPage.mem 0x1000 := by
  have every (addr : BitVec 64) :
      Good (firstPage.mem addr) ∧ GoodPage (firstPage.mem addr) := by
    unfold firstPage Good GoodPage
    dsimp only
    split_ifs <;> decide
  exact ⟨fun _ _ => (every _).1, fun _ => (every _).2⟩

/-- A second-level table without entries. -/
def Arm.emptyTable : MemUtil 32 where
  mem addr := if addr = 0x4000 then 0x20001 else 0
  memNextPa := 0x30000
  memHeapPool := 0x40000000

open BitField in
theorem Arm.emptyTable_wellTyped : @WellTyped .arm emptyTable.mem 0x4000 := by
  constructor
  · intro va level table _ _
    change Good (if mapper.entryOf level table va = 0x4000 then 0x20001 else 0)
    split_ifs
    · exact .inr (by decide)
    · exact .inl (by decide)
  · intro va table bottom
    change next (emptyTable.mem (l1Pte 0x4000 va)) = some table at bottom
    unfold emptyTable at bottom
    dsimp only at bottom
    have linked : table = 0x20000 := by
      split_ifs at bottom
      · exact (Option.some.inj bottom).symm
      · cases bottom
    subst linked
    have aligned : Within (0x20000 : BitVec 32) 12 32 :=
      within_of_toNat (by decide) (by decide)
    have apart : mapper.entryOf 1 0x20000 va ≠ 0x4000 := by
      intro same
      have sum := (slot_toNat aligned 0 va).1
      have base : (0x20000 : BitVec 32).toNat = 0x20000 := by decide
      have other : (0x4000 : BitVec 32).toNat = 0x4000 := by decide
      change (mapper.entryOf 1 0x20000 va).toNat = _ at sum
      rw [same, base, other] at sum
      omega
    change GoodPage (if mapper.entryOf 1 0x20000 va = 0x4000 then 0x20001 else 0)
    rw [if_neg apart]
    exact .inl (by decide)

/-- Both routines are truthful where there is nothing else to report than they
can. -/
theorem walks_truthful_iff {base : Word arch} {s : MemUtil arch.width}
    (typed : WellTyped s.mem base) (va : Word arch) :
    Truthful base va s ↔ Reportable base va s := by
  cases arch with
  | aarch64 => exact Aarch64.truthful_iff typed
  | arm => exact Arm.truthful_iff typed

theorem walks_truthful_iff_firstPage :
    @Truthful .aarch64 (0x1000 : BitVec 64) (0 : BitVec 64) Aarch64.firstPage ↔
      @Reportable .aarch64 (0x1000 : BitVec 64) (0 : BitVec 64)
        Aarch64.firstPage :=
  walks_truthful_iff Aarch64.firstPage_wellTyped _

/-- AArch64 looks up an address inside a page, and one beyond those that the
tables are for; ARM looks up and unmaps a page that is missing from a
second-level table. -/
theorem walks_not_truthful :
    @WellTyped .aarch64 Aarch64.firstPage.mem (0x1000 : BitVec 64) ∧
      ¬@Truthful .aarch64 (0x1000 : BitVec 64) (0x123 : BitVec 64)
        Aarch64.firstPage ∧
      ¬@Truthful .aarch64 (0x1000 : BitVec 64) (0x1000000000000 : BitVec 64)
        Aarch64.firstPage ∧
      @WellTyped .arm Arm.emptyTable.mem (0x4000 : BitVec 32) ∧
      ¬@Truthful .arm (0x4000 : BitVec 32) (0x5000 : BitVec 32) Arm.emptyTable := by
  refine ⟨Aarch64.firstPage_wellTyped, ?_, ?_, Arm.emptyTable_wellTyped, ?_⟩
  · intro truthful
    exact absurd truthful.lookup (by decide)
  · intro truthful
    exact absurd truthful.lookup (by decide)
  · intro truthful
    exact absurd truthful.lookup (by decide)

end TzTest
