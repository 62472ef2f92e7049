import TzTest.Library.Loop
import TzTest.Library.RadixDirect
import TzTest.Paging.ArmRefinement

/-!
# The ARM start-up table routines

`allocate_l1_page`, `map_va_to_pa` and `unmap_va` of `init_util.S`, by their
registers.  `map_va_to_pa` leaves a page as it is that is mapped already, and
`unmap_va` goes through four levels of 64-bit descriptors, as on AArch64.
-/

namespace TzTest.Arm

open BitField

/-- The tables, the word at `INIT_STACK - 8` and the registers that the routines
use. -/
structure InitUtil where
  mem : BitVec 32 → BitVec 32
  nextL1Page : BitVec 32
  ttbr0 : BitVec 32
  r0 : BitVec 32
  r1 : BitVec 32
  r2 : BitVec 32
  r7 : BitVec 32
  r8 : BitVec 32
  r9 : BitVec 32
  r10 : BitVec 32
  r11 : BitVec 32
  r12 : BitVec 32

namespace InitUtil

/-- `allocate_l1_page`, which saves `r10` and `r11`. -/
def allocateL1Page (s : InitUtil) : InitUtil :=
  { s with r0 := s.nextL1Page, nextL1Page := s.nextL1Page + 0x1000 }

/-- The registers that both routines pop at their end. -/
def leave (caller s : InitUtil) : InitUtil :=
  { s with
    r7 := caller.r7
    r8 := caller.r8
    r9 := caller.r9
    r10 := caller.r10
    r11 := caller.r11
    r12 := caller.r12 }

/-- From the start of `map_va_to_pa` to its first test. -/
def l1Descriptor (s : InitUtil) : InitUtil :=
  let r10 : BitVec 32 := -1
  let r9 := r10 <<< 14
  let r7 := s.ttbr0 &&& r9
  let r8 := s.r0 >>> 20
  let r10 := 0xFFF
  let r8 := r8 &&& r10
  let r8 := r8 <<< 2
  let r8 := r8 ||| r7
  let r7 := s.mem r8
  let r9 := r7 &&& 0x3
  { s with r7 := r7, r8 := r8, r9 := r9, r10 := r10 }

/-- The first-level entry is invalid. -/
def newL2 (s : InitUtil) : InitUtil :=
  let s := { s with r9 := s.r0 }
  let s := s.allocateL1Page
  let s := { s with r7 := s.r0, r0 := s.r9 }
  let s := { s with r9 := 0 }
  let s := { s with r7 := s.r7 ||| s.r9 }
  let s := { s with r7 := s.r7 ||| 0x1 }
  { s with mem := Function.update s.mem s.r8 s.r7 }

/-- From `map_l2` to the second test. -/
def l2Descriptor (s : InitUtil) : InitUtil :=
  let r10 : BitVec 32 := -1
  let r9 := r10 <<< 10
  let r7 := s.r7 &&& r9
  let r8 := s.r0 >>> 12
  let r8 := r8 &&& 0xFF
  let r8 := r8 <<< 2
  let r8 := r8 ||| r7
  let r7 := s.mem r8
  let r9 := r7 &&& 0x3
  { s with r7 := r7, r8 := r8, r9 := r9, r10 := r10 }

/-- The second-level entry is invalid. -/
def newPage (s : InitUtil) : InitUtil :=
  let s := { s with r7 := s.r2 }
  let s := { s with r7 := s.r7 ||| s.r1 }
  let s := { s with r7 := s.r7 ||| 0x2 }
  { s with mem := Function.update s.mem s.r8 s.r7 }

/-- `map_va_to_pa` up to `map_l2`. -/
def toL2 (s : InitUtil) : InitUtil :=
  let s := s.l1Descriptor
  if s.r9 = 0 then s.newL2 else s

def mapVaToPa (s : InitUtil) : InitUtil :=
  let later := s.toL2.l2Descriptor
  s.leave (if later.r9 = 0 then later.newPage else later)

/-- From `unmap_loop` to the test of the level. -/
def descriptorAddress (s : InitUtil) : InitUtil :=
  let r9 := 0xFFFFF000 &&& s.r10
  let r8 := s.r0 >>> (s.r12 &&& 0xFF)
  let r12 := s.r12 - 9
  let r7 := 0x1FF
  let r8 := r8 &&& r7
  let r8 := r8 <<< 3
  let r8 := r8 ||| r9
  { s with r7 := r7, r8 := r8, r9 := r9, r11 := s.r11 - 1, r12 := r12 }

/-- The descriptor, and its valid bit. -/
def fetch (s : InitUtil) : InitUtil :=
  { s with r10 := s.mem s.r8, r9 := s.mem s.r8 &&& 0x1 }

/-- One round of `unmap_loop`. -/
def unmapLoop (s : InitUtil) : Option InitUtil :=
  let s := s.descriptorAddress
  if s.r11 = 0 then
    none
  else
    let s := s.fetch
    if s.r9 = 0 then none else some s

/-- The two ways out of `unmap_loop`: the last level, and an invalid entry. -/
def unmapPage (s : InitUtil) : InitUtil :=
  let s := s.descriptorAddress
  if s.r11 = 0 then
    { s with r10 := 0, mem := Function.update s.mem s.r8 0 }
  else
    s.fetch

/-- `unmap_va`, with a bound on the rounds of its loop. Every image walks from
`EL3_PGTBL_BASE`, which is the table of EL3 and of secure EL1, but not of nonsecure EL1. -/
def unmapVa (pgtblBase : BitVec 32) (fuel : Nat) (s : InitUtil) :
    Option InitUtil := do
  let last ← Loop.run unmapLoop fuel { s with r10 := pgtblBase, r11 := 0x4, r12 := 39 }
  return s.leave last.unmapPage

def store (s : InitUtil) : Radix.Store (BitVec 32) (BitVec 32) :=
  ⟨s.mem, s.nextL1Page⟩

end InitUtil

inductive InitCall where
  | mapVaToPa (va pgprop pa : BitVec 32)
  | unmapVa (va : BitVec 32)

namespace InitCall

def run (pgtblBase : BitVec 32) (fuel : Nat) (s : InitUtil) :
    InitCall → Option InitUtil
  | mapVaToPa va pgprop pa =>
      some ({ s with r0 := va, r1 := pgprop, r2 := pa } : InitUtil).mapVaToPa
  | unmapVa va => ({ s with r0 := va } : InitUtil).unmapVa pgtblBase fuel

def runAll (pgtblBase : BitVec 32) (fuel : Nat) :
    List InitCall → InitUtil → Option InitUtil
  | [], s => some s
  | call :: calls, s => do
      let s ← call.run pgtblBase fuel s
      runAll pgtblBase fuel calls s

end InitCall

/-- The last-level entries that the routine takes to be valid. -/
def rawLeaf (entry : BitVec 32) : Option (BitVec 32) :=
  if entry &&& 0x3 = 0 then none else some entry

theorem leaf_eq_rawLeaf (entry : BitVec 32) :
    leaf entry = (rawLeaf entry).bind leaf := by
  unfold rawLeaf
  by_cases invalid : entry &&& 0x3 = 0
  · have noPage : entry &&& 0x2 = 0 := by
      have inner : entry &&& 0x2 = (entry &&& 0x3) &&& 0x2 := by
        rw [BitVec.and_assoc]
        rfl
      rw [inner, invalid]
      rfl
    rw [if_pos invalid]
    exact if_pos noPage
  · rw [if_neg invalid]
    rfl

theorem rawLeaf_page (entry : BitVec 32) :
    rawLeaf (entry ||| 0x2) = some (entry ||| 0x2) := by
  apply if_neg
  intro invalid
  have bit : (entry ||| 0x2) &&& 0x2 = 0x2 := by grind
  have inner : (entry ||| 0x2) &&& 0x2 = ((entry ||| 0x2) &&& 0x3) &&& 0x2 := by
    rw [BitVec.and_assoc]
    rfl
  rw [inner, invalid] at bit
  exact absurd bit (by decide)

/-- The table format and the start-up routine. -/
def initMapper : Radix.Mapper (BitVec 32) (BitVec 32) (BitVec 32) (BitVec 32)
    (BitVec 32) :=
  { mapper with toFormat := mapper.toFormat.withLeaf rawLeaf (by decide) }

theorem translate_eq_raw (mem : BitVec 32 → BitVec 32) (base va : BitVec 32) :
    mapper.translate mem base va = (initMapper.translate mem base va).bind leaf :=
  Radix.Format.translate_withLeaf leaf_eq_rawLeaf mem base va

theorem initMapper_missing (mem : BitVec 32 → BitVec 32) (va : BitVec 32)
    (remaining level : Nat) (table : BitVec 32) :
    initMapper.missing mem va remaining level table =
      mapper.missing mem va remaining level table :=
  Radix.Mapper.missing_congr (by rfl) (by rfl) ..

/-- The next pages of the pool are fit for the tables of the start-up routine. -/
theorem initMapper_pool {next : BitVec 32} {stop count : Nat}
    {free : Set (BitVec 32)} (pool : @Pool .arm next stop)
    (room : next.toNat + 0x1000 * count ≤ stop)
    (inFree : @range .arm next.toNat stop ⊆ free) :
    initMapper.Supply free (initMapper.pages count next) ∧
      free \ @range .arm next.toNat (next.toNat + 0x1000 * count) ⊆
        initMapper.without free (initMapper.pages count next) ∧
      @Pool .arm (initMapper.bump^[count] next) stop ∧
      (initMapper.bump^[count] next).toNat = next.toNat + 0x1000 * count := by
  obtain ⟨supply, left⟩ := @Pool.supply .arm _ _ _ free pool room
    ((range_mono (le_refl _) room).trans inFree)
  have pages : initMapper.pages count next = mapper.pages count next :=
    Radix.Mapper.pages_congr (by rfl) count next
  have without : initMapper.without free (mapper.pages count next) =
      mapper.without free (mapper.pages count next) :=
    Radix.Mapper.without_congr (by rfl) free _
  rw [pages, without]
  exact ⟨(Radix.Mapper.supply_congr (by rfl) (by rfl) ..).mpr supply, left,
    @Pool.iterate .arm _ _ _ pool room⟩

namespace InitUtil

theorem newL2_eq (s : InitUtil) :
    s.newL2.r0 = s.r0 ∧ s.newL2.r1 = s.r1 ∧ s.newL2.r2 = s.r2 ∧
      s.newL2.ttbr0 = s.ttbr0 ∧ s.newL2.r7 = s.nextL1Page ||| 0x1 ∧
      s.newL2.store =
        ⟨Function.update s.mem s.r8 (s.nextL1Page ||| 0x1),
          s.nextL1Page + 0x1000⟩ := by
  have noProps : s.nextL1Page ||| 0 = s.nextL1Page := BitVec.or_zero
  simp only [newL2, allocateL1Page, store, noProps, and_self]

section Base

variable {base : BitVec 32} {s : InitUtil}

theorem l1Descriptor_r8 (ttbr0 : s.ttbr0 &&& 0xFFFFC000 = base &&& 0xFFFFC000) :
    s.l1Descriptor.r8 = l1Pte base s.r0 := by
  have mask : (-1 : BitVec 32) <<< 14 = 0xFFFFC000 := by decide
  change ((s.r0 >>> 20) &&& 0xFFF) <<< 2 ||| (s.ttbr0 &&& ((-1 : BitVec 32) <<< 14)) = _
  rw [mask, ttbr0, BitVec.or_comm]
  rfl

/-- `map_va_to_pa` comes to `map_l2` as the table routine comes to the second
level. -/
theorem toL2_descends (ttbr0 : s.ttbr0 &&& 0xFFFFC000 = base &&& 0xFFFFC000) :
    initMapper.descendDirect s.r0 1 0 base s.store =
        some (s.toL2.r7 &&& tableAddress, s.toL2.store) ∧
      s.toL2.r0 = s.r0 ∧ s.toL2.r1 = s.r1 ∧ s.toL2.r2 = s.r2 ∧
      s.toL2.ttbr0 = s.ttbr0 := by
  have address := l1Descriptor_r8 ttbr0
  have entry : s.l1Descriptor.r7 = s.mem (l1Pte base s.r0) := by
    rw [← address]
    rfl
  have valid : s.l1Descriptor.r9 = s.mem (l1Pte base s.r0) &&& 0x3 := by
    rw [← entry]
    rfl
  have soft : initMapper.soft (s.mem (l1Pte base s.r0)) =
      if s.mem (l1Pte base s.r0) &&& 0x3 = 0 then none
      else some (s.mem (l1Pte base s.r0) &&& tableAddress) := rfl
  have place : initMapper.entryOf 0 base s.r0 = l1Pte base s.r0 := rfl
  have memory : s.store.mem = s.mem := rfl
  simp only [Radix.Mapper.descendDirect, Radix.Mapper.descend, place, memory, soft,
    toL2, valid]
  by_cases invalid : s.mem (l1Pte base s.r0) &&& 0x3 = 0
  · obtain ⟨r0, r1, r2, kept, r7, written⟩ := newL2_eq s.l1Descriptor
    rw [if_pos invalid, if_pos invalid, r7, written, address]
    exact ⟨rfl, r0, r1, r2, kept⟩
  · rw [if_neg invalid, if_neg invalid, entry]
    exact ⟨rfl, rfl, rfl, rfl, rfl⟩

/-- The second-level entry is written where it is invalid. -/
theorem mapVaToPa_store
    (ttbr0 : s.ttbr0 &&& 0xFFFFC000 = base &&& 0xFFFFC000) :
    s.mapVaToPa.ttbr0 = s.ttbr0 ∧
    s.mapVaToPa.store =
      (if s.toL2.mem (initMapper.entryOf 1 (s.toL2.r7 &&& tableAddress) s.r0) &&& 0x3 =
          0 then
        s.toL2.store.write (initMapper.entryOf 1 (s.toL2.r7 &&& tableAddress) s.r0)
          (s.r2 ||| s.r1 ||| 0x2)
      else s.toL2.store) := by
  obtain ⟨_, r0, r1, r2, kept⟩ := toL2_descends ttbr0
  have mask : (-1 : BitVec 32) <<< 10 = tableAddress := by decide
  have address : s.toL2.l2Descriptor.r8 =
      initMapper.entryOf 1 (s.toL2.r7 &&& tableAddress) s.r0 := by
    change ((s.toL2.r0 >>> 12) &&& 0xFF) <<< 2 |||
      (s.toL2.r7 &&& ((-1 : BitVec 32) <<< 10)) = _
    rw [mask, r0, BitVec.or_comm]
    rfl
  have valid : s.toL2.l2Descriptor.r9 =
      s.toL2.mem (initMapper.entryOf 1 (s.toL2.r7 &&& tableAddress) s.r0) &&& 0x3 := by
    rw [← address]
    rfl
  unfold mapVaToPa
  simp only [valid]
  split
  · refine ⟨kept, ?_⟩
    change Radix.Store.mk (Function.update s.toL2.mem s.toL2.l2Descriptor.r8
      (s.toL2.r2 ||| s.toL2.r1 ||| 0x2)) s.toL2.nextL1Page = _
    rw [address, r1, r2]
    rfl
  · exact ⟨kept, rfl⟩

end Base

section Forest

variable {base : BitVec 32} {free : Set (BitVec 32)} {s : InitUtil}

/-- `map_va_to_pa` maps a page that is not mapped, and changes nothing about one
that is. -/
theorem mapVaToPa_becomes
    (forest : Radix.Forest initMapper.toFormat (fun _ : Unit => base) s.mem free)
    (ttbr0 : s.ttbr0 &&& 0xFFFFC000 = base &&& 0xFFFFC000) {stop : Nat}
    (pool : @Pool .arm s.nextL1Page stop)
    (room : s.nextL1Page.toNat + 0x1000 * mapper.missing s.mem s.r0 1 0 base ≤ stop)
    (inFree : @range .arm s.nextL1Page.toNat stop ⊆ free) :
    @Pool .arm s.mapVaToPa.nextL1Page stop ∧
      s.nextL1Page.toNat ≤ s.mapVaToPa.nextL1Page.toNat ∧
      s.mapVaToPa.nextL1Page.toNat ≤ stop ∧
      initMapper.Becomes (fun _ : Unit => base) () s.mem s.mapVaToPa.mem
        (free \ @range .arm s.nextL1Page.toNat s.mapVaToPa.nextL1Page.toNat)
        (if (initMapper.translate s.mem base s.r0).isSome then
          initMapper.translate s.mem base
        else
          initMapper.set s.r0 (some (s.r2 ||| s.r1 ||| 0x2))
            (initMapper.translate s.mem base)) := by
  rw [← initMapper_missing] at room
  obtain ⟨supply, left, rest, reached⟩ := initMapper_pool pool room inFree
  obtain ⟨mem, last, down, arrived, becomes, _⟩ :=
    @Radix.Mapper.descendDirect_becomes _ _ _ _ _ _ _ initMapper
      (fun _ : Unit => base) free s.store () s.r0 1 0 _ base forest rfl rfl rfl supply
  have descended := (toL2_descends ttbr0).1
  rw [down] at descended
  obtain ⟨rfl, stored⟩ := Prod.mk.inj (Option.some.inj descended)
  obtain ⟨_, outcome⟩ := mapVaToPa_store ttbr0
  have memory : s.toL2.mem = mem := (congrArg Radix.Store.mem stored).symm
  have found : initMapper.translate s.mem base s.r0 = rawLeaf
      (mem (initMapper.entryOf 1 (s.toL2.r7 &&& tableAddress) s.r0)) :=
    (becomes.translated s.r0).symm.trans (initMapper.translate_of_tableAt arrived)
  have later := becomes.shrink left
  rw [← reached] at later
  rw [memory] at outcome
  by_cases invalid :
      mem (initMapper.entryOf 1 (s.toL2.r7 &&& tableAddress) s.r0) &&& 0x3 = 0
  · rw [if_pos invalid, ← stored] at outcome
    have written : s.mapVaToPa.mem = _ := congrArg Radix.Store.mem outcome
    have taken : s.mapVaToPa.nextL1Page = _ := congrArg Radix.Store.next outcome
    have unmapped : initMapper.translate s.mem base s.r0 = none := by
      rw [found]
      exact if_pos invalid
    have set := @Radix.Mapper.becomes_setLeaf _ _ _ _ _ _ initMapper
      (fun _ : Unit => base) _ (Radix.Store.mk mem s.nextL1Page) () s.r0 _ _ _
      later.forest (s.r2 ||| s.r1 ||| 0x2) _ arrived
    have same : initMapper.translate mem base = _ := funext later.translated
    have whole := later.trans set
    rw [same] at whole
    rw [unmapped, taken, written]
    refine ⟨rest, ?_, ?_, ?_⟩
    · exact le_trans (Nat.le_add_right _ _) (le_of_eq reached.symm)
    · exact le_trans (le_of_eq reached) room
    · rw [← rawLeaf_page]
      exact whole
  · rw [if_neg invalid, ← stored] at outcome
    have written : s.mapVaToPa.mem = mem := congrArg Radix.Store.mem outcome
    have taken : s.mapVaToPa.nextL1Page = _ := congrArg Radix.Store.next outcome
    have mapped : initMapper.translate s.mem base s.r0 = some _ :=
      found.trans (if_neg invalid)
    rw [mapped, taken, written]
    refine ⟨rest, ?_, ?_, later⟩
    · exact le_trans (Nat.le_add_right _ _) (le_of_eq reached.symm)
    · exact le_trans (le_of_eq reached) room

end Forest

/-- The descriptor that `unmap_va` reads. -/
def wideDescriptor (mem : BitVec 32 → BitVec 32) (table va : BitVec 32)
    (shift : Nat) : BitVec 32 :=
  mem ((((va >>> shift) &&& 0x1FF) <<< 3) ||| (0xFFFFF000 &&& table))

/-- One of the first three descriptors is invalid. -/
def WalkStops (mem : BitVec 32 → BitVec 32) (pgtblBase va : BitVec 32) : Prop :=
  let first := wideDescriptor mem pgtblBase va 39
  let second := wideDescriptor mem first va 30
  let third := wideDescriptor mem second va 21
  first &&& 0x1 = 0 ∨ second &&& 0x1 = 0 ∨ third &&& 0x1 = 0

/-- The state before a round of `unmap_loop`. -/
structure AtLevel (caller : InitUtil) (level : Nat) (table : BitVec 32)
    (s : InitUtil) : Prop where
  r0 : s.r0 = caller.r0
  r10 : s.r10 = table
  r11 : s.r11 = BitVec.ofNat 32 (4 - level)
  r12 : s.r12 = BitVec.ofNat 32 (39 - level * 9)
  store : s.store = caller.store
  ttbr0 : s.ttbr0 = caller.ttbr0

theorem shift_toNat : ∀ level, level < 4 →
    (BitVec.ofNat 32 (39 - level * 9) &&& 0xFF).toNat = 39 - level * 9 := by
  decide

theorem counters_step : ∀ level, level < 3 →
    BitVec.ofNat 32 (4 - level) - 1 = BitVec.ofNat 32 (4 - (level + 1)) ∧
      BitVec.ofNat 32 (39 - level * 9) - 9 =
        BitVec.ofNat 32 (39 - (level + 1) * 9) ∧
      BitVec.ofNat 32 (4 - level) - 1 ≠ 0 := by
  decide

section Walk

variable {caller s : InitUtil} {level : Nat} {table : BitVec 32}

theorem AtLevel.fetch (here : AtLevel caller level table s) (below : level < 3) :
    AtLevel caller (level + 1)
        (wideDescriptor caller.mem table caller.r0 (39 - level * 9))
        s.descriptorAddress.fetch ∧
      s.descriptorAddress.r11 ≠ 0 := by
  obtain ⟨levels, shift, positive⟩ := counters_step level below
  have memory : s.mem = caller.mem := congrArg Radix.Store.mem here.store
  rw [← here.r11] at levels positive
  rw [← here.r12] at shift
  refine ⟨⟨here.r0, ?_, levels, shift, here.store, here.ttbr0⟩, positive⟩
  change s.mem ((((s.r0 >>> (s.r12 &&& 0xFF).toNat) &&& 0x1FF) <<< 3) |||
    (0xFFFFF000 &&& s.r10)) = _
  rw [memory, here.r0, here.r10, here.r12, shift_toNat level (by omega)]
  rfl

/-- The walk ends at an invalid descriptor and has written nothing. -/
theorem AtLevel.stops (here : AtLevel caller level table s) (below : level < 3)
    (invalid : wideDescriptor caller.mem table caller.r0 (39 - level * 9) &&& 0x1 = 0) :
    (∀ fuel, Loop.run unmapLoop (fuel + 1) s = some s) ∧
      s.unmapPage.store = caller.store ∧ s.unmapPage.ttbr0 = caller.ttbr0 := by
  obtain ⟨next, positive⟩ := here.fetch below
  have valid : s.descriptorAddress.fetch.r9 = 0 := by
    rw [← invalid, ← next.r10]
    rfl
  have left : s.unmapLoop = none := by
    unfold unmapLoop
    simp only [if_neg positive, valid, if_true]
  have out : s.unmapPage = s.descriptorAddress.fetch := if_neg positive
  refine ⟨?_, ?_⟩
  · intro fuel
    rw [Loop.run, left]
  · rw [out]
    exact ⟨next.store, next.ttbr0⟩

theorem AtLevel.goes (here : AtLevel caller level table s) (below : level < 3)
    (valid : wideDescriptor caller.mem table caller.r0 (39 - level * 9) &&& 0x1 ≠ 0) :
    s.unmapLoop = some s.descriptorAddress.fetch := by
  obtain ⟨next, positive⟩ := here.fetch below
  have read : s.descriptorAddress.fetch.r9 ≠ 0 := by
    rw [← next.r10] at valid
    exact valid
  unfold unmapLoop
  simp only [if_neg positive, if_neg read]

end Walk

/-- Where its walk stops, `unmap_va` changes nothing. -/
theorem unmapVa_of_stops {pgtblBase : BitVec 32} {s : InitUtil}
    (stops : WalkStops s.mem pgtblBase s.r0) :
    ∃ later, (∀ fuel, s.unmapVa pgtblBase (fuel + 4) = some later) ∧
      later.store = s.store ∧ later.ttbr0 = s.ttbr0 := by
  let start : InitUtil := { s with r10 := pgtblBase, r11 := 0x4, r12 := 39 }
  have first : AtLevel s 0 pgtblBase start := ⟨rfl, rfl, rfl, rfl, rfl, rfl⟩
  suffices ∃ last, (∀ fuel, Loop.run unmapLoop (fuel + 4) start = some last) ∧
      last.unmapPage.store = s.store ∧ last.unmapPage.ttbr0 = s.ttbr0 by
    obtain ⟨last, ran, kept⟩ := this
    exact ⟨_, fun fuel => Option.bind_eq_some_iff.mpr ⟨last, ran fuel, rfl⟩, kept⟩
  obtain ⟨second, _⟩ := first.fetch (by decide)
  obtain ⟨third, _⟩ := second.fetch (by decide)
  by_cases atFirst : wideDescriptor s.mem pgtblBase s.r0 39 &&& 0x1 = 0
  · obtain ⟨ran, kept⟩ := first.stops (by decide) atFirst
    exact ⟨start, fun fuel => ran (fuel + 3), kept⟩
  have turned := first.goes (by decide) atFirst
  by_cases atSecond : wideDescriptor s.mem
      (wideDescriptor s.mem pgtblBase s.r0 39) s.r0 30 &&& 0x1 = 0
  · obtain ⟨ran, kept⟩ := second.stops (by decide) atSecond
    refine ⟨_, ?_, kept⟩
    intro fuel
    rw [Loop.run, turned]
    exact ran (fuel + 2)
  have turned' := second.goes (by decide) atSecond
  have atThird := (stops.resolve_left atFirst).resolve_left atSecond
  obtain ⟨ran, kept⟩ := third.stops (by decide) atThird
  refine ⟨_, ?_, kept⟩
  intro fuel
  rw [Loop.run, turned]
  dsimp only
  rw [Loop.run, turned']
  exact ran (fuel + 1)

end InitUtil

end TzTest.Arm
