import TzTest.Loader.Rejection
import TzTest.Paging.Beside

/-!
# The memory of the loader

The loader reads and writes bytes through the tables of EL1 while it changes
them.  A byte lies in a word of the memory that holds the tables too.
-/

namespace TzTest

open Radix

variable {arch : Arch}

/-- The word that a byte lies in. -/
def wordBase (pa : Word arch) : Word arch :=
  BitVec.ofNat arch.width (pa.toNat / wordBytes arch * wordBytes arch)

/-- The place of a byte in its word. -/
def byteLane (pa : Word arch) : Nat :=
  pa.toNat % wordBytes arch

namespace MemUtil

def byteAt (s : MemUtil arch.width) (pa : Word arch) : BitVec 8 :=
  (s.mem (wordBase pa)).extractLsb' (8 * byteLane pa) 8

/-- The word with a byte of it replaced. -/
def replaceByte (word : Word arch) (lane : Nat) (byte : BitVec 8) : Word arch :=
  (word &&& ~~~((0xFF : Word arch) <<< (8 * lane))) |||
    byte.setWidth arch.width <<< (8 * lane)

def storeByte (s : MemUtil arch.width) (pa : Word arch) (byte : BitVec 8) :
    MemUtil arch.width :=
  s.write (wordBase pa) (replaceByte (s.mem (wordBase pa)) (byteLane pa) byte)

end MemUtil

theorem byteLane_lt (pa : Word arch) : byteLane pa < wordBytes arch :=
  Nat.mod_lt _ (wordBytes_pos arch)

theorem wordBase_toNat (pa : Word arch) :
    (wordBase pa).toNat = pa.toNat / wordBytes arch * wordBytes arch := by
  have small := Nat.lt_of_le_of_lt (Nat.div_mul_le_self pa.toNat (wordBytes arch)) pa.isLt
  rw [wordBase, BitVec.toNat_ofNat, Nat.mod_eq_of_lt small]

theorem eq_of_wordBase {left right : Word arch} (same : wordBase left = wordBase right)
    (lane : byteLane left = byteLane right) : left = right := by
  have words := congrArg BitVec.toNat same
  rw [wordBase_toNat, wordBase_toNat] at words
  apply BitVec.eq_of_toNat_eq
  rw [← Nat.div_add_mod' left.toNat (wordBytes arch), words]
  change _ + byteLane left = _
  rw [lane]
  exact Nat.div_add_mod' right.toNat (wordBytes arch)

/-- The word of a byte lies in the page of the byte. -/
theorem wordBase_page {page : Word arch} (aligned : page.toNat % 0x1000 = 0)
    (pa : Word arch) :
    wordBase pa ∈ range page.toNat (page.toNat + 0x1000) ↔
      pa ∈ range page.toNat (page.toNat + 0x1000) := by
  have place := wordBase_toNat pa
  have bytes : wordBytes arch = 8 ∨ wordBytes arch = 4 := by
    cases arch
    · exact .inl rfl
    · exact .inr rfl
  change page.toNat ≤ (wordBase pa).toNat ∧ (wordBase pa).toNat < page.toNat + 0x1000 ↔
    page.toNat ≤ pa.toNat ∧ pa.toNat < page.toNat + 0x1000
  rcases bytes with eight | four
  · rw [eight] at place
    omega
  · rw [four] at place
    omega

/-- A byte of a word of which a byte was replaced. -/
theorem extractLsb'_replace {width : Nat} (word : BitVec width) {place place' : Nat}
    (inside : place + 8 ≤ width) (inside' : place' + 8 ≤ width)
    (apart : place' = place ∨ place' + 8 ≤ place ∨ place + 8 ≤ place')
    (byte : BitVec 8) :
    ((word &&& ~~~(BitVec.ofNat width 0xFF <<< place)) |||
        byte.setWidth width <<< place).extractLsb' place' 8 =
      if place' = place then byte else word.extractLsb' place' 8 := by
  have mask (index : Nat) : (BitVec.ofNat width 0xFF).getLsbD index =
      (decide (index < width) && decide (index < 8)) :=
    (BitVec.getLsbD_ofNat ..).trans
      (congrArg (decide (index < width) && ·) (Nat.testBit_two_pow_sub_one 8 index))
  apply BitVec.eq_of_getLsbD_eq
  intro bit below
  have wide : place' + bit < width := by omega
  simp only [BitVec.getLsbD_extractLsb', BitVec.getLsbD_or, BitVec.getLsbD_and,
    BitVec.getLsbD_not, BitVec.getLsbD_shiftLeft, BitVec.getLsbD_setWidth, mask]
  by_cases same : place' = place
  · subst same
    have low : ¬place' + bit < place' := by omega
    have high : bit < width := by omega
    simp [below, wide, low, high]
  · rw [if_neg same]
    by_cases under : place' + bit < place
    · simp [below, wide, under]
    · have far : ¬place' + bit - place < 8 := by omega
      have none : byte.getLsbD (place' + bit - place) = false :=
        BitVec.getLsbD_of_ge _ _ (by omega)
      simp [below, wide, under, far, none]

theorem extractLsb'_replaceByte (word : Word arch) {lane lane' : Nat}
    (inside : lane < wordBytes arch) (inside' : lane' < wordBytes arch)
    (byte : BitVec 8) :
    (MemUtil.replaceByte word lane byte).extractLsb' (8 * lane') 8 =
      if lane' = lane then byte else word.extractLsb' (8 * lane') 8 := by
  have wide : 8 * wordBytes arch = arch.width := by cases arch <;> rfl
  have replaced := @extractLsb'_replace arch.width word (8 * lane) (8 * lane')
    (by omega) (by omega) (by omega) byte
  have same : 8 * lane' = 8 * lane ↔ lane' = lane := by omega
  simp only [same] at replaced
  exact replaced

theorem byteAt_storeByte (s : MemUtil arch.width) (pa other : Word arch)
    (byte : BitVec 8) :
    (s.storeByte pa byte).byteAt other = if other = pa then byte else s.byteAt other := by
  unfold MemUtil.storeByte MemUtil.byteAt
  rw [MemUtil.mem_write]
  by_cases words : wordBase other = wordBase pa
  · rw [words, Function.update_self,
      extractLsb'_replaceByte _ (byteLane_lt pa) (byteLane_lt other)]
    have same : byteLane other = byteLane pa ↔ other = pa :=
      ⟨eq_of_wordBase words, congrArg byteLane⟩
    simp only [same]
  · have different : other ≠ pa := fun same => words (congrArg wordBase same)
    rw [Function.update_of_ne words, if_neg different]

theorem byteAt_congr {s later : MemUtil arch.width} {pa : Word arch}
    (same : later.mem (wordBase pa) = s.mem (wordBase pa)) :
    later.byteAt pa = s.byteAt pa := by
  unfold MemUtil.byteAt
  rw [same]

/-- The physical address behind an address, if it is mapped. -/
def physical (base va : Word arch) (s : MemUtil arch.width) : Option (Word arch) :=
  (translate s.mem base va).map fun leaf =>
    leaf.pa + BitVec.ofNat arch.width (va.toNat % 0x1000)

/-- `el1_load_el0` in an image of EL1. -/
def el1Linkage (base : Word arch) (fuel : Nat)
    (smcExit : MemUtil arch.width → Option (MemUtil arch.width)) :
    Loader.Linkage arch (MemUtil arch.width) where
  load va s := (physical base va s).map s.byteAt
  store va byte s := (physical base va s).map fun pa => s.storeByte pa byte
  memMapPa vaddr paddr := memMapPa base fuel vaddr paddr 0 (pteUserRw arch)
  memMapVa addr := memMapVa base fuel addr 0 (pteUserRw arch)
  memUnmapVa addr s := some (memUnmapVa base addr s).2
  smcExit := smcExit

/-- An access to a page that is not mapped at its moment. -/
def Loader.Event.Faults (base : Word arch) :
    Loader.Event arch (MemUtil arch.width) → Prop
  | .load va s => translate s.mem base va = none
  | .store va s => translate s.mem base va = none
  | .mapPa _ => False
  | .mapVa _ => False
  | .unmapVa _ => False
  | .smcExit => False
  | .entry _ => False
  | .exceptionReturn _ => False

section Accesses

open Loader Logged

variable {base : Word arch} {fuel : Nat} {s : MemUtil arch.width}
variable {smcExit : MemUtil arch.width → Option (MemUtil arch.width)}

theorem physical_none {va : Word arch} :
    physical base va s = none ↔ translate s.mem base va = none :=
  Option.map_eq_none_iff

theorem result_load {va pa : Word arch} (mapped : physical base va s = some pa) :
    result (load (el1Linkage base fuel smcExit) va) s = some (s.byteAt pa, s) := by
  change result (tell _ >>= fun _ => attempt _) s = _
  rw [result_bind_of_some (result_tell _ s), result_attempt]
  change ((physical base va s).map s.byteAt).map _ = _
  rw [mapped]
  rfl

theorem attempts_load {va : Word arch} {bad : Event arch (MemUtil arch.width) → Prop}
    (cut : physical base va s = none → bad (.load va s)) :
    Attempts bad (load (el1Linkage base fuel smcExit) va) s
      fun byte later => later = s ∧
        ∃ pa, physical base va s = some pa ∧ byte = s.byteAt pa := by
  cases mapped : physical base va s with
  | none =>
      refine .inl ⟨?_, .load va s, log_bind_left (List.mem_singleton.mpr rfl), cut mapped⟩
      change result (tell _ >>= fun _ => attempt _) s = _
      rw [result_bind_of_some (result_tell _ s), result_attempt]
      change ((physical base va s).map s.byteAt).map _ = _
      rw [mapped]
      rfl
  | some pa => exact attempts_of_some (result_load mapped) ⟨rfl, pa, rfl, rfl⟩

theorem result_call {event : MemUtil arch.width → Event arch (MemUtil arch.width)}
    {effect : MemUtil arch.width → Option (MemUtil arch.width)}
    {later : MemUtil arch.width} (ran : effect s = some later) :
    result (call event effect) s = some ((), later) := by
  change result (tell _ >>= fun _ => attempt _) s = _
  rw [result_bind_of_some (result_tell _ s), result_attempt, ran]
  rfl

end Accesses

end TzTest
