import TzTest.InitUtil.MapVaToPa

/-!
# The AArch64 start-up mapping calls

`map_va`, `map_pa` and the routines for ranges of `init_util.S`.  The loops count
their length down to zero, page by page; a sequence of calls maps one page after
the other.
-/

namespace TzTest.Aarch64

open BitField

namespace InitUtil

/-- `map_va`, which saves `x2` and `x10`. -/
def mapVa (ptBase : BitVec 64) (caller : InitUtil) : Option InitUtil := do
  let s : InitUtil := { caller with x10 := caller.x0 }
  let s := s.allocatePa
  let s : InitUtil := { s with x2 := s.x0, x0 := s.x10 }
  let s ← s.mapVaToPa ptBase 4
  return { s with x2 := caller.x2, x10 := caller.x10 }

/-- `map_pa`, which saves `x2`. -/
def mapPa (ptBase : BitVec 64) (caller : InitUtil) : Option InitUtil := do
  let s : InitUtil := { caller with x2 := caller.x0 }
  let s ← s.mapVaToPa ptBase 4
  return { s with x2 := caller.x2 }

/-- `map_va_loop` and `map_pa_loop`, with a bound on their rounds. -/
def rangeLoop (page : InitUtil → Option InitUtil) : Nat → InitUtil → Option InitUtil
  | 0, _ => none
  | rounds + 1, s =>
      if s.x2 = 0 then
        some s
      else do
        let s ← page s
        rangeLoop page rounds { s with x0 := s.x0 + 0x1000, x2 := s.x2 - 0x1000 }

/-- `map_va_range` and `map_pa_range`, which save `x0` and `x2`.  The length is
rounded up to pages, so that its loop ends after as many rounds. -/
def range (page : InitUtil → Option InitUtil) (caller : InitUtil) :
    Option InitUtil := do
  let x2 := caller.x2 + 0xFFF
  let x2 := x2 &&& ~~~0xFFF
  let s ← rangeLoop page (x2.toNat / 0x1000 + 1) { caller with x2 := x2 }
  return { s with x0 := caller.x0, x2 := caller.x2 }

def mapVaRange (ptBase : BitVec 64) : InitUtil → Option InitUtil :=
  range (mapVa ptBase)

def mapPaRange (ptBase : BitVec 64) : InitUtil → Option InitUtil :=
  range (mapPa ptBase)

def withStore (s : InitUtil) (store : Radix.Store (BitVec 64) (BitVec 64)) :
    InitUtil :=
  { s with mem := store.mem, nextPa := store.next }

end InitUtil

/-- The mapping calls of the start-up code, with their arguments. -/
inductive MapCall where
  | mapVaToPa (va pgprop pa : BitVec 64)
  | mapVa (va pgprop : BitVec 64)
  | mapPa (pa pgprop : BitVec 64)
  | mapVaRange (va pgprop len : BitVec 64)
  | mapPaRange (pa pgprop len : BitVec 64)

namespace MapCall

def run (ptBase : BitVec 64) (s : InitUtil) : MapCall → Option InitUtil
  | mapVaToPa va pgprop pa =>
      ({ s with x0 := va, x1 := pgprop, x2 := pa } : InitUtil).mapVaToPa ptBase 4
  | mapVa va pgprop => ({ s with x0 := va, x1 := pgprop } : InitUtil).mapVa ptBase
  | mapPa pa pgprop => ({ s with x0 := pa, x1 := pgprop } : InitUtil).mapPa ptBase
  | mapVaRange va pgprop len =>
      ({ s with x0 := va, x1 := pgprop, x2 := len } : InitUtil).mapVaRange ptBase
  | mapPaRange pa pgprop len =>
      ({ s with x0 := pa, x1 := pgprop, x2 := len } : InitUtil).mapPaRange ptBase

def runAll (ptBase : BitVec 64) : List MapCall → InitUtil → Option InitUtil
  | [], s => some s
  | call :: calls, s => do
      let s ← call.run ptBase s
      runAll ptBase calls s

end MapCall

/-- A page that is mapped, to an address or to the next page of the pool. -/
structure Placement where
  va : BitVec 64
  pgprop : BitVec 64
  pa? : Option (BitVec 64)

namespace Placement

/-- The page that it is mapped to, and the pool behind it. -/
def page (place : Placement) (store : Radix.Store (BitVec 64) (BitVec 64)) :
    BitVec 64 × Radix.Store (BitVec 64) (BitVec 64) :=
  match place.pa? with
  | some pa => (pa, store)
  | none => (store.next, ⟨store.mem, store.next + 0x1000⟩)

def run (base : BitVec 64) (place : Placement)
    (store : Radix.Store (BitVec 64) (BitVec 64)) :
    Option (Radix.Store (BitVec 64) (BitVec 64)) :=
  initMapper.mapDirect base place.va (place.pgprop ||| (place.page store).1)
    (place.page store).2

def runAll (base : BitVec 64) : List Placement →
    Radix.Store (BitVec 64) (BitVec 64) → Option (Radix.Store (BitVec 64) (BitVec 64))
  | [], store => some store
  | place :: places, store => do
      let store ← place.run base store
      runAll base places store

/-- The pages of a range. -/
def range (place : BitVec 64 → Placement) : Nat → BitVec 64 → List Placement
  | 0, _ => []
  | count + 1, va => place va :: range place count (va + 0x1000)

theorem runAll_append (base : BitVec 64) (first last : List Placement)
    (store : Radix.Store (BitVec 64) (BitVec 64)) :
    runAll base (first ++ last) store =
      (runAll base first store).bind (runAll base last) := by
  induction first generalizing store with
  | nil => rfl
  | cons place first induction =>
      rw [List.cons_append, runAll, runAll]
      cases place.run base store with
      | none => rfl
      | some store => exact induction store

end Placement

/-- The pages of a length that is rounded up. -/
def pageCount (len : BitVec 64) : Nat :=
  ((len + 0xFFF) &&& ~~~0xFFF).toNat / 0x1000

def MapCall.placements : MapCall → List Placement
  | mapVaToPa va pgprop pa => [⟨va, pgprop, some pa⟩]
  | mapVa va pgprop => [⟨va, pgprop, none⟩]
  | mapPa pa pgprop => [⟨pa, pgprop, some pa⟩]
  | mapVaRange va pgprop len => 
      Placement.range (fun va => ⟨va, pgprop, none⟩) (pageCount len) va
  | mapPaRange pa pgprop len => 
      Placement.range (fun pa => ⟨pa, pgprop, some pa⟩) (pageCount len) pa

namespace InitUtil

variable {base : BitVec 64}

theorem AtLevel.leave_eq {caller bottom : InitUtil} {last : BitVec 64}
    {store : Radix.Store (BitVec 64) (BitVec 64)}
    (arrived : AtLevel caller 3 last store bottom) :
    caller.leave bottom.descriptorAddress.mapDone =
      caller.withStore (store.write (initMapper.entryOf 3 last caller.x0)
        (caller.x1 ||| caller.x2)) := by
  change InitUtil.mk (Function.update bottom.mem bottom.descriptorAddress.x10
    (bottom.x1 ||| bottom.x2)) bottom.nextPa bottom.x0 bottom.x1 bottom.x2 _ _ _ _ _ = _
  rw [arrived.x10 (le_refl _), arrived.x0, arrived.x1, arrived.x2, arrived.mem,
    arrived.nextPa]
  rfl

theorem mapVaToPa_eq (aligned : Within base 12 64) (s : InitUtil) :
    s.mapVaToPa base 4 =
      (initMapper.mapDirect base s.x0 (s.x1 ||| s.x2) s.store).map s.withStore := by
  obtain ⟨⟨last, later⟩, down⟩ :=
    initMapper.descendDirect_ends s.x0 3 0 base s.store
  obtain ⟨bottom, looped, arrived⟩ :=
    mapLoop_descends (Nat.zero_add 3) (atLevel_enter aligned s) down
  have ran : initMapper.mapDirect base s.x0 (s.x1 ||| s.x2) s.store =
      some (later.write (initMapper.entryOf 3 last s.x0) (s.x1 ||| s.x2)) :=
    Option.bind_eq_some_iff.mpr ⟨_, down, rfl⟩
  rw [ran, Option.map_some, ← arrived.leave_eq]
  exact Option.bind_eq_some_iff.mpr ⟨bottom, looped 0, rfl⟩

theorem mapVa_eq (aligned : Within base 12 64) (s : InitUtil) :
    s.mapVa base =
      (Placement.run base ⟨s.x0, s.x1, none⟩ s.store).map s.withStore := by
  simp only [mapVa, allocatePa, mapVaToPa_eq aligned, Placement.run, Placement.page, store]
  cases initMapper.mapDirect base s.x0 (s.x1 ||| s.nextPa) ⟨s.mem, s.nextPa + 0x1000⟩ with
  | none => rfl
  | some later => rfl

theorem mapPa_eq (aligned : Within base 12 64) (s : InitUtil) :
    s.mapPa base =
      (Placement.run base ⟨s.x0, s.x1, some s.x0⟩ s.store).map s.withStore := by
  simp only [mapPa, mapVaToPa_eq aligned, Placement.run, Placement.page, store]
  cases initMapper.mapDirect base s.x0 (s.x1 ||| s.x0) ⟨s.mem, s.nextPa⟩ with
  | none => rfl
  | some later => rfl

theorem toNat_sub_page {len : BitVec 64} {count : Nat}
    (length : len.toNat = 0x1000 * (count + 1)) :
    (len - 0x1000).toNat = 0x1000 * count := by
  have small := len.isLt
  bv_omega

/-- The loop maps the pages of its length. -/
theorem rangeLoop_eq {page : InitUtil → Option InitUtil}
    {place : BitVec 64 → BitVec 64 → Placement}
    (pages : ∀ s : InitUtil, page s =
      (Placement.run base (place s.x1 s.x0) s.store).map s.withStore)
    {count : Nat} {s : InitUtil} (length : s.x2.toNat = 0x1000 * count) :
    (rangeLoop page (count + 1) s).map store =
      Placement.runAll base (Placement.range (place s.x1) count s.x0) s.store := by
  induction count generalizing s with
  | zero =>
      have done : s.x2 = 0 := BitVec.eq_of_toNat_eq length
      rw [rangeLoop, if_pos done]
      rfl
  | succ count induction =>
      have more : s.x2 ≠ 0 := by
        intro done
        rw [done] at length
        cases length
      rw [rangeLoop, if_neg more, pages, Placement.range, Placement.runAll]
      cases ran : Placement.run base (place s.x1 s.x0) s.store with
      | none => rfl
      | some later =>
          have rest := @induction
            { s.withStore later with x0 := s.x0 + 0x1000, x2 := s.x2 - 0x1000 }
            (toNat_sub_page length)
          exact rest

theorem rounded_toNat (len : BitVec 64) :
    ((len + 0xFFF) &&& ~~~0xFFF).toNat = 0x1000 * pageCount len := by
  have whole : ((len + 0xFFF) &&& ~~~0xFFF : BitVec 64).toNat % 0x1000 = 0 :=
    (within_and_mask (by decide : IsMask (~~~0xFFF : BitVec 64) 12 64) _).toNat_mod
  exact (Nat.mul_div_cancel' (Nat.dvd_of_mod_eq_zero whole)).symm

theorem range_eq {page : InitUtil → Option InitUtil}
    {place : BitVec 64 → BitVec 64 → Placement}
    (pages : ∀ s : InitUtil, page s =
      (Placement.run base (place s.x1 s.x0) s.store).map s.withStore)
    (s : InitUtil) :
    (range page s).map store =
      Placement.runAll base (Placement.range (place s.x1) (pageCount s.x2) s.x0)
        s.store := by
  have loop := @rangeLoop_eq base page place pages (pageCount s.x2)
    { s with x2 := (s.x2 + 0xFFF) &&& ~~~0xFFF } (rounded_toNat s.x2)
  refine Eq.trans ?_ loop
  rw [range]
  change Option.map store (Option.bind (rangeLoop page (pageCount s.x2 + 1) _) _) = _
  cases rangeLoop page (pageCount s.x2 + 1)
      { s with x2 := (s.x2 + 0xFFF) &&& ~~~0xFFF } with
  | none => rfl
  | some last => rfl

end InitUtil

section Calls

variable {base : BitVec 64}

theorem Placement.runAll_single (place : Placement)
    (store : Radix.Store (BitVec 64) (BitVec 64)) :
    runAll base [place] store = place.run base store := by
  rw [runAll]
  cases place.run base store with
  | none => rfl
  | some later => rfl

theorem map_store_withStore (s : InitUtil)
    (result : Option (Radix.Store (BitVec 64) (BitVec 64))) :
    (result.map s.withStore).map InitUtil.store = result := by
  cases result with
  | none => rfl
  | some later => rfl

/-- A call maps its pages one after the other. -/
theorem MapCall.run_eq (aligned : Within base 12 64) (call : MapCall) (s : InitUtil) :
    (call.run base s).map InitUtil.store =
      Placement.runAll base call.placements s.store := by
  cases call with
  | mapVaToPa va pgprop pa =>
      rw [run, InitUtil.mapVaToPa_eq aligned, map_store_withStore, placements,
        Placement.runAll_single]
      rfl
  | mapVa va pgprop =>
      rw [run, InitUtil.mapVa_eq aligned, map_store_withStore, placements,
        Placement.runAll_single]
      rfl
  | mapPa pa pgprop =>
      rw [run, InitUtil.mapPa_eq aligned, map_store_withStore, placements,
        Placement.runAll_single]
      rfl
  | mapVaRange va pgprop len =>
      exact @InitUtil.range_eq base _ (fun x1 x0 => ⟨x0, x1, none⟩)
        (InitUtil.mapVa_eq aligned) _
  | mapPaRange pa pgprop len =>
      exact @InitUtil.range_eq base _ (fun x1 x0 => ⟨x0, x1, some x0⟩)
        (InitUtil.mapPa_eq aligned) _

theorem MapCall.runAll_eq (aligned : Within base 12 64) (calls : List MapCall)
    (s : InitUtil) :
    (runAll base calls s).map InitUtil.store =
      Placement.runAll base (calls.flatMap placements) s.store := by
  induction calls generalizing s with
  | nil => rfl
  | cons call calls induction =>
      rw [List.flatMap_cons, Placement.runAll_append, ← call.run_eq aligned, runAll]
      cases call.run base s with
      | none => rfl
      | some later => exact induction later

end Calls

end TzTest.Aarch64
