import TzTest.InitUtil.ArmMapVaToPa

/-!
# The ARM start-up mapping calls

`allocate_pa`, `map_va`, `map_pa` and the routines for ranges of `init_util.S`.
Pages come from one pool and tables from another, so that a call takes its page
whether or not `map_va_to_pa` finds the address mapped already.
-/

namespace TzTest.Arm

open BitField

/-- The tables and the registers, with the word at `INIT_STACK - 4`. -/
structure Startup extends InitUtil where
  nextPa : BitVec 32

namespace Startup

/-- `allocate_pa`, which saves `r10` and `r11`. -/
def allocatePa (s : Startup) : Startup :=
  { s with r0 := s.nextPa, nextPa := s.nextPa + 0x1000 }

def mapVaToPa (s : Startup) : Startup :=
  { s with toInitUtil := s.toInitUtil.mapVaToPa }

/-- `map_va`, which saves `r2` and `r10`. -/
def mapVa (caller : Startup) : Startup :=
  let s : Startup := { caller with r10 := caller.r0 }
  let s := s.allocatePa
  let s : Startup := { s with r2 := s.r0, r0 := s.r10 }
  let s := s.mapVaToPa
  { s with r2 := caller.r2, r10 := caller.r10 }

/-- `map_pa`, which saves `r2`. -/
def mapPa (caller : Startup) : Startup :=
  let s : Startup := { caller with r2 := caller.r0 }
  let s := s.mapVaToPa
  { s with r2 := caller.r2 }

/-- `map_va_loop` and `map_pa_loop`, with a bound on their rounds. -/
def rangeLoop (page : Startup → Startup) : Nat → Startup → Option Startup
  | 0, _ => none
  | rounds + 1, s =>
      if s.r2 = 0 then
        some s
      else
        let s := page s
        rangeLoop page rounds { s with r0 := s.r0 + 0x1000, r2 := s.r2 - 0x1000 }

/-- `map_va_range` and `map_pa_range`, which save `r0`, `r2` and `r8`.  The length
is rounded up to pages, so that its loop ends after as many rounds. -/
def range (page : Startup → Startup) (caller : Startup) : Option Startup := do
  let r8 : BitVec 32 := 0xFFF
  let r2 := caller.r2 + r8
  let r8 := 0xFFFFF000
  let r2 := r2 &&& r8
  let s ← rangeLoop page (r2.toNat / 0x1000 + 1) { caller with r2 := r2, r8 := r8 }
  return { s with r0 := caller.r0, r2 := caller.r2, r8 := caller.r8 }

def mapVaRange : Startup → Option Startup :=
  range mapVa

def mapPaRange : Startup → Option Startup :=
  range mapPa

end Startup

/-- The mapping calls of the start-up code, with their arguments. -/
inductive MapCall where
  | mapVaToPa (va pgprop pa : BitVec 32)
  | mapVa (va pgprop : BitVec 32)
  | mapPa (pa pgprop : BitVec 32)
  | mapVaRange (va pgprop len : BitVec 32)
  | mapPaRange (pa pgprop len : BitVec 32)

namespace MapCall

def run (s : Startup) : MapCall → Option Startup
  | mapVaToPa va pgprop pa =>
      some ({ s with r0 := va, r1 := pgprop, r2 := pa } : Startup).mapVaToPa
  | mapVa va pgprop => some ({ s with r0 := va, r1 := pgprop } : Startup).mapVa
  | mapPa pa pgprop => some ({ s with r0 := pa, r1 := pgprop } : Startup).mapPa
  | mapVaRange va pgprop len =>
      ({ s with r0 := va, r1 := pgprop, r2 := len } : Startup).mapVaRange
  | mapPaRange pa pgprop len =>
      ({ s with r0 := pa, r1 := pgprop, r2 := len } : Startup).mapPaRange

def runAll : List MapCall → Startup → Option Startup
  | [], s => some s
  | call :: calls, s => do
      let s ← call.run s
      runAll calls s

end MapCall

/-- A page that is mapped, to an address or to the next page of the pool. -/
structure Placement where
  va : BitVec 32
  pgprop : BitVec 32
  pa? : Option (BitVec 32)

/-- The tables with both pools. -/
structure PoolStore where
  store : Radix.Store (BitVec 32) (BitVec 32)
  nextPa : BitVec 32

/-- What `map_va_to_pa` makes of the tables: a last-level entry that is valid
stays. -/
def mapUnmapped (base va entry : BitVec 32)
    (store : Radix.Store (BitVec 32) (BitVec 32)) :
    Option (Radix.Store (BitVec 32) (BitVec 32)) := do
  let (table, store) ← initMapper.descendDirect va 1 0 base store
  return if store.mem (initMapper.entryOf 1 table va) &&& 0x3 = 0 then
      store.write (initMapper.entryOf 1 table va) entry
    else
      store

namespace Placement

/-- The page that it is mapped to, and the pool behind it. -/
def page (place : Placement) (nextPa : BitVec 32) : BitVec 32 × BitVec 32 :=
  match place.pa? with
  | some pa => (pa, nextPa)
  | none => (nextPa, nextPa + 0x1000)

def run (base : BitVec 32) (place : Placement) (pools : PoolStore) :
    Option PoolStore :=
  (mapUnmapped base place.va ((place.page pools.nextPa).1 ||| place.pgprop ||| 0x2)
    pools.store).map fun store => ⟨store, (place.page pools.nextPa).2⟩

def runAll (base : BitVec 32) : List Placement → PoolStore → Option PoolStore
  | [], pools => some pools
  | place :: places, pools => do
      let pools ← place.run base pools
      runAll base places pools

/-- The pages of a range. -/
def range (place : BitVec 32 → Placement) : Nat → BitVec 32 → List Placement
  | 0, _ => []
  | count + 1, va => place va :: range place count (va + 0x1000)

theorem runAll_append (base : BitVec 32) (first last : List Placement)
    (pools : PoolStore) :
    runAll base (first ++ last) pools =
      (runAll base first pools).bind (runAll base last) := by
  induction first generalizing pools with
  | nil => rfl
  | cons place first induction =>
      rw [List.cons_append, runAll, runAll]
      cases place.run base pools with
      | none => rfl
      | some pools => exact induction pools

end Placement

/-- The pages of a length that is rounded up. -/
def pageCount (len : BitVec 32) : Nat :=
  ((len + 0xFFF) &&& 0xFFFFF000).toNat / 0x1000

def MapCall.placements : MapCall → List Placement
  | mapVaToPa va pgprop pa => [⟨va, pgprop, some pa⟩]
  | mapVa va pgprop => [⟨va, pgprop, none⟩]
  | mapPa pa pgprop => [⟨pa, pgprop, some pa⟩]
  | mapVaRange va pgprop len =>
      Placement.range (fun va => ⟨va, pgprop, none⟩) (pageCount len) va
  | mapPaRange pa pgprop len =>
      Placement.range (fun pa => ⟨pa, pgprop, some pa⟩) (pageCount len) pa

/-- The tables are those below the base. -/
def InitUtil.At (base : BitVec 32) (s : InitUtil) : Prop :=
  s.ttbr0 &&& 0xFFFFC000 = base &&& 0xFFFFC000

def InitUtil.withStore (s : InitUtil)
    (store : Radix.Store (BitVec 32) (BitVec 32)) : InitUtil :=
  { s with mem := store.mem, nextL1Page := store.next }

namespace Startup

def pools (s : Startup) : PoolStore :=
  ⟨s.toInitUtil.store, s.nextPa⟩

def withPools (s : Startup) (pools : PoolStore) : Startup :=
  ⟨s.toInitUtil.withStore pools.store, pools.nextPa⟩

end Startup

section Equations

variable {base : BitVec 32}

/-- `map_va_to_pa` changes nothing but the tables and their pool. -/
theorem InitUtil.mapVaToPa_eq {s : InitUtil} (at' : s.At base) :
    some s.mapVaToPa =
      (mapUnmapped base s.r0 (s.r2 ||| s.r1 ||| 0x2) s.store).map s.withStore := by
  obtain ⟨down, r0, r1, r2, ttbr0⟩ := toL2_descends at'
  obtain ⟨_, outcome⟩ := mapVaToPa_store at'
  have kept : s.mapVaToPa = s.withStore s.mapVaToPa.store := by
    unfold InitUtil.mapVaToPa
    simp only
    split
    · change InitUtil.mk _ _ s.toL2.ttbr0 s.toL2.r0 s.toL2.r1 s.toL2.r2 _ _ _ _ _ _ = _
      rw [ttbr0, r0, r1, r2]
      rfl
    · change InitUtil.mk _ _ s.toL2.ttbr0 s.toL2.r0 s.toL2.r1 s.toL2.r2 _ _ _ _ _ _ = _
      rw [ttbr0, r0, r1, r2]
      rfl
  rw [kept, outcome, mapUnmapped, down]
  rfl

namespace Startup

theorem mapVaToPa_eq {s : Startup} (at' : s.At base) :
    some s.mapVaToPa =
      (mapUnmapped base s.r0 (s.r2 ||| s.r1 ||| 0x2) s.store).map fun store =>
        s.withPools ⟨store, s.nextPa⟩ := by
  have whole := congrArg
    (Option.map fun init => ({ s with toInitUtil := init } : Startup))
    (InitUtil.mapVaToPa_eq at')
  rw [Option.map_map] at whole
  exact whole

theorem mapVa_eq {s : Startup} (at' : s.At base) :
    some s.mapVa =
      (Placement.run base ⟨s.r0, s.r1, none⟩ s.pools).map s.withPools := by
  let called : Startup :=
    { s with r10 := s.r0, r2 := s.nextPa, nextPa := s.nextPa + 0x1000 }
  have mapped : some called.mapVaToPa = _ := mapVaToPa_eq at'
  have whole := congrArg
    (Option.map fun later : Startup => { later with r2 := s.r2, r10 := s.r10 }) mapped
  rw [Option.map_map] at whole
  refine Eq.trans whole ?_
  rw [Placement.run, Option.map_map]
  rfl

theorem mapPa_eq {s : Startup} (at' : s.At base) :
    some s.mapPa =
      (Placement.run base ⟨s.r0, s.r1, some s.r0⟩ s.pools).map s.withPools := by
  let called : Startup := { s with r2 := s.r0 }
  have mapped : some called.mapVaToPa = _ := mapVaToPa_eq at'
  have whole := congrArg
    (Option.map fun later : Startup => { later with r2 := s.r2 }) mapped
  rw [Option.map_map] at whole
  refine Eq.trans whole ?_
  rw [Placement.run, Option.map_map]
  rfl

theorem toNat_sub_page {len : BitVec 32} {count : Nat}
    (length : len.toNat = 0x1000 * (count + 1)) :
    (len - 0x1000).toNat = 0x1000 * count := by
  have small := len.isLt
  bv_omega

/-- The loop maps the pages of its length. -/
theorem rangeLoop_eq {page : Startup → Startup}
    {place : BitVec 32 → BitVec 32 → Placement}
    (pages : ∀ s : Startup, s.At base → some (page s) =
      (Placement.run base (place s.r1 s.r0) s.pools).map s.withPools)
    {count : Nat} {s : Startup} (at' : s.At base) (length : s.r2.toNat = 0x1000 * count) :
    ∃ last, rangeLoop page (count + 1) s = some last ∧ last.At base ∧
      Placement.runAll base (Placement.range (place s.r1) count s.r0) s.pools =
        some last.pools := by
  induction count generalizing s with
  | zero =>
      have done : s.r2 = 0 := BitVec.eq_of_toNat_eq length
      rw [rangeLoop, if_pos done]
      exact ⟨s, rfl, at', rfl⟩
  | succ count induction =>
      have more : s.r2 ≠ 0 := by
        intro done
        rw [done] at length
        cases length
      obtain ⟨pools, ran, later⟩ := Option.map_eq_some_iff.mp (pages s at').symm
      rw [rangeLoop, if_neg more, ← later]
      obtain ⟨last, looped, after, rest⟩ := @induction
        { s.withPools pools with r0 := s.r0 + 0x1000, r2 := s.r2 - 0x1000 } at'
        (toNat_sub_page length)
      refine ⟨last, looped, after, ?_⟩
      rw [Placement.range, Placement.runAll, ran]
      exact rest

theorem rounded_toNat (len : BitVec 32) :
    ((len + 0xFFF) &&& 0xFFFFF000).toNat = 0x1000 * pageCount len := by
  have whole : ((len + 0xFFF) &&& 0xFFFFF000 : BitVec 32).toNat % 0x1000 = 0 :=
    (within_and_mask (by decide : IsMask (0xFFFFF000 : BitVec 32) 12 32) _).toNat_mod
  exact (Nat.mul_div_cancel' (Nat.dvd_of_mod_eq_zero whole)).symm

theorem range_eq {page : Startup → Startup}
    {place : BitVec 32 → BitVec 32 → Placement}
    (pages : ∀ s : Startup, s.At base → some (page s) =
      (Placement.run base (place s.r1 s.r0) s.pools).map s.withPools)
    {s : Startup} (at' : s.At base) :
    ∃ last, range page s = some last ∧ last.At base ∧
      Placement.runAll base (Placement.range (place s.r1) (pageCount s.r2) s.r0) s.pools =
        some last.pools := by
  obtain ⟨last, looped, after, ran⟩ := @rangeLoop_eq base page place pages (pageCount s.r2)
    { s with r2 := (s.r2 + 0xFFF) &&& 0xFFFFF000, r8 := 0xFFFFF000 } at'
    (rounded_toNat s.r2)
  exact ⟨_, Option.bind_eq_some_iff.mpr ⟨last, looped, rfl⟩, after, ran⟩

end Startup

theorem Placement.runAll_single (place : Placement) (pools : PoolStore) :
    runAll base [place] pools = place.run base pools := by
  rw [runAll]
  cases place.run base pools with
  | none => rfl
  | some later => rfl

/-- A call comes back and has mapped its pages one after the other. -/
theorem MapCall.run_eq (call : MapCall) {s : Startup} (at' : s.At base) :
    ∃ later, call.run s = some later ∧ later.At base ∧
      Placement.runAll base call.placements s.pools = some later.pools := by
  cases call with
  | mapVaToPa va pgprop pa =>
      let called : Startup := { s with r0 := va, r1 := pgprop, r2 := pa }
      obtain ⟨store, ran, later⟩ := Option.map_eq_some_iff.mp
        (Startup.mapVaToPa_eq (s := called) at').symm
      refine ⟨_, rfl, ?_, ?_⟩
      · rw [← later]
        exact at'
      · rw [← later, placements, Placement.runAll_single]
        exact Option.map_eq_some_iff.mpr ⟨store, ran, rfl⟩
  | mapVa va pgprop =>
      let called : Startup := { s with r0 := va, r1 := pgprop }
      obtain ⟨pools, ran, later⟩ := Option.map_eq_some_iff.mp
        (Startup.mapVa_eq (s := called) at').symm
      refine ⟨_, rfl, ?_, ?_⟩
      · rw [← later]
        exact at'
      · rw [← later, placements, Placement.runAll_single]
        exact ran
  | mapPa pa pgprop =>
      let called : Startup := { s with r0 := pa, r1 := pgprop }
      obtain ⟨pools, ran, later⟩ := Option.map_eq_some_iff.mp
        (Startup.mapPa_eq (s := called) at').symm
      refine ⟨_, rfl, ?_, ?_⟩
      · rw [← later]
        exact at'
      · rw [← later, placements, Placement.runAll_single]
        exact ran
  | mapVaRange va pgprop len =>
      exact @Startup.range_eq base _ (fun r1 r0 => ⟨r0, r1, none⟩)
        (fun _ at' => Startup.mapVa_eq at')
        { s with r0 := va, r1 := pgprop, r2 := len } at'
  | mapPaRange pa pgprop len =>
      exact @Startup.range_eq base _ (fun r1 r0 => ⟨r0, r1, some r0⟩)
        (fun _ at' => Startup.mapPa_eq at')
        { s with r0 := pa, r1 := pgprop, r2 := len } at'

theorem MapCall.runAll_eq (calls : List MapCall) {s : Startup} (at' : s.At base) :
    ∃ later, runAll calls s = some later ∧
      Placement.runAll base (calls.flatMap placements) s.pools = some later.pools := by
  induction calls generalizing s with
  | nil => exact ⟨s, rfl, rfl⟩
  | cons call calls induction =>
      obtain ⟨middle, first, after, mapped⟩ := call.run_eq at'
      obtain ⟨later, rest, ran⟩ := induction after
      refine ⟨later, Option.bind_eq_some_iff.mpr ⟨middle, first, rest⟩, ?_⟩
      rw [List.flatMap_cons, Placement.runAll_append, mapped]
      exact ran

end Equations

end TzTest.Arm
