import TzTest.Paging.Refinement

/-!
# Which table calls come back

`mem_map_pa` maps the pages that it takes for tables before it links them, and
`mem_heap_allocate` counts its offset in a machine word.  Both come back while
the pages taken for tables have their last-level table already and the length
leaves the offset room to pass it; a longer length keeps the loop going forever.
-/

namespace TzTest

open Radix

variable {arch : Arch}

/-- The calls of the loop of `mem_heap_allocate`. -/
def heapOps (memHeapPool : Word arch) : (rounds : Nat) → (off : Word arch) →
    List (MemOp arch)
  | 0, _ => []
  | rounds + 1, off =>
      .mapVa (memHeapPool + off) (pteUserRw arch) ::
        heapOps memHeapPool rounds (off + 0x1000)

/-- The rounds that an unbounded offset would take to reach the length. -/
def heapRounds (len : Word arch) : Nat :=
  (len.toNat + 0xFFF) / 0x1000

/-- The greatest length that the offset can pass. -/
def heapLimit (arch : Arch) : Nat :=
  2 ^ arch.width - 0x1000

/-- The calls that the images make. -/
inductive PagingCall (arch : Arch) where
  | single (op : MemOp arch)
  | heapAllocate (len : Word arch)

namespace PagingCall

variable (base : Word arch)

def run (fuel rounds : Nat) : PagingCall arch → MemUtil arch.width →
    Option (MemUtil arch.width)
  | single op, s => op.run base fuel s
  | heapAllocate len, s => (memHeapAllocate base fuel rounds len s).map Prod.snd

def runAll (fuel rounds : Nat) : List (PagingCall arch) → MemUtil arch.width →
    Option (MemUtil arch.width)
  | [], s => some s
  | call :: calls, s => do
      let s ← call.run base fuel rounds s
      runAll fuel rounds calls s

/-- The condition on a call: the length, and the pages taken for tables. -/
def Fits (stop : Nat) : PagingCall arch → MemUtil arch.width → Prop
  | single op, s => op.Fits base stop s
  | heapAllocate len, s =>
      len.toNat ≤ heapLimit arch ∧
        MemOp.FitsAll base stop (heapOps s.memHeapPool (heapRounds len) 0) s

/-- Every call of the sequence meets the condition where it is made. -/
def FitsAll (stop : Nat) : List (PagingCall arch) → MemUtil arch.width → Prop
  | [], _ => True
  | call :: calls, s =>
      call.Fits base stop s ∧
        ∀ fuel rounds later, call.run base fuel rounds s = some later →
          FitsAll stop calls later

end PagingCall

variable {base : Word arch} {stop : Nat} {s : MemUtil arch.width}

theorem memMapVa_heapPool {fuel : Nat} {addr pgattr : Word arch}
    {later : MemUtil arch.width}
    (ran : memMapVa base fuel addr 0 pgattr s = some later) :
    later.memHeapPool = s.memHeapPool := by
  change memMapPa base fuel addr s.memNextPa 0 pgattr (memAllocatePa s).2 =
    some later at ran
  exact @memMapPa_heapPool _ _ _ _ _ _ (memAllocatePa s).2 _ ran

/-- The offsets of the loop do not wrap around. -/
structure HeapRun (len : Word arch) (rounds : Nat) (off : Word arch) : Prop where
  bounded : len.toNat ≤ heapLimit arch
  more : 0 < rounds → off.toNat + 0x1000 * (rounds - 1) < len.toNat
  last : len.toNat ≤ off.toNat + 0x1000 * rounds

namespace HeapRun

variable {len off : Word arch} {rounds : Nat}

theorem done (heap : HeapRun len 0 off) : ¬off < len := by
  rw [BitVec.lt_def]
  exact not_lt.mpr heap.last

theorem less (heap : HeapRun len (rounds + 1) off) : off < len := by
  have onward := heap.more (Nat.succ_pos rounds)
  rw [BitVec.lt_def]
  lia

theorem next (heap : HeapRun len (rounds + 1) off) :
    HeapRun len rounds (off + 0x1000) := by
  have below : off.toNat < len.toNat := heap.less
  have onward := heap.more (Nat.succ_pos rounds)
  have last := heap.last
  have inside : off.toNat + 0x1000 < 2 ^ arch.width := by
    have wide := lt_of_lt_of_le below heap.bounded
    unfold heapLimit at wide
    lia
  refine ⟨heap.bounded, ?_, ?_⟩
  · intro positive
    rw [toNat_add_page inside]
    have count : rounds + 1 - 1 = rounds - 1 + 1 := by lia
    rw [count] at onward
    lia
  · rw [toNat_add_page inside]
    lia

/-- As long as the offset does not wrap around, the loop makes one call for
each page of the length. -/
theorem loop_eq (heap : HeapRun len rounds off) (fuel spare : Nat) :
    heapLoop base fuel len (rounds + 1 + spare) off s =
      (MemOp.runAll base fuel (heapOps s.memHeapPool rounds off) s).map
        fun later => ((· + 0x1000)^[rounds] off, later) := by
  induction rounds generalizing off s with
  | zero =>
      rw [Nat.add_right_comm, heapLoop, if_neg heap.done]
      rfl
  | succ rounds induction =>
      have count : rounds + 1 + 1 + spare = rounds + 1 + spare + 1 := by lia
      rw [count, heapLoop, if_pos heap.less]
      change Option.bind (memMapVa base fuel (s.memHeapPool + off) 0 (pteUserRw arch)
          s) _ =
        Option.map _ (Option.bind (memMapVa base fuel (s.memHeapPool + off) 0
          (pteUserRw arch) s) _)
      cases ran : memMapVa base fuel (s.memHeapPool + off) 0 (pteUserRw arch) s with
      | none => rfl
      | some middle =>
          rw [Option.bind_some, Option.bind_some, induction heap.next,
            memMapVa_heapPool ran]
          rfl

end HeapRun

theorem heapLoop_runs (hosted : Hosted base stop s) {len off : Word arch}
    {rounds : Nat} (heap : HeapRun len rounds off)
    (fits : MemOp.FitsAll base stop (heapOps s.memHeapPool rounds off) s) :
    ∃ reached later,
      (∀ fuel spare, heapLoop base (fuel + 2) len (rounds + 1 + spare) off s =
        some (reached, later)) ∧
      Hosted base stop later := by
  obtain ⟨later, ran, rewrites⟩ := MemOp.runAll_rewrites hosted _ fits
  refine ⟨(· + 0x1000)^[rounds] off, later, ?_, rewrites.hosted⟩
  intro fuel spare
  rw [heap.loop_eq, ran fuel]
  rfl

theorem heapRounds_spec {len : Word arch} (bounded : len.toNat ≤ heapLimit arch) :
    HeapRun len (heapRounds len) 0 := by
  have zero : (0 : Word arch).toNat = 0 := BitVec.toNat_zero
  refine ⟨bounded, ?_, ?_⟩
  all_goals
    rw [zero]
    unfold heapRounds
    generalize len.toNat = length
    omega

/-- A call that fits comes back. -/
theorem PagingCall.run_returns (hosted : Hosted base stop s)
    (call : PagingCall arch) (fits : call.Fits base stop s) :
    ∃ rounds later,
      (∀ fuel spare, call.run base (fuel + 2) (rounds + spare) s = some later) ∧
      Hosted base stop later := by
  cases call with
  | single op =>
      obtain ⟨later, ran, rewrites⟩ := op.run_rewrites hosted fits
      exact ⟨0, later, fun fuel _ => ran fuel, rewrites.hosted⟩
  | heapAllocate len =>
      obtain ⟨bounded, ops⟩ := fits
      obtain ⟨reached, later, loop, hosted'⟩ :=
        heapLoop_runs hosted (heapRounds_spec bounded) ops
      refine ⟨heapRounds len + 1,
        { later with memHeapPool := later.memHeapPool + reached }, ?_,
        ⟨hosted'.forest, hosted'.pool⟩⟩
      intro fuel spare
      have allocated : memHeapAllocate base (fuel + 2) (heapRounds len + 1 + spare)
          len s = some (s.memHeapPool,
            { later with memHeapPool := later.memHeapPool + reached }) :=
        Option.bind_eq_some_iff.mpr ⟨_, loop fuel spare, rfl⟩
      rw [run, allocated]
      rfl

/-- In every run whose calls all fit, every call comes back. -/
theorem PagingCall.runAll_returns (hosted : Hosted base stop s)
    (calls : List (PagingCall arch)) (fits : FitsAll base stop calls s) :
    ∃ rounds later,
      (∀ fuel spare,
        runAll base (fuel + 2) (rounds + spare) calls s = some later) ∧
      Hosted base stop later := by
  induction calls generalizing s with
  | nil => exact ⟨0, s, fun _ _ => rfl, hosted⟩
  | cons call calls induction =>
      obtain ⟨first, rest⟩ := fits
      obtain ⟨rounds, middle, ran, hosted'⟩ := call.run_returns hosted first
      obtain ⟨rounds', later, ranRest, final⟩ :=
        induction hosted' (rest 2 rounds middle (ran 0 0))
      refine ⟨rounds + rounds', later, ?_, final⟩
      intro fuel spare
      have here := ran fuel (rounds' + spare)
      have there := ranRest fuel (rounds + spare)
      rw [← Nat.add_assoc] at here
      rw [← Nat.add_assoc, Nat.add_comm rounds' rounds] at there
      exact Option.bind_eq_some_iff.mpr ⟨middle, here, there⟩

theorem heapLoop_never {len : Word arch} (long : heapLimit arch < len.toNat)
    (fuel rounds : Nat) {off : Word arch} (aligned : off.toNat % 0x1000 = 0)
    (s : MemUtil arch.width) :
    heapLoop base fuel len rounds off s = none := by
  have pages : 2 ^ arch.width % 0x1000 = 0 := by cases arch <;> rfl
  induction rounds generalizing off s with
  | zero => rfl
  | succ rounds induction =>
      have less : off < len := by
        rw [BitVec.lt_def]
        have small := off.isLt
        unfold heapLimit at long
        lia
      have next : (off + 0x1000).toNat % 0x1000 = 0 := by
        have small : (0x1000 : Word arch).toNat = 0x1000 := by cases arch <;> rfl
        rw [BitVec.toNat_add, small,
          Nat.mod_mod_of_dvd _ (Nat.dvd_of_mod_eq_zero pages), Nat.add_mod_right]
        exact aligned
      rw [heapLoop, if_pos less]
      change Option.bind (memMapVa base fuel (s.memHeapPool + off) 0 _ s) _ = none
      cases memMapVa base fuel (s.memHeapPool + off) 0 (pteUserRw arch) s with
      | none => rfl
      | some later => exact induction next later

theorem memHeapAllocate_never {len : Word arch} (long : heapLimit arch < len.toNat)
    (fuel rounds : Nat) (s : MemUtil arch.width) :
    memHeapAllocate base fuel rounds len s = none := by
  have aligned : (0 : Word arch).toNat % 0x1000 = 0 := by cases arch <;> rfl
  unfold memHeapAllocate
  simp only [heapLoop_never long fuel rounds aligned]
  rfl

/-- In a part of the pool that lacks its last-level tables `mem_map_pa` calls
itself for every page. -/
theorem memMapPa_deepens (hosted : Hosted base stop s) {vaddr : Word arch}
    (paddr pgattr : Word arch) {depth : Nat}
    (lacks : ¬Installed s.mem base vaddr)
    (pool : ∀ page ∈ (mapper arch).pages depth s.memNextPa,
      ¬Installed s.mem base page) :
    memMapPa base (depth + 1) vaddr paddr 0 pgattr s = none := by
  have absent {page : Word arch} (missing : ¬Installed s.mem base page) :
      (mapper arch).tableAt s.mem base page (mapper arch).depth = none := by
    unfold Installed at missing
    rwa [Option.not_isSome_iff_eq_none] at missing
  have deepens := @Mapper.map_deepens _ _ _ _ _ _ (mapper arch) _ _ s.store ()
    vaddr _ hosted.forest depth (pageEntry paddr pgattr) (absent lacks)
    (by
      intro page member
      rw [asKey_eq]
      exact absent (pool page member))
  rw [memMapPa_eq, deepens]
  rfl

/-- The calls of a run come back when they fit.  `mem_heap_allocate` does not
come back from a length that its offset cannot pass, and the recursion of
`mem_map_pa` goes as deep as the pool lacks tables. -/
theorem pagingCalls_return (hosted : Hosted base stop s)
    (calls : List (PagingCall arch)) :
    (PagingCall.FitsAll base stop calls s → ∃ rounds later, ∀ fuel spare,
      PagingCall.runAll base (fuel + 2) (rounds + spare) calls s = some later) ∧
    (∀ len : Word arch, heapLimit arch < len.toNat → ∀ later fuel rounds,
      memHeapAllocate base fuel rounds len later = none) ∧
    ∀ (vaddr paddr pgattr : Word arch) (depth : Nat),
      ¬Installed s.mem base vaddr →
      (∀ page ∈ (mapper arch).pages depth s.memNextPa,
        ¬Installed s.mem base page) →
      memMapPa base (depth + 1) vaddr paddr 0 pgattr s = none := by
  refine ⟨?_, ?_, ?_⟩
  · intro fits
    obtain ⟨rounds, later, ran, _⟩ := PagingCall.runAll_returns hosted calls fits
    exact ⟨rounds, later, ran⟩
  · intro len long later fuel rounds
    exact memHeapAllocate_never long fuel rounds later
  · intro vaddr paddr pgattr depth lacks pool
    exact memMapPa_deepens hosted paddr pgattr lacks pool

namespace Aarch64

/-- The tables of the listing, with the heap above the pool. -/
def heapTables : MemUtil 64 :=
  { smallTables with memHeapPool := 0x40000000 }

theorem heapTables_ready : Ready 0x1000 0x20000 heapTables where
  hosted := ⟨smallTables_wellFormed.hosted.forest, smallTables_wellFormed.hosted.pool⟩
  installed := smallTables_wellFormed.installed_pool

/-- A page and then a heap of three, each of which takes tables. -/
def pagingRun : List (PagingCall .aarch64) :=
  [.single (.mapVa 0x80000000 0x40), .heapAllocate 0x3000]

theorem pagingRun_fits :
    PagingCall.FitsAll (0x1000 : Word .aarch64) 0x20000 pagingRun heapTables := by
  let first : MemOp .aarch64 := .mapVa 0x80000000 0x40
  obtain ⟨room, rest⟩ : InRegion 0x1000 0x20000
      (first :: heapOps (0x40000000 : Word .aarch64) 3 0) heapTables := by
    decide +kernel
  have fits := heapTables_ready.fits room
  obtain ⟨middle, ran, rewrites⟩ := first.run_rewrites heapTables_ready.hosted fits
  have ready := heapTables_ready.later rewrites
  refine ⟨fits, ?_⟩
  intro fuel rounds later reached
  have same : later = middle := by
    match fuel with
    | 0 => cases reached
    | 1 =>
        have none : first.run (0x1000 : Word .aarch64) 1 heapTables = none := by
          decide +kernel
        cases none.symm.trans reached
    | fuel + 2 => exact Option.some.inj (reached.symm.trans (ran fuel))
  have heap : later.memHeapPool = 0x40000000 := @memMapVa_heapPool .aarch64 _ _ _ _ _ _ reached
  subst same
  have legal : ∀ op ∈ heapOps (0x40000000 : Word .aarch64) 3 0, Legal op := by
    have listed : TzTest.pteUserRw .aarch64 ∈ pgattrs := .tail _ (.head _)
    simp only [heapOps, List.forall_mem_cons, Legal, listed, and_true]
    exact ⟨by decide, by decide, by decide, fun _ member => absurd member List.not_mem_nil⟩
  refine ⟨⟨by decide, ?_⟩, fun _ _ _ _ => trivial⟩
  rw [heap]
  exact (ready.runs legal (rest _ (ran 0))).1

end Aarch64

theorem pagingCalls_return_pagingRun :
    ∃ rounds later, ∀ fuel spare,
      PagingCall.runAll (0x1000 : Word .aarch64) (fuel + 2) (rounds + spare)
        Aarch64.pagingRun Aarch64.heapTables = some later :=
  (pagingCalls_return Aarch64.heapTables_ready.hosted Aarch64.pagingRun).1
    Aarch64.pagingRun_fits

/-- The greatest `size_t` is such a length. -/
theorem memHeapAllocate_wraps :
    @Hosted .aarch64 0x1000 0x20000 Aarch64.smallTables ∧
      ∀ fuel rounds, memHeapAllocate (0x1000 : Word .aarch64) fuel rounds
        0xFFFFFFFFFFFFFFFF Aarch64.smallTables = none :=
  ⟨Aarch64.smallTables_wellFormed.hosted, fun fuel rounds =>
    memHeapAllocate_never (by decide) fuel rounds _⟩

end TzTest
