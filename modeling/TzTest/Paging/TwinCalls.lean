import TzTest.Library.RadixTwin
import TzTest.Paging.Tables

/-!
# Table calls in two memories

`mem_map_pa`, `mem_map_va` and `mem_heap_allocate` read nothing but their tables
and the pages that they turn into tables.
-/

namespace TzTest

open Radix

/-- The mapping calls of the running images. -/
inductive RuntimeCall (arch : Arch) where
  | memMapPa (vaddr paddr pgattr : Word arch)
  | memMapVa (addr pgattr : Word arch)
  | memHeapAllocate (len : Word arch)

variable {arch : Arch}

namespace RuntimeCall

variable (base : Word arch) (fuel rounds : Nat)

def run : RuntimeCall arch → MemUtil arch.width → Option (MemUtil arch.width)
  | memMapPa vaddr paddr pgattr, s => TzTest.memMapPa base fuel vaddr paddr 0 pgattr s
  | memMapVa addr pgattr, s => TzTest.memMapVa base fuel addr 0 pgattr s
  | memHeapAllocate len, s =>
      (TzTest.memHeapAllocate base fuel rounds len s).map Prod.snd

def runAll : List (RuntimeCall arch) → MemUtil arch.width → Option (MemUtil arch.width)
  | [], s => some s
  | call :: calls, s => do
      let s ← call.run base fuel rounds s
      runAll calls s

/-- The pages that `mem_map_va` turns into tables. -/
def mapVaTables (addr : Word arch) (s : MemUtil arch.width) : List (Word arch) :=
  (mapper arch).mapTables base fuel addr (memAllocatePa s).2.store

/-- The pages that the loop of `mem_heap_allocate` turns into tables. -/
def heapTables (len : Word arch) : (rounds : Nat) → (off : Word arch) →
    MemUtil arch.width → List (Word arch)
  | 0, _, _ => []
  | rounds + 1, off, s =>
      if off < len then
        mapVaTables base fuel (s.memHeapPool + off) s ++
          (TzTest.memMapVa base fuel (s.memHeapPool + off) 0 (pteUserRw arch) s).elim []
            (heapTables len rounds (off + 0x1000))
      else
        []

/-- The pages of the pool that a call turns into tables. -/
def tables : RuntimeCall arch → MemUtil arch.width → List (Word arch)
  | memMapPa vaddr _ _, s => (mapper arch).mapTables base fuel vaddr s.store
  | memMapVa addr _, s => mapVaTables base fuel addr s
  | memHeapAllocate len, s => heapTables base fuel len rounds 0 s

def tablesAll : List (RuntimeCall arch) → MemUtil arch.width → List (Word arch)
  | [], _ => []
  | call :: calls, s =>
      call.tables base fuel rounds s ++
        (call.run base fuel rounds s).elim [] (tablesAll calls)

end RuntimeCall

/-- Two images with the same variables, in memories that hold the same tables. -/
structure SameImage (base : Word arch) (free : Set (Word arch))
    (left right : MemUtil arch.width) : Prop where
  alike : (mapper arch).Alike (fun _ : Unit => base) free left.store right.store
  heapPool : right.memHeapPool = left.memHeapPool

/-- Both images come to the same end, or none of them comes to one. -/
def SameEnd (base : Word arch) (free : Set (Word arch)) :
    Option (MemUtil arch.width) → Option (MemUtil arch.width) → Prop :=
  Option.Rel (SameImage base free)

section Twins

variable {base : Word arch} {fuel rounds : Nat} {free : Set (Word arch)}
variable {left right : MemUtil arch.width}

theorem memMapPa_sameEnd (same : SameImage base free left right)
    {vaddr paddr pgattr : Word arch}
    (supply : (mapper arch).Supply free
      ((mapper arch).mapTables base fuel vaddr left.store)) :
    SameEnd base
      ((mapper arch).without free ((mapper arch).mapTables base fuel vaddr left.store))
      (memMapPa base fuel vaddr paddr 0 pgattr left)
      (memMapPa base fuel vaddr paddr 0 pgattr right) := by
  have ran := Mapper.map_together () fuel vaddr (pageEntry paddr pgattr) same.alike supply
  rw [memMapPa_eq, memMapPa_eq]
  rcases Mapper.rel_cases ran with ⟨first, second⟩ |
    ⟨leftLater, rightLater, first, second, after, _⟩
  · rw [first, second]
    exact .none
  · rw [first, second]
    exact .some ⟨after, same.heapPool⟩

theorem memMapVa_sameEnd (same : SameImage base free left right)
    (addr pgattr : Word arch)
    (supply : (mapper arch).Supply free
      (RuntimeCall.mapVaTables base fuel addr left)) :
    SameEnd base
      ((mapper arch).without free (RuntimeCall.mapVaTables base fuel addr left))
      (memMapVa base fuel addr 0 pgattr left)
      (memMapVa base fuel addr 0 pgattr right) := by
  have next : right.memNextPa = left.memNextPa := same.alike.next
  have bumped : SameImage base free (memAllocatePa left).2 (memAllocatePa right).2 :=
    ⟨⟨congrArg (· + 0x1000) next, same.alike.twin⟩, same.heapPool⟩
  change SameEnd base _
    (memMapPa base fuel addr left.memNextPa 0 pgattr (memAllocatePa left).2)
    (memMapPa base fuel addr right.memNextPa 0 pgattr (memAllocatePa right).2)
  rw [next]
  exact memMapPa_sameEnd bumped supply

theorem heapLoop_sameEnd (same : SameImage base free left right) {len : Word arch}
    {off : Word arch}
    (supply : (mapper arch).Supply free
      (RuntimeCall.heapTables base fuel len rounds off left)) :
    Option.Rel
      (fun first second : Word arch × MemUtil arch.width =>
        second.1 = first.1 ∧
          SameImage base
            ((mapper arch).without free
              (RuntimeCall.heapTables base fuel len rounds off left))
            first.2 second.2)
      (heapLoop base fuel len rounds off left)
      (heapLoop base fuel len rounds off right) := by
  induction rounds generalizing off left right free with
  | zero => exact .none
  | succ rounds induction =>
      rw [heapLoop, heapLoop, RuntimeCall.heapTables] at *
      by_cases less : off < len
      · rw [if_pos less] at supply
        rw [if_pos less, if_pos less, if_pos less, same.heapPool]
        obtain ⟨first, rest⟩ := Mapper.supply_append.mp supply
        rcases Mapper.rel_cases
            (memMapVa_sameEnd same (left.memHeapPool + off) (pteUserRw arch) first) with
          ⟨leftRan, rightRan⟩ | ⟨leftLater, rightLater, leftRan, rightRan, after⟩
        · rw [leftRan, rightRan]
          exact .none
        · rw [leftRan] at rest
          rw [leftRan, rightRan, Mapper.without_append]
          exact induction after rest
      · rw [if_neg less, if_neg less, if_neg less]
        exact .some ⟨rfl, same⟩

/-- A call does the same to both images. -/
theorem RuntimeCall.run_sameEnd (same : SameImage base free left right)
    (call : RuntimeCall arch)
    (supply : (mapper arch).Supply free (call.tables base fuel rounds left)) :
    SameEnd base ((mapper arch).without free (call.tables base fuel rounds left))
      (call.run base fuel rounds left) (call.run base fuel rounds right) := by
  cases call with
  | memMapPa vaddr paddr pgattr => exact memMapPa_sameEnd same supply
  | memMapVa addr pgattr => exact memMapVa_sameEnd same addr pgattr supply
  | memHeapAllocate len =>
      rw [run, run, TzTest.memHeapAllocate, TzTest.memHeapAllocate]
      rcases Mapper.rel_cases (heapLoop_sameEnd same supply) with
        ⟨leftRan, rightRan⟩ |
          ⟨⟨off, leftLater⟩, ⟨_, rightLater⟩, leftRan, rightRan, rfl, after⟩
      · rw [leftRan, rightRan]
        exact .none
      · rw [leftRan, rightRan]
        exact .some ⟨after.alike, congrArg (· + _) after.heapPool⟩

theorem RuntimeCall.runAll_sameEnd (same : SameImage base free left right)
    (calls : List (RuntimeCall arch))
    (supply : (mapper arch).Supply free (tablesAll base fuel rounds calls left)) :
    SameEnd base
      ((mapper arch).without free (tablesAll base fuel rounds calls left))
      (runAll base fuel rounds calls left) (runAll base fuel rounds calls right) := by
  induction calls generalizing left right free with
  | nil => exact .some same
  | cons call calls induction =>
      rw [tablesAll] at supply
      obtain ⟨first, rest⟩ := Mapper.supply_append.mp supply
      rw [runAll, runAll, tablesAll, Mapper.without_append]
      rcases Mapper.rel_cases (call.run_sameEnd same first) with
        ⟨leftRan, rightRan⟩ | ⟨leftLater, rightLater, leftRan, rightRan, after⟩
      · rw [leftRan, rightRan]
        exact .none
      · rw [leftRan] at rest
        rw [leftRan, rightRan]
        exact induction after rest

end Twins

end TzTest
