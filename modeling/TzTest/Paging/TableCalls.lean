import TzTest.Paging.Listing

/-!
# Runs of table calls with the MMU on

Any sequence of calls of `mem_util.c` on other addresses than those of the
tables keeps a tree of tables mapped to itself, and finds every entry that it
dereferences at its physical address.
-/

namespace TzTest

open Radix

variable {arch : Arch}

/-- The calls of `mem_util.c`. -/
inductive TableCall (arch : Arch) where
  | single (op : MemOp arch)
  | heapAllocate (len : Word arch)
  | lookupPa (va : Word arch)

namespace TableCall

variable (base : Word arch)

def run (fuel rounds : Nat) : TableCall arch → MemUtil arch.width →
    Option (MemUtil arch.width)
  | single op, s => op.run base fuel s
  | heapAllocate len, s => (memHeapAllocate base fuel rounds len s).map Prod.snd
  | lookupPa _, s => some s

/-- The entries that a call dereferences. -/
def accesses (fuel rounds : Nat) : TableCall arch → MemUtil arch.width →
    List (PteAccess arch.width)
  | single op, s => op.accesses base fuel s
  | heapAllocate len, s => memHeapAllocateAccesses base fuel rounds len s
  | lookupPa va, s => memLookupPaAccesses base va s

/-- The call is on addresses outside, while the pool has the pages. -/
def Allowed (stop : Nat) : TableCall arch → MemUtil arch.width → Prop
  | single op, s => op.Allowed base stop s
  | heapAllocate len, s =>
      MemOp.AllowedAll base stop (heapOps s.memHeapPool (heapRounds len) 0) s
  | lookupPa _, _ => True

def AllowedAll (stop : Nat) : List (TableCall arch) → MemUtil arch.width → Prop
  | [], _ => True
  | call :: calls, s =>
      call.Allowed base stop s ∧
        ∀ fuel rounds later, call.run base fuel rounds s = some later →
          AllowedAll stop calls later

/-- The tables are mapped to themselves before and after every call.  Every call
comes back, and every entry that it dereferences is mapped to its physical
address at that moment. -/
def SelfMappedThroughout : List (TableCall arch) → MemUtil arch.width → Prop
  | [], s => (homing arch).SelfMapped s.mem base
  | call :: calls, s =>
      (homing arch).SelfMapped s.mem base ∧
        ∃ rounds later,
          (∀ fuel spare, call.run base (fuel + 2) (rounds + spare) s = some later) ∧
          (∀ fuel spare, ∀ access ∈ call.accesses base (fuel + 2) (rounds + spare) s,
            (homing arch).AtHome access.mem base access.addr) ∧
          SelfMappedThroughout calls later

end TableCall

/-- The addresses that one last-level table translates. -/
def regionSize : Arch → Nat
  | .aarch64 => 2 ^ 21
  | .arm => 2 ^ 20

/-- A tree of tables that is mapped to itself, beside an empty pool in a region
whose last-level table is there. -/
structure SelfHosted (base : Word arch) (stop : Nat) (s : MemUtil arch.width) :
    Prop where
  hosted : Hosted base stop s
  self : (homing arch).SelfMapped s.mem base
  region : stop ≤ (s.memNextPa.toNat / regionSize arch + 1) * regionSize arch
  installed : Installed s.mem base s.memNextPa

theorem tableAt_of_region {left right : Word arch}
    (same : left.toNat / regionSize arch = right.toNat / regionSize arch)
    (mem : Word arch → Word arch) (base : Word arch) :
    (mapper arch).tableAt mem base left (mapper arch).depth =
      (mapper arch).tableAt mem base right (mapper arch).depth := by
  apply Format.Agree.tableAt
  cases arch with
  | aarch64 => exact Aarch64.agree_of_region same
  | arm =>
      intro level below
      cases level with
      | zero => exact Arm.l1idx_eq_of_region same
      | succ level => exact absurd below (by change ¬level + 1 < 1; omega)

theorem region_of_range {first page : Word arch} {stop : Nat}
    (region : stop ≤ (first.toNat / regionSize arch + 1) * regionSize arch)
    (above : first.toNat ≤ page.toNat) (below : page.toNat < stop) :
    page.toNat / regionSize arch = first.toNat / regionSize arch := by
  have positive : 0 < regionSize arch := by cases arch <;> decide
  apply Nat.le_antisymm
  · exact Nat.le_of_lt_succ ((Nat.div_lt_iff_lt_mul positive).mpr
      (Nat.lt_of_lt_of_le below region))
  · exact Nat.div_le_div_right above

variable {base : Word arch} {stop : Nat} {s : MemUtil arch.width}

theorem SelfHosted.homed (start : SelfHosted base stop s) : Homed base stop s := by
  refine ⟨start.hosted, start.self, ?_⟩
  intro page inside
  obtain ⟨above, below⟩ := inside
  unfold Installed
  rw [tableAt_of_region (region_of_range start.region above below)]
  exact start.installed

theorem HeapRun.accesses_eq {len off : Word arch} {rounds : Nat}
    (heap : HeapRun len rounds off) (fuel spare : Nat) :
    heapLoopAccesses base fuel len (rounds + 1 + spare) off s =
      MemOp.accessesAll base fuel (heapOps s.memHeapPool rounds off) s := by
  induction rounds generalizing off s with
  | zero =>
      rw [Nat.add_right_comm, heapLoopAccesses, if_neg heap.done]
      rfl
  | succ rounds induction =>
      have count : rounds + 1 + 1 + spare = rounds + 1 + spare + 1 := by lia
      rw [count, heapLoopAccesses, if_pos heap.less]
      change _ ++ (memMapVa base fuel (s.memHeapPool + off) 0 (pteUserRw arch)
          s).elim _ _ =
        _ ++ (memMapVa base fuel (s.memHeapPool + off) 0 (pteUserRw arch) s).elim _ _
      cases ran : memMapVa base fuel (s.memHeapPool + off) 0 (pteUserRw arch) s with
      | none => rfl
      | some middle =>
          rw [Option.elim_some, Option.elim_some, induction heap.next,
            memMapVa_heapPool ran]
          rfl

theorem heapOps_room (homed : Homed base stop s) {rounds : Nat} {off : Word arch}
    (allowed : MemOp.AllowedAll base stop (heapOps s.memHeapPool rounds off) s) :
    0 < rounds → s.memNextPa.toNat + 0x1000 * rounds ≤ stop := by
  induction rounds generalizing off s with
  | zero => exact fun positive => absurd positive (Nat.lt_irrefl 0)
  | succ rounds induction =>
      intro _
      obtain ⟨first, rest⟩ := allowed
      obtain ⟨middle, ran, _, homed', reached, heap⟩ := MemOp.run_home homed _ first
      have room := first.room
      simp only [MemOp.pages] at room reached
      have later := rest middle (ran 0)
      rw [← heap] at later
      have onward := induction homed' later
      lia

theorem bounded_of_allowed (homed : Homed base stop s) {len : Word arch}
    (allowed : MemOp.AllowedAll base stop
      (heapOps s.memHeapPool (heapRounds len) 0) s) :
    len.toNat ≤ heapLimit arch := by
  have room := heapOps_room homed allowed
  have limit := homed.hosted.pool.limit
  have few : poolLimit arch ≤ heapLimit arch := by cases arch <;> decide
  unfold heapRounds at room
  omega

namespace TableCall

/-- An allowed call comes back, finds its entries, and leaves the tables mapped to
themselves. -/
theorem run_home (homed : Homed base stop s) (call : TableCall arch)
    (allowed : call.Allowed base stop s) :
    ∃ rounds later,
      (∀ fuel spare, call.run base (fuel + 2) (rounds + spare) s = some later) ∧
      (∀ fuel spare, ∀ access ∈ call.accesses base (fuel + 2) (rounds + spare) s,
        (homing arch).AtHome access.mem base access.addr) ∧
      Homed base stop later := by
  cases call with
  | single op =>
      obtain ⟨later, ran, home, homed', _⟩ := op.run_home homed allowed
      exact ⟨0, later, fun fuel _ => ran fuel, fun fuel _ => home fuel, homed'⟩
  | heapAllocate len =>
      have heap := heapRounds_spec (bounded_of_allowed homed allowed)
      obtain ⟨later, ran, home, homed'⟩ := MemOp.runAll_home homed _ allowed
      refine ⟨heapRounds len + 1,
        { later with memHeapPool :=
            later.memHeapPool + (· + 0x1000)^[heapRounds len] 0 }, ?_, ?_,
        ⟨⟨homed'.hosted.forest, homed'.hosted.pool⟩, homed'.self,
          homed'.installed⟩⟩
      · intro fuel spare
        have loop : heapLoop base (fuel + 2) len (heapRounds len + 1 + spare) 0 s =
            some ((· + 0x1000)^[heapRounds len] 0, later) := by
          rw [heap.loop_eq, ran fuel]
          rfl
        rw [run, memHeapAllocate, loop]
        rfl
      · intro fuel spare access member
        rw [accesses, memHeapAllocateAccesses, heap.accesses_eq] at member
        exact home fuel access member
  | lookupPa va =>
      have home := memLookupPaAccesses_home homed.hosted.forest homed.self va
      exact ⟨0, s, fun _ _ => rfl, fun _ _ => home, homed⟩

theorem selfMappedThroughout (homed : Homed base stop s) (calls : List (TableCall arch))
    (allowed : AllowedAll base stop calls s) : SelfMappedThroughout base calls s := by
  induction calls generalizing s with
  | nil => exact homed.self
  | cons call calls induction =>
      obtain ⟨first, rest⟩ := allowed
      obtain ⟨rounds, later, ran, home, homed'⟩ := call.run_home homed first
      have onward := induction homed' (rest 2 rounds later (ran 0 0))
      exact ⟨homed.self, rounds, later, ran, home, onward⟩

end TableCall

/-- Calls on addresses of no table and of no pool page, while the pool stays in
its region, keep a tree of tables mapped to itself and dereference only entries
that are mapped to themselves. -/
theorem tableCalls_selfMapped (start : SelfHosted base stop s)
    (calls : List (TableCall arch))
    (allowed : TableCall.AllowedAll base stop calls s) :
    TableCall.SelfMappedThroughout base calls s :=
  TableCall.selfMappedThroughout start.homed calls allowed

namespace Aarch64

/-- Four tables, the last of which maps them all to themselves. -/
def homeListing : Listing where
  links := [(0x1000, 0x2003), (0x2000, 0x3003), (0x3000, 0x4003)]
  leaves := [(0x4008, 0x1443), (0x4010, 0x2443), (0x4018, 0x3443), (0x4020, 0x4443)]
  tables := [(0x1000, 0), (0x2000, 1), (0x3000, 2), (0x4000, 3)]

def smallHome : MemUtil 64 where
  mem := homeListing.mem
  memNextPa := 0x10000
  memHeapPool := 0x40000000

theorem homeListing_tree : homeListing.Tree 0x1000 where
  root := by decide
  aligned := by decide
  levels := by decide
  good := by decide
  below := by decide
  once := by decide
  leaf := by decide

theorem homeListing_closed : homeListing.Closed 0x1000 where
  root := by decide
  targets := by decide
  home := by
    intro table member
    simp only [homeListing, List.map_cons, List.map_nil, List.mem_cons,
      List.not_mem_nil, or_false] at member
    rcases member with rfl | rfl | rfl | rfl <;>
      exact ⟨by decide, 0x443, by decide⟩

theorem smallHome_selfHosted : @SelfHosted .aarch64 0x1000 0x20000 smallHome where
  hosted := homeListing_tree.hosted rfl (by decide) (by decide) (by decide) (by decide)
    (by decide)
  self := homeListing_closed.selfMapped
  region := by decide
  installed := by
    change (mapper.tableAt homeListing.mem 0x1000 0x10000 3).isSome
    decide

theorem smallHome_outside : @Outside .aarch64 0x1000 0x20000 smallHome 0x40000000 where
  apart := by
    have outside : ∀ table ∈ homeListing.tables.map Prod.fst,
        ¬OnPage table (0x40000000 : BitVec 64) := by
      intro table member
      simp only [homeListing, List.map_cons, List.map_nil, List.mem_cons,
        List.not_mem_nil, or_false] at member
      rcases member with rfl | rfl | rfl | rfl <;> decide
    exact homeListing_closed.apart (by decide) outside
  pool inside := not_samePage_of_range inside (by decide) (by decide)

end Aarch64

/-- A page is mapped below two tables that are missing, and is looked up. -/
theorem tableCalls_selfMapped_mapVa :
    TableCall.SelfMappedThroughout (0x1000 : Word .aarch64)
      [.single (.mapVa 0x40000000 0x40), .lookupPa 0x40000000] Aarch64.smallHome := by
  apply tableCalls_selfMapped Aarch64.smallHome_selfHosted
  refine ⟨⟨Aarch64.smallHome_outside, by decide⟩, fun _ _ _ _ => ⟨trivial, ?_⟩⟩
  exact fun _ _ _ _ => trivial

namespace Aarch64

/-- The last table of the small ones, linked a second time above the last
level. -/
def aliasListing : Listing where
  links := (0x2008, 0x4003) :: homeListing.links
  leaves := homeListing.leaves
  tables := homeListing.tables

def smallAlias : MemUtil 64 :=
  { smallHome with mem := aliasListing.mem }

/-- A table at an address that the routines cut. -/
def farListing : Listing where
  links := [(0x1000, 0x1000002003), (0x1000002000, 0x3003), (0x3000, 0x4003),
    (0x1000002200, 0x5003), (0x5000, 0x6003)]
  leaves := [(0x4008, 0x1443), (0x4018, 0x3443), (0x4020, 0x4443), (0x4028, 0x5443),
    (0x4030, 0x6443), (0x6010, 0x1000002443)]
  tables := [(0x1000, 0), (0x1000002000, 1), (0x3000, 2), (0x4000, 3), (0x5000, 2),
    (0x6000, 3)]

def smallFar : MemUtil 64 :=
  { smallHome with mem := farListing.mem }

/-- The small tables, with a block beside the last table. -/
def blockListing : Listing where
  links := (0x3008, 0x400401) :: homeListing.links
  leaves := homeListing.leaves
  tables := homeListing.tables

def smallBlock : MemUtil 64 :=
  { smallHome with mem := blockListing.mem }

/-- The address of the last table, with a bit that the walk does not take. -/
def highAddress : BitVec 64 := 0x1000000004000

theorem aliasListing_closed : aliasListing.Closed 0x1000 where
  root := by decide
  targets := by decide
  home := by
    intro table member
    simp only [aliasListing, homeListing, List.map_cons, List.map_nil, List.mem_cons,
      List.not_mem_nil, or_false] at member
    rcases member with rfl | rfl | rfl | rfl <;>
      exact ⟨by decide, 0x443, by decide⟩

theorem farListing_closed : farListing.Closed 0x1000 where
  root := by decide
  targets := by decide
  home := by
    intro table member
    simp only [farListing, List.map_cons, List.map_nil, List.mem_cons,
      List.not_mem_nil, or_false] at member
    rcases member with rfl | rfl | rfl | rfl | rfl | rfl <;>
      exact ⟨by decide, 0x443, by decide⟩

theorem blockListing_closed : blockListing.Closed 0x1000 where
  root := by decide
  targets := by decide
  home := by
    intro table member
    simp only [blockListing, homeListing, List.map_cons, List.map_nil, List.mem_cons,
      List.not_mem_nil, or_false] at member
    rcases member with rfl | rfl | rfl | rfl <;>
      exact ⟨by decide, 0x443, by decide⟩

theorem small_outside {l : Listing} (closed : l.Closed 0x1000) {va : BitVec 64}
    (small : va.toNat < 2 ^ 48) (above : 0x20000 ≤ va.toNat / 0x1000 * 0x1000)
    (outside : ∀ table ∈ l.tables.map Prod.fst, ¬OnPage table va) :
    @Outside .aarch64 0x1000 0x20000 { smallHome with mem := l.mem } va where
  apart := closed.apart small outside
  pool inside := not_samePage_of_range inside small above

end Aarch64

/-- Tables of any shape that are mapped to themselves, beside an empty pool in a
region whose last-level table is there. -/
structure SelfMappedPool (base : Word arch) (stop : Nat) (s : MemUtil arch.width) :
    Prop where
  self : (homing arch).SelfMapped s.mem base
  empty {addr : Word arch} : addr ∈ range s.memNextPa.toNat stop → s.mem addr = 0
  region : stop ≤ (s.memNextPa.toNat / regionSize arch + 1) * regionSize arch
  installed : Installed s.mem base s.memNextPa

namespace Aarch64

theorem smallAlias_pool :
    @SelfMappedPool .aarch64 0x1000 0x20000 smallAlias where
  self := aliasListing_closed.selfMapped
  empty {addr} inside := Listing.mem_pool (by decide) addr inside
  region := by decide
  installed := by
    change (mapper.tableAt aliasListing.mem 0x1000 0x10000 3).isSome
    decide

theorem smallFar_pool : @SelfMappedPool .aarch64 0x1000 0x20000 smallFar where
  self := farListing_closed.selfMapped
  empty {addr} inside := Listing.mem_pool (by decide) addr inside
  region := by decide
  installed := by
    change (mapper.tableAt farListing.mem 0x1000 0x10000 3).isSome
    decide

theorem smallBlock_pool : @SelfMappedPool .aarch64 0x1000 0x20000 smallBlock where
  self := blockListing_closed.selfMapped
  empty {addr} inside := Listing.mem_pool (by decide) addr inside
  region := by decide
  installed := by
    change (mapper.tableAt blockListing.mem 0x1000 0x10000 3).isSome
    decide

theorem smallAlias_outside : @Outside .aarch64 0x1000 0x20000 smallAlias 0x30000 := by
  have outside : ∀ table ∈ aliasListing.tables.map Prod.fst,
      ¬OnPage table (0x30000 : BitVec 64) := by
    intro table member
    simp only [aliasListing, homeListing, List.map_cons, List.map_nil, List.mem_cons,
      List.not_mem_nil, or_false] at member
    rcases member with rfl | rfl | rfl | rfl <;> decide
  exact small_outside aliasListing_closed (by decide) (by decide) outside

theorem smallFar_outside : @Outside .aarch64 0x1000 0x20000 smallFar 0x30000 := by
  have outside : ∀ table ∈ farListing.tables.map Prod.fst,
      ¬OnPage table (0x30000 : BitVec 64) := by
    intro table member
    simp only [farListing, List.map_cons, List.map_nil, List.mem_cons,
      List.not_mem_nil, or_false] at member
    rcases member with rfl | rfl | rfl | rfl | rfl | rfl <;> decide
  exact small_outside farListing_closed (by decide) (by decide) outside

theorem smallBlock_outside :
    @Outside .aarch64 0x1000 0x20000 smallBlock 0x200000 := by
  have outside : ∀ table ∈ blockListing.tables.map Prod.fst,
      ¬OnPage table (0x200000 : BitVec 64) := by
    intro table member
    simp only [blockListing, homeListing, List.map_cons, List.map_nil, List.mem_cons,
      List.not_mem_nil, or_false] at member
    rcases member with rfl | rfl | rfl | rfl <;> decide
  exact small_outside blockListing_closed (by decide) (by decide) outside

theorem smallAlias_mapped :
    ∃ later : MemUtil 64,
      Aarch64.memMapPa 0x1000 1 0x30000 0x80000 0 0x40 smallAlias = some later ∧
      ¬(homing .aarch64).SelfMapped later.mem 0x1000 := by
  refine ⟨smallAlias.write 0x4180 0x80443, ?_, ?_⟩
  · exact congrArg some (MemUtil.writeOr_eq smallAlias 0x4180 0x80000 0x443)
  · intro self
    have linked : mapper.tableAt (smallAlias.write 0x4180 0x80443).mem 0x1000
        0x46000000 3 = some 0x80000 := by decide
    obtain ⟨leaf, found, _⟩ := self 0x46000000 3 0x80000 (le_refl 3) linked
    have unmapped : mapper.translate (smallAlias.write 0x4180 0x80443).mem 0x1000
        (mapper.entryOf 3 0x80000 0x46000000) = none := by decide
    exact absurd (unmapped.symm.trans found) (by simp)

theorem smallFar_looked :
    ∃ access ∈ Aarch64.memLookupPaAccesses 0x1000 0x30000 smallFar,
      ¬(homing .aarch64).AtHome access.mem 0x1000 access.addr := by
  refine ⟨⟨farListing.mem, 0x2000⟩, ?_, ?_⟩
  · refine List.mem_cons_of_mem _ (List.mem_cons_of_mem _ ?_)
    exact List.mem_cons_self ..
  · rintro ⟨leaf, found, _⟩
    have unmapped : mapper.translate farListing.mem 0x1000 0x2000 = none := by decide
    exact absurd (unmapped.symm.trans found) (by simp)

theorem smallBlock_looked :
    ∃ access ∈ Aarch64.memLookupPaAccesses 0x1000 0x200000 smallBlock,
      ¬(homing .aarch64).AtHome access.mem 0x1000 access.addr := by
  refine ⟨⟨blockListing.mem, 0x400000⟩, ?_, ?_⟩
  · have steps : Aarch64.memLookupPaAccesses 0x1000 0x200000 smallBlock =
        [0x1000, 0x1000, 0x2000, 0x2000, 0x3008, 0x3008, 0x400000].map
          fun pte => ⟨blockListing.mem, pte⟩ := by rfl
    rw [steps]
    simp
  · rintro ⟨leaf, found, _⟩
    have unmapped : mapper.translate blockListing.mem 0x1000 0x400000 = none := by
      decide
    exact absurd (unmapped.symm.trans found) (by simp)

theorem highAddress_elsewhere :
    (∀ key level table,
      mapper.tableAt smallHome.mem 0x1000 key level = some table →
        ¬OnPage table highAddress) ∧
      ∀ page : BitVec 64, page ∈ @range .aarch64 0x10000 0x20000 →
        ¬OnPage page highAddress := by
  constructor
  · intro key level table here
    have member := homeListing_closed.listed here
    simp only [homeListing, List.map_cons, List.map_nil, List.mem_cons,
      List.not_mem_nil, or_false] at member
    rcases member with rfl | rfl | rfl | rfl <;> decide
  · intro page inside same
    have below : page.toNat < 0x20000 := inside.2
    have far : highAddress.toNat / 0x1000 = 0x1000000004 := by decide
    unfold OnPage at same
    omega

theorem highAddress_unmapped :
    ¬(homing .aarch64).SelfMapped
      (Aarch64.memUnmapVa 0x1000 highAddress smallHome).2.mem 0x1000 := by
  have written : (Aarch64.memUnmapVa 0x1000 highAddress smallHome).2 =
      smallHome.write 0x4020 0 := by rfl
  rw [written]
  intro self
  have linked : mapper.tableAt (smallHome.write 0x4020 0).mem 0x1000 0x4000 3 =
      some 0x4000 := by decide
  obtain ⟨leaf, found, _⟩ := self 0x4000 3 0x4000 (le_refl 3) linked
  have unmapped : mapper.translate (smallHome.write 0x4020 0).mem 0x1000
      (mapper.entryOf 3 0x4000 0x4000) = none := by decide
  exact absurd (unmapped.symm.trans found) (by simp)

end Aarch64

/-- A table that is linked at two levels takes a page that is mapped for a table.
A table beyond the address bits that the routines keep, and the memory behind a
block, are looked for at an address that is not mapped.  An address of no table,
but with the low bits of one, unmaps it. -/
theorem tableCalls_without_tree :
    (@SelfMappedPool .aarch64 0x1000 0x20000 Aarch64.smallAlias ∧
      @Outside .aarch64 0x1000 0x20000 Aarch64.smallAlias 0x30000 ∧
      ∃ later : MemUtil 64,
        Aarch64.memMapPa 0x1000 1 0x30000 0x80000 0 0x40 Aarch64.smallAlias =
          some later ∧
        ¬(homing .aarch64).SelfMapped later.mem 0x1000) ∧
    (@SelfMappedPool .aarch64 0x1000 0x20000 Aarch64.smallFar ∧
      @Outside .aarch64 0x1000 0x20000 Aarch64.smallFar 0x30000 ∧
      ∃ access ∈ Aarch64.memLookupPaAccesses 0x1000 0x30000 Aarch64.smallFar,
        ¬(homing .aarch64).AtHome access.mem 0x1000 access.addr) ∧
    (@SelfMappedPool .aarch64 0x1000 0x20000 Aarch64.smallBlock ∧
      @Outside .aarch64 0x1000 0x20000 Aarch64.smallBlock 0x200000 ∧
      ∃ access ∈ Aarch64.memLookupPaAccesses 0x1000 0x200000 Aarch64.smallBlock,
        ¬(homing .aarch64).AtHome access.mem 0x1000 access.addr) ∧
    @SelfHosted .aarch64 0x1000 0x20000 Aarch64.smallHome ∧
      ((∀ key level table,
        Aarch64.mapper.tableAt Aarch64.smallHome.mem 0x1000 key level =
            some table → ¬Aarch64.OnPage table Aarch64.highAddress) ∧
        ∀ page : BitVec 64, page ∈ @range .aarch64 0x10000 0x20000 →
          ¬Aarch64.OnPage page Aarch64.highAddress) ∧
      ¬(homing .aarch64).SelfMapped
        (Aarch64.memUnmapVa 0x1000 Aarch64.highAddress Aarch64.smallHome).2.mem
        0x1000 :=
  ⟨⟨Aarch64.smallAlias_pool, Aarch64.smallAlias_outside, Aarch64.smallAlias_mapped⟩,
    ⟨Aarch64.smallFar_pool, Aarch64.smallFar_outside, Aarch64.smallFar_looked⟩,
    ⟨Aarch64.smallBlock_pool, Aarch64.smallBlock_outside, Aarch64.smallBlock_looked⟩,
    Aarch64.smallHome_selfHosted, Aarch64.highAddress_elsewhere,
    Aarch64.highAddress_unmapped⟩

end TzTest
