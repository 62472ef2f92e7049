import TzTest.Paging.Aarch64
import TzTest.Paging.Arm

/-!
# The table routines and the finite map

Both formats at once: what `mem_map_pa`, `mem_unmap_va` and `mem_lookup_pa` do
to the translations of a forest whose pool pages are empty.
-/

namespace TzTest

open Radix

/-- The format of the architecture. -/
def mapper : (arch : Arch) →
    Mapper (Word arch) (Word arch) (Word arch) (Word arch) (Leaf arch.width)
  | .aarch64 => Aarch64.mapper
  | .arm => Arm.mapper

/-- The last-level entry that `mem_map_pa` writes. -/
def pageEntry : {arch : Arch} → (paddr pgattr : Word arch) → Word arch
  | .aarch64 => Aarch64.pageEntry
  | .arm => Arm.pageEntry

/-- Where the pool has to end: above it AArch64 loses address bits in the
entries that it reads, and ARM comes to the end of the words. -/
def poolLimit : Arch → Nat
  | .aarch64 => 2 ^ 36
  | .arm => 2 ^ 32 - 0x1000

/-- What the hardware makes of an address in a space. -/
abbrev translate {arch : Arch} (mem : Word arch → Word arch)
    (base va : Word arch) : Option (Leaf arch.width) :=
  (mapper arch).translate mem base va

/-- The addresses from one number up to another. -/
def range {arch : Arch} (low high : Nat) : Set (Word arch) :=
  { addr | low ≤ addr.toNat ∧ addr.toNat < high }

variable {arch : Arch}

theorem range_mono {low low' high high' : Nat} (lower : low ≤ low')
    (higher : high' ≤ high) :
    (range low' high' : Set (Word arch)) ⊆ range low high := by
  intro addr inside
  exact ⟨le_trans lower inside.1, lt_of_lt_of_le inside.2 higher⟩

theorem poolLimit_lt (arch : Arch) : poolLimit arch < 2 ^ arch.width := by
  cases arch <;> decide

/-- A page of the pool. -/
structure PoolPage (page : Word arch) : Prop where
  aligned : page.toNat % 0x1000 = 0
  below : page.toNat + 0x1000 ≤ poolLimit arch

theorem PoolPage.page {page : Word arch} (poolPage : PoolPage page) :
    (mapper arch).Page page := by
  obtain ⟨aligned, below⟩ := poolPage
  have small : page.toNat < poolLimit arch :=
    lt_of_lt_of_le (Nat.lt_add_of_pos_right (by decide)) below
  cases arch with
  | aarch64 => exact BitField.within_of_toNat aligned small
  | arm =>
      apply BitField.within_of_toNat aligned
      exact lt_trans small (by decide)

theorem pageSlots_page {page : Word arch} (isPage : (mapper arch).Page page) :
    (mapper arch).pageSlots page ⊆ range page.toNat (page.toNat + 0x1000) := by
  rintro addr ⟨level, key, _, rfl⟩
  cases arch with
  | aarch64 =>
      obtain ⟨place, inside⟩ := Aarch64.slot_toNat isPage (level + 1) key
      exact ⟨place ▸ Nat.le_add_right _ _, place ▸ Nat.add_lt_add_left inside _⟩
  | arm =>
      obtain ⟨place, inside⟩ := Arm.slot_toNat isPage level key
      exact ⟨place ▸ Nat.le_add_right _ _, place ▸ Nat.add_lt_add_left inside _⟩

theorem bump_eq (page : Word arch) : (mapper arch).bump page = page + 0x1000 := by
  cases arch <;> rfl

theorem asKey_eq (page : Word arch) : (mapper arch).asKey page = page := by
  cases arch <;> rfl

theorem own_eq (page : Word arch) :
    (mapper arch).own page = pageEntry page (pteUserRw arch) := by
  cases arch <;> rfl

theorem toNat_add_page {page : Word arch}
    (below : page.toNat + 0x1000 < 2 ^ arch.width) :
    (page + 0x1000).toNat = page.toNat + 0x1000 := by
  have small : (0x1000 : Word arch).toNat = 0x1000 := by
    cases arch <;> rfl
  rw [BitVec.toNat_add_of_lt (by rw [small]; exact below), small]

/-- The pool from its next page on. -/
structure Pool (arch : Arch) (next : Word arch) (stop : Nat) : Prop where
  aligned : next.toNat % 0x1000 = 0
  limit : stop ≤ poolLimit arch

theorem Pool.poolPage {next : Word arch} {stop : Nat} (pool : Pool arch next stop)
    (room : next.toNat + 0x1000 ≤ stop) : PoolPage next :=
  ⟨pool.aligned, le_trans room pool.limit⟩

theorem Pool.toNat_bump {next : Word arch} {stop : Nat}
    (pool : Pool arch next stop) (room : next.toNat + 0x1000 ≤ stop) :
    ((mapper arch).bump next).toNat = next.toNat + 0x1000 := by
  rw [bump_eq]
  apply toNat_add_page
  exact lt_of_le_of_lt (le_trans room pool.limit) (poolLimit_lt arch)

theorem Pool.bump {next : Word arch} {stop : Nat} (pool : Pool arch next stop)
    (room : next.toNat + 0x1000 ≤ stop) :
    Pool arch ((mapper arch).bump next) stop := by
  refine ⟨?_, pool.limit⟩
  rw [pool.toNat_bump room, Nat.add_mod_right]
  exact pool.aligned

theorem Pool.iterate {next : Word arch} {stop count : Nat}
    (pool : Pool arch next stop) (room : next.toNat + 0x1000 * count ≤ stop) :
    Pool arch ((mapper arch).bump^[count] next) stop ∧
      ((mapper arch).bump^[count] next).toNat = next.toNat + 0x1000 * count := by
  induction count generalizing next with
  | zero => exact ⟨pool, rfl⟩
  | succ count induction =>
      have first : next.toNat + 0x1000 ≤ stop := by lia
      have place := pool.toNat_bump first
      obtain ⟨rest, reached⟩ := induction (pool.bump first) (by lia)
      refine ⟨rest, ?_⟩
      rw [Function.iterate_succ_apply, reached, place]
      lia

theorem pages_length (count : Nat) (page : Word arch) :
    ((mapper arch).pages count page).length = count := by
  induction count generalizing page with
  | zero => rfl
  | succ count induction => rw [Mapper.pages, List.length_cons, induction]

theorem Pool.mem_pages {next page : Word arch} {stop count : Nat}
    (pool : Pool arch next stop) (room : next.toNat + 0x1000 * count ≤ stop)
    (member : page ∈ (mapper arch).pages count next) :
    page.toNat % 0x1000 = 0 ∧ next.toNat ≤ page.toNat ∧
      page.toNat < next.toNat + 0x1000 * count := by
  induction count generalizing next with
  | zero => cases member
  | succ count induction =>
      have first : next.toNat + 0x1000 ≤ stop := by lia
      have place := pool.toNat_bump first
      rcases List.mem_cons.mp member with rfl | later
      · exact ⟨pool.aligned, le_refl _, by lia⟩
      · obtain ⟨aligned, above, below⟩ :=
          induction (pool.bump first) (by lia) later
        exact ⟨aligned, by lia, by lia⟩

/-- The next pages of the pool are fit for tables, and nothing else leaves the
free memory with them. -/
theorem Pool.supply {next : Word arch} {stop count : Nat} {free : Set (Word arch)}
    (pool : Pool arch next stop) (room : next.toNat + 0x1000 * count ≤ stop)
    (inFree : range next.toNat (next.toNat + 0x1000 * count) ⊆ free) :
    (mapper arch).Supply free ((mapper arch).pages count next) ∧
      free \ range next.toNat (next.toNat + 0x1000 * count) ⊆
        (mapper arch).without free ((mapper arch).pages count next) := by
  induction count generalizing next free with
  | zero => exact ⟨trivial, Set.sdiff_subset⟩
  | succ count induction =>
      have first : next.toNat + 0x1000 ≤ stop := by lia
      have place := pool.toNat_bump first
      have poolPage := pool.poolPage first
      have slots := pageSlots_page poolPage.page
      have rest : range ((mapper arch).bump next).toNat
          (((mapper arch).bump next).toNat + 0x1000 * count) ⊆
            free \ (mapper arch).pageSlots next := by
        rintro addr ⟨above, below⟩
        refine ⟨inFree ⟨by lia, by lia⟩, ?_⟩
        intro member
        have := (slots member).2
        lia
      obtain ⟨supply, left⟩ := induction (pool.bump first) (by lia) rest
      refine ⟨⟨poolPage.page, ?_, supply⟩, ?_⟩
      · exact (slots.trans (range_mono (le_refl _) (by lia))).trans inFree
      · rintro addr ⟨member, outside⟩
        apply left
        refine ⟨⟨member, ?_⟩, ?_⟩
        · intro inSlots
          exact outside (range_mono (le_refl _) (by lia) (slots inSlots))
        · rintro ⟨above, below⟩
          exact outside ⟨by lia, by lia⟩

/-- The number of tables that the way of an address lacks. -/
def tablesMissing (base vaddr : Word arch) (s : MemUtil arch.width) : Nat :=
  (mapper arch).missing s.mem vaddr (mapper arch).depth 0 base

/-- The pages that `mem_map_pa` takes for them. -/
def tablesTaken (base vaddr : Word arch) (s : MemUtil arch.width) :
    List (Word arch) :=
  (mapper arch).pages (tablesMissing base vaddr s) s.memNextPa

/-- The last-level table of the address is in place. -/
def Installed (mem : Word arch → Word arch) (base vaddr : Word arch) : Prop :=
  ((mapper arch).tableAt mem base vaddr (mapper arch).depth).isSome

theorem memMapPa_eq (base : Word arch) (fuel : Nat)
    (vaddr paddr pgattr : Word arch) (s : MemUtil arch.width) :
    memMapPa base fuel vaddr paddr 0 pgattr s =
      ((mapper arch).map base fuel vaddr (pageEntry paddr pgattr) s.store).map
        s.withStore := by
  cases arch with
  | aarch64 => exact Aarch64.memMapPa_eq base fuel vaddr paddr pgattr s
  | arm => exact Arm.memMapPa_eq base fuel vaddr paddr pgattr s

theorem memMapPa_heapPool {base : Word arch} {fuel : Nat}
    {vaddr paddr pgattr : Word arch} {s later : MemUtil arch.width}
    (ran : memMapPa base fuel vaddr paddr 0 pgattr s = some later) :
    later.memHeapPool = s.memHeapPool := by
  rw [memMapPa_eq] at ran
  obtain ⟨store, _, rfl⟩ := Option.map_eq_some_iff.mp ran
  rfl

section Forest

variable {Root : Type} [DecidableEq Root] {roots : Root → Word arch}
variable {free : Set (Word arch)} {s : MemUtil arch.width} (root : Root)

/-- `mem_map_pa` changes its tree as a finite map is changed, when the tables
that it takes can be mapped at once. -/
theorem memMapPa_becomes
    (forest : Forest (mapper arch).toFormat roots s.mem free)
    (vaddr paddr pgattr : Word arch) {stop : Nat}
    (pool : Pool arch s.memNextPa stop)
    (room : s.memNextPa.toNat + 0x1000 * tablesMissing (roots root) vaddr s ≤ stop)
    (inFree : range s.memNextPa.toNat stop ⊆ free)
    (installed : ∀ page ∈ tablesTaken (roots root) vaddr s,
      Installed s.mem (roots root) page) :
    ∃ mem next,
      (∀ fuel, memMapPa (roots root) (fuel + 2) vaddr paddr 0 pgattr s =
        some { s with mem := mem, memNextPa := next }) ∧
      Pool arch next stop ∧
      next.toNat =
        s.memNextPa.toNat + 0x1000 * tablesMissing (roots root) vaddr s ∧
      (mapper arch).Becomes roots root s.mem mem
        (free \ range s.memNextPa.toNat next.toNat)
        ((mapper arch).set vaddr ((mapper arch).leaf (pageEntry paddr pgattr))
          ((mapper arch).identities (tablesTaken (roots root) vaddr s)
            (translate s.mem (roots root)))) ∧
      Installed mem (roots root) vaddr ∧
      (mapper arch).TablesKept roots root s.mem mem ∧
      (mapper arch).Confined (roots root) s.mem mem
        (tablesTaken (roots root) vaddr s) := by
  obtain ⟨supply, left⟩ := pool.supply room
    ((range_mono (le_refl _) room).trans inFree)
  obtain ⟨rest, reached⟩ := pool.iterate room
  have identity : ∀ page ∈ tablesTaken (roots root) vaddr s,
      ((mapper arch).tableAt s.store.mem (roots root) ((mapper arch).asKey page)
        (mapper arch).depth).isSome := by
    intro page member
    rw [asKey_eq]
    exact installed page member
  obtain ⟨mem, ran, becomes, here, kept, confined⟩ := @Mapper.map_becomes _ _ _ _ _ _
    (mapper arch) roots free s.store root vaddr _ _ _ forest
    (pageEntry paddr pgattr) _ rfl supply identity
  refine ⟨mem, _, ?_, rest, reached, becomes.shrink ?_, here, kept,
    confined⟩
  · intro fuel
    rw [memMapPa_eq, ran fuel]
    rfl
  · rw [reached]
    exact left

omit [DecidableEq Root] in
theorem memUnmapVa_cases
    (forest : Forest (mapper arch).toFormat roots s.mem free)
    (addr : Word arch) :
    (memUnmapVa (roots root) addr s).2 = s ∨
      ∃ last, (mapper arch).tableAt s.mem (roots root) addr (mapper arch).depth =
          some last ∧
        (memUnmapVa (roots root) addr s).2 =
          s.write ((mapper arch).entryOf (mapper arch).depth last addr) 0 := by
  cases arch with
  | aarch64 => exact Aarch64.memUnmapVa_cases forest addr
  | arm => exact Arm.memUnmapVa_cases forest addr

theorem memUnmapVa_becomes
    (forest : Forest (mapper arch).toFormat roots s.mem free)
    (addr : Word arch) :
    ∃ mem, (memUnmapVa (roots root) addr s).2 = { s with mem := mem } ∧
      (mapper arch).Becomes roots root s.mem mem free
        ((mapper arch).set addr none (translate s.mem (roots root))) := by
  cases arch with
  | aarch64 => exact Aarch64.memUnmapVa_becomes forest addr
  | arm => exact Arm.memUnmapVa_becomes forest addr

end Forest

/-- The address bits of a last-level entry. -/
def pageMask : (arch : Arch) → Word arch
  | .aarch64 => Aarch64.outputAddress
  | .arm => Arm.outputAddress

/-- What `mem_lookup_pa` makes of the page in a last-level entry. -/
def readBack : {arch : Arch} → Word arch → Word arch
  | .aarch64 => fun page : BitVec 64 => page &&& Aarch64.tableAddress
  | .arm => fun page => page

theorem leaf_pageEntry (paddr : Word arch) {pgattr : Word arch}
    (caller : pgattr = ptePrivRw arch ∨ pgattr = pteUserRw arch) :
    ∃ attr, (mapper arch).leaf (pageEntry paddr pgattr) =
      some ⟨paddr &&& pageMask arch, attr⟩ := by
  cases arch with
  | aarch64 =>
      rcases caller with rfl | rfl
      · exact Aarch64.leaf_pageEntry paddr (by decide) (by decide)
      · exact Aarch64.leaf_pageEntry paddr (by decide) (by decide)
  | arm =>
      rcases caller with rfl | rfl
      · exact Arm.leaf_pageEntry paddr (by decide) (by decide)
      · exact Arm.leaf_pageEntry paddr (by decide) (by decide)

theorem memLookupPa_mask {Root : Type} {roots : Root → Word arch} {root : Root}
    {free : Set (Word arch)} {s : MemUtil arch.width}
    (forest : Forest (mapper arch).toFormat roots s.mem free) {va : Word arch}
    {found : Leaf arch.width}
    (translated : translate s.mem (roots root) va = some found) :
    memLookupPa (roots root) va s &&& pageMask arch = readBack found.pa := by
  cases arch with
  | aarch64 => exact Aarch64.memLookupPa_mask forest translated
  | arm => exact Arm.memLookupPa_mask forest translated

end TzTest
