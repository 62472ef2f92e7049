import TzTest.Paging.Operations

/-!
# Memory beside the tables

What is neither an entry of a table nor in the pool is left alone by the table
routines, and a write there leaves the tables alone.  A page that `mem_map_va`
takes for its caller lies beside the tables from then on.
-/

namespace TzTest

open Radix

variable {arch : Arch} {base : Word arch} {stop : Nat} {s later : MemUtil arch.width}

/-- The address is that of no entry, and is not in the pool. -/
structure Beside (base : Word arch) (stop : Nat) (s : MemUtil arch.width)
    (addr : Word arch) : Prop where
  entries : addr ∉ (mapper arch).Entries s.mem base
  pool : addr ∉ range s.memNextPa.toNat stop

theorem slot_of_pages {page next : Word arch} {count : Nat}
    (pool : Pool arch next stop) (room : next.toNat + 0x1000 * count ≤ stop)
    (member : page ∈ (mapper arch).pages count next) {addr : Word arch}
    (slot : addr ∈ (mapper arch).pageSlots page) :
    next.toNat ≤ addr.toNat ∧ addr.toNat < next.toNat + 0x1000 * count := by
  obtain ⟨aligned, above, below⟩ := pool.mem_pages room member
  have start := pool.aligned
  have inside := pageSlots_page
    (PoolPage.mk aligned (by have limit := pool.limit; omega)).page slot
  obtain ⟨low, high⟩ := inside
  omega

/-- A call that fits writes to entries of the tables, and to pages of the pool that
it turns into tables. -/
theorem MemOp.run_confined (hosted : Hosted base stop s) (op : MemOp arch)
    (fits : op.Fits base stop s) (ran : op.run base 2 s = some later) :
    (mapper arch).Confined base s.mem later.mem (op.tables base s) := by
  cases op with
  | mapPa vaddr paddr pgattr =>
      obtain ⟨mem, _, mapped, _, _, _, _, _, confined⟩ := memMapPa_becomes ()
        hosted.forest vaddr paddr pgattr hosted.pool fits.room (le_refl _)
        fits.installed
      cases (mapped 0).symm.trans ran
      exact confined
  | mapVa addr pgattr =>
      have total := fits.room
      simp only [MemOp.pages] at total
      have room : s.memNextPa.toNat + 0x1000 ≤ stop := by lia
      have place := hosted.pool.toNat_bump room
      have bumped := hosted.pool.bump room
      rw [bump_eq] at place bumped
      have more : s.memNextPa.toNat ≤ (s.memNextPa + 0x1000).toNat := by lia
      obtain ⟨mem, _, mapped, _, _, _, _, _, confined⟩ := @memMapPa_becomes _ Unit _ _ _
        (memAllocatePa s).2 () hosted.forest addr s.memNextPa pgattr stop bumped
        (by
          change (s.memNextPa + 0x1000).toNat + 0x1000 * tablesMissing base addr s ≤ stop
          lia)
        (range_mono more (le_refl _)) fits.installed
      cases (mapped 0).symm.trans ran
      exact confined
  | unmapVa addr =>
      cases ran
      rcases memUnmapVa_cases () hosted.forest addr with same | ⟨last, installed, written⟩
      · change (mapper arch).Confined base s.mem (memUnmapVa base addr s).2.mem []
        rw [same]
        exact .refl _ _
      · change (mapper arch).Confined base s.mem (memUnmapVa base addr s).2.mem []
        rw [written]
        exact @Mapper.confined_setLeaf _ _ _ _ _ _ (mapper arch) (fun _ : Unit => base)
          _ s.store () addr _ hosted.forest 0 last installed

/-- The slots of the tables that a call takes are in the pool, and above the page
that it takes for its caller. -/
theorem MemOp.tables_slot (hosted : Hosted base stop s) (op : MemOp arch)
    (room : s.memNextPa.toNat + 0x1000 * op.pages base s ≤ stop)
    {page addr : Word arch} (member : page ∈ op.tables base s)
    (slot : addr ∈ (mapper arch).pageSlots page) :
    s.memNextPa.toNat + 0x1000 * (op.pages base s - (op.tables base s).length) ≤
        addr.toNat ∧
      addr.toNat < s.memNextPa.toNat + 0x1000 * op.pages base s := by
  cases op with
  | mapPa vaddr paddr pgattr =>
      obtain ⟨above, below⟩ := slot_of_pages hosted.pool room member slot
      have count : ((MemOp.mapPa vaddr paddr pgattr).tables base s).length =
          tablesMissing base vaddr s := pages_length _ _
      rw [count, MemOp.pages, Nat.sub_self]
      exact ⟨above, below⟩
  | mapVa addr' pgattr =>
      simp only [MemOp.pages] at room
      have first : s.memNextPa.toNat + 0x1000 ≤ stop := by lia
      have place := hosted.pool.toNat_bump first
      have bumped := hosted.pool.bump first
      rw [bump_eq] at place bumped
      have rest : (s.memNextPa + 0x1000).toNat +
          0x1000 * tablesMissing base addr' s ≤ stop := by
        rw [place]
        lia
      obtain ⟨above, below⟩ := slot_of_pages bumped rest member slot
      rw [place] at above below
      have count : ((MemOp.mapVa addr' pgattr).tables base s).length =
          tablesMissing base addr' s := pages_length _ _
      simp only [MemOp.pages, count]
      omega
  | unmapVa addr' => cases member

/-- What lies beside the tables stays there as it is. -/
theorem Beside.run (hosted : Hosted base stop s) {addr : Word arch}
    (beside : Beside base stop s addr) (op : MemOp arch) (fits : op.Fits base stop s)
    (ran : op.run base 2 s = some later) :
    Beside base stop later addr ∧ later.mem addr = s.mem addr := by
  have confined := op.run_confined hosted fits ran
  have taken := op.run_taken hosted fits ran
  have outside : ∀ page ∈ op.tables base s, addr ∉ (mapper arch).pageSlots page := by
    intro page member slot
    obtain ⟨above, below⟩ := op.tables_slot hosted fits.room member slot
    exact beside.pool ⟨by omega, lt_of_lt_of_le below fits.room⟩
  refine ⟨⟨?_, ?_⟩, confined.frame beside.entries outside⟩
  · intro member
    rcases confined.entries member with old | ⟨page, member, slot⟩
    · exact beside.entries old
    · exact outside page member slot
  · rintro ⟨above, below⟩
    exact beside.pool ⟨by omega, below⟩

/-- So does the page that `mem_map_va` takes for its caller, which is empty. -/
theorem Beside.of_mapVa (hosted : Hosted base stop s) {vaddr pgattr addr : Word arch}
    (fits : (MemOp.mapVa vaddr pgattr).Fits base stop s)
    (ran : (MemOp.mapVa vaddr pgattr).run base 2 s = some later)
    (inside : addr ∈ range s.memNextPa.toNat (s.memNextPa.toNat + 0x1000)) :
    Beside base stop later addr := by
  have confined := MemOp.run_confined hosted _ fits ran
  have taken := MemOp.run_taken hosted _ fits ran
  have room := fits.room
  have count : ((MemOp.mapVa vaddr pgattr).tables base s).length =
      tablesMissing base vaddr s := pages_length _ _
  simp only [MemOp.pages] at taken room
  obtain ⟨low, high⟩ := inside
  constructor
  · intro member
    rcases confined.entries member with old | ⟨page, member, slot⟩
    · obtain ⟨key, level, table, below, there, rfl⟩ := old
      exact @Forest.unused _ _ _ _ _ _ _ _ _ _ hosted.forest () key level table below
        there ⟨low, by omega⟩
    · have place := (MemOp.tables_slot hosted _ fits.room member slot).1
      simp only [MemOp.pages, count] at place
      omega
  · rintro ⟨above, _⟩
    omega

theorem Beside.write {addr other : Word arch} (beside : Beside base stop s addr)
    (there : Beside base stop s other) (value : Word arch) :
    Beside base stop (s.write addr value) other where
  entries := by
    rw [MemUtil.mem_write, Mapper.entries_update beside.entries]
    exact there.entries
  pool := there.pool

theorem Hosted.write {addr : Word arch} (hosted : Hosted base stop s)
    (beside : Beside base stop s addr) (value : Word arch) :
    Hosted base stop (s.write addr value) where
  forest := Mapper.forest_update hosted.forest (fun _ => beside.entries) beside.pool value
  pool := hosted.pool

theorem translate_write {addr : Word arch} (beside : Beside base stop s addr)
    (value va : Word arch) :
    translate (s.write addr value).mem base va = translate s.mem base va :=
  Mapper.translate_update beside.entries value va

theorem Installed.write {addr vaddr : Word arch} (beside : Beside base stop s addr)
    (value : Word arch) :
    Installed (s.write addr value).mem base vaddr ↔ Installed s.mem base vaddr := by
  unfold Installed
  rw [MemUtil.mem_write, Mapper.tableAt_update beside.entries value vaddr (le_refl _)]

end TzTest
