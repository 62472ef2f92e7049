import TzTest.Paging.Beside
import TzTest.Paging.SelfMapping

/-!
# Tables that keep to their region

The tables of an image and its pool lie in one part of the memory, and every page
of it that is a table is mapped to itself.  Calls for addresses elsewhere need no
more than room, and they write nowhere else.
-/

namespace TzTest

open Radix

variable {arch : Arch} {base : Word arch} {stop : Nat} {s later : MemUtil arch.width}

structure Settled (base : Word arch) (stop : Nat) (s : MemUtil arch.width) : Prop where
  aligned : base.toNat % 0x1000 = 0
  whole : stop % 0x1000 = 0
  homed : Homed base stop s
  start : base.toNat ≤ s.memNextPa.toNat
  below : s.memNextPa.toNat ≤ stop
  inside {addr : Word arch} : addr ∈ (mapper arch).Entries s.mem base →
    base.toNat ≤ addr.toNat ∧ addr.toNat < s.memNextPa.toNat

/-- An address of no page of the region. -/
structure Elsewhere (base : Word arch) (stop : Nat) (va : Word arch) : Prop where
  small : va.toNat < addressLimit arch
  apart : va.toNat < base.toNat ∨ stop ≤ va.toNat

/-- What a call leaves. -/
structure MemOp.Leaves (base : Word arch) (stop : Nat) (op : MemOp arch)
    (s later : MemUtil arch.width) : Prop where
  settled : Settled base stop later
  here {va : Word arch} : (mapper arch).SamePage va op.vaddr →
    translate later.mem base va = (op.change s).leaf
  others {va : Word arch} : Elsewhere base stop va →
    ¬(mapper arch).SamePage va op.vaddr →
    translate later.mem base va = translate s.mem base va
  advances : s.memNextPa.toNat ≤ later.memNextPa.toNat
  taken : later.memNextPa.toNat = s.memNextPa.toNat + 0x1000 * op.pages base s
  heapPool : later.memHeapPool = s.memHeapPool
  beside {addr : Word arch} : Beside base stop s addr →
    Beside base stop later addr ∧ later.mem addr = s.mem addr

namespace Settled

variable (settled : Settled base stop s)
include settled

theorem beside {addr : Word arch} (apart : addr.toNat < base.toNat ∨ stop ≤ addr.toNat) :
    Beside base stop s addr where
  entries entry := by
    have inside := settled.inside entry
    have below := settled.below
    omega
  pool := by
    rintro ⟨above, below⟩
    have start := settled.start
    omega

theorem not_samePage {page va : Word arch} (elsewhere : Elsewhere base stop va)
    (small : page.toNat < addressLimit arch) (above : base.toNat ≤ page.toNat)
    (below : page.toNat < stop) : ¬(mapper arch).SamePage page va := by
  have aligned := settled.aligned
  have whole := settled.whole
  have apart := elsewhere.apart
  rw [samePage_iff small elsewhere.small]
  omega

theorem outside {va : Word arch} (elsewhere : Elsewhere base stop va) :
    Outside base stop s va where
  apart := by
    intro other level table shallow there
    have below := settled.below
    have inside := settled.inside ⟨other, level, table, shallow, there, rfl⟩
    have small := atHome_lt (settled.homed.self other level table shallow there)
    rw [asKey_eq]
    exact settled.not_samePage elsewhere small inside.1 (by omega)
  pool := by
    intro page inside
    have limit := le_trans settled.homed.hosted.pool.limit (poolLimit_le arch)
    have start := settled.start
    exact settled.not_samePage elsewhere (lt_of_lt_of_le inside.2 limit)
      (le_trans start inside.1) inside.2

end Settled

theorem MemOp.pages_le (base : Word arch) (op : MemOp arch) (s : MemUtil arch.width) :
    op.pages base s ≤ 4 := by
  have depth : (mapper arch).depth ≤ 3 := by cases arch <;> decide
  have missing (vaddr : Word arch) : tablesMissing base vaddr s ≤ 3 :=
    le_trans ((mapper arch).missing_le ..) depth
  cases op with
  | mapPa vaddr paddr pgattr => exact le_trans (missing vaddr) (by decide)
  | mapVa addr pgattr =>
      have few := missing addr
      simp only [pages]
      omega
  | unmapVa addr => exact Nat.zero_le _

theorem MemOp.changes_last (op : MemOp arch) (s : MemUtil arch.width)
    (σ : Word arch → Option (Leaf arch.width)) {va : Word arch}
    (same : (mapper arch).SamePage va op.vaddr) :
    (op.changes base s).foldl Change.apply σ va = (op.change s).leaf := by
  rw [changes, List.foldl_append]
  have place : (op.change s).vaddr = op.vaddr := by
    cases op <;> rfl
  exact (mapper arch).set_of_samePage (place ▸ same) _ _

/-- A call for an address elsewhere, with room for its pages. -/
theorem Settled.call (settled : Settled base stop s) (op : MemOp arch)
    (elsewhere : Elsewhere base stop op.vaddr)
    (room : s.memNextPa.toNat + 0x1000 * op.pages base s ≤ stop) :
    ∃ later, (∀ fuel, op.run base (fuel + 2) s = some later) ∧
      (∀ fuel, ∀ access ∈ op.accesses base (fuel + 2) s,
        (homing arch).AtHome access.mem base access.addr) ∧
      op.Leaves base stop s later := by
  have homed := settled.homed
  obtain ⟨later, ran, home, homed', taken, heapPool⟩ :=
    op.run_home homed ⟨settled.outside elsewhere, room⟩
  have members {page : Word arch} (member : page ∈ op.tables base s) :=
    op.mem_tables homed.hosted.pool room member
  have fits : op.Fits base stop s :=
    ⟨room, fun page member => homed.installed (members member).2⟩
  obtain ⟨other, ranAgain, rewrites⟩ := op.run_rewrites homed.hosted fits
  cases (ran 0).symm.trans (ranAgain 0)
  have confined := op.run_confined homed.hosted fits (ran 0)
  have start := settled.start
  refine ⟨later, ran, home, ⟨⟨settled.aligned, settled.whole, homed', ?_, ?_, ?_⟩, ?_, ?_,
    ?_, taken, heapPool, ?_⟩⟩
  · omega
  · omega
  · intro addr entry
    rcases confined.entries entry with old | ⟨page, member, slot⟩
    · have inside := settled.inside old
      omega
    · obtain ⟨above, upper⟩ := op.tables_slot homed.hosted room member slot
      omega
  · intro va same
    rw [rewrites.translated]
    exact op.changes_last s _ same
  · intro va clear different
    rw [rewrites.translated, MemOp.changes, List.foldl_append]
    refine ((mapper arch).set_of_not_samePage ?_ _ _).trans (foldl_apply_of_apart ?_ _)
    · have place : (op.change s).vaddr = op.vaddr := by
        cases op <;> rfl
      exact place ▸ different
    · intro change listed
      obtain ⟨page, member, rfl⟩ := List.mem_map.mp listed
      obtain ⟨_, above, upper⟩ := members member
      have limit := le_trans homed.hosted.pool.limit (poolLimit_le arch)
      intro same
      exact settled.not_samePage clear (lt_of_lt_of_le upper limit) (le_trans start above)
        upper fun level below => (same level below).symm
  · omega
  · intro addr beside
    exact beside.run homed.hosted op fits (ran 0)

theorem MemOp.Leaves.most {op : MemOp arch} (leaves : op.Leaves base stop s later) :
    later.memNextPa.toNat ≤ s.memNextPa.toNat + 0x4000 := by
  have few := op.pages_le base s
  have taken := leaves.taken
  omega

theorem Settled.call_room (settled : Settled base stop s) (op : MemOp arch)
    (elsewhere : Elsewhere base stop op.vaddr) (room : s.memNextPa.toNat + 0x4000 ≤ stop) :
    ∃ later, (∀ fuel, op.run base (fuel + 2) s = some later) ∧
      op.Leaves base stop s later := by
  have few := op.pages_le base s
  obtain ⟨later, ran, _, leaves⟩ := settled.call op elsewhere (by omega)
  exact ⟨later, ran, leaves⟩

/-- A write of the program beside the tables. -/
theorem Settled.write (settled : Settled base stop s) {addr : Word arch}
    (beside : Beside base stop s addr) (value : Word arch) :
    Settled base stop (s.write addr value) where
  aligned := settled.aligned
  whole := settled.whole
  homed :=
    { hosted := settled.homed.hosted.write beside value
      self := by
        intro key level table shallow there
        rw [MemUtil.mem_write, Mapper.tableAt_update beside.entries value key shallow] at there
        obtain ⟨leaf, translated, home⟩ := settled.homed.self key level table shallow there
        exact ⟨leaf, (translate_write beside value _).trans translated, home⟩
      installed := by
        intro page inside
        exact (Installed.write beside value).mpr (settled.homed.installed inside) }
  start := settled.start
  below := settled.below
  inside {other} entry := by
    rw [MemUtil.mem_write, Mapper.entries_update beside.entries] at entry
    exact settled.inside entry

/-- The heap grows by one page, which lies beside the tables. -/
theorem Settled.heapPage (settled : Settled base stop s)
    (elsewhere : Elsewhere base stop s.memHeapPool)
    (room : s.memNextPa.toNat + 0x4000 ≤ stop) :
    ∃ later : MemUtil arch.width,
      (∀ fuel rounds, memHeapAllocate base (fuel + 2) (rounds + 2) 0x1000 s =
        some (s.memHeapPool, { later with memHeapPool := s.memHeapPool + 0x1000 })) ∧
      (MemOp.mapVa s.memHeapPool (pteUserRw arch)).Leaves base stop s later ∧
      s.memNextPa.toNat + 0x1000 ≤ later.memNextPa.toNat ∧
      ∀ addr ∈ range s.memNextPa.toNat (s.memNextPa.toNat + 0x1000),
        Beside base stop later addr := by
  let op : MemOp arch := .mapVa s.memHeapPool (pteUserRw arch)
  have few := op.pages_le base s
  have fits : op.Fits base stop s :=
    ⟨by omega, fun page member => settled.homed.installed
      (op.mem_tables settled.homed.hosted.pool (by omega) member).2⟩
  obtain ⟨later, ran, leaves⟩ := settled.call_room op elsewhere room
  have mapped (fuel : Nat) : memMapVa base (fuel + 2) s.memHeapPool 0 (pteUserRw arch) s =
      some later := ran fuel
  have zero : s.memHeapPool + 0 = s.memHeapPool := BitVec.add_zero _
  have first : (0 : Word arch) < 0x1000 := by cases arch <;> decide
  have second : ¬(0x1000 : Word arch) < 0x1000 := BitVec.lt_irrefl _
  have one : (0 + 0x1000 : Word arch) = 0x1000 := BitVec.zero_add _
  refine ⟨later, ?_, leaves, ?_, ?_⟩
  · intro fuel rounds
    simp only [memHeapAllocate, heapLoop, if_pos first, zero, mapped, if_neg second,
      Option.bind_eq_bind, Option.bind_some, Option.pure_def, one, leaves.heapPool]
  · have taken := leaves.taken
    simp only [MemOp.pages] at taken
    lia
  · intro addr inside
    exact Beside.of_mapVa settled.homed.hosted fits (ran 0) inside

theorem Settled.withHeapPool (settled : Settled base stop s) (heap : Word arch) :
    Settled base stop { s with memHeapPool := heap } where
  aligned := settled.aligned
  whole := settled.whole
  homed :=
    { hosted := ⟨settled.homed.hosted.forest, settled.homed.hosted.pool⟩
      self := settled.homed.self
      installed := settled.homed.installed }
  start := settled.start
  below := settled.below
  inside := settled.inside

end TzTest
