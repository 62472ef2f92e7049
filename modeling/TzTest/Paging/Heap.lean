import TzTest.Paging.TableCalls

/-!
# The pages of the heap

`mem_heap_allocate` moves a pointer through the addresses of the heap, and its
pages and the tables that it needs come from one pool.  The ranges that it
returns follow each other, and every page of them keeps the physical page that
was taken for it.
-/

namespace TzTest

open Radix

variable {arch : Arch}

/-- What a page was taken for. -/
inductive PageOwner (arch : Arch) where
  | table
  | mapping (va : Word arch)
  | heap (va : Word arch)

abbrev HandedOut (arch : Arch) : Type :=
  List (Word arch × PageOwner arch)

namespace MemOp

variable (base : Word arch)

/-- The pages that a call takes from the pool, in their order. -/
def handedOut (owner : Word arch → PageOwner arch) :
    MemOp arch → MemUtil arch.width → HandedOut arch
  | mapPa vaddr _ _, s => (tablesTaken base vaddr s).map (·, .table)
  | mapVa addr _, s =>
      ((memAllocatePa s).1, owner addr) ::
        (tablesTaken base addr (memAllocatePa s).2).map (·, .table)
  | unmapVa _, _ => []

def handedOutAll (owner : Word arch → PageOwner arch) :
    List (MemOp arch) → MemUtil arch.width → HandedOut arch
  | [], _ => []
  | op :: ops, s =>
      op.handedOut base owner s ++
        (op.run base 2 s).elim [] (handedOutAll owner ops)

/-- The pool has the pages that every call takes. -/
def RoomAll (stop : Nat) : List (MemOp arch) → MemUtil arch.width → Prop
  | [], _ => True
  | op :: ops, s =>
      s.memNextPa.toNat + 0x1000 * op.pages base s ≤ stop ∧
        ∀ later, op.run base 2 s = some later → RoomAll stop ops later

end MemOp

/-- What `mem_heap_allocate` has returned, and for which length. -/
structure HeapRange (arch : Arch) where
  addr : Word arch
  len : Word arch

/-- The length in whole pages. -/
def HeapRange.size (range : HeapRange arch) : Nat :=
  0x1000 * heapRounds range.len

namespace PagingCall

variable (base : Word arch)

/-- A call, with the range that it returns. -/
def allocate (fuel rounds : Nat) : PagingCall arch → MemUtil arch.width →
    Option (List (HeapRange arch) × MemUtil arch.width)
  | single op, s => (op.run base fuel s).map fun later => ([], later)
  | heapAllocate len, s =>
      (memHeapAllocate base fuel rounds len s).map fun (addr, later) =>
        ([⟨addr, len⟩], later)

def allocateAll (fuel rounds : Nat) : List (PagingCall arch) → MemUtil arch.width →
    Option (List (HeapRange arch) × MemUtil arch.width)
  | [], s => some ([], s)
  | call :: calls, s => do
      let (ranges, s) ← call.allocate base fuel rounds s
      let (more, s) ← allocateAll fuel rounds calls s
      return (ranges ++ more, s)

/-- A call, with the pages that it takes. -/
def handedOut : PagingCall arch → MemUtil arch.width → HandedOut arch
  | single op, s => op.handedOut base .mapping s
  | heapAllocate len, s =>
      MemOp.handedOutAll base .heap (heapOps s.memHeapPool (heapRounds len) 0) s

/-- Rounds that are enough for the loop of the heap. -/
def enough : PagingCall arch → Nat
  | single _ => 0
  | heapAllocate len => heapRounds len + 1

def handedOutAll : List (PagingCall arch) → MemUtil arch.width → HandedOut arch
  | [], _ => []
  | call :: calls, s =>
      call.handedOut base s ++
        (call.run base 2 call.enough s).elim [] (handedOutAll calls)

/-- The pool has the pages, and an address that is mapped or unmapped is on no page
of the heap so far, nor is one that differs from it in bits that no table counts. -/
def BesideHeap (stop : Nat) (bottom : Nat) : PagingCall arch →
    MemUtil arch.width → Prop
  | single op, s =>
      s.memNextPa.toNat + 0x1000 * op.pages base s ≤ stop ∧
        ∀ va : Word arch, bottom ≤ va.toNat → va.toNat < s.memHeapPool.toNat →
          ¬(mapper arch).SamePage va op.vaddr
  | heapAllocate len, s =>
      MemOp.RoomAll base stop (heapOps s.memHeapPool (heapRounds len) 0) s

def BesideHeapAll (stop : Nat) (bottom : Nat) : List (PagingCall arch) →
    MemUtil arch.width → Prop
  | [], _ => True
  | call :: calls, s =>
      call.BesideHeap base stop bottom s ∧
        ∀ later, call.run base 2 call.enough s = some later →
          BesideHeapAll stop bottom calls later

end PagingCall

/-- Tables with an empty pool in a region whose last-level table is there, and a
heap whose addresses are not those of the pool. -/
structure HeapStart (base : Word arch) (stop : Nat) (s : MemUtil arch.width) :
    Prop where
  hosted : Hosted base stop s
  begins : s.memNextPa.toNat ≤ stop
  region : stop ≤ (s.memNextPa.toNat / regionSize arch + 1) * regionSize arch
  installed : Installed s.mem base s.memNextPa
  aligned : s.memHeapPool.toNat % 0x1000 = 0
  below : s.memHeapPool.toNat + (stop - s.memNextPa.toNat) < addressLimit arch
  apart : stop ≤ s.memHeapPool.toNat ∨
    s.memHeapPool.toNat + (stop - s.memNextPa.toNat) ≤ s.memNextPa.toNat

/-- The ranges begin at one address, follow each other, and end at another. -/
def Consecutive : Nat → List (HeapRange arch) → Nat → Prop
  | bottom, [], top => bottom = top
  | bottom, range :: ranges, top =>
      range.addr.toNat = bottom ∧ Consecutive (bottom + range.size) ranges top

/-- The pages handed out are the next ones of the pool. -/
structure Takes (s later : MemUtil arch.width) (out : HandedOut arch) : Prop where
  pages : out.map Prod.fst = (mapper arch).pages out.length s.memNextPa
  taken : later.memNextPa.toNat = s.memNextPa.toNat + 0x1000 * out.length

/-- What a sequence of calls has done with the heap. -/
structure HeapKept (base : Word arch) (s later : MemUtil arch.width)
    (ranges : List (HeapRange arch)) (out : HandedOut arch) : Prop where
  /-- The ranges follow each other up to the end of the heap. -/
  consecutive : Consecutive s.memHeapPool.toNat ranges later.memHeapPool.toNat
  aligned : ∀ range ∈ ranges, range.addr.toNat % 0x1000 = 0
  disjoint : ranges.Pairwise fun left right =>
    left.addr.toNat + left.size ≤ right.addr.toNat
  /-- What was handed out are the next pages of the pool, none of them twice. -/
  taken : Takes s later out
  distinct : (out.map Prod.fst).Nodup
  /-- Every page of a range has got a page, -/
  owned : ∀ range ∈ ranges, ∀ va : Word arch, va.toNat % 0x1000 = 0 →
    range.addr.toNat ≤ va.toNat → va.toNat < range.addr.toNat + range.size →
    ∃ page, (page, .heap va) ∈ out
  /-- and is still translated to it. -/
  held : ∀ page va, (page, .heap va) ∈ out →
    ∃ attr, translate later.mem base va = some ⟨page, attr⟩

section Pages

variable {base : Word arch} {stop : Nat} {s : MemUtil arch.width}

theorem pages_append (first last : Nat) (page : Word arch) :
    (mapper arch).pages (first + last) page =
      (mapper arch).pages first page ++
        (mapper arch).pages last ((mapper arch).bump^[first] page) := by
  induction first generalizing page with
  | zero => rw [Nat.zero_add]; rfl
  | succ first induction =>
      rw [Nat.succ_add, Mapper.pages, induction]
      rfl

theorem Pool.pages_ascend {next : Word arch} {count : Nat}
    (pool : Pool arch next stop) (room : next.toNat + 0x1000 * count ≤ stop) :
    ((mapper arch).pages count next).Pairwise fun left right =>
      left.toNat < right.toNat := by
  induction count generalizing next with
  | zero => exact .nil
  | succ count induction =>
      have first : next.toNat + 0x1000 ≤ stop := by lia
      have place := pool.toNat_bump first
      have rest := pool.bump first
      refine .cons ?_ (induction rest (by lia))
      intro page member
      obtain ⟨_, above, _⟩ := rest.mem_pages (by lia) member
      lia

namespace MemOp

theorem handedOut_eq (owner : Word arch → PageOwner arch) (op : MemOp arch) :
    (op.handedOut base owner s).map Prod.fst =
      (mapper arch).pages (op.pages base s) s.memNextPa := by
  cases op with
  | mapPa vaddr paddr pgattr =>
      rw [handedOut, List.map_map]
      exact List.map_id _
  | mapVa addr pgattr =>
      rw [handedOut, List.map_cons, List.map_map, pages, Nat.add_comm]
      change s.memNextPa :: List.map id _ = s.memNextPa :: _
      rw [List.map_id, bump_eq]
      rfl
  | unmapVa addr => rfl

end MemOp

end Pages

/-- The addresses from `bottom` up to `top` are the heap, and each of its pages
is mapped to the page that was handed out for it. -/
structure HeapOwned (base : Word arch) (stop bottom limit top : Nat)
    (owned : HandedOut arch) (s : MemUtil arch.width) : Prop where
  hosted : Hosted base stop s
  begins : s.memNextPa.toNat ≤ stop
  installed {page : Word arch} : page ∈ range s.memNextPa.toNat stop →
    Installed s.mem base page
  bottomAligned : bottom % 0x1000 = 0
  topAligned : top % 0x1000 = 0
  grown : bottom ≤ top
  room : top + (stop - s.memNextPa.toNat) ≤ limit
  below : limit < addressLimit arch
  apart : stop ≤ bottom ∨ limit ≤ s.memNextPa.toNat
  placed {page va : Word arch} : (page, .heap va) ∈ owned →
    bottom ≤ va.toNat ∧ va.toNat < top
  held {page va : Word arch} : (page, .heap va) ∈ owned →
    ∃ attr, translate s.mem base va = some ⟨page, attr⟩
  filled {va : Word arch} : va.toNat % 0x1000 = 0 → bottom ≤ va.toNat →
    va.toNat < top → ∃ page, (page, .heap va) ∈ owned

section Owned

variable {base : Word arch} {stop bottom limit top : Nat} {owned : HandedOut arch}
variable {s : MemUtil arch.width}

theorem HeapOwned.fits (heap : HeapOwned base stop bottom limit top owned s)
    {op : MemOp arch} (room : s.memNextPa.toNat + 0x1000 * op.pages base s ≤ stop) :
    op.Fits base stop s where
  room := room
  installed page member := by
    obtain ⟨_, above, below⟩ := op.mem_tables heap.hosted.pool room member
    exact heap.installed ⟨above, below⟩

theorem HeapOwned.tables_apart (heap : HeapOwned base stop bottom limit top owned s)
    {op : MemOp arch} (room : s.memNextPa.toNat + 0x1000 * op.pages base s ≤ stop)
    {table va : Word arch} (member : table ∈ op.tables base s)
    (above : bottom ≤ va.toNat) (inside : va.toNat < limit) :
    ¬(mapper arch).SamePage va table := by
  obtain ⟨aligned, low, high⟩ := op.mem_tables heap.hosted.pool room member
  have small := le_trans heap.hosted.pool.limit (poolLimit_le arch)
  have below := heap.below
  have bottomAligned := heap.bottomAligned
  rw [samePage_iff (by omega) (by omega)]
  rcases heap.apart with before | after <;> omega

/-- A call that changes no page of the heap leaves every page of it mapped as it
is. -/
theorem HeapOwned.translate_eq (heap : HeapOwned base stop bottom limit top owned s)
    {op : MemOp arch} (room : s.memNextPa.toNat + 0x1000 * op.pages base s ≤ stop)
    {later : MemUtil arch.width}
    (rewrites : Rewrites base stop s later (op.changes base s)) {va : Word arch}
    (above : bottom ≤ va.toNat) (inside : va.toNat < limit)
    (other : ¬(mapper arch).SamePage va op.vaddr) :
    translate later.mem base va = translate s.mem base va := by
  rw [rewrites.translated]
  apply foldl_apply_of_apart
  intro change member
  rcases List.mem_append.mp member with table | own
  · obtain ⟨page, listed, rfl⟩ := List.mem_map.mp table
    exact heap.tables_apart room listed above inside
  · cases List.mem_singleton.mp own
    cases op with
    | mapPa vaddr paddr pgattr => exact other
    | mapVa addr pgattr => exact other
    | unmapVa addr => exact other

theorem not_heap_of_mapping {op : MemOp arch} {page va : Word arch} :
    (page, .heap va) ∉ op.handedOut base .mapping s := by
  intro member
  cases op with
  | mapPa vaddr paddr pgattr =>
      obtain ⟨_, _, same⟩ := List.mem_map.mp member
      cases same
  | mapVa addr pgattr =>
      rcases List.mem_cons.mp member with same | table
      · cases same
      · obtain ⟨_, _, same⟩ := List.mem_map.mp table
        cases same
  | unmapVa addr => cases member

/-- A call on another page keeps the heap. -/
theorem HeapOwned.beside (heap : HeapOwned base stop bottom limit top owned s)
    (op : MemOp arch)
    (room : s.memNextPa.toNat + 0x1000 * op.pages base s ≤ stop)
    (outside : ∀ va : Word arch, bottom ≤ va.toNat → va.toNat < top →
      ¬(mapper arch).SamePage va op.vaddr) :
    ∃ later, (∀ fuel, op.run base (fuel + 2) s = some later) ∧
      HeapOwned base stop bottom limit top
        (owned ++ op.handedOut base .mapping s) later ∧
      later.memHeapPool = s.memHeapPool ∧
      later.memNextPa.toNat = s.memNextPa.toNat + 0x1000 * op.pages base s := by
  obtain ⟨later, ran, rewrites⟩ := op.run_rewrites heap.hosted (heap.fits room)
  have taken := op.run_taken heap.hosted (heap.fits room) (ran 0)
  have advances := rewrites.advances
  have old {page va : Word arch}
      (member : (page, .heap va) ∈ owned ++ op.handedOut base .mapping s) :
      (page, .heap va) ∈ owned :=
    (List.mem_append.mp member).resolve_right not_heap_of_mapping
  refine ⟨later, ran, ?_, rewrites.heapPool, taken⟩
  exact
    { hosted := rewrites.hosted
      begins := by omega
      installed := fun inside => rewrites.keeps _
        (heap.installed (range_mono advances (le_refl _) inside))
      bottomAligned := heap.bottomAligned
      topAligned := heap.topAligned
      grown := heap.grown
      room := by
        have room := heap.room
        omega
      below := heap.below
      apart := heap.apart.imp_right fun after => le_trans after advances
      placed := fun member => heap.placed (old member)
      held := by
        intro page va member
        obtain ⟨above, under⟩ := heap.placed (old member)
        have inside : va.toNat < limit := by
          have room := heap.room
          omega
        rw [heap.translate_eq room rewrites above inside (outside va above under)]
        exact heap.held (old member)
      filled := by
        intro va aligned above under
        obtain ⟨page, member⟩ := heap.filled aligned above under
        exact ⟨page, List.mem_append_left _ member⟩ }

/-- The loop of the heap maps the page at its end to the next page of the pool. -/
theorem HeapOwned.push (heap : HeapOwned base stop bottom limit top owned s)
    {va : Word arch} (place : va.toNat = top)
    (room : s.memNextPa.toNat +
      0x1000 * (MemOp.mapVa va (pteUserRw arch)).pages base s ≤ stop) :
    ∃ later,
      (∀ fuel, (MemOp.mapVa va (pteUserRw arch)).run base (fuel + 2) s =
        some later) ∧
      HeapOwned base stop bottom limit (top + 0x1000)
        (owned ++ (MemOp.mapVa va (pteUserRw arch)).handedOut base .heap s) later ∧
      later.memHeapPool = s.memHeapPool ∧
      later.memNextPa.toNat = s.memNextPa.toNat +
        0x1000 * (MemOp.mapVa va (pteUserRw arch)).pages base s := by
  obtain ⟨later, ran, rewrites⟩ :=
    (MemOp.mapVa va (pteUserRw arch)).run_rewrites heap.hosted (heap.fits room)
  have taken := MemOp.run_taken heap.hosted _ (heap.fits room) (ran 0)
  have advances := rewrites.advances
  have first : s.memNextPa.toNat + 0x1000 ≤ stop := by
    simp only [MemOp.pages] at room
    omega
  have isPage := (heap.hosted.pool.poolPage first).page
  have mapped : ∃ attr, translate later.mem base va = some ⟨s.memNextPa, attr⟩ := by
    obtain ⟨attr, written⟩ := leaf_pageEntry s.memNextPa
      (.inr (rfl : pteUserRw arch = _))
    rw [page_and_pageMask isPage] at written
    refine ⟨attr, ?_⟩
    rw [rewrites.translated, MemOp.changes, List.foldl_append]
    exact ((mapper arch).set_of_samePage (Format.samePage_refl _ va) _ _).trans written
  have split {page va' : Word arch}
      (member : (page, .heap va') ∈ owned ++
        (MemOp.mapVa va (pteUserRw arch)).handedOut base .heap s) :
      (page, .heap va') ∈ owned ∨ (page = s.memNextPa ∧ va' = va) := by
    rcases List.mem_append.mp member with old | new
    · exact .inl old
    · rcases List.mem_cons.mp new with same | table
      · cases same
        exact .inr ⟨rfl, rfl⟩
      · obtain ⟨_, _, same⟩ := List.mem_map.mp table
        cases same
  have limit := heap.below
  have space := heap.room
  have bottomAligned := heap.bottomAligned
  have topAligned := heap.topAligned
  have grown := heap.grown
  have count := taken
  have total := room
  simp only [MemOp.pages] at count total
  refine ⟨later, ran, ?_, rewrites.heapPool, taken⟩
  exact
    { hosted := rewrites.hosted
      begins := by omega
      installed := fun inside => rewrites.keeps _
        (heap.installed (range_mono advances (le_refl _) inside))
      bottomAligned := bottomAligned
      topAligned := by omega
      grown := by omega
      room := by omega
      below := limit
      apart := heap.apart.imp_right fun after => le_trans after advances
      placed := by
        intro page va' member
        rcases split member with old | ⟨_, rfl⟩
        · obtain ⟨above, under⟩ := heap.placed old
          exact ⟨above, by omega⟩
        · exact ⟨by omega, by omega⟩
      held := by
        intro page va' member
        rcases split member with old | ⟨rfl, rfl⟩
        · obtain ⟨above, under⟩ := heap.placed old
          have other : ¬(mapper arch).SamePage va' va := by
            rw [samePage_iff (by omega) (by omega)]
            omega
          rw [heap.translate_eq room rewrites above (by omega) other]
          exact heap.held old
        · exact mapped
      filled := by
        intro va' aligned above under
        by_cases before : va'.toNat < top
        · obtain ⟨page, member⟩ := heap.filled aligned above before
          exact ⟨page, List.mem_append_left _ member⟩
        · have same : va' = va := by
            apply BitVec.eq_of_toNat_eq
            omega
          subst same
          exact ⟨s.memNextPa, List.mem_append_right _ (List.mem_cons_self ..)⟩ }

theorem Consecutive.grown {bottom top : Nat} {ranges : List (HeapRange arch)}
    (follows : Consecutive bottom ranges top) : bottom ≤ top := by
  induction ranges generalizing bottom with
  | nil => exact le_of_eq follows
  | cons range ranges induction =>
      exact le_trans (Nat.le_add_right ..) (induction follows.2)

theorem Consecutive.append {bottom middle top : Nat}
    {ranges more : List (HeapRange arch)} (first : Consecutive bottom ranges middle)
    (last : Consecutive middle more top) : Consecutive bottom (ranges ++ more) top := by
  induction ranges generalizing bottom with
  | nil =>
      cases first
      exact last
  | cons range ranges induction => exact ⟨first.1, induction first.2⟩

theorem Takes.refl (s : MemUtil arch.width) : Takes s s [] :=
  ⟨rfl, rfl⟩

theorem takes_of_run {op : MemOp arch} {owner : Word arch → PageOwner arch}
    {later : MemUtil arch.width}
    (taken : later.memNextPa.toNat =
      s.memNextPa.toNat + 0x1000 * op.pages base s) :
    Takes s later (op.handedOut base owner s) := by
  have listed := @op.handedOut_eq _ base s owner
  have count : (op.handedOut base owner s).length = op.pages base s := by
    rw [← List.length_map Prod.fst, listed, pages_length]
  exact ⟨by rw [count, listed], by rw [count, taken]⟩

theorem Takes.trans {middle later : MemUtil arch.width} {first last : HandedOut arch}
    (pool : Pool arch s.memNextPa stop) (below : middle.memNextPa.toNat ≤ stop)
    (before : Takes s middle first) (after : Takes middle later last) :
    Takes s later (first ++ last) := by
  have room : s.memNextPa.toNat + 0x1000 * first.length ≤ stop := by
    rw [← before.taken]
    exact below
  have reached : (mapper arch).bump^[first.length] s.memNextPa = middle.memNextPa := by
    apply BitVec.eq_of_toNat_eq
    rw [(pool.iterate room).2, before.taken]
  constructor
  · rw [List.map_append, List.length_append, pages_append, reached, before.pages,
      after.pages]
  · rw [after.taken, before.taken, List.length_append]
    lia

/-- The loop of the heap. -/
theorem HeapOwned.loop (heap : HeapOwned base stop bottom limit top owned s)
    {pool off : Word arch} {rounds : Nat} (place : (pool + off).toNat = top)
    (room : MemOp.RoomAll base stop (heapOps pool rounds off) s) :
    ∃ later,
      (∀ fuel, MemOp.runAll base (fuel + 2) (heapOps pool rounds off) s =
        some later) ∧
      HeapOwned base stop bottom limit (top + 0x1000 * rounds)
        (owned ++ MemOp.handedOutAll base .heap (heapOps pool rounds off) s) later ∧
      later.memHeapPool = s.memHeapPool ∧
      Takes s later (MemOp.handedOutAll base .heap (heapOps pool rounds off) s) ∧
      (pool + (· + 0x1000)^[rounds] off).toNat = top + 0x1000 * rounds := by
  induction rounds generalizing off top owned s with
  | zero =>
      refine ⟨s, fun _ => rfl, ?_, rfl, .refl s, place⟩
      rw [heapOps, MemOp.handedOutAll, List.append_nil]
      exact heap
  | succ rounds induction =>
      obtain ⟨first, rest⟩ := room
      obtain ⟨middle, ran, pushed, pool', taken⟩ := heap.push place first
      have inside : (pool + off).toNat + 0x1000 < 2 ^ arch.width := by
        have space := pushed.room
        have below := pushed.below
        have wide : addressLimit arch ≤ 2 ^ arch.width := by cases arch <;> decide
        omega
      have next : (pool + (off + 0x1000)).toNat = top + 0x1000 := by
        rw [← BitVec.add_assoc, toNat_add_page inside, place]
      obtain ⟨later, reached, grown, kept, takes, last⟩ :=
        induction pushed next (rest middle (ran 0))
      have whole : MemOp.handedOutAll base .heap
          (heapOps pool (rounds + 1) off) s =
            (MemOp.mapVa (pool + off) (pteUserRw arch)).handedOut base .heap s ++
              MemOp.handedOutAll base .heap (heapOps pool rounds (off + 0x1000))
                middle := by
        rw [heapOps, MemOp.handedOutAll, ran 0]
        rfl
      have total : top + 0x1000 + 0x1000 * rounds = top + 0x1000 * (rounds + 1) := by
        lia
      rw [List.append_assoc, ← whole, total] at grown
      refine ⟨later, ?_, grown, kept.trans pool', ?_, ?_⟩
      · intro fuel
        exact Option.bind_eq_some_iff.mpr ⟨middle, ran fuel, reached fuel⟩
      · rw [whole]
        exact .trans heap.hosted.pool pushed.begins (takes_of_run taken) takes
      · rw [Function.iterate_succ_apply, last, total]

/-- The length of a loop that has room is one that the offset can pass. -/
theorem bounded_of_rounds {len : Word arch} (room : 0x1000 * heapRounds len < addressLimit arch) :
    len.toNat ≤ heapLimit arch := by
  have pages : len.toNat ≤ 0x1000 * heapRounds len := by
    unfold heapRounds
    omega
  refine le_trans pages ?_
  generalize heapRounds len = rounds at room
  cases arch with
  | aarch64 =>
      change 0x1000 * rounds < 2 ^ 48 at room
      change 0x1000 * rounds ≤ 2 ^ 64 - 0x1000
      omega
  | arm =>
      change 0x1000 * rounds < 2 ^ 32 at room
      change 0x1000 * rounds ≤ 2 ^ 32 - 0x1000
      omega

/-- One call keeps the heap, which ends at `mem_heap_pool`. -/
theorem HeapOwned.call
    (heap : HeapOwned base stop bottom limit s.memHeapPool.toNat owned s)
    (call : PagingCall arch) (beside : call.BesideHeap base stop bottom s) :
    ∃ ranges later,
      (∀ fuel spare,
        call.allocate base (fuel + 2) (call.enough + spare) s = some (ranges, later)) ∧
      call.run base 2 call.enough s = some later ∧
      HeapOwned base stop bottom limit later.memHeapPool.toNat
        (owned ++ call.handedOut base s) later ∧
      Takes s later (call.handedOut base s) ∧
      Consecutive s.memHeapPool.toNat ranges later.memHeapPool.toNat := by
  cases call with
  | single op =>
      obtain ⟨room, outside⟩ := beside
      obtain ⟨later, ran, kept, pool, taken⟩ := heap.beside op room outside
      have same : s.memHeapPool.toNat = later.memHeapPool.toNat := by rw [pool]
      rw [same] at kept
      refine ⟨[], later, ?_, ran 0, kept, takes_of_run taken, same⟩
      intro fuel spare
      rw [PagingCall.allocate, ran fuel]
      rfl
  | heapAllocate len =>
      have place : (s.memHeapPool + 0).toNat = s.memHeapPool.toNat :=
        congrArg BitVec.toNat (BitVec.add_zero _)
      obtain ⟨later, ran, grown, pool, takes, last⟩ := heap.loop place beside
      have below : 0x1000 * heapRounds len < addressLimit arch := by
        have space := grown.room
        have below := grown.below
        omega
      have run := heapRounds_spec (bounded_of_rounds below)
      have allocated (fuel spare : Nat) :
          memHeapAllocate base (fuel + 2) (heapRounds len + 1 + spare) len s =
            some (s.memHeapPool,
              { later with memHeapPool :=
                  later.memHeapPool + (· + 0x1000)^[heapRounds len] 0 }) := by
        have looped : heapLoop base (fuel + 2) len (heapRounds len + 1 + spare) 0 s =
            some ((· + 0x1000)^[heapRounds len] 0, later) := by
          rw [run.loop_eq, ran fuel]
          rfl
        rw [memHeapAllocate, looped]
        rfl
      have ends : (later.memHeapPool + (· + 0x1000)^[heapRounds len] 0).toNat =
          s.memHeapPool.toNat + 0x1000 * heapRounds len := by
        rw [pool]
        exact last
      refine ⟨[⟨s.memHeapPool, len⟩],
        { later with memHeapPool :=
            later.memHeapPool + (· + 0x1000)^[heapRounds len] 0 },
        ?_, ?_, ?_, ⟨takes.pages, takes.taken⟩, ?_⟩
      · intro fuel spare
        rw [PagingCall.allocate, PagingCall.enough, allocated fuel spare]
        rfl
      · rw [PagingCall.run, PagingCall.enough, allocated 0 0]
        rfl
      · rw [ends]
        exact { grown with hosted := ⟨grown.hosted.forest, grown.hosted.pool⟩ }
      · exact ⟨rfl, ends.symm⟩

/-- A sequence of calls. -/
theorem HeapOwned.calls {calls : List (PagingCall arch)}
    (heap : HeapOwned base stop bottom limit s.memHeapPool.toNat owned s)
    (beside : PagingCall.BesideHeapAll base stop bottom calls s) :
    ∃ rounds ranges later,
      (∀ fuel spare,
        PagingCall.allocateAll base (fuel + 2) (rounds + spare) calls s =
          some (ranges, later)) ∧
      HeapOwned base stop bottom limit later.memHeapPool.toNat
        (owned ++ PagingCall.handedOutAll base calls s) later ∧
      Takes s later (PagingCall.handedOutAll base calls s) ∧
      Consecutive s.memHeapPool.toNat ranges later.memHeapPool.toNat := by
  induction calls generalizing owned s with
  | nil =>
      refine ⟨0, [], s, fun _ _ => rfl, ?_, .refl s, rfl⟩
      rw [PagingCall.handedOutAll, List.append_nil]
      exact heap
  | cons call calls induction =>
      obtain ⟨first, rest⟩ := beside
      obtain ⟨ranges, middle, allocated, ran, kept, taken, follows⟩ :=
        heap.call call first
      obtain ⟨rounds, more, later, allocatedRest, final, takenRest, followsRest⟩ :=
        induction kept (rest middle ran)
      have whole : PagingCall.handedOutAll base (call :: calls) s =
          call.handedOut base s ++ PagingCall.handedOutAll base calls middle := by
        rw [PagingCall.handedOutAll, ran]
        rfl
      rw [List.append_assoc, ← whole] at final
      refine ⟨call.enough + rounds, ranges ++ more, later, ?_, final, ?_,
        follows.append followsRest⟩
      · intro fuel spare
        have here := allocated fuel (rounds + spare)
        have there := allocatedRest fuel (call.enough + spare)
        rw [← Nat.add_assoc] at here
        rw [Nat.add_left_comm, ← Nat.add_assoc] at there
        refine Option.bind_eq_some_iff.mpr ⟨(ranges, middle), here, ?_⟩
        exact Option.bind_eq_some_iff.mpr ⟨(more, later), there, rfl⟩
      · rw [whole]
        exact taken.trans heap.hosted.pool kept.begins takenRest

end Owned

section Ranges

variable {bottom middle top : Nat} {ranges : List (HeapRange arch)}

theorem Consecutive.mem (follows : Consecutive bottom ranges top)
    {range : HeapRange arch} (member : range ∈ ranges) :
    bottom ≤ range.addr.toNat ∧ range.addr.toNat + range.size ≤ top := by
  induction ranges generalizing bottom with
  | nil => cases member
  | cons first ranges induction =>
      obtain ⟨place, rest⟩ := follows
      have grown := rest.grown
      rcases List.mem_cons.mp member with rfl | later
      · exact ⟨le_of_eq place.symm, by lia⟩
      · obtain ⟨above, below⟩ := induction rest later
        exact ⟨by lia, below⟩

theorem Consecutive.aligned (follows : Consecutive bottom ranges top)
    (start : bottom % 0x1000 = 0) {range : HeapRange arch} (member : range ∈ ranges) :
    range.addr.toNat % 0x1000 = 0 := by
  induction ranges generalizing bottom with
  | nil => cases member
  | cons first ranges induction =>
      obtain ⟨place, rest⟩ := follows
      rcases List.mem_cons.mp member with rfl | later
      · rw [place]
        exact start
      · refine induction rest ?_ later
        rw [HeapRange.size, Nat.add_mul_mod_self_left]
        exact start

theorem Consecutive.disjoint (follows : Consecutive bottom ranges top) :
    ranges.Pairwise fun left right =>
      left.addr.toNat + left.size ≤ right.addr.toNat := by
  induction ranges generalizing bottom with
  | nil => exact .nil
  | cons first ranges induction =>
      obtain ⟨place, rest⟩ := follows
      refine .cons ?_ (induction rest)
      intro later member
      rw [place]
      exact (rest.mem member).1

end Ranges

section Start

variable {base : Word arch} {stop : Nat} {s : MemUtil arch.width}

/-- A heap of no pages. -/
theorem HeapStart.owned (start : HeapStart base stop s) :
    HeapOwned base stop s.memHeapPool.toNat
      (s.memHeapPool.toNat + (stop - s.memNextPa.toNat)) s.memHeapPool.toNat [] s where
  hosted := start.hosted
  begins := start.begins
  installed := by
    intro page inside
    obtain ⟨above, below⟩ := inside
    unfold Installed
    rw [tableAt_of_region (region_of_range start.region above below)]
    exact start.installed
  bottomAligned := start.aligned
  topAligned := start.aligned
  grown := le_refl _
  room := le_refl _
  below := start.below
  apart := start.apart
  placed := fun member => absurd member List.not_mem_nil
  held := fun member => absurd member List.not_mem_nil
  filled := fun _ above under => absurd above (Nat.not_le.mpr under)

/-- What the calls have done with a heap that was empty. -/
theorem HeapOwned.kept {limit : Nat} {later : MemUtil arch.width}
    {ranges : List (HeapRange arch)} {out : HandedOut arch}
    (start : HeapStart base stop s)
    (heap : HeapOwned base stop s.memHeapPool.toNat limit later.memHeapPool.toNat
      out later)
    (taken : Takes s later out)
    (follows : Consecutive s.memHeapPool.toNat ranges later.memHeapPool.toNat) :
    HeapKept base s later ranges out where
  consecutive := follows
  aligned _ member := follows.aligned start.aligned member
  disjoint := follows.disjoint
  taken := taken
  distinct := by
    have room : s.memNextPa.toNat + 0x1000 * out.length ≤ stop := by
      rw [← taken.taken]
      exact heap.begins
    rw [taken.pages]
    refine (start.hosted.pool.pages_ascend room).imp ?_
    rintro left _ ascends rfl
    exact Nat.lt_irrefl _ ascends
  owned := by
    intro range member va aligned above below
    obtain ⟨first, last⟩ := follows.mem member
    exact heap.filled aligned (le_trans first above) (Nat.lt_of_lt_of_le below last)
  held _ _ member := heap.held member

end Start

namespace PagingCall

variable {base : Word arch} {stop bottom : Nat} {s : MemUtil arch.width}

theorem BesideHeapAll.of_prefix {earlier calls : List (PagingCall arch)}
    (begins : earlier <+: calls) (beside : BesideHeapAll base stop bottom calls s) :
    BesideHeapAll base stop bottom earlier s := by
  induction earlier generalizing calls s with
  | nil => trivial
  | cons call earlier induction =>
      obtain ⟨rest, rfl⟩ := begins
      obtain ⟨first, onward⟩ := beside
      exact ⟨first, fun later ran =>
        induction (List.prefix_append ..) (onward later ran)⟩

theorem handedOutAll_prefix {earlier calls : List (PagingCall arch)}
    (begins : earlier <+: calls) :
    handedOutAll base earlier s <+: handedOutAll base calls s := by
  induction earlier generalizing calls s with
  | nil => exact List.nil_prefix
  | cons call earlier induction =>
      obtain ⟨rest, rfl⟩ := begins
      apply (List.prefix_append_right_inj _).mpr
      cases call.run base 2 call.enough s with
      | none => exact List.prefix_rfl
      | some later => exact induction (List.prefix_append ..)

end PagingCall

/-- At every point of a sequence of calls beside the heap, the ranges returned so
far follow each other, and every page of them is translated to a page that was
handed out for it alone, and that nothing later is given. -/
theorem heapCalls_own_pages {base : Word arch} {stop : Nat} {s : MemUtil arch.width}
    (start : HeapStart base stop s) {calls : List (PagingCall arch)}
    (beside : PagingCall.BesideHeapAll base stop s.memHeapPool.toNat calls s)
    {earlier : List (PagingCall arch)} (begins : earlier <+: calls) :
    PagingCall.handedOutAll base earlier s <+: PagingCall.handedOutAll base calls s ∧
      ((PagingCall.handedOutAll base calls s).map Prod.fst).Nodup ∧
      ∃ rounds ranges later,
        (∀ fuel spare,
          PagingCall.allocateAll base (fuel + 2) (rounds + spare) earlier s =
            some (ranges, later)) ∧
        HeapKept base s later ranges (PagingCall.handedOutAll base earlier s) := by
  refine ⟨PagingCall.handedOutAll_prefix begins, ?_, ?_⟩
  · obtain ⟨_, _, _, _, heap, taken, follows⟩ := start.owned.calls beside
    exact (heap.kept start taken follows).distinct
  · obtain ⟨rounds, ranges, later, ran, heap, taken, follows⟩ :=
      start.owned.calls (beside.of_prefix begins)
    exact ⟨rounds, ranges, later, ran, heap.kept start taken follows⟩

namespace Aarch64

theorem heapTables_start : @HeapStart .aarch64 0x1000 0x20000 heapTables where
  hosted := ⟨smallTables_wellFormed.hosted.forest, smallTables_wellFormed.hosted.pool⟩
  begins := by decide
  region := by decide
  installed := by unfold Installed; decide
  aligned := by decide
  below := by decide
  apart := .inl (by decide)

/-- A range of two pages, a page beside the heap, and half a page. -/
def heapRun : List (PagingCall .aarch64) :=
  [.heapAllocate 0x1800, .single (.mapVa 0x80000000 0x40), .heapAllocate 0x800]

theorem heapRun_beside :
    PagingCall.BesideHeapAll (0x1000 : Word .aarch64) 0x20000
      Aarch64.heapTables.memHeapPool.toNat Aarch64.heapRun Aarch64.heapTables := by
  have start : InRegion 0x1000 0x20000
      (heapOps (0x40000000 : Word .aarch64) 2 0) heapTables := by
    decide +kernel
  have first (later : MemUtil 64) (ran : PagingCall.run (0x1000 : Word .aarch64) 2 3
      (.heapAllocate 0x1800) heapTables = some later) :
      later.memHeapPool = 0x40002000 ∧ InRegion 0x1000 0x20000
        (.mapVa 0x80000000 0x40 :: heapOps (0x40002000 : Word .aarch64) 1 0) later := by
    have reached : @Option.all (MemUtil 64) (fun later =>
        decide (later.memHeapPool = 0x40002000 ∧ InRegion 0x1000 0x20000
          (.mapVa 0x80000000 0x40 :: heapOps (0x40002000 : Word .aarch64) 1 0) later))
        (PagingCall.run (0x1000 : Word .aarch64) 2 3 (.heapAllocate 0x1800)
          heapTables) := by
      decide +kernel
    rw [ran] at reached
    exact of_decide_eq_true reached
  refine ⟨start, ?_⟩
  intro later ran
  obtain ⟨heap, room, rest⟩ := first later ran
  change later.memHeapPool = _ at heap
  refine ⟨⟨room, ?_⟩, ?_⟩
  · intro va above below same
    rw [heap] at below
    have inside : BitVec.toNat va < 0x40002000 := below
    have pages := (@TzTest.samePage_iff .aarch64 va 0x80000000
      (lt_trans inside (by decide)) (by decide)).mp same
    have far : BitVec.toNat (0x80000000 : Word .aarch64) / 0x1000 = 0x80000 := rfl
    omega
  · intro last ran'
    have kept : last.memHeapPool = later.memHeapPool :=
      @memMapVa_heapPool .aarch64 _ _ _ _ _ _ ran'
    refine ⟨?_, fun _ _ => trivial⟩
    change MemOp.RoomAll _ _ (heapOps last.memHeapPool 1 0) last
    rw [kept, heap]
    exact rest last ran'

end Aarch64

theorem heapCalls_own_pages_heapRun :
    ∃ rounds ranges later, (∀ fuel spare,
      PagingCall.allocateAll (0x1000 : Word .aarch64) (fuel + 2) (rounds + spare)
        Aarch64.heapRun Aarch64.heapTables = some (ranges, later)) ∧
      HeapKept (0x1000 : Word .aarch64) Aarch64.heapTables later ranges
        (PagingCall.handedOutAll (0x1000 : Word .aarch64) Aarch64.heapRun
          Aarch64.heapTables) :=
  (heapCalls_own_pages Aarch64.heapTables_start Aarch64.heapRun_beside
    List.prefix_rfl).2.2

end TzTest
