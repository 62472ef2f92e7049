import TzTest.Paging.Tables

/-!
# Sequences of table operations

One image calls the routines one after another.  A call *fits* when the pool
has the pages that it takes and the tables that it takes can be mapped at once.
From a hosted table, calls that fit come back, and change the translation page
by page.
-/

namespace TzTest

open Radix

inductive MemOp (arch : Arch) where
  | mapPa (vaddr paddr pgattr : Word arch)
  | mapVa (addr pgattr : Word arch)
  | unmapVa (addr : Word arch)

/-- A page that is mapped or unmapped. -/
structure Change (arch : Arch) where
  vaddr : Word arch
  leaf : Option (Leaf arch.width)

variable {arch : Arch}

def Change.apply (σ : Word arch → Option (Leaf arch.width)) (change : Change arch) :
    Word arch → Option (Leaf arch.width) :=
  (mapper arch).set change.vaddr change.leaf σ

/-- What a sequence of changes makes of an address is what the last one of its
page has made of it. -/
theorem foldl_apply_eq_find {Page : Type} [DecidableEq Page] (page : Word arch → Page)
    {changes : List (Change arch)} {va : Word arch}
    (same : ∀ change ∈ changes,
      (mapper arch).SamePage va change.vaddr ↔ page change.vaddr = page va)
    (σ : Word arch → Option (Leaf arch.width)) :
    changes.foldl Change.apply σ va =
      (changes.reverse.find? fun change => page change.vaddr = page va).elim (σ va)
        Change.leaf := by
  rw [List.foldl_eq_foldr_reverse]
  have same' : ∀ change ∈ changes.reverse,
      ((mapper arch).SamePage va change.vaddr ↔ page change.vaddr = page va) :=
    fun change member => same change (List.mem_reverse.mp member)
  generalize changes.reverse = recent at same' ⊢
  induction recent with
  | nil => rfl
  | cons change older induction =>
      have here := same' change (List.mem_cons_self ..)
      have before := induction fun other member =>
        same' other (List.mem_cons_of_mem _ member)
      rw [List.foldr_cons, List.find?_cons]
      by_cases samePage : page change.vaddr = page va
      · rw [decide_eq_true samePage]
        exact (mapper arch).set_of_samePage (here.mpr samePage) _ _
      · rw [decide_eq_false samePage]
        exact ((mapper arch).set_of_not_samePage (mt here.mp samePage) _ _).trans
          before

/-- What the hardware makes of an entry that `mem_map_pa` writes. -/
def pageLeaf (paddr pgattr : Word arch) : Option (Leaf arch.width) :=
  (mapper arch).leaf (pageEntry paddr pgattr)

def tableChange (page : Word arch) : Change arch :=
  ⟨page, pageLeaf page (pteUserRw arch)⟩

theorem identities_eq (pages : List (Word arch))
    (σ : Word arch → Option (Leaf arch.width)) :
    (mapper arch).identities pages σ =
      (pages.map tableChange).foldl Change.apply σ := by
  induction pages generalizing σ with
  | nil => rfl
  | cons page pages induction =>
      rw [Mapper.identities, asKey_eq, own_eq, induction]
      rfl

namespace MemOp

variable (base : Word arch)

def run (fuel : Nat) : MemOp arch → MemUtil arch.width →
    Option (MemUtil arch.width)
  | mapPa vaddr paddr pgattr, s => memMapPa base fuel vaddr paddr 0 pgattr s
  | mapVa addr pgattr, s => memMapVa base fuel addr 0 pgattr s
  | unmapVa addr, s => some (memUnmapVa base addr s).2

def runAll (fuel : Nat) : List (MemOp arch) → MemUtil arch.width →
    Option (MemUtil arch.width)
  | [], s => some s
  | op :: ops, s => do
      let s ← op.run base fuel s
      runAll fuel ops s

/-- The pages of the pool that a call turns into tables. -/
def tables : MemOp arch → MemUtil arch.width → List (Word arch)
  | mapPa vaddr _ _, s => tablesTaken base vaddr s
  | mapVa addr _, s => tablesTaken base addr (memAllocatePa s).2
  | unmapVa _, _ => []

/-- The number of pages that a call takes from the pool. -/
def pages : MemOp arch → MemUtil arch.width → Nat
  | mapPa vaddr _ _, s => tablesMissing base vaddr s
  | mapVa addr _, s => 1 + tablesMissing base addr s
  | unmapVa _, _ => 0

structure Fits (stop : Nat) (op : MemOp arch) (s : MemUtil arch.width) : Prop where
  room : s.memNextPa.toNat + 0x1000 * op.pages base s ≤ stop
  installed : ∀ page ∈ op.tables base s, Installed s.mem base page

def FitsAll (stop : Nat) : List (MemOp arch) → MemUtil arch.width → Prop
  | [], _ => True
  | op :: ops, s =>
      op.Fits base stop s ∧
        ∀ later, op.run base 2 s = some later → FitsAll stop ops later

/-- The page that the call itself changes, after those of its tables. -/
def change : MemOp arch → MemUtil arch.width → Change arch
  | mapPa vaddr paddr pgattr, _ => ⟨vaddr, pageLeaf paddr pgattr⟩
  | mapVa addr pgattr, s => ⟨addr, pageLeaf s.memNextPa pgattr⟩
  | unmapVa addr, _ => ⟨addr, none⟩

def changes (op : MemOp arch) (s : MemUtil arch.width) : List (Change arch) :=
  (op.tables base s).map tableChange ++ [op.change s]

/-- All that a sequence of calls changes. -/
def log : List (MemOp arch) → MemUtil arch.width → List (Change arch)
  | [], _ => []
  | op :: ops, s =>
      op.changes base s ++ ((op.run base 2 s).elim [] (log ops))

end MemOp

/-- A tree of tables beside an empty pool. -/
structure Hosted (base : Word arch) (stop : Nat) (s : MemUtil arch.width) : Prop where
  forest : Forest (mapper arch).toFormat (fun _ : Unit => base) s.mem
    (range s.memNextPa.toNat stop)
  pool : Pool arch s.memNextPa stop

/-- The outcome of calls that fit. -/
structure Rewrites (base : Word arch) (stop : Nat) (s later : MemUtil arch.width)
    (changes : List (Change arch)) : Prop where
  hosted : Hosted base stop later
  translated : translate later.mem base =
    changes.foldl Change.apply (translate s.mem base)
  keeps (vaddr : Word arch) : Installed s.mem base vaddr →
    Installed later.mem base vaddr
  advances : s.memNextPa.toNat ≤ later.memNextPa.toNat
  heapPool : later.memHeapPool = s.memHeapPool

variable {base : Word arch} {stop : Nat} {s : MemUtil arch.width}

theorem Rewrites.refl (hosted : Hosted base stop s) : Rewrites base stop s s [] where
  hosted := hosted
  translated := rfl
  keeps _ installed := installed
  advances := le_refl _
  heapPool := rfl

theorem Rewrites.trans {middle later : MemUtil arch.width}
    {first last : List (Change arch)} (before : Rewrites base stop s middle first)
    (after : Rewrites base stop middle later last) :
    Rewrites base stop s later (first ++ last) where
  hosted := after.hosted
  translated := by
    rw [after.translated, before.translated, List.foldl_append]
  keeps vaddr installed := after.keeps vaddr (before.keeps vaddr installed)
  advances := le_trans before.advances after.advances
  heapPool := after.heapPool.trans before.heapPool

/-- What a call that fits does in a forest that may hold other trees and other
free memory. -/
structure Grows {Root : Type} (roots : Root → Word arch) (root : Root)
    (free : Set (Word arch)) (stop : Nat) (s later : MemUtil arch.width)
    (changes : List (Change arch)) : Prop where
  pool : Pool arch later.memNextPa stop
  advances : s.memNextPa.toNat ≤ later.memNextPa.toNat
  below : later.memNextPa.toNat ≤ stop
  heapPool : later.memHeapPool = s.memHeapPool
  becomes : (mapper arch).Becomes roots root s.mem later.mem
    (free \ range s.memNextPa.toNat later.memNextPa.toNat)
    (changes.foldl Change.apply (translate s.mem (roots root)))

section Grows

variable {Root : Type} {roots : Root → Word arch} {root : Root}
variable {free : Set (Word arch)}

theorem Grows.installed {later : MemUtil arch.width} {changes : List (Change arch)}
    (grows : Grows roots root free stop s later changes) (other : Root)
    {vaddr : Word arch} (installed : Installed s.mem (roots other) vaddr) :
    Installed later.mem (roots other) vaddr :=
  grows.becomes.installed installed

variable [DecidableEq Root]

theorem mapPa_grows (forest : Forest (mapper arch).toFormat roots s.mem free)
    (pool : Pool arch s.memNextPa stop)
    (inFree : range s.memNextPa.toNat stop ⊆ free) (vaddr paddr pgattr : Word arch)
    (fits : (MemOp.mapPa vaddr paddr pgattr).Fits (roots root) stop s) :
    ∃ later,
      (∀ fuel, memMapPa (roots root) (fuel + 2) vaddr paddr 0 pgattr s =
        some later) ∧
      Grows roots root free stop s later
        ((MemOp.mapPa vaddr paddr pgattr).changes (roots root) s) := by
  have room : s.memNextPa.toNat +
      0x1000 * tablesMissing (roots root) vaddr s ≤ stop := fits.room
  obtain ⟨mem, next, ran, rest, reached, becomes, _⟩ :=
    memMapPa_becomes root forest vaddr paddr pgattr pool room inFree fits.installed
  refine ⟨_, ran, rest, ?_, ?_, rfl, ?_⟩
  · change _ ≤ next.toNat
    rw [reached]
    exact Nat.le_add_right _ _
  · change next.toNat ≤ stop
    rw [reached]
    exact room
  · rw [MemOp.changes, List.foldl_append, MemOp.tables, ← identities_eq]
    exact becomes

/-- A call that fits comes back and changes its pages. -/
theorem MemOp.run_grows (forest : Forest (mapper arch).toFormat roots s.mem free)
    (pool : Pool arch s.memNextPa stop)
    (inFree : range s.memNextPa.toNat stop ⊆ free) (op : MemOp arch)
    (fits : op.Fits (roots root) stop s) :
    ∃ later, (∀ fuel, op.run (roots root) (fuel + 2) s = some later) ∧
      Grows roots root free stop s later (op.changes (roots root) s) := by
  cases op with
  | mapPa vaddr paddr pgattr =>
      exact mapPa_grows forest pool inFree vaddr paddr pgattr fits
  | mapVa addr pgattr =>
      have total := fits.room
      simp only [MemOp.pages] at total
      have room : s.memNextPa.toNat + 0x1000 ≤ stop := by lia
      have place := pool.toNat_bump room
      have bumped := pool.bump room
      rw [bump_eq] at place bumped
      have rest : (MemOp.mapPa addr s.memNextPa pgattr).Fits (roots root) stop
          (memAllocatePa s).2 := by
        refine ⟨?_, fits.installed⟩
        change (s.memNextPa + 0x1000).toNat +
          0x1000 * tablesMissing (roots root) addr s ≤ stop
        rw [place]
        lia
      have more : s.memNextPa.toNat ≤ (s.memNextPa + 0x1000).toNat := by lia
      obtain ⟨later, ran, grows⟩ := mapPa_grows
        (s := (memAllocatePa s).2) forest bumped
        ((range_mono more (le_refl _)).trans inFree) addr s.memNextPa pgattr rest
      refine ⟨later, ran, ?_⟩
      exact
        { pool := grows.pool
          advances := le_trans more grows.advances
          below := grows.below
          heapPool := grows.heapPool
          becomes := by
            apply grows.becomes.shrink
            intro free inside
            exact ⟨inside.1, fun taken => inside.2 (range_mono more (le_refl _) taken)⟩ }
  | unmapVa addr =>
      obtain ⟨mem, ran, becomes⟩ := memUnmapVa_becomes root forest addr
      refine ⟨_, fun _ => congrArg some ran, ?_⟩
      exact
        { pool := pool
          advances := le_refl _
          below := fits.room
          heapPool := rfl
          becomes := becomes.shrink Set.sdiff_subset }

end Grows

/-- The tables that a call takes are the next pages of the pool. -/
theorem MemOp.mem_tables_taken (pool : Pool arch s.memNextPa stop) (op : MemOp arch)
    (room : s.memNextPa.toNat + 0x1000 * op.pages base s ≤ stop)
    {page : Word arch} (member : page ∈ op.tables base s) :
    page.toNat % 0x1000 = 0 ∧ s.memNextPa.toNat ≤ page.toNat ∧
      page.toNat < s.memNextPa.toNat + 0x1000 * op.pages base s := by
  cases op with
  | mapPa vaddr paddr pgattr => exact pool.mem_pages room member
  | mapVa addr pgattr =>
      simp only [MemOp.pages] at room ⊢
      have first : s.memNextPa.toNat + 0x1000 ≤ stop := by lia
      have place := pool.toNat_bump first
      have later := pool.bump first
      rw [bump_eq] at place later
      have rest : (s.memNextPa + 0x1000).toNat +
          0x1000 * tablesMissing base addr s ≤ stop := by
        rw [place]
        lia
      obtain ⟨aligned, above, below⟩ := later.mem_pages rest member
      rw [place] at above
      change page.toNat < (s.memNextPa + 0x1000).toNat + _ at below
      rw [place] at below
      exact ⟨aligned, le_trans (Nat.le_add_right _ _) above, by lia⟩
  | unmapVa addr => cases member

theorem MemOp.mem_tables (pool : Pool arch s.memNextPa stop) (op : MemOp arch)
    (room : s.memNextPa.toNat + 0x1000 * op.pages base s ≤ stop)
    {page : Word arch} (member : page ∈ op.tables base s) :
    page.toNat % 0x1000 = 0 ∧ s.memNextPa.toNat ≤ page.toNat ∧
      page.toNat < stop := by
  obtain ⟨aligned, above, below⟩ := op.mem_tables_taken pool room member
  exact ⟨aligned, above, lt_of_lt_of_le below room⟩

theorem foldl_apply_of_apart {changes : List (Change arch)} {va : Word arch}
    (apart : ∀ change ∈ changes, ¬(mapper arch).SamePage va change.vaddr)
    (σ : Word arch → Option (Leaf arch.width)) :
    changes.foldl Change.apply σ va = σ va := by
  induction changes generalizing σ with
  | nil => rfl
  | cons change changes induction =>
      have rest := induction
        fun other member => apart other (List.mem_cons_of_mem _ member)
      rw [List.foldl_cons, rest]
      exact (mapper arch).set_of_not_samePage (apart change (List.mem_cons_self ..)) _ _

/-- A call that fits moves the pool past the pages that it takes. -/
theorem MemOp.run_taken (hosted : Hosted base stop s) (op : MemOp arch)
    (fits : op.Fits base stop s) {later : MemUtil arch.width}
    (ran : op.run base 2 s = some later) :
    later.memNextPa.toNat = s.memNextPa.toNat + 0x1000 * op.pages base s := by
  cases op with
  | mapPa vaddr paddr pgattr =>
      obtain ⟨_, next, mapped, _, reached, _⟩ := memMapPa_becomes () hosted.forest
        vaddr paddr pgattr hosted.pool fits.room (le_refl _) fits.installed
      cases (mapped 0).symm.trans ran
      exact reached
  | mapVa addr pgattr =>
      have total := fits.room
      simp only [MemOp.pages] at total
      have room : s.memNextPa.toNat + 0x1000 ≤ stop := by lia
      have place := hosted.pool.toNat_bump room
      have bumped := hosted.pool.bump room
      rw [bump_eq] at place bumped
      have more : s.memNextPa.toNat ≤ (s.memNextPa + 0x1000).toNat := by lia
      obtain ⟨_, next, mapped, _, reached, _⟩ := @memMapPa_becomes _ Unit _ _ _
        (memAllocatePa s).2 () hosted.forest addr s.memNextPa pgattr stop bumped
        (by
          change (s.memNextPa + 0x1000).toNat + 0x1000 * tablesMissing base addr s ≤ stop
          lia)
        (range_mono more (le_refl _)) fits.installed
      cases (mapped 0).symm.trans ran
      have count : next.toNat = (s.memNextPa + 0x1000).toNat +
          0x1000 * tablesMissing base addr s := reached
      simp only [MemOp.pages]
      lia
  | unmapVa addr =>
      have mem := memUnmapVa_cases () hosted.forest addr
      cases ran
      rcases mem with same | ⟨_, _, written⟩
      · rw [same]
        rfl
      · rw [written]
        rfl

/-- A call that fits, from a hosted table. -/
theorem MemOp.run_rewrites (hosted : Hosted base stop s) (op : MemOp arch)
    (fits : op.Fits base stop s) :
    ∃ later, (∀ fuel, op.run base (fuel + 2) s = some later) ∧
      Rewrites base stop s later (op.changes base s) := by
  obtain ⟨later, ran, grows⟩ := @MemOp.run_grows _ _ _ _ (fun _ : Unit => base) ()
    _ _ hosted.forest hosted.pool (le_refl _) op fits
  refine ⟨later, ran, ?_⟩
  exact
    { hosted := by
        refine ⟨grows.becomes.forest.shrink ?_, grows.pool⟩
        intro addr inside
        refine ⟨range_mono grows.advances (le_refl _) inside, ?_⟩
        intro taken
        exact absurd taken.2 (not_lt.mpr inside.1)
      translated := funext grows.becomes.translated
      keeps := fun _ installed => grows.installed () installed
      advances := grows.advances
      heapPool := grows.heapPool }

theorem MemOp.log_cons {op : MemOp arch} {ops : List (MemOp arch)}
    {later : MemUtil arch.width} (ran : op.run base 2 s = some later) :
    log base (op :: ops) s = op.changes base s ++ log base ops later := by
  rw [log, ran]
  rfl

/-- Every sequence of calls that fit comes back, and its log tells what it has
changed. -/
theorem MemOp.runAll_rewrites (hosted : Hosted base stop s)
    (ops : List (MemOp arch)) (fits : FitsAll base stop ops s) :
    ∃ later, (∀ fuel, runAll base (fuel + 2) ops s = some later) ∧
      Rewrites base stop s later (log base ops s) := by
  induction ops generalizing s with
  | nil => exact ⟨s, fun _ => rfl, .refl hosted⟩
  | cons op ops induction =>
      obtain ⟨first, rest⟩ := fits
      obtain ⟨middle, ran, before⟩ := op.run_rewrites hosted first
      obtain ⟨later, ranRest, after⟩ := induction before.hosted (rest middle (ran 0))
      refine ⟨later, ?_, ?_⟩
      · intro fuel
        exact Option.bind_eq_some_iff.mpr ⟨middle, ran fuel, ranRest fuel⟩
      · rw [log_cons (ran 0)]
        exact before.trans after

end TzTest
