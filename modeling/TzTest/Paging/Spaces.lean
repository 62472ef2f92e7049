import Mathlib.Data.Set.BooleanAlgebra
import Mathlib.Order.CompletePartialOrder
import TzTest.Paging.Tables
import TzTest.State

/-!
# Three address spaces in one memory

EL3, secure EL1 and nonsecure EL1 have their own copies of `mem_util.c`.  Their
tables lie in the same memory; on ARM the first two share one tree.
-/

namespace TzTest

open Radix

/-- The memory and the pool variables of the three images. -/
structure Spaces (arch : Arch) where
  mem : Word arch → Word arch
  memNextPa : Space → Word arch
  memHeapPool : Space → Word arch

variable {arch : Arch} {Root : Type}

namespace Spaces

def image (spaces : Spaces arch) (space : Space) : MemUtil arch.width where
  mem := spaces.mem
  memNextPa := spaces.memNextPa space
  memHeapPool := spaces.memHeapPool space

def setImage (spaces : Spaces arch) (space : Space) (s : MemUtil arch.width) :
    Spaces arch where
  mem := s.mem
  memNextPa := Function.update spaces.memNextPa space s.memNextPa
  memHeapPool := Function.update spaces.memHeapPool space s.memHeapPool

/-- The rest of the pool of a space. -/
def rest (spaces : Spaces arch) (stop : Space → Nat) (space : Space) :
    Set (Word arch) :=
  range (spaces.memNextPa space).toNat (stop space)

def unused (spaces : Spaces arch) (stop : Space → Nat) : Set (Word arch) :=
  { addr | ∃ space, addr ∈ spaces.rest stop space }

end Spaces

/-- `mem_util.c` as the three images are linked with it. -/
def imagesMmu (memPgtblBase : Space → Word arch) (fuel rounds : Nat) :
    Mmu arch (Spaces arch) where
  memMapPa space vaddr paddr tblattr pgattr spaces := do
    let s ← memMapPa (memPgtblBase space) fuel vaddr paddr tblattr pgattr
      (spaces.image space)
    return spaces.setImage space s
  memHeapAllocate space len spaces := do
    let (addr, s) ← memHeapAllocate (memPgtblBase space) fuel rounds len
      (spaces.image space)
    return (addr, spaces.setImage space s)
  memLookupPa space va spaces :=
    memLookupPa (memPgtblBase space) va (spaces.image space)

/-- The trees are apart, the pools are empty, and every pool page can be mapped
at once in its own space. -/
structure Spaces.Ready (roots : Root → Word arch) (tree : Space → Root)
    (stop : Space → Nat) (spaces : Spaces arch) : Prop where
  forest : Forest (mapper arch).toFormat roots spaces.mem (spaces.unused stop)
  pool (space : Space) : Pool arch (spaces.memNextPa space) (stop space)
  disjoint {left right : Space} : left ≠ right →
    Disjoint (spaces.rest stop left) (spaces.rest stop right)
  installed {space : Space} {page : Word arch} : page ∈ spaces.rest stop space →
    Installed spaces.mem (roots (tree space)) page

/-- The pages that the spaces have taken from their pools. -/
def Spaces.Taken (before after : Spaces arch) (page : Word arch) : Prop :=
  ∃ space, page.toNat % 0x1000 = 0 ∧
    (before.memNextPa space).toNat ≤ page.toNat ∧
    page.toNat < (after.memNextPa space).toNat

/-- A page of one tree was mapped, and pages taken from the pools were mapped to
themselves there. -/
structure Spaces.Maps (roots : Root → Word arch) (root : Root)
    (before after : Spaces arch) (vaddr : Word arch)
    (leaf : Option (Leaf arch.width)) : Prop where
  advances (space : Space) :
    (before.memNextPa space).toNat ≤ (after.memNextPa space).toNat
  others {other : Root} : other ≠ root → ∀ va,
    translate after.mem (roots other) va = translate before.mem (roots other) va
  mapped {va : Word arch} : (mapper arch).SamePage va vaddr →
    translate after.mem (roots root) va = leaf
  unmapped {va : Word arch} : ¬(mapper arch).SamePage va vaddr →
    translate after.mem (roots root) va = translate before.mem (roots root) va ∨
      ∃ page, before.Taken after page ∧ (mapper arch).SamePage va page ∧
        translate after.mem (roots root) va =
          (mapper arch).leaf (pageEntry page (pteUserRw arch))

/-- The spaces before and after agree on an address, or it lies in a page that
was taken and mapped to itself. -/
def Spaces.Kept (before after : Spaces arch) (base va : Word arch) : Prop :=
  translate after.mem base va = translate before.mem base va ∨
    ∃ page, before.Taken after page ∧ (mapper arch).SamePage va page ∧
      translate after.mem base va =
        (mapper arch).leaf (pageEntry page (pteUserRw arch))

theorem Spaces.Taken.mono {before middle after last : Spaces arch}
    {page : Word arch} (taken : middle.Taken after page)
    (earlier : ∀ space, (before.memNextPa space).toNat ≤
      (middle.memNextPa space).toNat)
    (later : ∀ space, (after.memNextPa space).toNat ≤
      (last.memNextPa space).toNat) : before.Taken last page := by
  obtain ⟨space, aligned, above, below⟩ := taken
  exact ⟨space, aligned, le_trans (earlier space) above,
    lt_of_lt_of_le below (later space)⟩

theorem Spaces.Maps.kept {roots : Root → Word arch} {root : Root}
    {before after : Spaces arch} {vaddr : Word arch}
    {leaf : Option (Leaf arch.width)}
    (maps : before.Maps roots root after vaddr leaf) [DecidableEq Root]
    (other : Root) {va : Word arch} (different : ¬(mapper arch).SamePage va vaddr) :
    before.Kept after (roots other) va := by
  by_cases same : other = root
  · subst same
    exact maps.unmapped different
  · exact .inl (maps.others same va)

theorem Spaces.Kept.trans {before middle after : Spaces arch}
    {base va : Word arch} (first : before.Kept middle base va)
    (last : middle.Kept after base va)
    (earlier : ∀ space, (before.memNextPa space).toNat ≤
      (middle.memNextPa space).toNat)
    (later : ∀ space, (middle.memNextPa space).toNat ≤
      (after.memNextPa space).toNat) : before.Kept after base va := by
  rcases last with kept | ⟨page, taken, same, identity⟩
  · rcases first with untouched | ⟨page, taken, same, identity⟩
    · exact .inl (kept.trans untouched)
    · exact .inr ⟨page, taken.mono (fun _ => le_refl _) later, same,
        kept.trans identity⟩
  · exact .inr ⟨page, taken.mono earlier (fun _ => le_refl _), same, identity⟩

section Ready

variable [DecidableEq Root] {roots : Root → Word arch} {tree : Space → Root}
variable {stop : Space → Nat} {spaces : Spaces arch}

theorem Spaces.rest_setImage_self (space : Space) (s : MemUtil arch.width) :
    (spaces.setImage space s).rest stop space =
      range s.memNextPa.toNat (stop space) := by
  simp [Spaces.rest, Spaces.setImage]

theorem Spaces.rest_setImage_of_ne {space other : Space}
    (different : other ≠ space) (s : MemUtil arch.width) :
    (spaces.setImage space s).rest stop other = spaces.rest stop other := by
  simp [Spaces.rest, Spaces.setImage, different]

theorem Spaces.rest_setImage_subset (stop : Space → Nat) {space : Space}
    {s : MemUtil arch.width}
    (advances : (spaces.memNextPa space).toNat ≤ s.memNextPa.toNat)
    (other : Space) :
    (spaces.setImage space s).rest stop other ⊆ spaces.rest stop other := by
  by_cases same : other = space
  · subst same
    rw [rest_setImage_self]
    exact range_mono advances (le_refl _)
  · rw [rest_setImage_of_ne same]

/-- A page of one tree was mapped, with the tables that it needs: each of them is
mapped to itself there. -/
structure Spaces.Rebuilds (roots : Root → Word arch) (tree : Space → Root)
    (space : Space) (before after : Spaces arch) (vaddr : Word arch)
    (leaf : Option (Leaf arch.width)) : Prop where
  next {other : Space} : other ≠ space →
    after.memNextPa other = before.memNextPa other
  others {other : Root} : other ≠ tree space → ∀ va,
    translate after.mem (roots other) va = translate before.mem (roots other) va
  tables : (mapper arch).TablesKept roots (tree space) before.mem after.mem
  translated (va : Word arch) : translate after.mem (roots (tree space)) va =
    (mapper arch).set vaddr leaf
      ((mapper arch).identities
        (tablesTaken (roots (tree space)) vaddr (before.image space))
        (translate before.mem (roots (tree space)))) va
  installed : Installed after.mem (roots (tree space)) vaddr
  reached : (after.memNextPa space).toNat = (before.memNextPa space).toNat +
    0x1000 * tablesMissing (roots (tree space)) vaddr (before.image space)

omit [DecidableEq Root] in
/-- The tree has every table on the way to the page. -/
theorem Spaces.Rebuilds.tablesTaken_self {later : Spaces arch} {space other : Space}
    {vaddr : Word arch} {leaf : Option (Leaf arch.width)}
    (rebuilds : spaces.Rebuilds roots tree space later vaddr leaf)
    (same : tree other = tree space) :
    tablesTaken (roots (tree other)) vaddr (later.image other) = [] := by
  have none : tablesMissing (roots (tree other)) vaddr (later.image other) = 0 := by
    rw [same]
    exact Mapper.missing_of_installed (Nat.zero_add _) rfl rebuilds.installed
  rw [tablesTaken, none]
  rfl

omit [DecidableEq Root] in
/-- A space with another tree takes the pages that it took before. -/
theorem Spaces.Rebuilds.tablesTaken_other {later : Spaces arch} {space other : Space}
    {vaddr : Word arch} {leaf : Option (Leaf arch.width)}
    (rebuilds : spaces.Rebuilds roots tree space later vaddr leaf)
    (different : tree other ≠ tree space) (addr : Word arch) :
    tablesTaken (roots (tree other)) addr (later.image other) =
      tablesTaken (roots (tree other)) addr (spaces.image other) := by
  have apart : other ≠ space := fun same => different (congrArg tree same)
  have count : tablesMissing (roots (tree other)) addr (later.image other) =
      tablesMissing (roots (tree other)) addr (spaces.image other) :=
    rebuilds.tables.missing different addr (Nat.zero_add _) rfl
  have pool : (later.image other).memNextPa = (spaces.image other).memNextPa :=
    rebuilds.next apart
  rw [tablesTaken, tablesTaken, count, pool]

omit [DecidableEq Root] in
/-- The pages that a call takes for tables lie in the rest of the pool. -/
theorem Spaces.Ready.tablesTaken_rest (ready : spaces.Ready roots tree stop)
    {space : Space}
    (room : (spaces.memNextPa space).toNat + 0x1000 * (mapper arch).depth ≤
      stop space) {vaddr page : Word arch}
    (member : page ∈ tablesTaken (roots (tree space)) vaddr (spaces.image space)) :
    page.toNat % 0x1000 = 0 ∧ page ∈ spaces.rest stop space ∧
      page.toNat < (spaces.memNextPa space).toNat + 0x1000 *
        tablesMissing (roots (tree space)) vaddr (spaces.image space) := by
  have count : tablesMissing (roots (tree space)) vaddr (spaces.image space) ≤
      (mapper arch).depth := (mapper arch).missing_le _ _ _ _ _
  have enough : (spaces.image space).memNextPa.toNat +
      0x1000 * tablesMissing (roots (tree space)) vaddr (spaces.image space) ≤
        stop space :=
    le_trans (Nat.add_le_add_left (Nat.mul_le_mul_left _ count) _) room
  obtain ⟨aligned, above, below⟩ := (ready.pool space).mem_pages enough member
  exact ⟨aligned, ⟨above, lt_of_lt_of_le below enough⟩, below⟩

/-- `mem_map_pa` in one of the spaces. -/
theorem Spaces.Ready.memMapPa_rebuilds (ready : spaces.Ready roots tree stop)
    {memPgtblBase : Space → Word arch}
    (bases : ∀ space, memPgtblBase space = roots (tree space)) (space : Space)
    (room : (spaces.memNextPa space).toNat + 0x1000 * (mapper arch).depth ≤
      stop space) (vaddr paddr pgattr : Word arch) :
    ∃ later,
      (∀ fuel rounds, (imagesMmu memPgtblBase (fuel + 2) rounds).memMapPa space
        vaddr paddr 0 pgattr spaces = some later) ∧
      later.Ready roots tree stop ∧
      spaces.Rebuilds roots tree space later vaddr
        ((mapper arch).leaf (pageEntry paddr pgattr)) := by
  have count : tablesMissing (roots (tree space)) vaddr (spaces.image space) ≤
      (mapper arch).depth := (mapper arch).missing_le _ _ _ _ _
  have enough : (spaces.image space).memNextPa.toNat +
      0x1000 * tablesMissing (roots (tree space)) vaddr (spaces.image space) ≤
        stop space :=
    le_trans (Nat.add_le_add_left (Nat.mul_le_mul_left _ count) _) room
  have inFree : range (spaces.image space).memNextPa.toNat (stop space) ⊆
      spaces.unused stop := fun addr inside => ⟨space, inside⟩
  obtain ⟨mem, next, ran, pool, reached, becomes, installed, tables, _⟩ :=
    @memMapPa_becomes arch Root _ roots _ (spaces.image space) (tree space)
      ready.forest vaddr paddr pgattr _ (ready.pool space) enough inFree
      (fun page member => ready.installed (ready.tablesTaken_rest room member).2.1)
  have onward : (spaces.memNextPa space).toNat ≤ next.toNat := by
    rw [reached]
    exact Nat.le_add_right _ _
  let s : MemUtil arch.width :=
    { spaces.image space with mem := mem, memNextPa := next }
  have smaller := @Spaces.rest_setImage_subset _ spaces stop space s onward
  have nextSelf : (spaces.setImage space s).memNextPa space = next :=
    Function.update_self ..
  have nextOther {other : Space} (different : other ≠ space) :
      (spaces.setImage space s).memNextPa other = spaces.memNextPa other :=
    Function.update_of_ne different ..
  refine ⟨spaces.setImage space s, ?_, ?_, ?_⟩
  · intro fuel rounds
    have called := ran fuel
    rw [← bases space] at called
    exact Option.bind_eq_some_iff.mpr ⟨s, called, rfl⟩
  · constructor
    · apply becomes.forest.shrink
      rintro addr ⟨other, inside⟩
      refine ⟨⟨other, smaller other inside⟩, ?_⟩
      rintro ⟨above, below⟩
      by_cases same : other = space
      · subst same
        rw [Spaces.rest_setImage_self] at inside
        exact absurd below (not_lt.mpr inside.1)
      · have outside := Set.disjoint_left.mp (ready.disjoint same)
          (smaller other inside)
        have total : next.toNat ≤ stop space := by
          rw [reached]
          exact enough
        exact outside ⟨above, lt_of_lt_of_le below total⟩
    · intro other
      by_cases same : other = space
      · subst same
        rw [nextSelf]
        exact pool
      · rw [nextOther same]
        exact ready.pool other
    · intro left right different
      exact (ready.disjoint different).mono (smaller left) (smaller right)
    · intro other page inside
      obtain ⟨table, found⟩ := Option.isSome_iff_exists.mp
        (ready.installed (smaller other inside))
      exact Option.isSome_iff_exists.mpr ⟨table, becomes.keeps (le_refl _) found⟩
  · constructor
    · exact nextOther
    · intro other different va
      exact becomes.others different va
    · exact tables
    · intro va
      exact becomes.translated va
    · exact installed
    · rw [nextSelf]
      exact reached

theorem Spaces.Ready.memMapPa (ready : spaces.Ready roots tree stop)
    {memPgtblBase : Space → Word arch}
    (bases : ∀ space, memPgtblBase space = roots (tree space)) (space : Space)
    (room : (spaces.memNextPa space).toNat + 0x1000 * (mapper arch).depth ≤
      stop space) (vaddr paddr pgattr : Word arch) :
    ∃ later,
      (∀ fuel rounds, (imagesMmu memPgtblBase (fuel + 2) rounds).memMapPa space
        vaddr paddr 0 pgattr spaces = some later) ∧
      later.Ready roots tree stop ∧
      (∀ other, other ≠ space → later.memNextPa other = spaces.memNextPa other) ∧
      spaces.Maps roots (tree space) later vaddr
        ((mapper arch).leaf (pageEntry paddr pgattr)) := by
  obtain ⟨later, ran, ready', rebuilds⟩ :=
    ready.memMapPa_rebuilds bases space room vaddr paddr pgattr
  refine ⟨later, ran, ready', fun other different => rebuilds.next different, ?_⟩
  constructor
  · intro other
    by_cases same : other = space
    · subst same
      rw [rebuilds.reached]
      exact Nat.le_add_right _ _
    · rw [rebuilds.next same]
  · intro other different va
    exact rebuilds.others different va
  · intro va same
    exact (rebuilds.translated va).trans ((mapper arch).set_of_samePage same _ _)
  · intro va different
    have found := (rebuilds.translated va).trans
      ((mapper arch).set_of_not_samePage different _ _)
    rcases (mapper arch).identities_cases _ _ va with
      kept | ⟨page, member, same, identity⟩
    · exact .inl (found.trans kept)
    · obtain ⟨aligned, inside, below⟩ := ready.tablesTaken_rest room member
      rw [asKey_eq] at same
      rw [own_eq] at identity
      refine .inr ⟨page, ⟨space, aligned, inside.1, ?_⟩, same,
        found.trans identity⟩
      rw [rebuilds.reached]
      exact below

end Ready

end TzTest
