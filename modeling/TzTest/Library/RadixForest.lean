import Mathlib.Data.Set.Basic
import Mathlib.Logic.Function.Basic

/-!
# Forests of radix tables in one memory

Several translation trees share a memory.  Every level of a tree selects an
entry of a table by an index taken from the key; the entries above the last
level link to tables of the next level, those of the last level hold the
translation.  A write to a last-level entry changes the translation of one page
of keys in one tree, and a link to a fresh table changes no translation at all,
as long as no two places of the forest use the same memory.
-/

namespace Radix

/-- The layout of the tables and the encoding of their entries. -/
structure Format (Addr Entry Key Index Leaf : Type) where
  /-- The number of levels that hold links. -/
  depth : Nat
  index : Nat → Key → Index
  slot : Nat → Addr → Index → Addr
  /-- The table that a link entry leads to. -/
  next : Entry → Option Addr
  leaf : Entry → Option Leaf
  zero : Entry
  /-- Link entries that hold nothing beside the link. -/
  Good : Entry → Prop
  /-- The addresses at which a table of the level may lie. -/
  Table : Nat → Addr → Prop
  next_zero : next zero = none
  leaf_zero : leaf zero = none
  good_zero : Good zero
  slot_inj {level : Nat} {table : Addr} {left right : Key} :
    Table level table →
    slot level table (index level left) = slot level table (index level right) →
    index level left = index level right

variable {Addr Entry Key Index Leaf Root : Type}

namespace Format

variable (f : Format Addr Entry Key Index Leaf)

/-- The entry of the key in a table of the level. -/
def entryOf (level : Nat) (table : Addr) (key : Key) : Addr :=
  f.slot level table (f.index level key)

/-- The keys take the same way through the levels below the bound. -/
def Agree (bound : Nat) (left right : Key) : Prop :=
  ∀ level, level < bound → f.index level left = f.index level right

def SamePage (left right : Key) : Prop :=
  f.Agree (f.depth + 1) left right

instance [DecidableEq Index] (bound : Nat) (left right : Key) :
    Decidable (f.Agree bound left right) :=
  inferInstanceAs (Decidable (∀ level, level < bound → _))

instance [DecidableEq Index] (left right : Key) :
    Decidable (f.SamePage left right) :=
  inferInstanceAs (Decidable (f.Agree _ left right))

/-- The table of the level on the key's way through the tree. -/
def tableAt (m : Addr → Entry) (root : Addr) (key : Key) : Nat → Option Addr
  | 0 => some root
  | level + 1 =>
      (tableAt m root key level).bind fun table =>
        f.next (m (f.entryOf level table key))

/-- What the tree translates the key to. -/
def translate (m : Addr → Entry) (root : Addr) (key : Key) : Option Leaf :=
  (f.tableAt m root key f.depth).bind fun table =>
    f.leaf (m (f.entryOf f.depth table key))

/-- The entries that a page may hold as a table. -/
def pageSlots (page : Addr) : Set Addr :=
  { addr | ∃ level key, level < f.depth ∧ addr = f.entryOf (level + 1) page key }

theorem Agree.symm {f : Format Addr Entry Key Index Leaf} {bound : Nat}
    {left right : Key} (agree : f.Agree bound left right) :
    f.Agree bound right left := by
  intro level below
  exact (agree level below).symm

theorem Agree.trans {f : Format Addr Entry Key Index Leaf} {bound : Nat}
    {left middle right : Key} (first : f.Agree bound left middle)
    (last : f.Agree bound middle right) : f.Agree bound left right := by
  intro level below
  exact (first level below).trans (last level below)

theorem Agree.mono {f : Format Addr Entry Key Index Leaf} {bound larger : Nat}
    {left right : Key} (agree : f.Agree larger left right)
    (le : bound ≤ larger) : f.Agree bound left right := by
  intro level below
  exact agree level (Nat.lt_of_lt_of_le below le)

theorem Agree.entryOf {f : Format Addr Entry Key Index Leaf} {level : Nat}
    {left right : Key} (agree : f.Agree (level + 1) left right) (table : Addr) :
    f.entryOf level table left = f.entryOf level table right := by
  simp only [Format.entryOf, agree level (Nat.lt_succ_self level)]

theorem samePage_refl (key : Key) : f.SamePage key key := by
  intro level below
  rfl

theorem Agree.tableAt {f : Format Addr Entry Key Index Leaf} {level : Nat}
    {left right : Key} (agree : f.Agree level left right) (m : Addr → Entry)
    (root : Addr) :
    f.tableAt m root left level = f.tableAt m root right level := by
  induction level with
  | zero => rfl
  | succ level induction =>
      have before := induction (agree.mono (Nat.le_succ level))
      simp only [Format.tableAt, before, agree.entryOf]

theorem SamePage.translate {f : Format Addr Entry Key Index Leaf}
    {left right : Key} (same : f.SamePage left right) (m : Addr → Entry)
    (root : Addr) : f.translate m root left = f.translate m root right := by
  have tables := (Agree.mono same (Nat.le_succ f.depth)).tableAt m root
  have entries := Agree.entryOf same
  simp only [Format.translate, tables, entries]

theorem tableAt_succ {m : Addr → Entry} {root : Addr} {key : Key} {level : Nat}
    {table : Addr} (here : f.tableAt m root key level = some table) :
    f.tableAt m root key (level + 1) =
      f.next (m (f.entryOf level table key)) := by
  simp only [tableAt, here, Option.bind_some]

theorem translate_of_tableAt {m : Addr → Entry} {root : Addr} {key : Key}
    {table : Addr} (here : f.tableAt m root key f.depth = some table) :
    f.translate m root key = f.leaf (m (f.entryOf f.depth table key)) := by
  simp only [translate, here, Option.bind_some]

theorem exists_tableAt {m : Addr → Entry} {root : Addr} {key : Key}
    {level lower : Nat} {table : Addr} (le : lower ≤ level)
    (here : f.tableAt m root key level = some table) :
    ∃ above, f.tableAt m root key lower = some above := by
  induction level generalizing table with
  | zero =>
      rw [Nat.le_zero.mp le]
      exact ⟨root, rfl⟩
  | succ level induction =>
      rcases Nat.lt_or_eq_of_le le with below | same
      · obtain ⟨above, found, _⟩ := Option.bind_eq_some_iff.mp here
        exact induction (Nat.le_of_lt_succ below) found
      · exact ⟨table, same ▸ here⟩

theorem not_beyond {m : Addr → Entry} {root : Addr} {key key' : Key}
    {level lower : Nat} {table table' : Addr}
    (here : f.tableAt m root key level = some table)
    (missing : f.next (m (f.entryOf level table key)) = none)
    (agree : f.Agree (level + 1) key' key) (beyond : level < lower) :
    f.tableAt m root key' lower ≠ some table' := by
  intro there
  obtain ⟨above, found⟩ := f.exists_tableAt beyond there
  rw [agree.tableAt, f.tableAt_succ here, missing] at found
  cases found

/-- The same tables, with another demand on their links. -/
def withGood (Good : Entry → Prop) (good_zero : Good f.zero) :
    Format Addr Entry Key Index Leaf :=
  { f with Good := Good, good_zero := good_zero }

section WithGood

variable {f} {Good : Entry → Prop} {good_zero : Good f.zero}

theorem tableAt_withGood (m : Addr → Entry) (root : Addr) (key : Key)
    (level : Nat) :
    (f.withGood Good good_zero).tableAt m root key level =
      f.tableAt m root key level := by
  induction level with
  | zero => rfl
  | succ level induction =>
      rw [tableAt, induction]
      rfl

theorem translate_withGood (m : Addr → Entry) (root : Addr) (key : Key) :
    (f.withGood Good good_zero).translate m root key = f.translate m root key := by
  rw [translate, tableAt_withGood]
  rfl

end WithGood

/-- The same tables, of whose last-level entries something else is made. -/
def withLeaf {Leaf' : Type} (leaf : Entry → Option Leaf')
    (leaf_zero : leaf f.zero = none) : Format Addr Entry Key Index Leaf' :=
  { f with leaf := leaf, leaf_zero := leaf_zero }

section WithLeaf

variable {f} {Leaf' : Type} {leaf : Entry → Option Leaf'}
variable {leaf_zero : leaf f.zero = none}

theorem tableAt_withLeaf (m : Addr → Entry) (root : Addr) (key : Key)
    (level : Nat) :
    (f.withLeaf leaf leaf_zero).tableAt m root key level =
      f.tableAt m root key level := by
  induction level with
  | zero => rfl
  | succ level induction =>
      rw [tableAt, induction]
      rfl

theorem translate_withLeaf {view : Leaf' → Option Leaf}
    (views : ∀ entry, f.leaf entry = (leaf entry).bind view) (m : Addr → Entry)
    (root : Addr) (key : Key) :
    f.translate m root key =
      ((f.withLeaf leaf leaf_zero).translate m root key).bind view := by
  rw [translate, translate, tableAt_withLeaf]
  change (f.tableAt m root key f.depth).bind _ =
    ((f.tableAt m root key f.depth).bind _).bind view
  rw [Option.bind_assoc]
  congr 1
  funext table
  exact views _

end WithLeaf

end Format

/-- No two places of the forest use the same memory, and the free memory is
empty and used by none. -/
structure Forest (f : Format Addr Entry Key Index Leaf) (roots : Root → Addr)
    (m : Addr → Entry) (free : Set Addr) : Prop where
  table {root : Root} {key : Key} {level : Nat} {table : Addr} :
    level ≤ f.depth → f.tableAt m (roots root) key level = some table →
    f.Table level table
  good {root : Root} {key : Key} {level : Nat} {table : Addr} :
    level < f.depth → f.tableAt m (roots root) key level = some table →
    f.Good (m (f.entryOf level table key))
  separated {left right : Root} {key key' : Key} {level level' : Nat}
    {table table' : Addr} :
    level ≤ f.depth → level' ≤ f.depth →
    f.tableAt m (roots left) key level = some table →
    f.tableAt m (roots right) key' level' = some table' →
    f.entryOf level table key = f.entryOf level' table' key' →
    left = right ∧ level = level' ∧ f.Agree (level + 1) key key'
  empty {addr : Addr} : addr ∈ free → m addr = f.zero
  unused {root : Root} {key : Key} {level : Nat} {table : Addr} :
    level ≤ f.depth → f.tableAt m (roots root) key level = some table →
    f.entryOf level table key ∉ free

namespace Forest

variable {f : Format Addr Entry Key Index Leaf} {roots : Root → Addr}
variable {m : Addr → Entry} {free smaller : Set Addr}

theorem shrink (forest : Forest f roots m free) (subset : smaller ⊆ free) :
    Forest f roots m smaller where
  table := forest.table
  good := forest.good
  separated := forest.separated
  empty member := forest.empty (subset member)
  unused inside here member := forest.unused inside here (subset member)

theorem withGood (forest : Forest f roots m free) {Good : Entry → Prop}
    {good_zero : Good f.zero}
    (links : ∀ {root key level table}, level < f.depth →
      f.tableAt m (roots root) key level = some table →
      Good (m (f.entryOf level table key))) :
    Forest (f.withGood Good good_zero) roots m free where
  table inside here := forest.table inside (by rwa [Format.tableAt_withGood] at here)
  good below here := links below (by rwa [Format.tableAt_withGood] at here)
  separated inside inside' here there same :=
    forest.separated inside inside' (by rwa [Format.tableAt_withGood] at here)
      (by rwa [Format.tableAt_withGood] at there) same
  empty := forest.empty
  unused inside here := forest.unused inside (by rwa [Format.tableAt_withGood] at here)

theorem withLeaf (forest : Forest f roots m free) {Leaf' : Type}
    {leaf : Entry → Option Leaf'} {leaf_zero : leaf f.zero = none} :
    Forest (f.withLeaf leaf leaf_zero) roots m free where
  table inside here := forest.table inside (by rwa [Format.tableAt_withLeaf] at here)
  good below here := forest.good below (by rwa [Format.tableAt_withLeaf] at here)
  separated inside inside' here there same :=
    forest.separated inside inside' (by rwa [Format.tableAt_withLeaf] at here)
      (by rwa [Format.tableAt_withLeaf] at there) same
  empty := forest.empty
  unused inside here := forest.unused inside (by rwa [Format.tableAt_withLeaf] at here)

private theorem link_ne_leaf (forest : Forest f roots m free)
    {root : Root} {key : Key} {table : Addr}
    (here : f.tableAt m (roots root) key f.depth = some table)
    {other : Root} {key' : Key} {level : Nat} {table' : Addr}
    (below : level < f.depth)
    (there : f.tableAt m (roots other) key' level = some table') :
    f.entryOf level table' key' ≠ f.entryOf f.depth table key := by
  intro same
  have place := forest.separated (Nat.le_of_lt below) (le_refl _) there here same
  exact (Nat.ne_of_lt below) place.2.1

section SetLeaf

variable [DecidableEq Addr]
variable {root : Root} {key : Key} {table : Addr} (entry : Entry)

/-- A write to a last-level entry moves no table. -/
theorem tableAt_setLeaf (forest : Forest f roots m free)
    (here : f.tableAt m (roots root) key f.depth = some table)
    (other : Root) (key' : Key) {level : Nat} (inside : level ≤ f.depth) :
    f.tableAt (Function.update m (f.entryOf f.depth table key) entry)
        (roots other) key' level =
      f.tableAt m (roots other) key' level := by
  induction level with
  | zero => rfl
  | succ level induction =>
      have before := induction (Nat.le_of_succ_le inside)
      cases there : f.tableAt m (roots other) key' level with
      | none => simp only [Format.tableAt, before, there, Option.bind_none]
      | some table' =>
          have different := forest.link_ne_leaf here inside there
          rw [there] at before
          rw [f.tableAt_succ before, f.tableAt_succ there,
            Function.update_of_ne different]

theorem setLeaf (forest : Forest f roots m free)
    (here : f.tableAt m (roots root) key f.depth = some table) :
    Forest f roots
      (Function.update m (f.entryOf f.depth table key) entry) free where
  table inside there := by
    rw [forest.tableAt_setLeaf entry here _ _ inside] at there
    exact forest.table inside there
  good below there := by
    rw [forest.tableAt_setLeaf entry here _ _ (Nat.le_of_lt below)] at there
    rw [Function.update_of_ne (forest.link_ne_leaf here below there)]
    exact forest.good below there
  separated inside inside' there there' same := by
    rw [forest.tableAt_setLeaf entry here _ _ inside] at there
    rw [forest.tableAt_setLeaf entry here _ _ inside'] at there'
    exact forest.separated inside inside' there there' same
  empty {addr} member := by
    have different : addr ≠ f.entryOf f.depth table key := by
      intro same
      exact forest.unused (le_refl _) here (same ▸ member)
    rw [Function.update_of_ne different]
    exact forest.empty member
  unused inside there := by
    rw [forest.tableAt_setLeaf entry here _ _ inside] at there
    exact forest.unused inside there

/-- A write to a last-level entry changes one page of one tree. -/
theorem translate_setLeaf [DecidableEq Root] [DecidableEq Index]
    (forest : Forest f roots m free)
    (here : f.tableAt m (roots root) key f.depth = some table)
    (other : Root) (key' : Key) :
    f.translate (Function.update m (f.entryOf f.depth table key) entry)
        (roots other) key' =
      if other = root ∧ f.SamePage key' key then f.leaf entry
      else f.translate m (roots other) key' := by
  have tables := forest.tableAt_setLeaf entry here other key' (le_refl _)
  by_cases hit : other = root ∧ f.SamePage key' key
  · rw [if_pos hit]
    obtain ⟨sameRoot, samePage⟩ := hit
    subst sameRoot
    have there : f.tableAt m (roots other) key' f.depth = some table := by
      rw [(Format.Agree.mono samePage (Nat.le_succ _)).tableAt, here]
    rw [there] at tables
    rw [f.translate_of_tableAt tables, Format.Agree.entryOf samePage,
      Function.update_self]
  · rw [if_neg hit]
    cases there : f.tableAt m (roots other) key' f.depth with
    | none =>
        rw [there] at tables
        simp only [Format.translate, tables, there, Option.bind_none]
    | some table' =>
        rw [there] at tables
        have different :
            f.entryOf f.depth table' key' ≠ f.entryOf f.depth table key := by
          intro same
          have place := forest.separated (le_refl _) (le_refl _) there here same
          exact hit ⟨place.1, place.2.2⟩
        rw [f.translate_of_tableAt tables, f.translate_of_tableAt there,
          Function.update_of_ne different]

end SetLeaf

/-- A page that can become the table below the entry of the key. -/
structure Linkable (f : Format Addr Entry Key Index Leaf) (roots : Root → Addr)
    (m : Addr → Entry) (free : Set Addr) (root : Root) (key : Key) (level : Nat)
    (table page : Addr) (entry : Entry) : Prop where
  here : f.tableAt m (roots root) key level = some table
  below : level < f.depth
  linked : f.next entry = some page
  good : f.Good entry
  table : f.Table (level + 1) page
  free : f.pageSlots page ⊆ free

/-- There is no table below the entry yet. -/
structure Fresh (f : Format Addr Entry Key Index Leaf) (roots : Root → Addr)
    (m : Addr → Entry) (free : Set Addr) (root : Root) (key : Key) (level : Nat)
    (above page : Addr) (entry : Entry) : Prop
    extends Linkable f roots m free root key level above page entry where
  missing : f.next (m (f.entryOf level above key)) = none

section Link

variable {root : Root} {key : Key} {level : Nat} {table page : Addr}
variable {entry : Entry}

variable [DecidableEq Addr]

/-- A link leaves every way as it is that does not go through it. -/
theorem tableAt_link_old (forest : Forest f roots m free)
    (linkable : Linkable f roots m free root key level table page entry)
    (other : Root) (key' : Key) {lower : Nat} (inside : lower ≤ f.depth)
    (past : ¬(other = root ∧ f.Agree (level + 1) key' key ∧ level < lower)) :
    f.tableAt (Function.update m (f.entryOf level table key) entry)
        (roots other) key' lower =
      f.tableAt m (roots other) key' lower := by
  induction lower with
  | zero => rfl
  | succ lower induction =>
      have before := induction (Nat.le_of_succ_le inside) fun ⟨sameRoot, agree, beyond⟩ =>
        past ⟨sameRoot, agree, Nat.lt_succ_of_lt beyond⟩
      cases there : f.tableAt m (roots other) key' lower with
      | none => simp only [Format.tableAt, before, there, Option.bind_none]
      | some table' =>
          have different :
              f.entryOf lower table' key' ≠ f.entryOf level table key := by
            intro same
            obtain ⟨sameRoot, sameLevel, agree⟩ := forest.separated
              (Nat.le_of_succ_le inside) (Nat.le_of_lt linkable.below) there
              linkable.here same
            exact past ⟨sameRoot, sameLevel ▸ agree,
              sameLevel ▸ Nat.lt_succ_self lower⟩
          rw [there] at before
          rw [f.tableAt_succ before, f.tableAt_succ there,
            Function.update_of_ne different]

theorem tableAt_link_new (forest : Forest f roots m free)
    (linkable : Linkable f roots m free root key level table page entry)
    {key' : Key} (agree : f.Agree (level + 1) key' key) :
    f.tableAt (Function.update m (f.entryOf level table key) entry)
        (roots root) key' (level + 1) = some page := by
  have before := forest.tableAt_link_old linkable root key'
    (Nat.le_of_lt linkable.below) fun ⟨_, _, beyond⟩ => Nat.lt_irrefl _ beyond
  rw [(agree.mono (Nat.le_succ level)).tableAt m, linkable.here] at before
  rw [f.tableAt_succ before, agree.entryOf, Function.update_self, linkable.linked]

theorem link_page_entry (forest : Forest f roots m free)
    (linkable : Linkable f roots m free root key level table page entry)
    (key' : Key) :
    Function.update m (f.entryOf level table key) entry
        (f.entryOf (level + 1) page key') = f.zero := by
  have member : f.entryOf (level + 1) page key' ∈ free :=
    linkable.free ⟨level, key', linkable.below, rfl⟩
  have different :
      f.entryOf (level + 1) page key' ≠ f.entryOf level table key := by
    intro same
    exact forest.unused (Nat.le_of_lt linkable.below) linkable.here (same ▸ member)
  rw [Function.update_of_ne different]
  exact forest.empty member

/-- Where a way can lead after the link: where it led before, or to the fresh
table and no further. -/
theorem link_cases (forest : Forest f roots m free)
    (linkable : Linkable f roots m free root key level table page entry)
    {other : Root} {key' : Key} {lower : Nat} {table' : Addr}
    (inside : lower ≤ f.depth)
    (there : f.tableAt (Function.update m (f.entryOf level table key) entry)
      (roots other) key' lower = some table') :
    f.tableAt m (roots other) key' lower = some table' ∨
      (other = root ∧ f.Agree (level + 1) key' key ∧ lower = level + 1 ∧
        table' = page) := by
  by_cases past : other = root ∧ f.Agree (level + 1) key' key ∧ level < lower
  · right
    obtain ⟨sameRoot, agree, beyond⟩ := past
    subst sameRoot
    have new := forest.tableAt_link_new linkable agree
    rcases Nat.lt_or_eq_of_le beyond with further | same
    · obtain ⟨above, found⟩ := f.exists_tableAt further there
      rw [f.tableAt_succ new, forest.link_page_entry linkable, f.next_zero] at found
      cases found
    · subst same
      rw [new] at there
      exact ⟨rfl, agree, rfl, (Option.some.inj there).symm⟩
  · left
    rwa [forest.tableAt_link_old linkable other key' inside past] at there

theorem tableAt_link_mono (forest : Forest f roots m free)
    (fresh : Fresh f roots m free root key level table page entry)
    {other : Root} {key' : Key} {lower : Nat} {table' : Addr}
    (inside : lower ≤ f.depth)
    (there : f.tableAt m (roots other) key' lower = some table') :
    f.tableAt (Function.update m (f.entryOf level table key) entry)
      (roots other) key' lower = some table' := by
  rw [forest.tableAt_link_old fresh.toLinkable other key' inside]
  · exact there
  · rintro ⟨sameRoot, agree, beyond⟩
    subst sameRoot
    exact f.not_beyond fresh.here fresh.missing agree beyond there

theorem link (forest : Forest f roots m free)
    (linkable : Linkable f roots m free root key level table page entry) :
    Forest f roots (Function.update m (f.entryOf level table key) entry)
      (free \ f.pageSlots page) where
  table inside there := by
    rcases forest.link_cases linkable inside there with old | ⟨_, _, sameLevel, sameTable⟩
    · exact forest.table inside old
    · subst sameLevel sameTable
      exact linkable.table
  good {other key' lower table'} below there := by
    rcases forest.link_cases linkable (Nat.le_of_lt below) there with
      old | ⟨_, _, sameLevel, sameTable⟩
    · by_cases same : f.entryOf lower table' key' = f.entryOf level table key
      · rw [same, Function.update_self]
        exact linkable.good
      · rw [Function.update_of_ne same]
        exact forest.good below old
    · subst sameLevel sameTable
      rw [forest.link_page_entry linkable]
      exact f.good_zero
  separated {left right key₁ key₂ level₁ level₂ table₁ table₂} inside₁ inside₂
      there₁ there₂ same := by
    rcases forest.link_cases linkable inside₁ there₁ with
      old₁ | ⟨root₁, agree₁, sameLevel₁, sameTable₁⟩
    · rcases forest.link_cases linkable inside₂ there₂ with
        old₂ | ⟨root₂, agree₂, sameLevel₂, sameTable₂⟩
      · exact forest.separated inside₁ inside₂ old₁ old₂ same
      · subst sameLevel₂ sameTable₂
        exact (forest.unused inside₁ old₁
          (same ▸ linkable.free ⟨level, key₂, linkable.below, rfl⟩)).elim
    · subst sameLevel₁ sameTable₁
      rcases forest.link_cases linkable inside₂ there₂ with
        old₂ | ⟨root₂, agree₂, sameLevel₂, sameTable₂⟩
      · exact (forest.unused inside₂ old₂
          (same ▸ linkable.free ⟨level, key₁, linkable.below, rfl⟩)).elim
      · subst sameLevel₂ sameTable₂
        refine ⟨root₁.trans root₂.symm, rfl, ?_⟩
        intro lower below
        rcases Nat.lt_or_eq_of_le (Nat.le_of_lt_succ below) with above | here
        · exact (agree₁.trans agree₂.symm) lower above
        · subst here
          exact f.slot_inj linkable.table same
  empty {addr} member := by
    have different : addr ≠ f.entryOf level table key := by
      intro same
      exact forest.unused (Nat.le_of_lt linkable.below) linkable.here
        (same ▸ member.1)
    rw [Function.update_of_ne different]
    exact forest.empty member.1
  unused {other key' lower table'} inside there := by
    rcases forest.link_cases linkable inside there with
      old | ⟨_, _, sameLevel, sameTable⟩
    · intro member
      exact forest.unused inside old member.1
    · subst sameLevel sameTable
      intro member
      exact member.2 ⟨level, key', linkable.below, rfl⟩

/-- A link to a fresh table changes no translation. -/
theorem translate_link (forest : Forest f roots m free)
    (fresh : Fresh f roots m free root key level table page entry)
    (other : Root) (key' : Key) :
    f.translate (Function.update m (f.entryOf level table key) entry)
        (roots other) key' = f.translate m (roots other) key' := by
  cases there : f.tableAt m (roots other) key' f.depth with
  | some table' =>
      have after := forest.tableAt_link_mono fresh (le_refl _) there
      have different :
          f.entryOf f.depth table' key' ≠ f.entryOf level table key := by
        intro same
        have place := forest.separated (le_refl _) (Nat.le_of_lt fresh.below)
          there fresh.here same
        exact Nat.ne_of_gt fresh.below place.2.1
      rw [f.translate_of_tableAt after, f.translate_of_tableAt there,
        Function.update_of_ne different]
  | none =>
      have before : f.translate m (roots other) key' = none := by
        simp only [Format.translate, there, Option.bind_none]
      rw [before]
      cases after : f.tableAt (Function.update m (f.entryOf level table key)
          entry) (roots other) key' f.depth with
      | none => simp only [Format.translate, after, Option.bind_none]
      | some table' =>
          rcases forest.link_cases fresh.toLinkable (le_refl _) after with
            old | ⟨_, _, sameLevel, sameTable⟩
          · rw [there] at old
            cases old
          · rw [f.translate_of_tableAt after, sameLevel, sameTable,
              forest.link_page_entry fresh.toLinkable]
            exact f.leaf_zero

end Link

end Forest

end Radix
