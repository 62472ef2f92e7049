import TzTest.Library.RadixForest

/-!
# Mapping with tables from a pool

The usual routine that maps a page: it walks down the tree, takes a page from
a pool for every table that is missing, maps that page to itself with the same
routine before it links it, and writes the last-level entry.  It comes back
when the pages that it takes need no further table themselves, and then the
tree has been changed as a finite map is.
-/

namespace Radix

/-- A format with what the routine reads and writes. -/
structure Mapper (Addr Entry Key Index Leaf : Type) extends
    Format Addr Entry Key Index Leaf where
  /-- The table that the routine takes a link entry to lead to. -/
  soft : Entry → Option Addr
  asKey : Addr → Key
  /-- The last-level entry that maps a page to itself. -/
  own : Addr → Entry
  linkTo : Addr → Entry
  /-- The table that the routine goes on with below a fresh link. -/
  enter : Addr → Addr
  bump : Addr → Addr
  Page : Addr → Prop
  soft_eq {entry : Entry} : Good entry → soft entry = next entry
  next_linkTo {page : Addr} : Page page → next (linkTo page) = some page
  good_linkTo {page : Addr} : Page page → Good (linkTo page)
  enter_eq {page : Addr} : Page page → enter page = page
  table_of_page {page : Addr} {level : Nat} : Page page → Table (level + 1) page

/-- The memory and the next page of the pool. -/
structure Store (Addr Entry : Type) where
  mem : Addr → Entry
  next : Addr

variable {Addr Entry Key Index Leaf Root : Type}

section Routine

variable [DecidableEq Addr]

def Store.write (store : Store Addr Entry) (addr : Addr) (entry : Entry) :
    Store Addr Entry :=
  { store with mem := Function.update store.mem addr entry }

namespace Mapper

variable (p : Mapper Addr Entry Key Index Leaf)

/-- The levels above the last one. -/
def descend (mapPage : Addr → Store Addr Entry → Option (Store Addr Entry))
    (key : Key) : Nat → Nat → Addr → Store Addr Entry →
      Option (Addr × Store Addr Entry)
  | 0, _, table, store => some (table, store)
  | remaining + 1, level, table, store =>
      match p.soft (store.mem (p.entryOf level table key)) with
      | some below => descend mapPage key remaining (level + 1) below store
      | none => do
          let page := store.next
          let store ← mapPage page { store with next := p.bump store.next }
          descend mapPage key remaining (level + 1) (p.enter page)
            (store.write (p.entryOf level table key) (p.linkTo page))

/-- The routine, with a bound on the depth of its recursion. -/
def map (root : Addr) : Nat → Key → Entry → Store Addr Entry →
    Option (Store Addr Entry)
  | 0, _, _, _ => none
  | fuel + 1, key, entry, store => do
      let (table, store) ← p.descend
        (fun page => map root fuel (p.asKey page) (p.own page))
        key p.depth 0 root store
      return store.write (p.entryOf p.depth table key) entry

theorem descend_succ
    (mapPage : Addr → Store Addr Entry → Option (Store Addr Entry))
    (key : Key) (remaining level : Nat) (table : Addr)
    (store : Store Addr Entry) :
    p.descend mapPage key (remaining + 1) level table store =
      (p.descend mapPage key 1 level table store).bind fun result =>
        p.descend mapPage key remaining (level + 1) result.1 result.2 := by
  simp only [descend]
  cases p.soft (store.mem (p.entryOf level table key)) with
  | some below => rfl
  | none =>
      simp only [Option.bind_eq_bind]
      cases mapPage store.next { store with next := p.bump store.next } with
      | none => rfl
      | some store => rfl

end Mapper

end Routine

namespace Mapper

variable (p : Mapper Addr Entry Key Index Leaf)

/-- The first pages of the pool. -/
def pages : Nat → Addr → List Addr
  | 0, _ => []
  | count + 1, page => page :: pages count (p.bump page)

/-- The tables that are missing on the way of the key. -/
def missing (m : Addr → Entry) (key : Key) : Nat → Nat → Addr → Nat
  | 0, _, _ => 0
  | remaining + 1, level, table =>
      match p.next (m (p.entryOf level table key)) with
      | some below => missing m key remaining (level + 1) below
      | none => remaining + 1

theorem missing_le (m : Addr → Entry) (key : Key) (remaining level : Nat)
    (table : Addr) : p.missing m key remaining level table ≤ remaining := by
  induction remaining generalizing level table with
  | zero => exact le_refl _
  | succ remaining induction =>
      simp only [missing]
      split
      · exact Nat.le_succ_of_le (induction _ _)
      · exact le_refl _

/-- The free memory after the pages were taken. -/
def without (free : Set Addr) : List Addr → Set Addr
  | [] => free
  | page :: rest => without (free \ p.pageSlots page) rest

/-- The pages are disjoint pages of the free memory. -/
def Supply (free : Set Addr) : List Addr → Prop
  | [] => True
  | page :: rest =>
      p.Page page ∧ p.pageSlots page ⊆ free ∧
        Supply (free \ p.pageSlots page) rest

section Congr

variable {p} {Leaf' : Type} {q : Mapper Addr Entry Key Index Leaf'}

theorem pages_congr (bump : p.bump = q.bump) (count : Nat) (page : Addr) :
    p.pages count page = q.pages count page := by
  induction count generalizing page with
  | zero => rfl
  | succ count induction => rw [pages, pages, induction, bump]

theorem missing_congr (entryOf : p.entryOf = q.entryOf) (next : p.next = q.next)
    (m : Addr → Entry) (key : Key) (remaining level : Nat) (table : Addr) :
    p.missing m key remaining level table =
      q.missing m key remaining level table := by
  induction remaining generalizing level table with
  | zero => rfl
  | succ remaining induction => simp only [missing, entryOf, next, induction]

theorem supply_congr (isPage : p.Page = q.Page)
    (pageSlots : p.pageSlots = q.pageSlots) (free : Set Addr) (pages : List Addr) :
    p.Supply free pages ↔ q.Supply free pages := by
  induction pages generalizing free with
  | nil => exact Iff.rfl
  | cons page pages induction => rw [Supply, Supply, induction, isPage, pageSlots]

theorem without_congr (pageSlots : p.pageSlots = q.pageSlots) (free : Set Addr)
    (pages : List Addr) : p.without free pages = q.without free pages := by
  induction pages generalizing free with
  | nil => rfl
  | cons page pages induction => rw [without, without, induction, pageSlots]

end Congr

section Spec

variable [DecidableEq Index]

/-- The map with one page of keys changed. -/
def set (key : Key) (leaf : Option Leaf) (σ : Key → Option Leaf) :
    Key → Option Leaf :=
  fun key' => if p.SamePage key' key then leaf else σ key'

theorem set_of_samePage {key key' : Key} (same : p.SamePage key' key)
    (leaf : Option Leaf) (σ : Key → Option Leaf) : p.set key leaf σ key' = leaf :=
  if_pos same

theorem set_of_not_samePage {key key' : Key} (different : ¬p.SamePage key' key)
    (leaf : Option Leaf) (σ : Key → Option Leaf) :
    p.set key leaf σ key' = σ key' :=
  if_neg different

/-- The map with the pages mapped to themselves. -/
def identities : List Addr → (Key → Option Leaf) → Key → Option Leaf
  | [], σ => σ
  | page :: rest, σ =>
      identities rest (p.set (p.asKey page) (p.leaf (p.own page)) σ)

end Spec

section Spec

variable [DecidableEq Index]

/-- A page was mapped to itself, or is mapped as before. -/
theorem identities_cases (pages : List Addr) (σ : Key → Option Leaf) (key : Key) :
    p.identities pages σ key = σ key ∨
      ∃ page ∈ pages, p.SamePage key (p.asKey page) ∧
        p.identities pages σ key = p.leaf (p.own page) := by
  induction pages generalizing σ with
  | nil => exact .inl rfl
  | cons page pages induction =>
      rw [identities]
      rcases induction (p.set (p.asKey page) (p.leaf (p.own page)) σ) with
        kept | ⟨later, member, same, mapped⟩
      · by_cases same : p.SamePage key (p.asKey page)
        · right
          exact ⟨page, List.mem_cons_self .., same,
            kept.trans (p.set_of_samePage same _ _)⟩
        · left
          exact kept.trans (p.set_of_not_samePage same _ _)
      · right
        exact ⟨later, List.mem_cons_of_mem _ member, same, mapped⟩

end Spec

/-- One tree now translates by the map, the others as before, and every table
is still where it was. -/
structure Becomes (roots : Root → Addr) (root : Root) (before after : Addr → Entry)
    (free : Set Addr) (σ : Key → Option Leaf) : Prop where
  forest : Forest p.toFormat roots after free
  keeps {other : Root} {key : Key} {level : Nat} {table : Addr} :
    level ≤ p.depth → p.tableAt before (roots other) key level = some table →
    p.tableAt after (roots other) key level = some table
  others {other : Root} : other ≠ root → ∀ key,
    p.translate after (roots other) key = p.translate before (roots other) key
  translated (key : Key) : p.translate after (roots root) key = σ key

/-- Every tree but one has the tables that it had, and no more. -/
def TablesKept (roots : Root → Addr) (root : Root) (before after : Addr → Entry) :
    Prop :=
  ∀ other, other ≠ root → ∀ (key : Key) (level : Nat), level ≤ p.depth →
    p.tableAt after (roots other) key level = p.tableAt before (roots other) key level

/-- The addresses of the entries that a tree has. -/
def Entries (m : Addr → Entry) (root : Addr) : Set Addr :=
  { addr | ∃ key level table, level ≤ p.depth ∧
    p.tableAt m root key level = some table ∧ addr = p.entryOf level table key }

/-- Nothing was written but entries of the tree and of pages, and the tree has no
new tables but these pages. -/
structure Confined (root : Addr) (before after : Addr → Entry) (pages : List Addr) :
    Prop where
  frame {addr : Addr} : addr ∉ p.Entries before root →
    (∀ page ∈ pages, addr ∉ p.pageSlots page) → after addr = before addr
  tables {key : Key} {level : Nat} {table : Addr} : level ≤ p.depth →
    p.tableAt after root key level = some table →
    p.tableAt before root key level = some table ∨ table ∈ pages

section Fuel

variable [DecidableEq Addr]

theorem descend_mono
    {mapPage better : Addr → Store Addr Entry → Option (Store Addr Entry)}
    (extends' : ∀ page store result, mapPage page store = some result →
      better page store = some result)
    {key : Key} {remaining level : Nat} {table : Addr}
    {store : Store Addr Entry} {result : Addr × Store Addr Entry}
    (ran : p.descend mapPage key remaining level table store = some result) :
    p.descend better key remaining level table store = some result := by
  induction remaining generalizing level table store with
  | zero => exact ran
  | succ remaining induction =>
      simp only [descend] at ran ⊢
      cases read : p.soft (store.mem (p.entryOf level table key)) with
      | some below =>
          rw [read] at ran
          exact induction ran
      | none =>
          rw [read] at ran
          obtain ⟨middle, mapped, later⟩ := Option.bind_eq_some_iff.mp ran
          apply Option.bind_eq_some_iff.mpr
          exact ⟨middle, extends' _ _ _ mapped, induction later⟩

theorem map_succ (root : Addr) {fuel : Nat} {key : Key} {entry : Entry}
    {store result : Store Addr Entry}
    (ran : p.map root fuel key entry store = some result) :
    p.map root (fuel + 1) key entry store = some result := by
  induction fuel generalizing key entry store result with
  | zero => cases ran
  | succ fuel induction =>
      obtain ⟨⟨table, middle⟩, down, written⟩ := Option.bind_eq_some_iff.mp ran
      apply Option.bind_eq_some_iff.mpr
      refine ⟨(table, middle), ?_, written⟩
      exact p.descend_mono (fun page store result mapped => induction mapped) down

theorem map_add (root : Addr) {fuel : Nat} {key : Key} {entry : Entry}
    {store result : Store Addr Entry}
    (ran : p.map root fuel key entry store = some result) (more : Nat) :
    p.map root (more + fuel) key entry store = some result := by
  induction more with
  | zero => rw [Nat.zero_add, ran]
  | succ more induction =>
      rw [Nat.succ_add]
      exact p.map_succ root induction

end Fuel

section Correct

variable {p} {roots : Root → Addr} {free : Set Addr}
variable {store : Store Addr Entry} {root : Root} {key : Key}

theorem Becomes.refl {m : Addr → Entry} (forest : Forest p.toFormat roots m free) :
    p.Becomes roots root m m free (p.translate m (roots root)) where
  forest := forest
  keeps _ there := there
  others _ _ := rfl
  translated _ := rfl

theorem Becomes.shrink {before after : Addr → Entry} {smaller : Set Addr}
    {σ : Key → Option Leaf} (becomes : p.Becomes roots root before after free σ)
    (subset : smaller ⊆ free) :
    p.Becomes roots root before after smaller σ where
  forest := becomes.forest.shrink subset
  keeps := becomes.keeps
  others := becomes.others
  translated := becomes.translated

theorem Becomes.trans {before middle after : Addr → Entry} {smaller : Set Addr}
    {σ τ : Key → Option Leaf}
    (first : p.Becomes roots root before middle free σ)
    (last : p.Becomes roots root middle after smaller τ) :
    p.Becomes roots root before after smaller τ where
  forest := last.forest
  keeps inside there := last.keeps inside (first.keeps inside there)
  others different key' :=
    (last.others different key').trans (first.others different key')
  translated := last.translated

theorem TablesKept.trans {before middle after : Addr → Entry}
    (first : p.TablesKept roots root before middle)
    (last : p.TablesKept roots root middle after) :
    p.TablesKept roots root before after := by
  intro other different key' level inside
  exact (last other different key' level inside).trans
    (first other different key' level inside)

/-- Another tree misses the tables that it missed. -/
theorem TablesKept.missing {before after : Addr → Entry}
    (kept : p.TablesKept roots root before after) {other : Root}
    (different : other ≠ root) (key' : Key) {remaining level : Nat} {table : Addr}
    (total : level + remaining = p.depth)
    (here : p.tableAt before (roots other) key' level = some table) :
    p.missing after key' remaining level table =
      p.missing before key' remaining level table := by
  induction remaining generalizing level table with
  | zero => rfl
  | succ remaining induction =>
      have there := (kept other different key' level (by omega)).trans here
      have below := kept other different key' (level + 1) (by omega)
      rw [p.tableAt_succ here, p.tableAt_succ there] at below
      simp only [Mapper.missing, below]
      cases linked : p.next (before (p.entryOf level table key')) with
      | none => rfl
      | some table' =>
          refine induction (by omega) ?_
          rw [p.tableAt_succ here, linked]

theorem Confined.refl (root : Addr) (m : Addr → Entry) : p.Confined root m m [] where
  frame _ _ := rfl
  tables _ there := .inl there

theorem Confined.entries {before after : Addr → Entry} {root addr : Addr}
    {pages : List Addr} (confined : p.Confined root before after pages)
    (member : addr ∈ p.Entries after root) :
    addr ∈ p.Entries before root ∨ ∃ page ∈ pages, addr ∈ p.pageSlots page := by
  obtain ⟨key, level, table, inside, there, rfl⟩ := member
  rcases confined.tables inside there with old | new
  · exact .inl ⟨key, level, table, inside, old, rfl⟩
  · cases level with
    | zero => exact .inl ⟨key, 0, table, inside, there, rfl⟩
    | succ level => exact .inr ⟨table, new, level, key, inside, rfl⟩

theorem Confined.trans {before middle after : Addr → Entry} {root : Addr}
    {first last : List Addr} (earlier : p.Confined root before middle first)
    (later : p.Confined root middle after last) :
    p.Confined root before after (first ++ last) where
  frame {addr} outside apart := by
    have inFirst : ∀ page ∈ first, addr ∉ p.pageSlots page :=
      fun page member => apart page (List.mem_append_left _ member)
    refine (later.frame ?_ ?_).trans (earlier.frame outside inFirst)
    · intro member
      rcases earlier.entries member with old | ⟨page, taken, slot⟩
      · exact outside old
      · exact inFirst page taken slot
    · exact fun page member => apart page (List.mem_append_right _ member)
  tables inside there := by
    rcases later.tables inside there with middle | new
    · rcases earlier.tables inside middle with old | taken
      · exact .inl old
      · exact .inr (List.mem_append_left _ taken)
    · exact .inr (List.mem_append_right _ new)

theorem Becomes.installed {before after : Addr → Entry} {σ : Key → Option Leaf}
    (becomes : p.Becomes roots root before after free σ) {other : Root}
    (there : (p.tableAt before (roots other) key p.depth).isSome) :
    (p.tableAt after (roots other) key p.depth).isSome := by
  obtain ⟨table, found⟩ := Option.isSome_iff_exists.mp there
  exact Option.isSome_iff_exists.mpr ⟨table, becomes.keeps (le_refl _) found⟩

theorem set_translate [DecidableEq Index] (m : Addr → Entry) (root : Addr)
    (key : Key) :
    p.set key (p.translate m root key) (p.translate m root) = p.translate m root := by
  funext key'
  by_cases samePage : p.SamePage key' key
  · rw [p.set_of_samePage samePage, samePage.translate]
  · rw [p.set_of_not_samePage samePage]

theorem becomes_remove_missing [DecidableEq Index] {m : Addr → Entry}
    (forest : Forest p.toFormat roots m free)
    (untranslated : p.translate m (roots root) key = none) :
    p.Becomes roots root m m free
      (p.set key none (p.translate m (roots root))) := by
  rw [← untranslated, set_translate]
  exact .refl forest

theorem missing_of_installed {m : Addr → Entry} {root : Addr} {remaining level : Nat}
    {table : Addr} (total : level + remaining = p.depth)
    (here : p.tableAt m root key level = some table)
    (installed : (p.tableAt m root key p.depth).isSome) :
    p.missing m key remaining level table = 0 := by
  induction remaining generalizing level table with
  | zero => rfl
  | succ remaining induction =>
      obtain ⟨last, bottom⟩ := Option.isSome_iff_exists.mp installed
      obtain ⟨table', found⟩ := p.exists_tableAt (by omega : level < p.depth) bottom
      have linked := found
      rw [p.tableAt_succ here] at linked
      simp only [Mapper.missing, linked]
      exact induction (by omega) found

theorem missing_of_fresh {m : Addr → Entry} {level : Nat} {page : Addr}
    (fresh : ∀ key', m (p.entryOf level page key') = p.zero) (remaining : Nat) :
    p.missing m key remaining level page = remaining := by
  cases remaining with
  | zero => rfl
  | succ remaining => simp only [missing, fresh, p.next_zero]

variable [DecidableEq Addr]

omit [DecidableEq Addr] in
theorem mem_entries {m : Addr → Entry} {tree table : Addr} {level : Nat}
    (inside : level ≤ p.depth) (there : p.tableAt m tree key level = some table) :
    p.entryOf level table key ∈ p.Entries m tree :=
  ⟨key, level, table, inside, there, rfl⟩

/-- A write beside the entries moves no table. -/
theorem tableAt_update {m : Addr → Entry} {tree addr : Addr}
    (beside : addr ∉ p.Entries m tree) (entry : Entry) (key : Key) {level : Nat}
    (inside : level ≤ p.depth) :
    p.tableAt (Function.update m addr entry) tree key level =
      p.tableAt m tree key level := by
  induction level with
  | zero => rfl
  | succ level induction =>
      have before := induction (Nat.le_of_succ_le inside)
      cases there : p.tableAt m tree key level with
      | none => simp only [Format.tableAt, before, there, Option.bind_none]
      | some table =>
          have different : p.entryOf level table key ≠ addr := by
            rintro rfl
            exact beside (mem_entries (Nat.le_of_succ_le inside) there)
          rw [there] at before
          rw [p.tableAt_succ before, p.tableAt_succ there,
            Function.update_of_ne different]

omit [DecidableEq Addr] in
/-- Memories with the same entries of a tree have the same tree. -/
theorem tableAt_of_entries {before after : Addr → Entry} {tree : Addr}
    (same : ∀ addr ∈ p.Entries before tree, after addr = before addr) (key : Key)
    {level : Nat} (inside : level ≤ p.depth) :
    p.tableAt after tree key level = p.tableAt before tree key level := by
  induction level with
  | zero => rfl
  | succ level induction =>
      have above := Nat.le_of_succ_le inside
      have earlier := induction above
      cases there : p.tableAt before tree key level with
      | none => simp only [Format.tableAt, earlier, there, Option.bind_none]
      | some table =>
          rw [there] at earlier
          rw [p.tableAt_succ earlier, p.tableAt_succ there, same _ (mem_entries above there)]

omit [DecidableEq Addr] in
theorem translate_of_entries {before after : Addr → Entry} {tree : Addr}
    (same : ∀ addr ∈ p.Entries before tree, after addr = before addr) (key : Key) :
    p.translate after tree key = p.translate before tree key := by
  have tables := tableAt_of_entries same key (le_refl p.depth)
  simp only [Format.translate, tables]
  cases there : p.tableAt before tree key p.depth with
  | none => rfl
  | some table =>
      simp only [Option.bind_some]
      rw [same _ (mem_entries (le_refl _) there)]

theorem translate_update {m : Addr → Entry} {tree addr : Addr}
    (beside : addr ∉ p.Entries m tree) (entry : Entry) (key : Key) :
    p.translate (Function.update m addr entry) tree key = p.translate m tree key := by
  have same := tableAt_update beside entry key (le_refl p.depth)
  cases there : p.tableAt m tree key p.depth with
  | none =>
      rw [there] at same
      simp only [Format.translate, there, same, Option.bind_none]
  | some table =>
      have different : p.entryOf p.depth table key ≠ addr := by
        rintro rfl
        exact beside (mem_entries (le_refl _) there)
      rw [there] at same
      rw [p.translate_of_tableAt same, p.translate_of_tableAt there,
        Function.update_of_ne different]

theorem entries_update {m : Addr → Entry} {tree addr : Addr}
    (beside : addr ∉ p.Entries m tree) (entry : Entry) :
    p.Entries (Function.update m addr entry) tree = p.Entries m tree := by
  ext other
  constructor
  · rintro ⟨key, level, table, inside, there, rfl⟩
    rw [tableAt_update beside entry key inside] at there
    exact mem_entries inside there
  · rintro ⟨key, level, table, inside, there, rfl⟩
    rw [← tableAt_update beside entry key inside] at there
    exact mem_entries inside there

/-- A write beside the entries and the free memory leaves the forest as it is. -/
theorem forest_update {m : Addr → Entry} {addr : Addr}
    (forest : Forest p.toFormat roots m free)
    (beside : ∀ root, addr ∉ p.Entries m (roots root)) (outside : addr ∉ free)
    (entry : Entry) :
    Forest p.toFormat roots (Function.update m addr entry) free where
  table inside there := by
    rw [tableAt_update (beside _) entry _ inside] at there
    exact forest.table inside there
  good {root key level table} below there := by
    rw [tableAt_update (beside _) entry _ (Nat.le_of_lt below)] at there
    have different : p.entryOf level table key ≠ addr := by
      rintro rfl
      exact beside root (mem_entries (Nat.le_of_lt below) there)
    rw [Function.update_of_ne different]
    exact forest.good below there
  separated inside inside' there there' same := by
    rw [tableAt_update (beside _) entry _ inside] at there
    rw [tableAt_update (beside _) entry _ inside'] at there'
    exact forest.separated inside inside' there there' same
  empty {other} member := by
    have different : other ≠ addr := by
      rintro rfl
      exact outside member
    rw [Function.update_of_ne different]
    exact forest.empty member
  unused inside there := by
    rw [tableAt_update (beside _) entry _ inside] at there
    exact forest.unused inside there

/-- With every table in place the routine reads its way down. -/
theorem descend_installed (forest : Forest p.toFormat roots store.mem free)
    (mapPage : Addr → Store Addr Entry → Option (Store Addr Entry))
    {remaining level : Nat} {table last : Addr}
    (total : level + remaining = p.depth)
    (here : p.tableAt store.mem (roots root) key level = some table)
    (installed : p.tableAt store.mem (roots root) key p.depth = some last) :
    p.descend mapPage key remaining level table store = some (last, store) := by
  induction remaining generalizing level table with
  | zero =>
      have atDepth : level = p.depth := total
      subst atDepth
      rw [installed] at here
      cases here
      rfl
  | succ remaining induction =>
      have below : level < p.depth := by omega
      obtain ⟨table', found⟩ := p.exists_tableAt below installed
      have linked := found
      rw [p.tableAt_succ here] at linked
      have read := p.soft_eq (forest.good below here)
      rw [linked] at read
      simp only [descend, read]
      exact induction (by omega) found

/-- A missing table stops the way down when its page cannot be mapped. -/
theorem descend_stuck (forest : Forest p.toFormat roots store.mem free)
    (mapPage : Addr → Store Addr Entry → Option (Store Addr Entry))
    (stuck : mapPage store.next { store with next := p.bump store.next } = none)
    {remaining level : Nat} {table : Addr} (total : level + remaining = p.depth)
    (here : p.tableAt store.mem (roots root) key level = some table)
    (lacks : p.tableAt store.mem (roots root) key p.depth = none) :
    p.descend mapPage key remaining level table store = none := by
  induction remaining generalizing level table with
  | zero =>
      have atDepth : level = p.depth := total
      rw [atDepth, lacks] at here
      cases here
  | succ remaining induction =>
      have below : level < p.depth := by omega
      have read := p.soft_eq (forest.good below here)
      cases linked : p.next (store.mem (p.entryOf level table key)) with
      | some table' =>
          rw [linked] at read
          have there := p.tableAt_succ here
          rw [linked] at there
          simp only [descend, read]
          exact induction (by omega) there
      | none =>
          rw [linked] at read
          simp only [descend, read, stuck]
          rfl

/-- While the pages of the pool lack their last-level tables, every page takes
the recursion one call deeper. -/
theorem map_deepens (forest : Forest p.toFormat roots store.mem free)
    (fuel : Nat) (entry : Entry)
    (lacks : p.tableAt store.mem (roots root) key p.depth = none)
    (pool : ∀ page ∈ p.pages fuel store.next,
      p.tableAt store.mem (roots root) (p.asKey page) p.depth = none) :
    p.map (roots root) (fuel + 1) key entry store = none := by
  induction fuel generalizing key entry store with
  | zero =>
      have stuck := descend_stuck forest (fun _ _ => none) rfl
        (Nat.zero_add p.depth) rfl lacks
      simp only [map, stuck]
      rfl
  | succ fuel induction =>
      have first := pool store.next (List.mem_cons_self ..)
      have deeper := @induction (Store.mk store.mem (p.bump store.next)) _
        forest (p.own store.next) first fun page member =>
          pool page (List.mem_cons_of_mem _ member)
      have stuck := descend_stuck forest
        (fun page => p.map (roots root) (fuel + 1) (p.asKey page) (p.own page))
        deeper (Nat.zero_add p.depth) rfl lacks
      rw [map, stuck]
      rfl

theorem map_installed (forest : Forest p.toFormat roots store.mem free)
    (fuel : Nat) (entry : Entry) {last : Addr}
    (installed : p.tableAt store.mem (roots root) key p.depth = some last) :
    p.map (roots root) (fuel + 1) key entry store =
      some (store.write (p.entryOf p.depth last key) entry) := by
  have down := descend_installed forest
    (fun page => p.map (roots root) fuel (p.asKey page) (p.own page))
    (Nat.zero_add p.depth) rfl installed
  simp only [map, down]
  rfl

variable [DecidableEq Root] [DecidableEq Index]

/-- The write of a last-level entry. -/
theorem becomes_setLeaf (forest : Forest p.toFormat roots store.mem free)
    (entry : Entry) {last : Addr}
    (installed : p.tableAt store.mem (roots root) key p.depth = some last) :
    p.Becomes roots root store.mem
      (store.write (p.entryOf p.depth last key) entry).mem free
      (p.set key (p.leaf entry) (p.translate store.mem (roots root))) where
  forest := forest.setLeaf entry installed
  keeps inside there := by
    simp only [Store.write]
    rw [forest.tableAt_setLeaf entry installed _ _ inside]
    exact there
  others different key' := by
    simp only [Store.write]
    rw [forest.translate_setLeaf entry installed]
    exact if_neg fun both => different both.1
  translated key' := by
    simp only [Store.write]
    rw [forest.translate_setLeaf entry installed]
    simp only [true_and]
    rfl

omit [DecidableEq Root] [DecidableEq Index] in
theorem tablesKept_setLeaf (forest : Forest p.toFormat roots store.mem free)
    (entry : Entry) {last : Addr}
    (installed : p.tableAt store.mem (roots root) key p.depth = some last) :
    p.TablesKept roots root store.mem
      (store.write (p.entryOf p.depth last key) entry).mem :=
  fun _ _ key' _ inside => forest.tableAt_setLeaf entry installed _ key' inside

omit [DecidableEq Root] [DecidableEq Index] in
theorem confined_setLeaf (forest : Forest p.toFormat roots store.mem free)
    (entry : Entry) {last : Addr}
    (installed : p.tableAt store.mem (roots root) key p.depth = some last) :
    p.Confined (roots root) store.mem
      (store.write (p.entryOf p.depth last key) entry).mem [] where
  frame outside _ := Function.update_of_ne
    (fun same => outside ⟨key, p.depth, last, le_refl _, installed, same⟩) _ _
  tables inside there := by
    left
    rwa [Store.write, forest.tableAt_setLeaf entry installed root _ inside] at there

/-- Once a page is mapped to itself, it can become the missing table. -/
theorem fresh_of_missing (forest : Forest p.toFormat roots store.mem free)
    {level : Nat} {table last page : Addr} (below : level < p.depth)
    (here : p.tableAt store.mem (roots root) key level = some table)
    (missing : p.next (store.mem (p.entryOf level table key)) = none)
    (isPage : p.Page page) (inFree : p.pageSlots page ⊆ free)
    (installed : p.tableAt store.mem (roots root) (p.asKey page) p.depth =
      some last) :
    Forest.Fresh p.toFormat roots
      (store.write (p.entryOf p.depth last (p.asKey page)) (p.own page)).mem free
      root key level table page (p.linkTo page) where
  here := (becomes_setLeaf forest (p.own page) installed).keeps
    (Nat.le_of_lt below) here
  below := below
  missing := by
    have different : p.entryOf level table key ≠
        p.entryOf p.depth last (p.asKey page) := by
      intro same
      have place := forest.separated (Nat.le_of_lt below) (le_refl _) here
        installed same
      exact Nat.ne_of_lt below place.2.1
    simp only [Store.write]
    rw [Function.update_of_ne different]
    exact missing
  linked := p.next_linkTo isPage
  good := p.good_linkTo isPage
  table := p.table_of_page isPage
  free := inFree

/-- A missing table is mapped to itself, linked and entered. -/
theorem descend_missing (forest : Forest p.toFormat roots store.mem free)
    {level : Nat} {table last page : Addr} (below : level < p.depth)
    (here : p.tableAt store.mem (roots root) key level = some table)
    (missing : p.next (store.mem (p.entryOf level table key)) = none)
    (isPage : p.Page page) (inFree : p.pageSlots page ⊆ free)
    (installed : p.tableAt store.mem (roots root) (p.asKey page) p.depth =
      some last) :
    let mapped := store.write (p.entryOf p.depth last (p.asKey page)) (p.own page)
    let linked := mapped.write (p.entryOf level table key) (p.linkTo page)
    p.Becomes roots root store.mem linked.mem (free \ p.pageSlots page)
        (p.set (p.asKey page) (p.leaf (p.own page))
          (p.translate store.mem (roots root))) ∧
      p.tableAt linked.mem (roots root) key (level + 1) = some page ∧
      ∀ key', linked.mem (p.entryOf (level + 1) page key') = p.zero := by
  intro mapped linked
  have first := becomes_setLeaf forest (p.own page) installed
  have fresh : Forest.Fresh p.toFormat roots mapped.mem free root key level table
      page (p.linkTo page) :=
    fresh_of_missing forest below here missing isPage inFree installed
  refine ⟨?_, ?_, ?_⟩
  · constructor
    · exact first.forest.link fresh.toLinkable
    · intro other key' lower table' inside there
      exact first.forest.tableAt_link_mono fresh inside (first.keeps inside there)
    · intro other otherRoot key'
      exact (first.forest.translate_link fresh other key').trans
        (first.others otherRoot key')
    · intro key'
      exact (first.forest.translate_link fresh root key').trans
        (first.translated key')
  · exact first.forest.tableAt_link_new fresh.toLinkable (fun _ _ => rfl)
  · exact first.forest.link_page_entry fresh.toLinkable

theorem tablesKept_missing (forest : Forest p.toFormat roots store.mem free)
    {level : Nat} {table last page : Addr} (below : level < p.depth)
    (here : p.tableAt store.mem (roots root) key level = some table)
    (missing : p.next (store.mem (p.entryOf level table key)) = none)
    (isPage : p.Page page) (inFree : p.pageSlots page ⊆ free)
    (installed : p.tableAt store.mem (roots root) (p.asKey page) p.depth =
      some last) :
    p.TablesKept roots root store.mem
      ((store.write (p.entryOf p.depth last (p.asKey page)) (p.own page)).write
        (p.entryOf level table key) (p.linkTo page)).mem := by
  have first := becomes_setLeaf forest (p.own page) installed
  have fresh := fresh_of_missing forest below here missing isPage inFree installed
  apply (tablesKept_setLeaf forest (p.own page) installed).trans
  intro other different key' lower inside
  exact first.forest.tableAt_link_old fresh.toLinkable other key' inside
    fun past => different past.1

omit [DecidableEq Root] [DecidableEq Index] in
/-- A link to a fresh table writes one entry. -/
theorem confined_link {m : Addr → Entry} (forest : Forest p.toFormat roots m free)
    {level : Nat} {table page : Addr} {entry : Entry}
    (linkable : Forest.Linkable p.toFormat roots m free root key level table page entry) :
    p.Confined (roots root) m (Function.update m (p.entryOf level table key) entry)
      [page] where
  frame outside _ := Function.update_of_ne (fun same => outside
    ⟨key, level, table, Nat.le_of_lt linkable.below, linkable.here, same⟩) _ _
  tables inside there := by
    rcases forest.link_cases linkable inside there with old | ⟨_, _, _, rfl⟩
    · exact .inl old
    · exact .inr (List.mem_singleton.mpr rfl)

theorem confined_missing (forest : Forest p.toFormat roots store.mem free)
    {level : Nat} {table last page : Addr} (below : level < p.depth)
    (here : p.tableAt store.mem (roots root) key level = some table)
    (missing : p.next (store.mem (p.entryOf level table key)) = none)
    (isPage : p.Page page) (inFree : p.pageSlots page ⊆ free)
    (installed : p.tableAt store.mem (roots root) (p.asKey page) p.depth =
      some last) :
    p.Confined (roots root) store.mem
      ((store.write (p.entryOf p.depth last (p.asKey page)) (p.own page)).write
        (p.entryOf level table key) (p.linkTo page)).mem [page] := by
  have first := becomes_setLeaf forest (p.own page) installed
  have fresh := fresh_of_missing forest below here missing isPage inFree installed
  exact (confined_setLeaf forest (p.own page) installed).trans
    (confined_link first.forest fresh.toLinkable)

/-- The way down takes one page for each missing table and maps each to
itself. -/
theorem descend_becomes
    (mapPage : Addr → Store Addr Entry → Option (Store Addr Entry))
    (atOnce : ∀ (later : Store Addr Entry) (smaller : Set Addr) (page last : Addr),
      Forest p.toFormat roots later.mem smaller →
      p.tableAt later.mem (roots root) (p.asKey page) p.depth = some last →
      mapPage page later =
        some (later.write (p.entryOf p.depth last (p.asKey page)) (p.own page)))
    {remaining level count : Nat} {table : Addr}
    (forest : Forest p.toFormat roots store.mem free)
    (total : level + remaining = p.depth)
    (here : p.tableAt store.mem (roots root) key level = some table)
    (counted : p.missing store.mem key remaining level table = count)
    (supply : p.Supply free (p.pages count store.next))
    (installed : ∀ page ∈ p.pages count store.next,
      (p.tableAt store.mem (roots root) (p.asKey page) p.depth).isSome) :
    ∃ mem last,
      p.descend mapPage key remaining level table store =
        some (last, ⟨mem, p.bump^[count] store.next⟩) ∧
      p.tableAt mem (roots root) key p.depth = some last ∧
      p.Becomes roots root store.mem mem
        (p.without free (p.pages count store.next))
        (p.identities (p.pages count store.next)
          (p.translate store.mem (roots root))) ∧
      p.TablesKept roots root store.mem mem ∧
      p.Confined (roots root) store.mem mem (p.pages count store.next) := by
  induction remaining generalizing level table store free count with
  | zero =>
      have atDepth : level = p.depth := total
      subst atDepth counted
      exact ⟨store.mem, table, rfl, here, .refl forest, fun _ _ _ _ _ => rfl,
        .refl _ _⟩
  | succ remaining induction =>
      have below : level < p.depth := by omega
      have read := p.soft_eq (forest.good below here)
      cases linked : p.next (store.mem (p.entryOf level table key)) with
      | some table' =>
          rw [linked] at read
          simp only [missing, linked] at counted
          have there : p.tableAt store.mem (roots root) key (level + 1) =
              some table' := by
            rw [p.tableAt_succ here, linked]
          simp only [descend, read]
          exact induction forest (by omega) there counted supply installed
      | none =>
          rw [linked] at read
          simp only [missing, linked] at counted
          subst counted
          obtain ⟨isPage, inFree, rest⟩ := supply
          obtain ⟨last, found⟩ := Option.isSome_iff_exists.mp
            (installed store.next (by simp [pages]))
          obtain ⟨first, entered, empty⟩ := descend_missing forest below here
            linked isPage inFree found
          have mapped := atOnce { store with next := p.bump store.next } free
            store.next last forest found
          have apart := tablesKept_missing forest below here linked isPage inFree found
          have confined := confined_missing forest below here linked isPage inFree found
          obtain ⟨mem, bottom, ran, arrived, later, kept, written⟩ :=
            @induction _ (Store.mk _ (p.bump store.next)) _ _ _ first.forest
              (by omega) entered (missing_of_fresh empty remaining) rest (by
                intro page member
                exact first.installed (installed page (by simp [pages, member])))
          refine ⟨mem, bottom, ?_, arrived, first.trans ?_, apart.trans kept,
            confined.trans written⟩
          · simp only [descend, read, mapped, p.enter_eq isPage]
            exact ran
          · have same : p.translate (Store.mk _ (p.bump store.next) :
                Store Addr Entry).mem (roots root) = _ :=
              funext first.translated
            rw [same] at later
            exact later

/-- When the pages that it takes need no table themselves, the routine comes
back and has changed the tree as a finite map. -/
theorem map_becomes (forest : Forest p.toFormat roots store.mem free)
    (entry : Entry) {count : Nat}
    (counted : p.missing store.mem key p.depth 0 (roots root) = count)
    (supply : p.Supply free (p.pages count store.next))
    (installed : ∀ page ∈ p.pages count store.next,
      (p.tableAt store.mem (roots root) (p.asKey page) p.depth).isSome) :
    ∃ mem,
      (∀ fuel, p.map (roots root) (fuel + 2) key entry store =
        some ⟨mem, p.bump^[count] store.next⟩) ∧
      p.Becomes roots root store.mem mem
        (p.without free (p.pages count store.next))
        (p.set key (p.leaf entry)
          (p.identities (p.pages count store.next)
            (p.translate store.mem (roots root)))) ∧
      (p.tableAt mem (roots root) key p.depth).isSome ∧
      p.TablesKept roots root store.mem mem ∧
      p.Confined (roots root) store.mem mem (p.pages count store.next) := by
  have atOnce : ∀ (later : Store Addr Entry) (smaller : Set Addr)
      (page last : Addr), Forest p.toFormat roots later.mem smaller →
      p.tableAt later.mem (roots root) (p.asKey page) p.depth = some last →
      p.map (roots root) 1 (p.asKey page) (p.own page) later =
        some (later.write (p.entryOf p.depth last (p.asKey page))
          (p.own page)) := by
    intro later smaller page last forest installed
    exact map_installed forest 0 (p.own page) installed
  obtain ⟨mem, last, ran, arrived, down, kept, confined⟩ := descend_becomes
    (fun page => p.map (roots root) 1 (p.asKey page) (p.own page))
    atOnce forest (Nat.zero_add p.depth) rfl counted supply installed
  have written := @becomes_setLeaf _ _ _ _ _ _ p roots _
    (Store.mk mem (p.bump^[count] store.next)) root key _ _ _ down.forest entry
    last arrived
  have whole := down.trans written
  have same : p.translate mem (roots root) = _ := funext down.translated
  rw [same] at whole
  have apart := @tablesKept_setLeaf _ _ _ _ _ _ p roots _
    (Store.mk mem (p.bump^[count] store.next)) root key _ down.forest entry last arrived
  have last' := @confined_setLeaf _ _ _ _ _ _ p roots _
    (Store.mk mem (p.bump^[count] store.next)) root key _ down.forest entry last arrived
  have total := confined.trans last'
  rw [List.append_nil] at total
  refine ⟨_, ?_, whole, ?_, kept.trans apart, total⟩
  · intro fuel
    apply p.map_add (roots root)
    exact Option.bind_eq_some_iff.mpr ⟨_, ran, rfl⟩
  · rw [written.keeps (le_refl _) arrived]
    rfl

end Correct

end Mapper

end Radix
