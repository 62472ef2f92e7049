import TzTest.Library.RadixDirect

/-!
# Two memories with one tree

The table routines read the entries of their tree and those of the pages that
they link.  Two memories that hold the same there are taken through the same
steps, and hold the same afterwards, whatever else is in them.
-/

namespace Radix

variable {Addr Entry Key Index Leaf Root : Type}

namespace Mapper

section Tables

variable [DecidableEq Addr] (p : Mapper Addr Entry Key Index Leaf)

/-- The pages that the way down turns into tables, in the order of their links. -/
def descendTables (mapPage : Addr → Store Addr Entry → Option (Store Addr Entry))
    (pageTables : Addr → Store Addr Entry → List Addr) (key : Key) :
    Nat → Nat → Addr → Store Addr Entry → List Addr
  | 0, _, _, _ => []
  | remaining + 1, level, table, store =>
      match p.soft (store.mem (p.entryOf level table key)) with
      | some below =>
          descendTables mapPage pageTables key remaining (level + 1) below store
      | none =>
          let page := store.next
          let bumped := { store with next := p.bump store.next }
          pageTables page bumped ++
            (mapPage page bumped).elim [] fun store =>
              page :: descendTables mapPage pageTables key remaining (level + 1)
                (p.enter page)
                (store.write (p.entryOf level table key) (p.linkTo page))

/-- The pages that the routine turns into tables. -/
def mapTables (root : Addr) : Nat → Key → Store Addr Entry → List Addr
  | 0, _, _ => []
  | fuel + 1, key, store =>
      p.descendTables (fun page => p.map root fuel (p.asKey page) (p.own page))
        (fun page => mapTables root fuel (p.asKey page)) key p.depth 0 root store

/-- The pages that it turns into tables while the tree is not in use. -/
def descendDirectTables : Key → Nat → Nat → Addr → Store Addr Entry → List Addr :=
  p.descendTables (fun _ store => some store) fun _ _ => []

end Tables

variable {p : Mapper Addr Entry Key Index Leaf}

theorem supply_append {free : Set Addr} {first last : List Addr} :
    p.Supply free (first ++ last) ↔
      p.Supply free first ∧ p.Supply (p.without free first) last := by
  induction first generalizing free with
  | nil => exact (true_and _ ▸ Iff.rfl)
  | cons page first induction =>
      rw [List.cons_append, Supply, induction, Supply, without, and_assoc, and_assoc]

theorem without_append (free : Set Addr) (first last : List Addr) :
    p.without free (first ++ last) = p.without (p.without free first) last := by
  induction first generalizing free with
  | nil => rfl
  | cons page first induction => rw [List.cons_append, without, without, induction]

theorem rel_cases {α β : Type} {r : α → β → Prop} {left : Option α}
    {right : Option β} (related : Option.Rel r left right) :
    (left = none ∧ right = none) ∨
      ∃ first second, left = some first ∧ right = some second ∧ r first second := by
  cases related with
  | none => exact .inl ⟨rfl, rfl⟩
  | some related => exact .inr ⟨_, _, rfl, rfl, related⟩

section Direct

variable [DecidableEq Addr]

/-- The tables are the next pages of the pool, at most one for a level. -/
theorem descendDirect_pages (p : Mapper Addr Entry Key Index Leaf) (key : Key)
    (remaining level : Nat) (table : Addr) (store : Store Addr Entry) :
    ∃ count last mem,
      p.descendDirect key remaining level table store =
        some (last, ⟨mem, p.bump^[count] store.next⟩) ∧
      p.descendDirectTables key remaining level table store = p.pages count store.next ∧
      count ≤ remaining := by
  induction remaining generalizing level table store with
  | zero => exact ⟨0, table, store.mem, rfl, rfl, le_refl _⟩
  | succ remaining induction =>
      simp only [descendDirect, descendDirectTables, descend, descendTables]
      cases p.soft (store.mem (p.entryOf level table key)) with
      | some below =>
          obtain ⟨count, last, mem, ran, tables, few⟩ := induction (level + 1) below store
          exact ⟨count, last, mem, ran, tables, Nat.le_succ_of_le few⟩
      | none =>
          obtain ⟨count, last, mem, ran, tables, few⟩ := induction (level + 1)
            (p.enter store.next)
            (Store.write ⟨store.mem, p.bump store.next⟩ (p.entryOf level table key)
              (p.linkTo store.next))
          refine ⟨count + 1, last, mem, ran, ?_, Nat.succ_le_succ few⟩
          exact congrArg (store.next :: ·) tables

/-- Pages that are fit for it become the tables that the way lacks. -/
theorem missing_of_supply {roots : Root → Addr} {free : Set Addr} {root : Root}
    {key : Key} {remaining level count : Nat} {table : Addr} {store : Store Addr Entry}
    (forest : Forest p.toFormat roots store.mem free)
    (total : level + remaining = p.depth)
    (here : p.tableAt store.mem (roots root) key level = some table)
    (tables : p.descendDirectTables key remaining level table store =
      p.pages count store.next)
    (supply : p.Supply free (p.pages count store.next)) :
    p.missing store.mem key remaining level table = count := by
  induction remaining generalizing level table store free count with
  | zero =>
      cases count with
      | zero => rfl
      | succ count => cases tables
  | succ remaining induction =>
      have below : level < p.depth := by omega
      have read := p.soft_eq (forest.good below here)
      cases linked : p.next (store.mem (p.entryOf level table key)) with
      | some table' =>
          rw [linked] at read
          simp only [descendDirectTables, descendTables, read] at tables
          have there : p.tableAt store.mem (roots root) key (level + 1) =
              some table' := by
            rw [p.tableAt_succ here, linked]
          simp only [missing, linked]
          exact induction forest (by omega) there tables supply
      | none =>
          rw [linked] at read
          simp only [descendDirectTables, descendTables, read, List.nil_append,
            Option.elim_some] at tables
          cases count with
          | zero => cases tables
          | succ count =>
              obtain ⟨isPage, inFree, rest⟩ := supply
              obtain ⟨first, entered, empty, _⟩ := link_becomes forest below here linked
                isPage inFree
              rw [p.enter_eq isPage] at tables
              have later := @induction _ _ _ _
                (Store.write ⟨store.mem, p.bump store.next⟩ (p.entryOf level table key)
                  (p.linkTo store.next))
                first.forest (by omega) entered (List.cons.inj tables).2 rest
              have fresh := @missing_of_fresh _ _ _ _ _ p key _ _ _ empty remaining
              simp only [missing, linked]
              exact congrArg (· + 1) (fresh.symm.trans later)

end Direct

/-- The memories hold the same in the entries of the trees and in the free
memory. -/
structure Twin (p : Mapper Addr Entry Key Index Leaf) (roots : Root → Addr)
    (free : Set Addr) (left right : Addr → Entry) : Prop where
  forest : Forest p.toFormat roots left free
  entries {root : Root} {addr : Addr} : addr ∈ p.Entries left (roots root) →
    right addr = left addr
  free {addr : Addr} : addr ∈ free → right addr = left addr

/-- Every table is still where it was. -/
def Keeps (p : Mapper Addr Entry Key Index Leaf) (roots : Root → Addr)
    (before after : Addr → Entry) : Prop :=
  ∀ (root : Root) (key : Key) (level : Nat) (table : Addr), level ≤ p.depth →
    p.tableAt before (roots root) key level = some table →
    p.tableAt after (roots root) key level = some table

section Twin

variable {roots : Root → Addr} {free : Set Addr} {left right : Addr → Entry}
variable {root : Root} {key : Key} {level : Nat} {table : Addr}

namespace Twin

theorem read (twin : p.Twin roots free left right) (inside : level ≤ p.depth)
    (here : p.tableAt left (roots root) key level = some table) :
    right (p.entryOf level table key) = left (p.entryOf level table key) :=
  twin.entries (mem_entries inside here)

theorem tableAt (twin : p.Twin roots free left right) (root : Root) (key : Key)
    (inside : level ≤ p.depth) :
    p.tableAt right (roots root) key level = p.tableAt left (roots root) key level := by
  induction level with
  | zero => rfl
  | succ level induction =>
      have before := induction (Nat.le_of_succ_le inside)
      cases there : p.tableAt left (roots root) key level with
      | none =>
          rw [there] at before
          simp only [Format.tableAt, there, before, Option.bind_none]
      | some table =>
          rw [there] at before
          rw [p.tableAt_succ before, p.tableAt_succ there,
            twin.read (Nat.le_of_succ_le inside) there]

theorem translate (twin : p.Twin roots free left right) (root : Root) (key : Key) :
    p.translate right (roots root) key = p.translate left (roots root) key := by
  have tables := twin.tableAt root key (le_refl p.depth)
  cases there : p.tableAt left (roots root) key p.depth with
  | none =>
      rw [there] at tables
      simp only [Format.translate, there, tables, Option.bind_none]
  | some table =>
      rw [there] at tables
      rw [p.translate_of_tableAt tables, p.translate_of_tableAt there,
        twin.read (le_refl _) there]

variable [DecidableEq Addr]

theorem update_eq {addr at' : Addr} (entry : Entry)
    (same : right addr = left addr) :
    Function.update right at' entry addr = Function.update left at' entry addr := by
  by_cases written : addr = at'
  · rw [written, Function.update_self, Function.update_self]
  · rw [Function.update_of_ne written, Function.update_of_ne written, same]

theorem setLeaf (twin : p.Twin roots free left right)
    (here : p.tableAt left (roots root) key p.depth = some table) (entry : Entry) :
    p.Twin roots free
      (Function.update left (p.entryOf p.depth table key) entry)
      (Function.update right (p.entryOf p.depth table key) entry) where
  forest := twin.forest.setLeaf entry here
  entries := by
    rintro other _ ⟨key', lower, table', inside, there, rfl⟩
    rw [twin.forest.tableAt_setLeaf entry here other key' inside] at there
    exact update_eq entry (twin.read inside there)
  free member := update_eq entry (twin.free member)

theorem link (twin : p.Twin roots free left right) {page : Addr} {entry : Entry}
    (linkable : Forest.Linkable p.toFormat roots left free root key level table page
      entry) :
    p.Twin roots (free \ p.pageSlots page)
      (Function.update left (p.entryOf level table key) entry)
      (Function.update right (p.entryOf level table key) entry) where
  forest := twin.forest.link linkable
  entries := by
    rintro other _ ⟨key', lower, table', inside, there, rfl⟩
    apply update_eq entry
    rcases twin.forest.link_cases linkable inside there with old | ⟨_, _, rfl, rfl⟩
    · exact twin.read inside old
    · exact twin.free (linkable.free ⟨level, key', linkable.below, rfl⟩)
  free member := update_eq entry (twin.free member.1)

end Twin

/-- Twins with the same next page. -/
structure Alike (p : Mapper Addr Entry Key Index Leaf) (roots : Root → Addr)
    (free : Set Addr) (left right : Store Addr Entry) : Prop where
  next : right.next = left.next
  twin : p.Twin roots free left.mem right.mem

variable [DecidableEq Addr]

theorem keeps_setLeaf {m : Addr → Entry} (forest : Forest p.toFormat roots m free)
    (here : p.tableAt m (roots root) key p.depth = some table) (entry : Entry) :
    p.Keeps roots m (Function.update m (p.entryOf p.depth table key) entry) := by
  intro other key' lower table' inside there
  rw [forest.tableAt_setLeaf entry here other key' inside]
  exact there

/-- A link below an entry that led nowhere at first takes no table away that was
there at first. -/
theorem Keeps.link {before m : Addr → Entry} (keeps : p.Keeps roots before m)
    (forest : Forest p.toFormat roots m free) {page : Addr} {entry : Entry}
    (linkable : Forest.Linkable p.toFormat roots m free root key level table page entry)
    (here : p.tableAt before (roots root) key level = some table)
    (missing : p.next (before (p.entryOf level table key)) = none) :
    p.Keeps roots before (Function.update m (p.entryOf level table key) entry) := by
  intro other key' lower table' inside there
  rw [forest.tableAt_link_old linkable other key' inside]
  · exact keeps other key' lower table' inside there
  · rintro ⟨sameRoot, agree, beyond⟩
    subst sameRoot
    exact p.not_beyond here missing agree beyond there

section Descend

variable {mapPage : Addr → Store Addr Entry → Option (Store Addr Entry)}
variable {pageTables : Addr → Store Addr Entry → List Addr}

/-- Both runs of a routine come to the same end, or none of them comes to one. -/
def Together (p : Mapper Addr Entry Key Index Leaf) (roots : Root → Addr)
    (free : Set Addr) (before : Addr → Entry) :
    Option (Store Addr Entry) → Option (Store Addr Entry) → Prop :=
  Option.Rel fun left right =>
    p.Alike roots free left right ∧ p.Keeps roots before left.mem

/-- The way down is the same in both memories, as long as the pages that it turns
into tables are free in both. -/
theorem descend_together
    (pages : ∀ (page : Addr) (free : Set Addr) (left right : Store Addr Entry),
      p.Alike roots free left right → p.Supply free (pageTables page left) →
      p.Together roots (p.without free (pageTables page left)) left.mem
        (mapPage page left) (mapPage page right))
    {remaining : Nat} {left right : Store Addr Entry}
    (total : level + remaining = p.depth)
    (here : p.tableAt left.mem (roots root) key level = some table)
    (alike : p.Alike roots free left right)
    (supply : p.Supply free
      (p.descendTables mapPage pageTables key remaining level table left)) :
    Option.Rel
      (fun first second : Addr × Store Addr Entry =>
        second.1 = first.1 ∧
          p.tableAt first.2.mem (roots root) key p.depth = some first.1 ∧
          p.Alike roots
            (p.without free
              (p.descendTables mapPage pageTables key remaining level table left))
            first.2 second.2 ∧
          p.Keeps roots left.mem first.2.mem)
      (p.descend mapPage key remaining level table left)
      (p.descend mapPage key remaining level table right) := by
  induction remaining generalizing level table left right free with
  | zero =>
      have atDepth : level = p.depth := total
      subst atDepth
      exact .some ⟨rfl, here, alike, fun _ _ _ _ _ there => there⟩
  | succ remaining induction =>
      have below : level < p.depth := by omega
      have read := p.soft_eq (alike.twin.forest.good below here)
      have same := alike.twin.read (Nat.le_of_lt below) here
      cases linked : p.next (left.mem (p.entryOf level table key)) with
      | some table' =>
          rw [linked] at read
          simp only [descend, descendTables, read, same] at supply ⊢
          refine induction (by omega) ?_ alike supply
          rw [p.tableAt_succ here, linked]
      | none =>
          rw [linked] at read
          simp only [descend, descendTables, read, same, alike.next] at supply ⊢
          obtain ⟨first, rest⟩ := supply_append.mp supply
          have bumped : p.Alike roots free
              { left with next := p.bump left.next }
              { right with next := p.bump left.next } := ⟨rfl, alike.twin⟩
          rcases rel_cases (pages left.next free _ _ bumped first) with
            ⟨leftRan, rightRan⟩ | ⟨middle, middle', leftRan, rightRan, after, keeps⟩
          · rw [leftRan, rightRan]
            exact .none
          · simp only [leftRan, rightRan, Option.elim_some, Option.bind_eq_bind,
              Option.bind_some, without_append, without] at rest ⊢
            obtain ⟨isPage, inFree, rest⟩ := rest
            have linkable : Forest.Linkable p.toFormat roots middle.mem _ root key
                level table left.next (p.linkTo left.next) :=
              { here := keeps root key level table (Nat.le_of_lt below) here
                below := below
                linked := p.next_linkTo isPage
                good := p.good_linkTo isPage
                table := p.table_of_page isPage
                free := inFree }
            have kept := keeps.link after.twin.forest linkable here linked
            have entered := after.twin.forest.tableAt_link_new linkable fun _ _ => rfl
            have next : p.Alike roots _
                (middle.write (p.entryOf level table key) (p.linkTo left.next))
                (middle'.write (p.entryOf level table key) (p.linkTo left.next)) :=
              ⟨after.next, after.twin.link linkable⟩
            rw [p.enter_eq isPage] at rest ⊢
            rcases rel_cases (induction (by omega) entered next rest) with
              ⟨leftEnds, rightEnds⟩ |
                ⟨last, last', leftEnds, rightEnds, sameTable, arrived, later, ends⟩
            · rw [leftEnds, rightEnds]
              exact .none
            · rw [leftEnds, rightEnds]
              refine .some ⟨sameTable, arrived, later, ?_⟩
              intro other key' lower table' inside there
              exact ends other key' lower table' inside
                (kept other key' lower table' inside there)

end Descend

/-- The routine does the same to both memories. -/
theorem map_together (root : Root) (fuel : Nat) (key : Key) (entry : Entry)
    {left right : Store Addr Entry}
    (alike : p.Alike roots free left right)
    (supply : p.Supply free (p.mapTables (roots root) fuel key left)) :
    p.Together roots (p.without free (p.mapTables (roots root) fuel key left)) left.mem
      (p.map (roots root) fuel key entry left)
      (p.map (roots root) fuel key entry right) := by
  induction fuel generalizing key entry left right free with
  | zero => exact .none
  | succ fuel induction =>
      have down := descend_together
        (fun page free left right alike supply =>
          @induction free (p.asKey page) (p.own page) left right alike supply)
        (Nat.zero_add p.depth) (rfl : p.tableAt left.mem (roots root) key 0 = _) alike
        supply
      rw [map, map]
      rcases rel_cases down with ⟨leftEnds, rightEnds⟩ |
        ⟨⟨last, later⟩, ⟨last', later'⟩, leftEnds, rightEnds, rfl, arrived, after, keeps⟩
      · rw [leftEnds, rightEnds]
        exact .none
      · rw [leftEnds, rightEnds]
        refine .some ⟨⟨after.next, after.twin.setLeaf arrived entry⟩, ?_⟩
        intro other key' lower table' inside there
        exact keeps_setLeaf after.twin.forest arrived entry other key' lower table' inside
          (keeps other key' lower table' inside there)

theorem descendDirect_together (root : Root) (key : Key)
    {left right : Store Addr Entry}
    (alike : p.Alike roots free left right)
    (supply : p.Supply free (p.descendDirectTables key p.depth 0 (roots root) left)) :
    ∃ last leftLater rightLater,
      p.descendDirect key p.depth 0 (roots root) left = some (last, leftLater) ∧
      p.descendDirect key p.depth 0 (roots root) right = some (last, rightLater) ∧
      p.tableAt leftLater.mem (roots root) key p.depth = some last ∧
      p.Alike roots
        (p.without free (p.descendDirectTables key p.depth 0 (roots root) left))
        leftLater rightLater := by
  have down := @descend_together _ _ _ _ _ _ p roots free root key 0 (roots root) _
    (fun _ store => some store) (fun _ _ => [])
    (fun _ _ _ _ alike _ => .some ⟨alike, fun _ _ _ _ _ there => there⟩)
    p.depth left right (Nat.zero_add p.depth) rfl alike supply
  rcases rel_cases down with ⟨stuck, _⟩ |
    ⟨⟨last, leftLater⟩, ⟨_, rightLater⟩, leftEnds, rightEnds, rfl, arrived, after, _⟩
  · obtain ⟨result, ends⟩ := p.descendDirect_ends key p.depth 0 (roots root) left
    cases stuck.symm.trans ends
  · exact ⟨_, leftLater, rightLater, leftEnds, rightEnds, arrived, after⟩

theorem mapDirect_together (root : Root) (key : Key) (entry : Entry)
    {left right : Store Addr Entry}
    (alike : p.Alike roots free left right)
    (supply : p.Supply free (p.descendDirectTables key p.depth 0 (roots root) left)) :
    ∃ leftLater rightLater,
      p.mapDirect (roots root) key entry left = some leftLater ∧
      p.mapDirect (roots root) key entry right = some rightLater ∧
      p.Alike roots
        (p.without free (p.descendDirectTables key p.depth 0 (roots root) left))
        leftLater rightLater := by
  obtain ⟨last, leftLater, rightLater, leftEnds, rightEnds, arrived, after⟩ :=
    descendDirect_together root key alike supply
  refine ⟨_, _, Option.bind_eq_some_iff.mpr ⟨_, leftEnds, rfl⟩,
    Option.bind_eq_some_iff.mpr ⟨_, rightEnds, rfl⟩, after.next, ?_⟩
  exact after.twin.setLeaf arrived entry

end Twin

section Start

variable {root : Addr} {left right : Addr → Entry}

/-- What is clear in both memories and no entry of the root table. -/
def clearBeside (p : Mapper Addr Entry Key Index Leaf) (root : Addr)
    (left right : Addr → Entry) : Set Addr :=
  { addr | left addr = p.zero ∧ right addr = p.zero ∧ ∀ key, addr ≠ p.entryOf 0 root key }

/-- The root table is clear in both memories, and so are the pages. -/
structure Clear (p : Mapper Addr Entry Key Index Leaf) (root : Addr)
    (left right : Addr → Entry) (pages : List Addr) : Prop where
  rootTable (key : Key) : left (p.entryOf 0 root key) = p.zero ∧
    right (p.entryOf 0 root key) = p.zero
  pages : p.Supply (p.clearBeside root left right) pages

theorem tableAt_of_clear (clear : ∀ key, left (p.entryOf 0 root key) = p.zero)
    {key : Key} {level : Nat} {table : Addr}
    (there : p.tableAt left root key level = some table) : level = 0 ∧ table = root := by
  cases level with
  | zero => exact ⟨rfl, (Option.some.inj there).symm⟩
  | succ level =>
      obtain ⟨first, found⟩ := p.exists_tableAt (Nat.succ_pos level) there
      have start : p.tableAt left root key 0 = some root := rfl
      rw [p.tableAt_succ start, clear, p.next_zero] at found
      cases found

/-- Two memories with the same empty tree are twins. -/
theorem twin_of_clear (aligned : p.Table 0 root)
    (clear : ∀ key, left (p.entryOf 0 root key) = p.zero ∧
      right (p.entryOf 0 root key) = p.zero) :
    p.Twin (fun _ : Unit => root) (p.clearBeside root left right) left right where
  forest :=
    { table := by
        intro _ key level table _ there
        obtain ⟨rfl, rfl⟩ := tableAt_of_clear (fun key => (clear key).1) there
        exact aligned
      good := by
        intro _ key level table _ there
        obtain ⟨rfl, rfl⟩ := tableAt_of_clear (fun key => (clear key).1) there
        rw [(clear key).1]
        exact p.good_zero
      separated := by
        intro _ _ key key' level level' table table' _ _ there there' same
        obtain ⟨rfl, rfl⟩ := tableAt_of_clear (fun key => (clear key).1) there
        obtain ⟨rfl, rfl⟩ := tableAt_of_clear (fun key => (clear key).1) there'
        refine ⟨rfl, rfl, ?_⟩
        intro lower below
        cases Nat.lt_one_iff.mp below
        exact p.slot_inj aligned same
      empty := fun member => member.1
      unused := by
        intro _ key level table _ there member
        obtain ⟨rfl, rfl⟩ := tableAt_of_clear (fun key => (clear key).1) there
        exact member.2.2 key rfl }
  entries := by
    rintro _ _ ⟨key, level, table, _, there, rfl⟩
    obtain ⟨rfl, rfl⟩ := tableAt_of_clear (fun key => (clear key).1) there
    rw [(clear key).1, (clear key).2]
  free member := member.2.1.trans member.1.symm

end Start

end Mapper

end Radix
