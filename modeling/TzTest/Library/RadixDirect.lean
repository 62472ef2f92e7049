import TzTest.Library.RadixMap

/-!
# Mapping while the tree is not in use

A routine that reaches its tables without the translation that it builds need
not map them.  It takes a page from the pool for every table that is missing,
links it, and goes on.  The tree is then changed in one page of keys and in no
other.
-/

namespace Radix

variable {Addr Entry Key Index Leaf Root : Type} [DecidableEq Addr]

namespace Mapper

section Routine

variable (p : Mapper Addr Entry Key Index Leaf)

/-- The levels above the last one. -/
def descendDirect : Key → Nat → Nat → Addr → Store Addr Entry →
    Option (Addr × Store Addr Entry) :=
  p.descend fun _ store => some store

def mapDirect (root : Addr) (key : Key) (entry : Entry)
    (store : Store Addr Entry) : Option (Store Addr Entry) := do
  let (table, store) ← p.descendDirect key p.depth 0 root store
  return store.write (p.entryOf p.depth table key) entry

end Routine

variable {p : Mapper Addr Entry Key Index Leaf} {roots : Root → Addr}
variable {free : Set Addr} {store : Store Addr Entry} {root : Root} {key : Key}

theorem descendDirect_ends (p : Mapper Addr Entry Key Index Leaf) (key : Key) (remaining level : Nat) (table : Addr)
    (store : Store Addr Entry) :
    ∃ result, p.descendDirect key remaining level table store = some result := by
  induction remaining generalizing level table store with
  | zero => exact ⟨_, rfl⟩
  | succ remaining induction =>
      simp only [descendDirect, descend]
      cases p.soft (store.mem (p.entryOf level table key)) with
      | some below => exact induction _ _ _
      | none => exact induction _ _ _

/-- A missing table is linked and entered. -/
theorem link_becomes (forest : Forest p.toFormat roots store.mem free)
    {level : Nat} {table page : Addr} (below : level < p.depth)
    (here : p.tableAt store.mem (roots root) key level = some table)
    (missing : p.next (store.mem (p.entryOf level table key)) = none)
    (isPage : p.Page page) (inFree : p.pageSlots page ⊆ free) :
    let linked := store.write (p.entryOf level table key) (p.linkTo page)
    p.Becomes roots root store.mem linked.mem (free \ p.pageSlots page)
        (p.translate store.mem (roots root)) ∧
      p.tableAt linked.mem (roots root) key (level + 1) = some page ∧
      (∀ key', linked.mem (p.entryOf (level + 1) page key') = p.zero) ∧
      p.Confined (roots root) store.mem linked.mem [page] := by
  intro linked
  have fresh : Forest.Fresh p.toFormat roots store.mem free root key level table
      page (p.linkTo page) :=
    { here := here
      below := below
      missing := missing
      linked := p.next_linkTo isPage
      good := p.good_linkTo isPage
      table := p.table_of_page isPage
      free := inFree }
  refine ⟨?_, ?_, ?_, confined_link forest fresh.toLinkable⟩
  · constructor
    · exact forest.link fresh.toLinkable
    · intro other key' lower table' inside there
      exact forest.tableAt_link_mono fresh inside there
    · intro other _ key'
      exact forest.translate_link fresh other key'
    · intro key'
      exact forest.translate_link fresh root key'
  · exact forest.tableAt_link_new fresh.toLinkable fun _ _ => rfl
  · exact forest.link_page_entry fresh.toLinkable

/-- The way down takes one page for each missing table, changes no translation
and writes no more than it has to.  All of the pages are tables on the way. -/
theorem descendDirect_becomes {remaining level count : Nat} {table : Addr}
    (forest : Forest p.toFormat roots store.mem free)
    (total : level + remaining = p.depth)
    (here : p.tableAt store.mem (roots root) key level = some table)
    (counted : p.missing store.mem key remaining level table = count)
    (supply : p.Supply free (p.pages count store.next)) :
    ∃ mem last,
      p.descendDirect key remaining level table store =
        some (last, ⟨mem, p.bump^[count] store.next⟩) ∧
      p.tableAt mem (roots root) key p.depth = some last ∧
      p.Becomes roots root store.mem mem
        (p.without free (p.pages count store.next))
        (p.translate store.mem (roots root)) ∧
      p.Confined (roots root) store.mem mem (p.pages count store.next) ∧
      ∀ page ∈ p.pages count store.next, ∃ lower, level < lower ∧ lower ≤ p.depth ∧
        p.tableAt mem (roots root) key lower = some page := by
  induction remaining generalizing level table store free count with
  | zero =>
      have atDepth : level = p.depth := total
      subst atDepth counted
      exact ⟨store.mem, table, rfl, here, .refl forest, .refl _ _, nofun⟩
  | succ remaining induction =>
      have below : level < p.depth := by omega
      have read := p.soft_eq (forest.good below here)
      cases linked : p.next (store.mem (p.entryOf level table key)) with
      | some table' =>
          rw [linked] at read
          simp only [missing, linked] at counted
          have there : p.tableAt store.mem (roots root) key (level + 1) =
              some table' := by
            rw [p.tableAt_succ here, linked]
          simp only [descendDirect, descend, read]
          obtain ⟨mem, bottom, ran, arrived, later, written, tables⟩ :=
            induction forest (by omega) there counted supply
          refine ⟨mem, bottom, ran, arrived, later, written, ?_⟩
          intro page member
          obtain ⟨lower, beyond, inside, found⟩ := tables page member
          exact ⟨lower, Nat.lt_of_succ_lt beyond, inside, found⟩
      | none =>
          rw [linked] at read
          simp only [missing, linked] at counted
          subst counted
          obtain ⟨isPage, inFree, rest⟩ := supply
          obtain ⟨first, entered, empty, confined⟩ := link_becomes forest below here
            linked isPage inFree
          obtain ⟨mem, bottom, ran, arrived, later, written, tables⟩ :=
            @induction _ (Store.mk _ (p.bump store.next)) _ _ _ first.forest
              (by omega) entered (missing_of_fresh empty remaining) rest
          refine ⟨mem, bottom, ?_, arrived, first.trans ?_, confined.trans written, ?_⟩
          · simp only [descendDirect, descend, read, p.enter_eq isPage]
            exact ran
          · have same : p.translate (Store.mk _ (p.bump store.next) :
                Store Addr Entry).mem (roots root) = _ :=
              funext first.translated
            rw [same] at later
            exact later
          · intro page member
            rcases List.mem_cons.mp member with rfl | further
            · exact ⟨level + 1, Nat.lt_succ_self level, below,
                later.keeps below entered⟩
            · obtain ⟨lower, beyond, inside, found⟩ := tables page further
              exact ⟨lower, Nat.lt_of_succ_lt beyond, inside, found⟩

/-- The routine changes the tree as a finite map. -/
theorem mapDirect_becomes [DecidableEq Root] [DecidableEq Index]
    (forest : Forest p.toFormat roots store.mem free) (entry : Entry) {count : Nat}
    (counted : p.missing store.mem key p.depth 0 (roots root) = count)
    (supply : p.Supply free (p.pages count store.next)) :
    ∃ mem,
      p.mapDirect (roots root) key entry store =
        some ⟨mem, p.bump^[count] store.next⟩ ∧
      p.Becomes roots root store.mem mem
        (p.without free (p.pages count store.next))
        (p.set key (p.leaf entry) (p.translate store.mem (roots root))) ∧
      p.Confined (roots root) store.mem mem (p.pages count store.next) ∧
      ∀ page ∈ p.pages count store.next, ∃ lower, 0 < lower ∧ lower ≤ p.depth ∧
        p.tableAt mem (roots root) key lower = some page := by
  obtain ⟨mem, last, ran, arrived, down, confined, tables⟩ := descendDirect_becomes forest
    (Nat.zero_add p.depth) rfl counted supply
  have written := @becomes_setLeaf _ _ _ _ _ _ p roots _
    (Store.mk mem (p.bump^[count] store.next)) root key _ _ _ down.forest entry
    last arrived
  have same : p.translate mem (roots root) = _ := funext down.translated
  have whole := down.trans written
  rw [same] at whole
  have leaf := @confined_setLeaf _ _ _ _ _ _ p roots _
    (Store.mk mem (p.bump^[count] store.next)) root key _ down.forest entry last arrived
  have total := confined.trans leaf
  rw [List.append_nil] at total
  refine ⟨_, ?_, whole, total, ?_⟩
  · exact Option.bind_eq_some_iff.mpr ⟨_, ran, rfl⟩
  · intro page member
    obtain ⟨lower, beyond, inside, found⟩ := tables page member
    exact ⟨lower, beyond, inside, written.keeps inside found⟩

end Mapper

end Radix
