import TzTest.Library.RadixMap

/-!
# What mapping stores to

The memory need not hold a forest here.  Whatever the routine finds, it stores
only to entries of tables that its root leads to, or that it has taken from the
pool itself.
-/

namespace Radix.Mapper

variable {Addr Entry Key Index Leaf : Type}
variable (p : Mapper Addr Entry Key Index Leaf)

/-- The tables that the routine may come to, level by level: the root, what it
reads in an entry of such a table, and pages of the pool, as the routine goes on
with them or finds them in the entries that it has made for them. -/
inductive Owned (root : Addr) (mem : Addr → Entry) (pages : List Addr) :
    Nat → Addr → Prop where
  | root : Owned root mem pages 0 root
  | read {level : Nat} {table below : Addr} {key : Key} :
      Owned root mem pages level table → level < p.depth →
      p.soft (mem (p.entryOf level table key)) = some below →
      Owned root mem pages (level + 1) below
  | taken {level : Nat} {page below : Addr} : page ∈ pages →
      below = p.enter page ∨ p.soft (p.linkTo page) = some below ∨
        p.soft (p.own page) = some below →
      Owned root mem pages level below

/-- The entries of these tables. -/
def OwnedEntries (root : Addr) (mem : Addr → Entry) (pages : List Addr) :
    Set Addr :=
  { addr | ∃ level table key, level ≤ p.depth ∧
    p.Owned root mem pages level table ∧ addr = p.entryOf level table key }

variable {p} {root : Addr} {mem : Addr → Entry}

theorem Owned.mono {pages more : List Addr} (subset : pages ⊆ more)
    {level : Nat} {table : Addr} (owned : p.Owned root mem pages level table) :
    p.Owned root mem more level table := by
  induction owned with
  | root => exact .root
  | read _ inside found induction => exact .read induction inside found
  | taken member leads => exact .taken (subset member) leads

theorem pages_succ (count : Nat) (page : Addr) :
    p.pages (count + 1) page = p.pages count page ++ [p.bump^[count] page] := by
  induction count generalizing page with
  | zero => rfl
  | succ count induction =>
      rw [pages, induction]
      simp only [pages, List.cons_append, Function.iterate_succ_apply]

theorem pages_subset {count more : Nat} (le : count ≤ more) (page : Addr) :
    p.pages count page ⊆ p.pages more page := by
  induction more, le using Nat.le_induction with
  | base => exact List.Subset.refl _
  | succ more _ induction =>
      rw [pages_succ]
      exact List.subset_append_of_subset_left _ induction

variable (p root) in
/-- So far the routine has taken a number of pages, and stored nothing but
entries for them. -/
structure Stored (start : Store Addr Entry) (count : Nat)
    (store : Store Addr Entry) : Prop where
  next : store.next = p.bump^[count] start.next
  mem (addr : Addr) : store.mem addr = start.mem addr ∨
    addr ∈ p.OwnedEntries root start.mem (p.pages count start.next) ∧
      ∃ page ∈ p.pages count start.next,
        store.mem addr = p.linkTo page ∨ store.mem addr = p.own page

variable {start store : Store Addr Entry} {count : Nat}

theorem Stored.refl (start : Store Addr Entry) : p.Stored root start 0 start where
  next := rfl
  mem _ := .inl rfl

theorem Stored.take (stored : p.Stored root start count store) :
    p.Stored root start (count + 1) { store with next := p.bump store.next } where
  next := by rw [Function.iterate_succ_apply', ← stored.next]
  mem addr := by
    have more := pages_subset (p := p) (Nat.le_succ count) start.next
    rcases stored.mem addr with kept | ⟨⟨level, table, key, inside, owned, rfl⟩,
      page, member, value⟩
    · exact .inl kept
    · exact .inr ⟨⟨level, table, key, inside, owned.mono more, rfl⟩, page,
        more member, value⟩

theorem Stored.below (stored : p.Stored root start count store) {level : Nat}
    {table below : Addr} {key : Key}
    (owned : p.Owned root start.mem (p.pages count start.next) level table)
    (inside : level < p.depth)
    (found : p.soft (store.mem (p.entryOf level table key)) = some below) :
    p.Owned root start.mem (p.pages count start.next) (level + 1) below := by
  rcases stored.mem (p.entryOf level table key) with kept | ⟨_, page, member, value⟩
  · rw [kept] at found
    exact .read owned inside found
  · refine .taken member (.inr ?_)
    rcases value with link | own
    · exact .inl (link ▸ found)
    · exact .inr (own ▸ found)

theorem Stored.taken (stored : p.Stored root start count store) :
    store.next ∈ p.pages (count + 1) start.next := by
  rw [pages_succ, stored.next]
  exact List.mem_append_right _ (List.mem_singleton_self _)

variable [DecidableEq Addr]

/-- A store to an owned entry, of an entry for a page that was taken. -/
theorem Stored.write (stored : p.Stored root start count store) {level : Nat}
    {table page : Addr} {key : Key} {entry : Entry} (inside : level ≤ p.depth)
    (owned : p.Owned root start.mem (p.pages count start.next) level table)
    (member : page ∈ p.pages count start.next)
    (value : entry = p.linkTo page ∨ entry = p.own page) :
    p.Stored root start count (store.write (p.entryOf level table key) entry) where
  next := stored.next
  mem addr := by
    change Function.update store.mem (p.entryOf level table key) entry addr = _ ∨ _ ∧
      ∃ page ∈ _, Function.update store.mem _ entry addr = _ ∨
        Function.update store.mem _ entry addr = _
    by_cases same : addr = p.entryOf level table key
    · subst same
      rw [Function.update_self]
      exact .inr ⟨⟨level, table, key, inside, owned, rfl⟩, page, member, value⟩
    · rw [Function.update_of_ne same]
      exact stored.mem addr

/-- The way down, when mapping a page to itself stores only entries for pages
that were taken. -/
theorem descend_stored
    {mapPage : Addr → Store Addr Entry → Option (Store Addr Entry)}
    (maps : ∀ {count store later page}, p.Stored root start count store →
      page ∈ p.pages count start.next → mapPage page store = some later →
      ∃ more, count ≤ more ∧ p.Stored root start more later)
    {key : Key} {remaining level : Nat} (inside : level + remaining ≤ p.depth)
    {table : Addr} (stored : p.Stored root start count store)
    (owned : p.Owned root start.mem (p.pages count start.next) level table)
    {last : Addr} {later : Store Addr Entry}
    (ran : p.descend mapPage key remaining level table store =
      some (last, later)) :
    ∃ more, count ≤ more ∧ p.Stored root start more later ∧
      p.Owned root start.mem (p.pages more start.next) (level + remaining) last := by
  induction remaining generalizing level table count store with
  | zero =>
      obtain ⟨rfl, rfl⟩ := Prod.mk.inj (Option.some.inj ran)
      exact ⟨count, le_refl _, stored, owned⟩
  | succ remaining induction =>
      have place : level + (remaining + 1) = level + 1 + remaining := by omega
      rw [place] at inside ⊢
      simp only [descend] at ran
      cases read : p.soft (store.mem (p.entryOf level table key)) with
      | some below =>
          rw [read] at ran
          exact induction inside stored (stored.below owned (by omega) read) ran
      | none =>
          rw [read] at ran
          obtain ⟨middle, mapped, rest⟩ := Option.bind_eq_some_iff.mp ran
          obtain ⟨many, grown, between⟩ := maps stored.take stored.taken mapped
          have kept := pages_subset (p := p) (Nat.le_of_succ_le grown) start.next
          have page := pages_subset (p := p) grown start.next stored.taken
          have linked : p.Stored root start many
              (middle.write (p.entryOf level table key) (p.linkTo store.next)) :=
            between.write (by omega) (owned.mono kept) page (.inl rfl)
          obtain ⟨more, later, final⟩ := induction inside linked
            (.taken page (.inl rfl)) rest
          exact ⟨more, by omega, final⟩

theorem map_own_stored {fuel : Nat} {page : Addr} {later : Store Addr Entry}
    (stored : p.Stored root start count store)
    (member : page ∈ p.pages count start.next)
    (ran : p.map root fuel (p.asKey page) (p.own page) store = some later) :
    ∃ more, count ≤ more ∧ p.Stored root start more later := by
  induction fuel generalizing count store page later with
  | zero => cases ran
  | succ fuel induction =>
      obtain ⟨⟨last, middle⟩, down, written⟩ := Option.bind_eq_some_iff.mp ran
      obtain ⟨more, grown, between, owned⟩ := descend_stored induction
        (Nat.le_of_eq (Nat.zero_add _)) stored .root down
      rw [Nat.zero_add] at owned
      rw [← Option.some.inj written]
      exact ⟨more, grown, between.write (le_refl _) owned
        (pages_subset grown start.next member) (.inr rfl)⟩

/-- The routine stores only to entries that its root owns by the pages taken. -/
theorem map_stores {fuel : Nat} {key : Key} {entry : Entry}
    {later : Store Addr Entry} (ran : p.map root fuel key entry store = some later) :
    ∃ count, later.next = p.bump^[count] store.next ∧
      ∀ addr, addr ∉ p.OwnedEntries root store.mem (p.pages count store.next) →
        later.mem addr = store.mem addr := by
  cases fuel with
  | zero => cases ran
  | succ fuel =>
      obtain ⟨⟨last, middle⟩, down, written⟩ := Option.bind_eq_some_iff.mp ran
      obtain ⟨count, _, stored, owned⟩ := descend_stored map_own_stored
        (Nat.le_of_eq (Nat.zero_add _)) (.refl store) .root down
      rw [Nat.zero_add] at owned
      refine ⟨count, ?_, ?_⟩
      · rw [← Option.some.inj written]
        exact stored.next
      · intro addr foreign
        have different : addr ≠ p.entryOf p.depth last key := by
          rintro rfl
          exact foreign ⟨p.depth, last, key, le_refl _, owned, rfl⟩
        rw [← Option.some.inj written]
        change Function.update middle.mem _ entry addr = _
        rw [Function.update_of_ne different]
        rcases stored.mem addr with kept | ⟨inTree, _⟩
        · exact kept
        · exact absurd inTree foreign

end Radix.Mapper
