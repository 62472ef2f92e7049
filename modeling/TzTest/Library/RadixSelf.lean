import TzTest.Library.RadixMap

/-!
# Tables that are read through their own translation

Where the routine follows the addresses of its tables as if they were keys, it
relies on the tree to map every table to itself.  A page is mapped to itself
before it is linked, and so the routine finds every entry that it reads or
writes, the ones between two writes of an entry included, and leaves a tree of
the same kind.
-/

namespace Radix

variable {Addr Entry Key Index Leaf Root : Type}

/-- What it takes to follow the tables of a mapper by its own translation, and
the entries that the routine writes half. -/
structure Homing (p : Mapper Addr Entry Key Index Leaf) where
  /-- The leaf maps the address to itself. -/
  Home : Addr → Leaf → Prop
  /-- The addresses in a page. -/
  span : Addr → Set Addr
  halfLink : Addr → Entry
  halfOwn : Addr → Entry
  next_halfLink {page : Addr} : p.Page page → p.next (halfLink page) = none
  own_home {page addr : Addr} : p.Page page → addr ∈ span page →
    ∃ leaf, p.leaf (p.own page) = some leaf ∧ Home addr leaf
  same_of_span {page addr : Addr} : p.Page page → addr ∈ span page →
    p.SamePage (p.asKey addr) (p.asKey page)
  slots_span {page : Addr} : p.Page page → p.pageSlots page ⊆ span page

/-- An entry at an address, and the memory at the moment of the access. -/
structure Access (Addr Entry : Type) where
  mem : Addr → Entry
  addr : Addr

namespace Homing

variable {p : Mapper Addr Entry Key Index Leaf} (h : Homing p)

/-- The tree maps the address to itself. -/
def AtHome (m : Addr → Entry) (root addr : Addr) : Prop :=
  ∃ leaf, p.translate m root (p.asKey addr) = some leaf ∧ h.Home addr leaf

/-- Every entry that a way through the tree comes to is mapped to itself. -/
def SelfMapped (m : Addr → Entry) (root : Addr) : Prop :=
  ∀ key level table, level ≤ p.depth →
    p.tableAt m root key level = some table →
    h.AtHome m root (p.entryOf level table key)

end Homing

/-- The key is not the address of an entry of a table. -/
def Mapper.Apart (p : Mapper Addr Entry Key Index Leaf) (m : Addr → Entry)
    (root : Addr) (key : Key) : Prop :=
  ∀ other level table, level ≤ p.depth →
    p.tableAt m root other level = some table →
    ¬p.SamePage (p.asKey (p.entryOf level table other)) key

section Routine

variable [DecidableEq Addr] {p : Mapper Addr Entry Key Index Leaf} (h : Homing p)

namespace Homing

/-- The accesses of the levels above the last one. -/
def descendReads
    (mapPage : Addr → Store Addr Entry → Option (Store Addr Entry))
    (pageReads : Addr → Store Addr Entry → List (Access Addr Entry))
    (key : Key) : Nat → Nat → Addr → Store Addr Entry → List (Access Addr Entry)
  | 0, _, _, _ => []
  | remaining + 1, level, table, store =>
      let entry := p.entryOf level table key
      ⟨store.mem, entry⟩ ::
        match p.soft (store.mem entry) with
        | some below =>
            descendReads mapPage pageReads key remaining (level + 1) below store
        | none =>
            let page := store.next
            let taken := { store with next := p.bump store.next }
            pageReads page taken ++
              (mapPage page taken).elim [] fun mapped =>
                let linked := mapped.write entry (p.linkTo page)
                [⟨mapped.mem, entry⟩,
                  ⟨(mapped.write entry (h.halfLink page)).mem, entry⟩,
                  ⟨linked.mem, entry⟩] ++
                descendReads mapPage pageReads key remaining (level + 1)
                  (p.enter page) linked

/-- The accesses of the routine, which writes `half` before the entry. -/
def mapReads (root : Addr) : Nat → Key → (half entry : Entry) →
    Store Addr Entry → List (Access Addr Entry)
  | 0, _, _, _, _ => []
  | fuel + 1, key, half, entry, store =>
      let mapPage page := p.map root fuel (p.asKey page) (p.own page)
      let pageReads page :=
        mapReads root fuel (p.asKey page) (h.halfOwn page) (p.own page)
      h.descendReads mapPage pageReads key p.depth 0 root store ++
        (p.descend mapPage key p.depth 0 root store).elim [] fun (table, store) =>
          let last := p.entryOf p.depth table key
          [⟨store.mem, last⟩, ⟨(store.write last half).mem, last⟩,
            ⟨(store.write last entry).mem, last⟩]

/-- The accesses on the way down, level by level. -/
theorem descendReads_succ
    (mapPage : Addr → Store Addr Entry → Option (Store Addr Entry))
    (pageReads : Addr → Store Addr Entry → List (Access Addr Entry))
    (key : Key) (remaining level : Nat) (table : Addr) (store : Store Addr Entry) :
    h.descendReads mapPage pageReads key (remaining + 1) level table store =
      h.descendReads mapPage pageReads key 1 level table store ++
        (p.descend mapPage key 1 level table store).elim [] fun result =>
          h.descendReads mapPage pageReads key remaining (level + 1) result.1
            result.2 := by
  simp only [descendReads, Mapper.descend]
  cases p.soft (store.mem (p.entryOf level table key)) with
  | some below => rfl
  | none =>
      simp only [Option.bind_eq_bind]
      cases mapPage store.next { store with next := p.bump store.next } with
      | none => simp only [Option.elim_none, Option.bind_none, List.append_nil]
      | some mapped =>
          simp only [Option.elim_some, Option.bind_some, List.append_assoc,
            List.append_nil, List.cons_append]

end Homing

end Routine

namespace Homing

variable {p : Mapper Addr Entry Key Index Leaf} {h : Homing p}
variable {roots : Root → Addr} {root : Root} {m : Addr → Entry} {free : Set Addr}

/-- What a call leaves: tables that are mapped to themselves, and those keys
apart from them that were apart and are none of the pages. -/
structure Keeps (h : Homing p) (root : Addr) (before after : Addr → Entry)
    (pages : List Addr) : Prop where
  self : h.SelfMapped after root
  apart (key : Key) : p.Apart before root key →
    (∀ page ∈ pages, ¬p.SamePage (p.asKey page) key) → p.Apart after root key

theorem Keeps.refl {root : Addr} (self : h.SelfMapped m root) : Keeps h root m m [] where
  self := self
  apart _ apart _ := apart

theorem Keeps.trans {before middle after : Addr → Entry} {root : Addr}
    {first last : List Addr} (earlier : Keeps h root before middle first)
    (later : Keeps h root middle after last) :
    Keeps h root before after (first ++ last) where
  self := later.self
  apart key apart outside := by
    apply later.apart key
    · apply earlier.apart key apart
      intro page member
      exact outside page (List.mem_append_left _ member)
    · intro page member
      exact outside page (List.mem_append_right _ member)

variable {key : Key}

/-- The pages are no two the same, none of them the address of a table, and none
the key. -/
structure Clear (p : Mapper Addr Entry Key Index Leaf) (m : Addr → Entry)
    (root : Addr) (key : Key) (pages : List Addr) : Prop where
  keyApart : p.Apart m root key
  pagesApart : ∀ page ∈ pages, p.Apart m root (p.asKey page)
  notKey : ∀ page ∈ pages, ¬p.SamePage (p.asKey page) key
  distinct : pages.Pairwise fun left right =>
    ¬p.SamePage (p.asKey left) (p.asKey right)

theorem Clear.rest {m later : Addr → Entry} {root page : Addr} {pages : List Addr}
    (clear : Clear p m root key (page :: pages))
    (keeps : Keeps h root m later [page]) : Clear p later root key pages where
  keyApart := by
    apply keeps.apart key clear.keyApart
    intro other member
    rw [List.mem_singleton.mp member]
    exact clear.notKey page (List.mem_cons_self ..)
  pagesApart other member := by
    apply keeps.apart _ (clear.pagesApart other (List.mem_cons_of_mem _ member))
    intro first inside
    rw [List.mem_singleton.mp inside]
    exact (List.pairwise_cons.mp clear.distinct).1 other member
  notKey other member := clear.notKey other (List.mem_cons_of_mem _ member)
  distinct := (List.pairwise_cons.mp clear.distinct).2

variable [DecidableEq Addr]

section SetLeaf

variable [DecidableEq Root] [DecidableEq Index] (forest : Forest p.toFormat roots m free) {last : Addr}
  (here : p.tableAt m (roots root) key p.depth = some last) (entry : Entry)

include forest here

theorem atHome_setLeaf {addr : Addr} (atHome : h.AtHome m (roots root) addr)
    (different : ¬p.SamePage (p.asKey addr) key) :
    h.AtHome (Function.update m (p.entryOf p.depth last key) entry) (roots root)
      addr := by
  obtain ⟨leaf, found, home⟩ := atHome
  refine ⟨leaf, ?_, home⟩
  rw [forest.translate_setLeaf entry here, if_neg fun both => different both.2]
  exact found

theorem keeps_setLeaf (self : h.SelfMapped m (roots root))
    (apart : p.Apart m (roots root) key) :
    Keeps h (roots root) m (Function.update m (p.entryOf p.depth last key) entry)
      [] where
  self other level table inside there := by
    rw [forest.tableAt_setLeaf entry here _ _ inside] at there
    exact atHome_setLeaf forest here entry (self _ _ _ inside there)
      (apart _ _ _ inside there)
  apart _ before _ other level table inside there := by
    rw [forest.tableAt_setLeaf entry here _ _ inside] at there
    exact before _ _ _ inside there

end SetLeaf

section Link

variable {level : Nat} {table page : Addr} {entry : Entry}

/-- A link entry that leads nowhere can be overwritten by another such entry. -/
theorem translate_setMissing (forest : Forest p.toFormat roots m free)
    (below : level < p.depth)
    (here : p.tableAt m (roots root) key level = some table)
    (missing : p.next (m (p.entryOf level table key)) = none)
    (nowhere : p.next entry = none) (key' : Key) :
    p.translate (Function.update m (p.entryOf level table key) entry) (roots root)
        key' = p.translate m (roots root) key' := by
  have tables (lower : Nat) :
      p.tableAt (Function.update m (p.entryOf level table key) entry) (roots root)
        key' lower = p.tableAt m (roots root) key' lower := by
    induction lower with
    | zero => rfl
    | succ lower induction =>
        cases there : p.tableAt m (roots root) key' lower with
        | none => simp only [Format.tableAt, induction, there, Option.bind_none]
        | some table' =>
            rw [there] at induction
            rw [p.tableAt_succ induction, p.tableAt_succ there]
            by_cases same : p.entryOf lower table' key' = p.entryOf level table key
            · rw [same, Function.update_self, nowhere, missing]
            · rw [Function.update_of_ne same]
  cases there : p.tableAt m (roots root) key' p.depth with
  | none => simp only [Format.translate, tables, there, Option.bind_none]
  | some table' =>
      have different : p.entryOf p.depth table' key' ≠ p.entryOf level table key := by
        intro same
        have place := forest.separated (le_refl _) (Nat.le_of_lt below) there here same
        exact Nat.ne_of_gt below place.2.1
      rw [p.translate_of_tableAt ((tables _).trans there), p.translate_of_tableAt there,
        Function.update_of_ne different]

/-- A link to a page that is mapped to itself. -/
theorem keeps_link (forest : Forest p.toFormat roots m free)
    (fresh : Forest.Fresh p.toFormat roots m free root key level table page entry)
    (isPage : p.Page page) (self : h.SelfMapped m (roots root))
    (mapped : p.translate m (roots root) (p.asKey page) = p.leaf (p.own page)) :
    Keeps h (roots root) m (Function.update m (p.entryOf level table key) entry)
      [page] where
  self other lower table' inside there := by
    rcases forest.link_cases fresh.toLinkable inside there with
      old | ⟨_, _, sameLevel, sameTable⟩
    · obtain ⟨leaf, found, home⟩ := self _ _ _ inside old
      exact ⟨leaf, (forest.translate_link fresh _ _).trans found, home⟩
    · subst sameLevel sameTable
      have inSpan : p.entryOf (level + 1) table' other ∈ h.span table' :=
        h.slots_span isPage ⟨level, other, fresh.below, rfl⟩
      obtain ⟨leaf, own, home⟩ := h.own_home isPage inSpan
      refine ⟨leaf, ?_, home⟩
      rw [forest.translate_link fresh,
        Format.SamePage.translate (h.same_of_span isPage inSpan), mapped, own]
  apart key' before outside other lower table' inside there same := by
    rcases forest.link_cases fresh.toLinkable inside there with
      old | ⟨_, _, sameLevel, sameTable⟩
    · exact before _ _ _ inside old same
    · subst sameLevel sameTable
      have inSpan : p.entryOf (level + 1) table' other ∈ h.span table' :=
        h.slots_span isPage ⟨level, other, fresh.below, rfl⟩
      apply outside table' (List.mem_singleton.mpr rfl)
      exact (h.same_of_span isPage inSpan).symm.trans same

end Link

variable {store : Store Addr Entry}

/-- With every table in place, the way down reads entries that are mapped to
themselves, and changes nothing. -/
theorem descendReads_installed (forest : Forest p.toFormat roots store.mem free)
    (self : h.SelfMapped store.mem (roots root))
    (mapPage : Addr → Store Addr Entry → Option (Store Addr Entry))
    (pageReads : Addr → Store Addr Entry → List (Access Addr Entry))
    {remaining level : Nat} {table last : Addr}
    (total : level + remaining = p.depth)
    (here : p.tableAt store.mem (roots root) key level = some table)
    (installed : p.tableAt store.mem (roots root) key p.depth = some last) :
    ∀ access ∈ h.descendReads mapPage pageReads key remaining level table store,
      h.AtHome access.mem (roots root) access.addr := by
  induction remaining generalizing level table with
  | zero =>
      intro access member
      cases member
  | succ remaining induction =>
      have below : level < p.depth := by omega
      obtain ⟨table', found⟩ := p.exists_tableAt below installed
      have linked := found
      rw [p.tableAt_succ here] at linked
      have read := p.soft_eq (forest.good below here)
      rw [linked] at read
      intro access member
      simp only [descendReads, read, List.mem_cons] at member
      rcases member with rfl | later
      · exact self _ _ _ (Nat.le_of_lt below) here
      · exact induction (by omega) found access later

variable [DecidableEq Root] [DecidableEq Index]

/-- The three accesses of the last level. -/
theorem atHome_last (store : Store Addr Entry)
    (forest : Forest p.toFormat roots store.mem free)
    (self : h.SelfMapped store.mem (roots root))
    (apart : p.Apart store.mem (roots root) key) {last : Addr}
    (here : p.tableAt store.mem (roots root) key p.depth = some last)
    (half entry : Entry) :
    let place := p.entryOf p.depth last key
    ∀ access ∈ [Access.mk store.mem place, ⟨(store.write place half).mem, place⟩,
        ⟨(store.write place entry).mem, place⟩],
      h.AtHome access.mem (roots root) access.addr := by
  intro place access member
  have atHome := self _ _ _ (le_refl _) here
  have other := apart _ _ _ (le_refl _) here
  simp only [List.mem_cons, List.not_mem_nil, or_false] at member
  rcases member with rfl | rfl | rfl
  · exact atHome
  · exact atHome_setLeaf forest here half atHome other
  · exact atHome_setLeaf forest here entry atHome other

/-- The way down finds every entry that it accesses, and maps every page that it
takes before it goes through it. -/
theorem descend_home
    (mapPage : Addr → Store Addr Entry → Option (Store Addr Entry))
    (pageReads : Addr → Store Addr Entry → List (Access Addr Entry))
    (atOnce : ∀ (later : Store Addr Entry) (smaller : Set Addr) (page last : Addr),
      Forest p.toFormat roots later.mem smaller →
      p.tableAt later.mem (roots root) (p.asKey page) p.depth = some last →
      mapPage page later =
        some (later.write (p.entryOf p.depth last (p.asKey page)) (p.own page)))
    (readsHome : ∀ (later : Store Addr Entry) (smaller : Set Addr) (page last : Addr),
      Forest p.toFormat roots later.mem smaller →
      h.SelfMapped later.mem (roots root) →
      p.Apart later.mem (roots root) (p.asKey page) →
      p.tableAt later.mem (roots root) (p.asKey page) p.depth = some last →
      ∀ access ∈ pageReads page later, h.AtHome access.mem (roots root) access.addr)
    {remaining level count : Nat} {table : Addr}
    (forest : Forest p.toFormat roots store.mem free)
    (total : level + remaining = p.depth)
    (here : p.tableAt store.mem (roots root) key level = some table)
    (counted : p.missing store.mem key remaining level table = count)
    (supply : p.Supply free (p.pages count store.next))
    (installed : ∀ page ∈ p.pages count store.next,
      (p.tableAt store.mem (roots root) (p.asKey page) p.depth).isSome)
    (self : h.SelfMapped store.mem (roots root))
    (clear : Clear p store.mem (roots root) key (p.pages count store.next)) :
    (∀ access ∈ h.descendReads mapPage pageReads key remaining level table store,
      h.AtHome access.mem (roots root) access.addr) ∧
    ∀ last later,
      p.descend mapPage key remaining level table store = some (last, later) →
      Keeps h (roots root) store.mem later.mem (p.pages count store.next) := by
  induction remaining generalizing level table store free count with
  | zero =>
      simp only [Mapper.missing] at counted
      subst counted
      constructor
      · intro access member
        cases member
      · intro last later ran
        cases ran
        exact .refl self
  | succ remaining induction =>
      have below : level < p.depth := by omega
      have read := p.soft_eq (forest.good below here)
      cases linked : p.next (store.mem (p.entryOf level table key)) with
      | some table' =>
          rw [linked] at read
          simp only [Mapper.missing, linked] at counted
          have there : p.tableAt store.mem (roots root) key (level + 1) =
              some table' := by
            rw [p.tableAt_succ here, linked]
          obtain ⟨reads, keeps⟩ := induction forest (by omega) there counted supply
            installed self clear
          constructor
          · intro access member
            simp only [descendReads, read, List.mem_cons] at member
            rcases member with rfl | later
            · exact self _ _ _ (Nat.le_of_lt below) here
            · exact reads access later
          · intro last later ran
            simp only [Mapper.descend, read] at ran
            exact keeps last later ran
      | none =>
          rw [linked] at read
          simp only [Mapper.missing, linked] at counted
          subst counted
          obtain ⟨isPage, inFree, rest⟩ := supply
          have first : store.next ∈ p.pages (remaining + 1) store.next :=
            List.mem_cons_self ..
          obtain ⟨last, found⟩ := Option.isSome_iff_exists.mp
            (installed store.next first)
          obtain ⟨becomes, entered, empty⟩ := Mapper.descend_missing forest below
            here linked isPage inFree found
          have mapped := atOnce { store with next := p.bump store.next } free
            store.next last forest found
          have own := Mapper.becomes_setLeaf forest (p.own store.next) found
          have fresh := Mapper.fresh_of_missing forest below here linked isPage inFree
            found
          have keepsOwn := keeps_setLeaf forest found (p.own store.next) self
            (clear.pagesApart _ first)
          have keepsLink := keeps_link own.forest fresh isPage keepsOwn.self
            ((own.translated _).trans
              (p.set_of_samePage (p.toFormat.samePage_refl _) _ _))
          have keepsFirst := keepsOwn.trans keepsLink
          obtain ⟨reads, keeps⟩ := @induction _ (Store.mk _ (p.bump store.next)) _ _ _
            becomes.forest (by omega) entered
            (Mapper.missing_of_fresh empty remaining) rest
            (fun page member => becomes.installed
              (installed page (List.mem_cons_of_mem _ member)))
            keepsFirst.self (clear.rest keepsFirst)
          have half := translate_setMissing own.forest below fresh.here fresh.missing
            (h.next_halfLink isPage)
          constructor
          · intro access member
            simp only [descendReads, read, mapped, p.enter_eq isPage, Option.elim_some,
              List.mem_cons, List.mem_append, List.not_mem_nil, or_false] at member
            rcases member with rfl | inner | (rfl | rfl | rfl) | later
            · exact self _ _ _ (Nat.le_of_lt below) here
            · exact readsHome { store with next := p.bump store.next } free store.next
                last forest self
                (clear.pagesApart _ first) found access inner
            · exact keepsOwn.self _ _ _ (Nat.le_of_lt below) fresh.here
            · obtain ⟨leaf, there, home⟩ :=
                keepsOwn.self _ _ _ (Nat.le_of_lt below) fresh.here
              exact ⟨leaf, (half _).trans there, home⟩
            · exact keepsLink.self _ _ _ (Nat.le_of_lt below)
                (own.forest.tableAt_link_mono fresh (Nat.le_of_lt below) fresh.here)
            · exact reads access later
          · intro last' later ran
            simp only [Mapper.descend, read, mapped, p.enter_eq isPage,
              Option.bind_eq_bind, Option.bind_some] at ran
            exact keepsFirst.trans (keeps last' later ran)

/-- Where no table is missing, the routine finds its entries. -/
theorem mapReads_installed (forest : Forest p.toFormat roots store.mem free)
    (self : h.SelfMapped store.mem (roots root))
    (apart : p.Apart store.mem (roots root) key) {last : Addr}
    (installed : p.tableAt store.mem (roots root) key p.depth = some last)
    (fuel : Nat) (half entry : Entry) :
    ∀ access ∈ h.mapReads (roots root) (fuel + 1) key half entry store,
      h.AtHome access.mem (roots root) access.addr := by
  have down := Mapper.descend_installed forest
    (fun page => p.map (roots root) fuel (p.asKey page) (p.own page))
    (Nat.zero_add p.depth) rfl installed
  intro access member
  simp only [mapReads, down, Option.elim_some, List.mem_append] at member
  rcases member with above | atLast
  · exact descendReads_installed forest self _ _ (Nat.zero_add p.depth) rfl installed
      access above
  · exact atHome_last store forest self apart installed half entry access atLast

/-- The routine finds every entry that it accesses through the tree itself, and
leaves all tables mapped to themselves. -/
theorem map_home (forest : Forest p.toFormat roots store.mem free)
    (half entry : Entry) {count : Nat}
    (counted : p.missing store.mem key p.depth 0 (roots root) = count)
    (supply : p.Supply free (p.pages count store.next))
    (installed : ∀ page ∈ p.pages count store.next,
      (p.tableAt store.mem (roots root) (p.asKey page) p.depth).isSome)
    (self : h.SelfMapped store.mem (roots root))
    (clear : Clear p store.mem (roots root) key (p.pages count store.next))
    (fuel : Nat) :
    (∀ access ∈ h.mapReads (roots root) (fuel + 2) key half entry store,
      h.AtHome access.mem (roots root) access.addr) ∧
    ∀ later, p.map (roots root) (fuel + 2) key entry store = some later →
      Keeps h (roots root) store.mem later.mem (p.pages count store.next) := by
  have atOnce : ∀ (later : Store Addr Entry) (smaller : Set Addr)
      (page last : Addr), Forest p.toFormat roots later.mem smaller →
      p.tableAt later.mem (roots root) (p.asKey page) p.depth = some last →
      p.map (roots root) (fuel + 1) (p.asKey page) (p.own page) later =
        some (later.write (p.entryOf p.depth last (p.asKey page))
          (p.own page)) := by
    intro later smaller page last forest installed
    exact Mapper.map_installed forest fuel (p.own page) installed
  have readsHome : ∀ (later : Store Addr Entry) (smaller : Set Addr)
      (page last : Addr), Forest p.toFormat roots later.mem smaller →
      h.SelfMapped later.mem (roots root) →
      p.Apart later.mem (roots root) (p.asKey page) →
      p.tableAt later.mem (roots root) (p.asKey page) p.depth = some last →
      ∀ access ∈ h.mapReads (roots root) (fuel + 1) (p.asKey page) (h.halfOwn page)
        (p.own page) later, h.AtHome access.mem (roots root) access.addr := by
    intro later smaller page last forest self apart installed
    exact mapReads_installed forest self apart installed fuel _ _
  obtain ⟨reads, keeps⟩ := descend_home _ _ atOnce readsHome forest
    (Nat.zero_add p.depth) rfl counted supply installed self clear
  obtain ⟨mem, last, ran, arrived, down, _⟩ := Mapper.descend_becomes _ atOnce forest
    (Nat.zero_add p.depth) rfl counted supply installed
  have between := keeps _ _ ran
  have apart := between.apart key clear.keyApart clear.notKey
  constructor
  · intro access member
    simp only [mapReads, List.mem_append] at member
    rw [ran] at member
    rcases member with above | atLast
    · exact reads access above
    · exact atHome_last ⟨mem, p.bump^[count] store.next⟩ down.forest
        between.self apart arrived half entry access atLast
  · intro later whole
    obtain ⟨_, ranAgain, written⟩ := Option.bind_eq_some_iff.mp whole
    rw [ran] at ranAgain
    cases ranAgain
    cases written
    have lastWrite := keeps_setLeaf down.forest arrived entry between.self apart
    have both := between.trans lastWrite
    rw [List.append_nil] at both
    exact both

end Homing

end Radix
