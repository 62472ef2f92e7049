import TzTest.InitUtil.RamContents

/-!
# Mapping an image into an empty tree

The start-up code maps pages that were not mapped before, and takes its tables
and the pages for them from one pool.  As long as the tables are clear, every
page keeps the mapping that it got, and no page of the pool is used twice.
-/

namespace TzTest.Aarch64

open Radix BitField

/-- A page between the root table and the next page of the pool. -/
structure Taken (base next page : BitVec 64) : Prop where
  aligned : page.toNat % 0x1000 = 0
  above : base.toNat ≤ page.toNat
  below : page.toNat + 0x1000 ≤ next.toNat

/-- What is left of the pool, as far as it was clear. -/
def clearPool (ram : BitVec 64 → BitVec 64) (next stop : Nat) : Set (BitVec 64) :=
  { addr | addr ∈ (@range .aarch64 next stop) ∧ ram addr = 0 }

/-- The pages were clear. -/
def ClearPages (ram : BitVec 64 → BitVec 64) (pages : List (BitVec 64)) : Prop :=
  ∀ page ∈ pages, ∀ addr : BitVec 64, page.toNat ≤ addr.toNat →
    addr.toNat < page.toNat + 0x1000 → ram addr = 0

theorem Taken.mono {base next later page : BitVec 64} (taken : Taken base next page)
    (le : next.toNat ≤ later.toNat) : Taken base later page :=
  ⟨taken.aligned, taken.above, le_trans taken.below le⟩

theorem Taken.within {base next page : BitVec 64} {stop : Nat}
    (taken : Taken base next page) (pool : @Pool .aarch64 next stop)
    (room : next.toNat ≤ stop) : Within page 12 36 := by
  apply within_of_toNat taken.aligned
  have below := taken.below
  have limit : stop ≤ 2 ^ 36 := pool.limit
  omega

theorem toNat_bump {next : BitVec 64} (room : next.toNat + 0x1000 < 2 ^ 64) :
    (next + 0x1000).toNat = next.toNat + 0x1000 := by
  bv_omega

theorem bump_iterate {next : BitVec 64} {count : Nat}
    (room : next.toNat + 0x1000 * count < 2 ^ 64) :
    (initMapper.bump^[count] next).toNat = next.toNat + 0x1000 * count := by
  induction count generalizing next with
  | zero => rfl
  | succ count induction =>
      have first := @toNat_bump next (by lia)
      rw [Function.iterate_succ_apply, initMapper_bump, induction (by lia), first]
      lia

theorem exists_page {next addr : BitVec 64} {count : Nat}
    (room : next.toNat + 0x1000 * count < 2 ^ 64) (above : next.toNat ≤ addr.toNat)
    (below : addr.toNat < next.toNat + 0x1000 * count) :
    ∃ page ∈ initMapper.pages count next,
      page.toNat ≤ addr.toNat ∧ addr.toNat < page.toNat + 0x1000 := by
  induction count generalizing next with
  | zero => omega
  | succ count induction =>
      by_cases here : addr.toNat < next.toNat + 0x1000
      · exact ⟨next, List.mem_cons_self .., above, here⟩
      · have first := @toNat_bump next (by lia)
        obtain ⟨page, member, inside⟩ :=
          @induction (next + 0x1000) (by lia) (by lia) (by lia)
        exact ⟨page, List.mem_cons_of_mem _ member, inside⟩

theorem mem_pages_toNat {next page : BitVec 64} {count : Nat}
    (member : page ∈ initMapper.pages count next)
    (room : next.toNat + 0x1000 * count < 2 ^ 64) :
    next.toNat ≤ page.toNat ∧ page.toNat + 0x1000 ≤ next.toNat + 0x1000 * count := by
  induction count generalizing next with
  | zero => cases member
  | succ count induction =>
      have first := @toNat_bump next (by lia)
      rcases List.mem_cons.mp member with rfl | later
      · exact ⟨le_refl _, by lia⟩
      · have inside := @induction (next + 0x1000) later (by lia)
        exact ⟨by lia, by lia⟩

theorem ClearPages.subset {ram : BitVec 64 → BitVec 64} {next : BitVec 64}
    {count low stop : Nat} (clear : ClearPages ram (initMapper.pages count next))
    (room : next.toNat + 0x1000 * count ≤ stop) (limit : stop ≤ 2 ^ 36)
    (above : low ≤ next.toNat) :
    @range .aarch64 next.toNat (next.toNat + 0x1000 * count) ⊆ clearPool ram low stop := by
  rintro addr ⟨lower, upper⟩
  obtain ⟨page, member, atLeast, inside⟩ :=
    exists_page (lt_of_le_of_lt (le_trans room limit) (by decide)) lower upper
  exact ⟨⟨le_trans above lower, lt_of_lt_of_le upper room⟩,
    clear page member addr atLeast inside⟩

namespace Placement

theorem run_pages (base : BitVec 64) (place : Placement)
    (store : Store (BitVec 64) (BitVec 64)) :
    ∃ count mem,
      place.run base store =
        some ⟨mem, initMapper.bump^[count] (place.page store).2.next⟩ ∧
      place.tables base store = initMapper.pages count (place.page store).2.next ∧
      count ≤ 3 := by
  obtain ⟨count, last, mem, ran, tables, few⟩ := initMapper.descendDirect_pages place.va 3
    0 base (place.page store).2
  exact ⟨count, _, Option.bind_eq_some_iff.mpr ⟨_, ran, rfl⟩, tables, few⟩

theorem page_mem (place : Placement) (store : Store (BitVec 64) (BitVec 64)) :
    (place.page store).2.mem = store.mem := by
  unfold page
  cases place.pa? with
  | some pa => rfl
  | none => rfl

theorem page_next (place : Placement) (store : Store (BitVec 64) (BitVec 64)) :
    ∃ count ≤ 1, (place.page store).2.next = initMapper.bump^[count] store.next := by
  unfold page
  cases place.pa? with
  | some pa => exact ⟨0, Nat.zero_le _, rfl⟩
  | none => exact ⟨1, le_refl _, rfl⟩

theorem run_next {base : BitVec 64} {place : Placement}
    {store later : Store (BitVec 64) (BitVec 64)}
    (ran : place.run base store = some later) (room : store.next.toNat + 0x4000 < 2 ^ 64) :
    store.next.toNat ≤ later.next.toNat ∧
      later.next.toNat ≤ store.next.toNat + 0x4000 := by
  obtain ⟨count, mem, same, _, few⟩ := place.run_pages base store
  obtain ⟨own, atMost, next⟩ := place.page_next store
  have first : (initMapper.bump^[own] store.next).toNat = _ := bump_iterate (by omega)
  have last : (initMapper.bump^[count] (place.page store).2.next).toNat =
      (place.page store).2.next.toNat + 0x1000 * count := by
    apply bump_iterate
    rw [next, first]
    omega
  cases Option.some.inj (ran.symm.trans same)
  rw [next, first] at last
  change _ ≤ (initMapper.bump^[count] _).toNat ∧ (initMapper.bump^[count] _).toNat ≤ _
  rw [next, last]
  omega

theorem runAll_ends (base : BitVec 64) (places : List Placement)
    (store : Store (BitVec 64) (BitVec 64)) :
    ∃ last, runAll base places store = some last := by
  induction places generalizing store with
  | nil => exact ⟨store, rfl⟩
  | cons place places induction =>
      obtain ⟨count, mem, ran, _⟩ := place.run_pages base store
      obtain ⟨last, rest⟩ := induction ⟨mem, _⟩
      exact ⟨last, Option.bind_eq_some_iff.mpr ⟨_, ran, rest⟩⟩

theorem runAll_next {base : BitVec 64} {places : List Placement}
    {store last : Store (BitVec 64) (BitVec 64)}
    (ran : runAll base places store = some last)
    (room : store.next.toNat + 0x4000 * places.length < 2 ^ 64) :
    store.next.toNat ≤ last.next.toNat ∧
      last.next.toNat ≤ store.next.toNat + 0x4000 * places.length := by
  induction places generalizing store with
  | nil =>
      cases ran
      exact ⟨le_refl _, Nat.le_add_right ..⟩
  | cons place places induction =>
      obtain ⟨later, first, rest⟩ := Option.bind_eq_some_iff.mp ran
      rw [List.length_cons] at room ⊢
      obtain ⟨above, below⟩ := run_next first (by lia)
      have left : later.next.toNat + 0x4000 * places.length < 2 ^ 64 := by lia
      obtain ⟨above', below'⟩ := induction rest left
      exact ⟨le_trans above above', by lia⟩

/-- The pages that become tables come from the pool. -/
theorem tablesAll_inside {base page : BitVec 64} {places : List Placement}
    {store last : Store (BitVec 64) (BitVec 64)}
    (ran : runAll base places store = some last)
    (room : store.next.toNat + 0x4000 * places.length < 2 ^ 64)
    (member : page ∈ tablesAll base places store) :
    store.next.toNat ≤ page.toNat ∧ page.toNat + 0x1000 ≤ last.next.toNat := by
  induction places generalizing store with
  | nil => cases member
  | cons place places induction =>
      obtain ⟨later, first, rest⟩ := Option.bind_eq_some_iff.mp ran
      rw [List.length_cons] at room
      obtain ⟨above, below⟩ := run_next first (by lia)
      have left : later.next.toNat + 0x4000 * places.length < 2 ^ 64 := by lia
      obtain ⟨above', below'⟩ := runAll_next rest left
      rw [tablesAll, first] at member
      rcases List.mem_append.mp member with here | there
      · obtain ⟨count, mem, same, tables, few⟩ := place.run_pages base store
        obtain ⟨own, atMost, next⟩ := place.page_next store
        have start : (initMapper.bump^[own] store.next).toNat = _ := bump_iterate (by lia)
        have stop : (initMapper.bump^[count] (place.page store).2.next).toNat =
            (place.page store).2.next.toNat + 0x1000 * count := by
          apply bump_iterate
          rw [next, start]
          lia
        rw [tables] at here
        have inside := mem_pages_toNat here (by rw [next, start]; lia)
        cases Option.some.inj (first.symm.trans same)
        rw [← next] at start
        change (initMapper.bump^[count] (place.page store).2.next).toNat ≤ _ at above'
        omega
      · have inside := induction rest left there
        omega

theorem tablesAll_append (base : BitVec 64) (first last : List Placement)
    (store : Store (BitVec 64) (BitVec 64)) :
    tablesAll base (first ++ last) store =
      tablesAll base first store ++ (runAll base first store).elim [] (tablesAll base last) := by
  induction first generalizing store with
  | nil => rfl
  | cons place first induction =>
      rw [List.cons_append, tablesAll, tablesAll, runAll, List.append_assoc]
      apply congrArg (place.tables base store ++ ·)
      cases place.run base store with
      | none => rfl
      | some later => exact induction later

/-- What the calls of the start-up code pass. -/
structure Fits (place : Placement) : Prop where
  va : place.va.toNat < 2 ^ 48
  type : place.pgprop &&& 0x3 = 0x3
  noAddress : place.pgprop &&& outputAddress = 0
  pa {pa : BitVec 64} : place.pa? = some pa → Within pa 12 48

theorem leaf_or {pgprop page : BitVec 64} (type : pgprop &&& 0x3 = 0x3)
    (noAddress : pgprop &&& outputAddress = 0) (isPage : Within page 12 48) :
    ∃ attr, leaf (pgprop ||| page) = some ⟨page, attr⟩ := by
  have valid : (pgprop ||| page) &&& 0x3 = 0x3 := by
    rw [BitVec.and_or_distrib_right, type,
      isPage.and_eq_zero type_within (.inr (by decide))]
    rfl
  have address : (pgprop ||| page) &&& outputAddress = page := by
    rw [BitVec.and_or_distrib_right, noAddress,
      isPage.and_mask (by decide : IsMask outputAddress 12 48) (le_refl _) (le_refl _)]
    exact BitVec.zero_or
  unfold leaf
  rw [if_pos valid, address]
  exact ⟨_, rfl⟩

/-- The page behind a mapping: the one that was asked for, or one of the pool that
is no table. -/
def Backs (base : BitVec 64) (store : Store (BitVec 64) (BitVec 64)) (place : Placement)
    (page : BitVec 64) : Prop :=
  place.pa? = some page ∨
    place.pa? = none ∧ Taken base store.next page ∧
      ∀ {va level table}, level ≤ 3 →
        initMapper.tableAt store.mem base va level = some table → table ≠ page

end Placement

/-- The tables after some pages were mapped. -/
structure Booting (base : BitVec 64) (stop : Nat) (ram : BitVec 64 → BitVec 64)
    (placed : List Placement) (store : Store (BitVec 64) (BitVec 64)) : Prop where
  forest : Forest initMapper.toFormat (fun _ : Unit => base) store.mem
    (clearPool ram store.next.toNat stop)
  pool : @Pool .aarch64 store.next stop
  room : store.next.toNat ≤ stop
  tables {va : BitVec 64} {level : Nat} {table : BitVec 64} : level ≤ 3 →
    initMapper.tableAt store.mem base va level = some table →
    Taken base store.next table
  frame {addr : BitVec 64} : addr.toNat < base.toNat ∨ store.next.toNat ≤ addr.toNat →
    store.mem addr = ram addr
  mapped {place : Placement} : place ∈ placed → ∃ page attr,
    initMapper.translate store.mem base place.va = some ⟨page, attr⟩ ∧
      place.Backs base store page
  distinct {place place' : Placement} {found found' : Leaf 64} :
    place ∈ placed → place' ∈ placed → place.pa? = none → place'.pa? = none →
    initMapper.translate store.mem base place.va = some found →
    initMapper.translate store.mem base place'.va = some found' →
    found.pa = found'.pa → place.va = place'.va
  unmapped {va : BitVec 64} : (∀ place ∈ placed, ¬initMapper.SamePage va place.va) →
    initMapper.translate store.mem base va = none

/-- Every page that was taken is a table of an address below the bound. -/
def OnlyTables (base : BitVec 64) (bound : Nat) (store : Store (BitVec 64) (BitVec 64)) :
    Prop :=
  ∀ page, Taken base store.next page → page ≠ base →
    ∃ va : BitVec 64, va.toNat < bound ∧ ∃ level, 0 < level ∧ level ≤ 3 ∧
      initMapper.tableAt store.mem base va level = some page

namespace Booting

variable {base : BitVec 64} {stop : Nat} {ram : BitVec 64 → BitVec 64}
variable {placed : List Placement} {store later : Store (BitVec 64) (BitVec 64)}
variable {place : Placement}

theorem entry_inside (booting : Booting base stop ram placed store)
    {addr : BitVec 64} (entry : addr ∈ initMapper.Entries store.mem base) :
    base.toNat ≤ addr.toNat ∧ addr.toNat < store.next.toNat := by
  obtain ⟨va, level, table, inside, there, rfl⟩ := entry
  have taken := booting.tables inside there
  obtain ⟨place, offset⟩ := slot_toNat (taken.within booting.pool booting.room) level va
  have above := taken.above
  have below := taken.below
  change base.toNat ≤ (slot level table (index level va)).toNat ∧
    (slot level table (index level va)).toNat < _
  omega

/-- One page more changes the tree as a finite map and takes the next pages. -/
theorem run_becomes (booting : Booting base stop ram placed store)
    (ran : place.run base store = some later) (below : later.next.toNat ≤ stop)
    (clear : ClearPages ram (place.tables base store)) :
    ∃ pages : List (BitVec 64),
      (∀ page, page ∈ pages ↔ page.toNat % 0x1000 = 0 ∧
        (place.page store).2.next.toNat ≤ page.toNat ∧
        page.toNat + 0x1000 ≤ later.next.toNat) ∧
      store.next.toNat ≤ (place.page store).2.next.toNat ∧
      (place.page store).2.next.toNat ≤ later.next.toNat ∧
      @Pool .aarch64 later.next stop ∧
      initMapper.Becomes (fun _ : Unit => base) () store.mem later.mem
        (clearPool ram later.next.toNat stop)
        (initMapper.set place.va (leaf (place.pgprop ||| (place.page store).1))
          (initMapper.translate store.mem base)) ∧
      initMapper.Confined base store.mem later.mem pages ∧
      ∀ page ∈ pages, ∃ level, 0 < level ∧ level ≤ 3 ∧
        initMapper.tableAt later.mem base place.va level = some page := by
  obtain ⟨count, mem, same, tables, few⟩ := place.run_pages base store
  obtain ⟨own, atMost, next⟩ := place.page_next store
  have limit : stop ≤ 2 ^ 36 := booting.pool.limit
  have room := booting.room
  have first : (place.page store).2.next.toNat = store.next.toNat + 0x1000 * own := by
    rw [next]
    exact bump_iterate (by omega)
  have last : later.next.toNat = (place.page store).2.next.toNat + 0x1000 * count := by
    cases Option.some.inj (ran.symm.trans same)
    exact bump_iterate (by omega)
  have enough : store.next.toNat + 0x1000 * own ≤ stop := by lia
  have enough' : (place.page store).2.next.toNat + 0x1000 * count ≤ stop := by lia
  have ascending : store.next.toNat ≤ (place.page store).2.next.toNat := by lia
  have pool : @Pool .aarch64 (place.page store).2.next stop := by
    rw [next]
    exact (@Pool.iterate .aarch64 _ _ own booting.pool enough).1
  rw [tables] at clear
  obtain ⟨supply, left, rest, _⟩ := initMapper_pool pool enough'
    (clear.subset enough' limit ascending)
  have forest := booting.forest
  rw [← place.page_mem store] at forest
  have counted := @Mapper.missing_of_supply _ _ _ _ _ _ initMapper _ _ _ () _ _ _ _ _ _
    forest rfl rfl tables supply
  obtain ⟨mem', mapped, becomes, confined, links⟩ := @Mapper.mapDirect_becomes _ _ _ _ _ _ _
    initMapper (fun _ : Unit => base) _ (place.page store).2 () place.va _ _ forest
    (place.pgprop ||| (place.page store).1) count counted supply
  cases Option.some.inj (ran.symm.trans mapped)
  rw [place.page_mem store] at becomes confined
  refine ⟨_, ?_, ascending, last ▸ Nat.le_add_right _ _, rest, becomes.shrink ?_,
    confined, links⟩
  · intro page
    have nextAligned : (place.page store).2.next.toNat % 0x1000 = 0 := pool.aligned
    have aligned {taken : BitVec 64}
        (member : taken ∈ initMapper.pages count (place.page store).2.next) :
        taken.toNat % 0x1000 = 0 ∧ (place.page store).2.next.toNat ≤ taken.toNat ∧
          taken.toNat < (place.page store).2.next.toNat + 0x1000 * count := by
      rw [initMapper_pages] at member
      exact @Pool.mem_pages .aarch64 _ _ _ _ pool enough' member
    constructor
    · intro member
      obtain ⟨whole, above, within⟩ := aligned member
      exact ⟨whole, above, by omega⟩
    · rintro ⟨whole, above, under⟩
      have within : page.toNat < (place.page store).2.next.toNat + 0x1000 * count := by
        omega
      obtain ⟨taken, member, lower, upper⟩ := exists_page
        (lt_of_le_of_lt (le_trans enough' limit) (by decide)) above within
      have place := (aligned member).1
      have same : page = taken := BitVec.eq_of_toNat_eq (by omega)
      exact same ▸ member
  · rintro addr ⟨⟨lower, upper⟩, zero⟩
    have beyond : (place.page store).2.next.toNat + 0x1000 * count ≤ addr.toNat :=
      last ▸ lower
    have above : store.next.toNat ≤ addr.toNat := by omega
    refine left ⟨⟨⟨above, upper⟩, zero⟩, ?_⟩
    rintro ⟨_, inside⟩
    have taken : addr.toNat < (place.page store).2.next.toNat + 0x1000 * count := inside
    omega

theorem root_taken (booting : Booting base stop ram placed store) :
    Taken base store.next base :=
  @tables _ _ _ _ _ booting 0 0 base (Nat.zero_le _) rfl

/-- The page that a placement gets when it is mapped. -/
theorem page_cases (booting : Booting base stop ram placed store) (fits : place.Fits) :
    Within (place.page store).1 12 48 ∧
      (place.pa? = some (place.page store).1 ∨
        place.pa? = none ∧ (place.page store).1 = store.next ∧
          store.next.toNat + 0x1000 ≤ (place.page store).2.next.toNat) := by
  have limit : stop ≤ 2 ^ 36 := booting.pool.limit
  have room := booting.room
  have aligned : store.next.toNat % 0x1000 = 0 := booting.pool.aligned
  cases asked : place.pa? with
  | some pa =>
      have same : (place.page store).1 = pa := by
        unfold Placement.page
        rw [asked]
      rw [same]
      exact ⟨fits.pa asked, .inl rfl⟩
  | none =>
      have same : place.page store = (store.next, ⟨store.mem, store.next + 0x1000⟩) := by
        unfold Placement.page
        rw [asked]
      rw [same]
      have small : store.next.toNat < 2 ^ 48 :=
        lt_of_le_of_lt (le_trans room limit) (by decide)
      refine ⟨within_of_toNat aligned small, .inr ⟨rfl, rfl, ?_⟩⟩
      exact le_of_eq (toNat_bump (by omega)).symm

theorem owned (booting : Booting base stop ram placed store) (member : place ∈ placed)
    (asked : place.pa? = none) {found : Leaf 64}
    (translated : initMapper.translate store.mem base place.va = some found) :
    Taken base store.next found.pa ∧
      ∀ {va level table}, level ≤ 3 →
        initMapper.tableAt store.mem base va level = some table → table ≠ found.pa := by
  obtain ⟨page, attr, same, backs⟩ := booting.mapped member
  cases translated.symm.trans same
  rcases backs with given | ⟨_, taken, apart⟩
  · rw [asked] at given
    cases given
  · exact ⟨taken, apart⟩

/-- A page that is mapped for the first time leaves the pages before as they were. -/
theorem map (booting : Booting base stop ram placed store) (fits : place.Fits)
    (new : ∀ other ∈ placed, ¬initMapper.SamePage place.va other.va)
    (ran : place.run base store = some later) (below : later.next.toNat ≤ stop)
    (clear : ClearPages ram (place.tables base store)) :
    Booting base stop ram (place :: placed) later := by
  obtain ⟨pages, inside, ascending, advance, pool, becomes, confined, _⟩ :=
    booting.run_becomes ran below clear
  obtain ⟨isPage, own⟩ := booting.page_cases fits
  obtain ⟨attr, entry⟩ := Placement.leaf_or fits.type fits.noAddress isPage
  have advances : store.next.toNat ≤ later.next.toNat := le_trans ascending advance
  have rootTaken := booting.root_taken
  have newTable (page : BitVec 64) (member : page ∈ pages) : Taken base later.next page := by
    obtain ⟨aligned, above, under⟩ := (inside page).mp member
    have lower := rootTaken.below
    exact ⟨aligned, by omega, under⟩
  have here : initMapper.translate later.mem base place.va =
      some ⟨(place.page store).1, attr⟩ :=
    (becomes.translated place.va).trans
      ((initMapper.set_of_samePage (initMapper.samePage_refl _) _ _).trans entry)
  have kept (other : Placement) (member : other ∈ placed) :
      initMapper.translate later.mem base other.va =
        initMapper.translate store.mem base other.va :=
    (becomes.translated other.va).trans
      (initMapper.set_of_not_samePage (fun same => new other member same.symm) _ _)
  refine
    { forest := becomes.forest
      pool := pool
      room := below
      tables := ?_
      frame := ?_
      mapped := ?_
      distinct := ?_
      unmapped := ?_ }
  · intro va level table shallow there
    rcases confined.tables shallow there with old | page
    · exact (booting.tables shallow old).mono advances
    · exact newTable table page
  · intro addr outside
    have beside : addr ∉ initMapper.Entries store.mem base := by
      intro entry
      have within := booting.entry_inside entry
      omega
    refine (confined.frame beside ?_).trans (booting.frame (by omega))
    intro page member slot
    have taken := newTable page member
    have within := @pageSlots_page .aarch64 page (taken.within pool below) addr slot
    have lower : page.toNat ≤ addr.toNat := within.1
    have upper : addr.toNat < page.toNat + 0x1000 := within.2
    have above := taken.above
    have under := taken.below
    omega
  · intro other member
    rcases List.mem_cons.mp member with rfl | old
    · refine ⟨_, attr, here, ?_⟩
      rcases own with given | ⟨asked, same, first⟩
      · exact .inl given
      · have aligned : store.next.toNat % 0x1000 = 0 := booting.pool.aligned
        have lower := rootTaken.below
        rw [same]
        refine .inr ⟨asked, ⟨aligned, by omega, by omega⟩, ?_⟩
        rintro va level table shallow there rfl
        rcases confined.tables shallow there with old | page
        · have under := (booting.tables shallow old).below
          omega
        · have above := ((inside _).mp page).2.1
          omega
    · obtain ⟨page, attr', found, backs⟩ := booting.mapped old
      refine ⟨page, attr', (kept other old).trans found, ?_⟩
      rcases backs with given | ⟨asked, taken, apart⟩
      · exact .inl given
      · refine .inr ⟨asked, taken.mono advances, ?_⟩
        rintro va level table shallow there rfl
        rcases confined.tables shallow there with before | listed
        · exact apart shallow before rfl
        · have under := taken.below
          have above := ((inside _).mp listed).2.1
          omega
  · intro other other' found found' member member' asked asked' translated translated' same
    have fresh {old : Placement} {leaf : Leaf 64} (listed : old ∈ placed)
        (asks : old.pa? = none) (hit : initMapper.translate later.mem base old.va = some leaf)
        (asked : place.pa? = none) : leaf.pa ≠ (place.page store).1 := by
      intro same
      rw [kept old listed] at hit
      have under := (booting.owned listed asks hit).1.below
      rcases own with given | ⟨_, first, _⟩
      · rw [asked] at given
        cases given
      · rw [same, first] at under
        omega
    rcases List.mem_cons.mp member with rfl | old
    · rcases List.mem_cons.mp member' with rfl | old'
      · rfl
      · cases translated.symm.trans here
        exact absurd same.symm (fresh old' asked' translated' asked)
    · rcases List.mem_cons.mp member' with rfl | old'
      · cases translated'.symm.trans here
        exact absurd same (fresh old asked translated asked')
      · rw [kept other old] at translated
        rw [kept other' old'] at translated'
        exact booting.distinct old old' asked asked' translated translated' same
  · intro va apart
    refine (becomes.translated va).trans ?_
    rw [initMapper.set_of_not_samePage (apart place (List.mem_cons_self ..))]
    exact booting.unmapped fun other member => apart other (List.mem_cons_of_mem _ member)

/-- While the mapped pages are given, the pool serves for tables only. -/
theorem onlyTables {bound : Nat} (booting : Booting base stop ram placed store)
    (only : OnlyTables base bound store)
    (given : place.pa?.isSome) (low : place.va.toNat < bound)
    (ran : place.run base store = some later) (below : later.next.toNat ≤ stop)
    (clear : ClearPages ram (place.tables base store)) : OnlyTables base bound later := by
  obtain ⟨pages, inside, _, _, _, becomes, _, links⟩ := booting.run_becomes ran below clear
  obtain ⟨pa, asked⟩ := Option.isSome_iff_exists.mp given
  have same : (place.page store).2.next = store.next := by
    unfold Placement.page
    rw [asked]
  have aligned : store.next.toNat % 0x1000 = 0 := booting.pool.aligned
  intro page taken different
  have whole := taken.aligned
  by_cases before : page.toNat + 0x1000 ≤ store.next.toNat
  · obtain ⟨va, small, level, above, shallow, there⟩ :=
      only page ⟨whole, taken.above, before⟩ different
    exact ⟨va, small, level, above, shallow,
      @Mapper.Becomes.keeps _ _ _ _ _ _ _ _ _ _ _ _ _ becomes () _ _ _ shallow there⟩
  · have fresh : page ∈ pages := (inside page).mpr ⟨whole, by rw [same]; omega, taken.below⟩
    obtain ⟨level, above, shallow, there⟩ := links page fresh
    exact ⟨place.va, low, level, above, shallow, there⟩

/-- A sequence of pages that are mapped for the first time. -/
theorem mapAll {places : List Placement} {last : Store (BitVec 64) (BitVec 64)}
    (booting : Booting base stop ram placed store) (fits : ∀ place ∈ places, place.Fits)
    (new : ∀ place ∈ places, ∀ other ∈ placed, ¬initMapper.SamePage place.va other.va)
    (apart : places.Pairwise fun earlier later => ¬initMapper.SamePage later.va earlier.va)
    (ran : Placement.runAll base places store = some last) (below : last.next.toNat ≤ stop)
    (room : store.next.toNat + 0x4000 * places.length < 2 ^ 64)
    (clear : ClearPages ram (Placement.tablesAll base places store)) :
    Booting base stop ram (places.reverseAux placed) last ∧
      initMapper.Keeps (fun _ : Unit => base) store.mem last.mem ∧
      ∀ bound, (∀ place ∈ places, place.pa?.isSome ∧ place.va.toNat < bound) →
        OnlyTables base bound store → OnlyTables base bound last := by
  induction places generalizing placed store with
  | nil =>
      cases ran
      exact ⟨booting, fun _ _ _ _ _ there => there, fun _ _ only => only⟩
  | cons place places induction =>
      obtain ⟨later, first, rest⟩ := Option.bind_eq_some_iff.mp ran
      rw [List.length_cons] at room
      have few : store.next.toNat + 0x4000 < 2 ^ 64 := by lia
      obtain ⟨_, atMost⟩ := Placement.run_next first few
      have left : later.next.toNat + 0x4000 * places.length < 2 ^ 64 := by lia
      have advance := (Placement.runAll_next rest left).1
      rw [Placement.tablesAll, first] at clear
      obtain ⟨firstApart, restApart⟩ := List.pairwise_cons.mp apart
      have firstClear : ClearPages ram (place.tables base store) :=
        fun page member => clear page (List.mem_append_left _ member)
      have mapped := booting.map (fits place (List.mem_cons_self ..))
        (new place (List.mem_cons_self ..)) first (le_trans advance below) firstClear
      have restNew : ∀ other ∈ places, ∀ earlier ∈ place :: placed,
          ¬initMapper.SamePage other.va earlier.va := by
        intro other member earlier listed
        rcases List.mem_cons.mp listed with rfl | before
        · exact firstApart other member
        · exact new other (List.mem_cons_of_mem _ member) earlier before
      obtain ⟨ends, keeps, tables⟩ := induction mapped
        (fun other member => fits other (List.mem_cons_of_mem _ member)) restNew restApart
        rest left fun page member => clear page (List.mem_append_right _ member)
      obtain ⟨_, _, _, _, _, becomes, _⟩ :=
        booting.run_becomes first (le_trans advance below) firstClear
      refine ⟨ends, ?_, ?_⟩
      · intro _ va level table inside there
        exact keeps () va level table inside
          (@Mapper.Becomes.keeps _ _ _ _ _ _ _ _ _ _ _ _ _ becomes () _ _ _ inside there)
      · intro bound given only
        obtain ⟨asked, low⟩ := given place (List.mem_cons_self ..)
        exact tables bound (fun other member => given other (List.mem_cons_of_mem _ member))
          (booting.onlyTables only asked low first (le_trans advance below) firstClear)

/-- An empty root table in front of the pool. -/
theorem start (aligned : base.toNat % 0x1000 = 0) (limit : stop ≤ 2 ^ 36)
    (room : base.toNat + 0x1000 ≤ stop)
    (clear : ClearPages ram [base]) :
    Booting base stop ram [] ⟨ram, base + 0x1000⟩ := by
  have isPage : Within base 12 36 := within_of_toNat aligned (by omega)
  have inPage (va : BitVec 64) : base.toNat ≤ (initMapper.entryOf 0 base va).toNat ∧
      (initMapper.entryOf 0 base va).toNat < base.toNat + 0x1000 := by
    obtain ⟨place, offset⟩ := slot_toNat isPage 0 va
    change base.toNat ≤ (slot 0 base (index 0 va)).toNat ∧
      (slot 0 base (index 0 va)).toNat < _
    omega
  have empty (va : BitVec 64) : ram (initMapper.entryOf 0 base va) = initMapper.zero :=
    clear base (List.mem_singleton.mpr rfl) _ (inPage va).1 (inPage va).2
  have next : (base + 0x1000).toNat = base.toNat + 0x1000 := toNat_bump (by omega)
  have twin := Mapper.twin_of_clear (isPage.mono (le_refl _) (by decide))
    fun va => ⟨empty va, empty va⟩
  have only {va table : BitVec 64} {level : Nat}
      (there : initMapper.tableAt ram base va level = some table) :
      level = 0 ∧ table = base := Mapper.tableAt_of_clear empty there
  refine
    { forest := twin.forest.shrink ?_
      pool := ⟨?_, limit⟩
      room := ?_
      tables := ?_
      frame := fun _ => rfl
      mapped := nofun
      distinct := nofun
      unmapped := ?_ }
  · rintro addr ⟨⟨lower, upper⟩, zero⟩
    refine ⟨zero, zero, ?_⟩
    rintro va rfl
    have above : (base + 0x1000).toNat ≤ (initMapper.entryOf 0 base va).toNat := lower
    have within := inPage va
    omega
  · change (base + 0x1000).toNat % 0x1000 = 0
    omega
  · change (base + 0x1000).toNat ≤ stop
    omega
  · intro va level table _ there
    obtain ⟨rfl, rfl⟩ := only there
    exact ⟨aligned, le_refl _, le_of_eq next.symm⟩
  · intro va _
    cases there : initMapper.tableAt ram base va 3 with
    | none =>
        change (initMapper.tableAt ram base va 3).bind _ = none
        rw [there]
        rfl
    | some table => cases (only there).1

end Booting

end TzTest.Aarch64
