import TzTest.InitUtil.CopyOut

/-!
# What an image finds after its start

The sections of the image are in pages of the pool that nothing else uses, the
pages that stay at their physical addresses are there, and nothing else is mapped.
-/

namespace TzTest.Aarch64

open Radix BitField

/-- The first address with the same way down to a level. -/
def firstKey (level : Nat) (va : BitVec 64) : BitVec 64 :=
  BitVec.ofNat 64 (va.toNat / 2 ^ (48 - level * 9) * 2 ^ (48 - level * 9))

theorem firstKey_toNat (level : Nat) (va : BitVec 64) :
    (firstKey level va).toNat = va.toNat / 2 ^ (48 - level * 9) * 2 ^ (48 - level * 9) := by
  have small := Nat.lt_of_le_of_lt (Nat.div_mul_le_self va.toNat (2 ^ (48 - level * 9))) va.isLt
  rw [firstKey, BitVec.toNat_ofNat, Nat.mod_eq_of_lt small]

theorem firstKey_agree {level : Nat} (va : BitVec 64) (inside : level ≤ 3) :
    initMapper.Agree level (firstKey level va) va := by
  intro lower below
  apply BitVec.eq_of_toNat_eq
  change (index lower (firstKey level va)).toNat = (index lower va).toNat
  have powers : 2 ^ (39 - lower * 9) =
      2 ^ (48 - level * 9) * 2 ^ ((level - 1 - lower) * 9) := by
    rw [← Nat.pow_add]
    congr 1
    omega
  rw [index_toNat, index_toNat, firstKey_toNat, powers, ← Nat.div_div_eq_div_mul,
    ← Nat.div_div_eq_div_mul, Nat.mul_div_cancel _ (Nat.two_pow_pos _)]

theorem entryOf_firstKey {level : Nat} (table va : BitVec 64) (inside : level ≤ 3) :
    initMapper.entryOf level table (firstKey level va) = table := by
  have zero : index level (firstKey level va) = 0 := by
    apply BitVec.eq_of_toNat_eq
    have powers : 2 ^ (48 - level * 9) = 2 ^ (39 - level * 9) * 512 := by
      have place : 48 - level * 9 = 39 - level * 9 + 9 := by omega
      rw [place, Nat.pow_add]
    rw [index_toNat, firstKey_toNat]
    change va.toNat / 2 ^ (48 - level * 9) * 2 ^ (48 - level * 9) / 2 ^ (39 - level * 9) %
      512 = 0
    generalize va.toNat / 2 ^ (48 - level * 9) = number
    rw [powers, ← Nat.mul_assoc, Nat.mul_right_comm,
      Nat.mul_div_cancel _ (Nat.two_pow_pos _), Nat.mul_mod_left]
  change table ||| (index level (firstKey level va) <<< 3) = table
  rw [zero]
  exact BitVec.or_zero

/-- A page is one table only. -/
theorem table_place {base : BitVec 64} {mem : BitVec 64 → BitVec 64}
    {free : Set (BitVec 64)} {va va' table : BitVec 64} {level level' : Nat}
    (forest : Forest initMapper.toFormat (fun _ : Unit => base) mem free)
    (inside : level ≤ 3) (inside' : level' ≤ 3)
    (there : initMapper.tableAt mem base va level = some table)
    (there' : initMapper.tableAt mem base va' level' = some table) :
    level = level' ∧ initMapper.Agree level va va' := by
  have agree := firstKey_agree va inside
  have agree' := firstKey_agree va' inside'
  have entries : initMapper.entryOf level table (firstKey level va) =
      initMapper.entryOf level' table (firstKey level' va') :=
    (entryOf_firstKey table va inside).trans (entryOf_firstKey table va' inside').symm
  obtain ⟨_, rfl, same⟩ := @Forest.separated _ _ _ _ _ _ _ _ _ _ forest () () _ _ _ _ _ _
    inside inside' ((agree.tableAt mem base).trans there)
    ((agree'.tableAt mem base).trans there') entries
  exact ⟨rfl, agree.symm.trans ((same.mono (Nat.le_succ level)).trans agree')⟩

/-- A section, and where it lies in flash. -/
structure FlashSection where
  dest : BitVec 64
  src : BitVec 64
  size : BitVec 64

/-- The address space of an image: the pages that are unmapped again, its own pages,
and those at their physical addresses. -/
structure ImageLayout where
  base : BitVec 64
  stop : Nat
  sections : List FlashSection
  moved : List Span
  own : List Span
  direct : List Span

namespace Booted

variable (booted : Booted)

/-- A byte as the image sees it. -/
def byte? (va : BitVec 64) : Option (BitVec 8) :=
  (access booted.ttbr0 booted.mem va).map (byteAt booted.mem)

def tableAt (va : BitVec 64) (level : Nat) : Option (BitVec 64) :=
  mapper.tableAt booted.mem booted.ttbr0 va level

end Booted

namespace ImageLayout

variable (layout : ImageLayout)

def spans : List Span :=
  layout.moved ++ (layout.own ++ layout.direct)

/-- Whole pages that do not overlap, and sections of a length that `memcpy` copies. -/
structure Sound : Prop where
  fits : ∀ span ∈ layout.spans, span.Fits
  apart : layout.spans.Pairwise Span.Apart
  short : ∀ part ∈ layout.sections, part.size.toNat < 2 ^ 48

end ImageLayout

/-- The stack of the start-up code grows down from `RAM_BASE + 0x2000`, where it counts
its pages. Here they are registers. -/
def StartUpWord (addr : BitVec 64) : Prop :=
  ramBase.toNat + 0x1F80 ≤ addr.toNat ∧ addr.toNat < ramBase.toNat + 0x2008

theorem not_startUpWord {addr : BitVec 64} (above : ramBase.toNat + 0x2008 ≤ addr.toNat) :
    ¬StartUpWord addr := fun word => Nat.not_lt_of_le above word.2

namespace ImageLayout

variable (layout : ImageLayout)

/-- The state in which the main code of the image finds itself. -/
structure Relocated (flash : BitVec 64 → BitVec 64) (booted : Booted) : Prop where
  sections {part : FlashSection} {offset : Nat} : part ∈ layout.sections →
    offset < part.size.toNat →
    booted.byte? (part.dest + BitVec.ofNat 64 offset) =
      some (byteAt flash (part.src + BitVec.ofNat 64 offset))
  /-- The flash that was copied is out of reach. -/
  moved {span : Span} {va : BitVec 64} : span ∈ layout.moved → span.Covers va →
    access booted.ttbr0 booted.mem va = none
  direct {span : Span} {va : BitVec 64} : span ∈ layout.direct → span.Covers va →
    access booted.ttbr0 booted.mem va = some va
  /-- The image has its own pages, below the next one of the pool. -/
  own {span : Span} {va : BitVec 64} : span ∈ layout.own → span.Covers va →
    ∃ found, hwWalk booted.mem booted.ttbr0 va = some found ∧
      Taken layout.base booted.x17 found.pa ∧
      ∀ key level, level ≤ 3 → booted.tableAt key level ≠ some found.pa
  ownDistinct {span span' : Span} {va va' : BitVec 64} {found found' : Leaf 64} :
    span ∈ layout.own → span' ∈ layout.own → span.Covers va → span'.Covers va' →
    hwWalk booted.mem booted.ttbr0 va = some found →
    hwWalk booted.mem booted.ttbr0 va' = some found' → found.pa = found'.pa →
    va.toNat / 0x1000 = va'.toNat / 0x1000
  tables {va table : BitVec 64} {level : Nat} : level ≤ 3 →
    booted.tableAt va level = some table → Taken layout.base booted.x17 table
  tablesDistinct {va va' table : BitVec 64} {level level' : Nat} :
    level ≤ 3 → level' ≤ 3 → booted.tableAt va level = some table →
    booted.tableAt va' level' = some table → level = level' ∧ mapper.Agree level va va'
  nothingElse {va : BitVec 64} : va.toNat < 2 ^ 48 →
    (∀ span ∈ layout.spans, ¬span.Covers va) →
    access booted.ttbr0 booted.mem va = none
  root : booted.ttbr0 = layout.base
  /-- The runtime routines read the links as the hardware does. -/
  links {va table : BitVec 64} {level : Nat} : level < 3 →
    booted.tableAt va level = some table →
    Good (booted.mem (mapper.entryOf level table va))
  next : booted.x17.toNat % 0x1000 = 0 ∧ booted.x17.toNat ≤ layout.stop
  /-- Nothing beside the pages that were taken was written. -/
  frame {addr : BitVec 64} :
    addr.toNat < layout.base.toNat ∧ ¬StartUpWord addr ∨ booted.x17.toNat ≤ addr.toNat →
    booted.mem addr = flash addr

/-- The calls of the start-up code map the pages of the layout. -/
structure Matches (layout : ImageLayout) (calls first : List MapCall) : Prop where
  parts : ∃ rest, calls = first ++ rest
  spans : layout.spans.Perm (calls.map MapCall.span)
  own : ∀ span ∈ layout.own, ∃ call ∈ calls, call.span = span ∧ ∀ va, call.pa? va = none
  direct : ∀ span ∈ layout.direct, ∃ call ∈ calls, call.span = span ∧
    ∀ va, (call.pa? va).isSome
  sections : ∀ part ∈ layout.sections, ∃ call flash,
    Section calls first call flash part.size ∧ call.span ∈ layout.own ∧
      call.span.base = part.dest ∧ flash.span.base = part.src

/-- Where the tables may lie. -/
structure Placed : Prop where
  aligned : layout.base.toNat % 0x1000 = 0
  room : layout.base.toNat + 0x1000 ≤ layout.stop
  limit : layout.stop ≤ 2 ^ 36

/-- What the mapping calls need of the memory. -/
structure Starts (calls : List MapCall) (s : InitUtil) : Prop where
  /-- The RAM of the image is clear. -/
  clear {addr : BitVec 64} : layout.base.toNat ≤ addr.toNat → addr.toNat < layout.stop →
    s.mem addr = 0
  /-- The pool stays below the RAM of the next image. -/
  room {built : InitUtil} :
    MapCall.runAll layout.base calls { s with nextPa := layout.base + 0x1000 } =
      some built → built.nextPa.toNat ≤ layout.stop

/-- The next page of the pool after the mapping calls. -/
def poolAfter (calls : List MapCall) (s : InitUtil) : Option (BitVec 64) :=
  (MapCall.runAll layout.base calls { s with nextPa := layout.base + 0x1000 }).map
    InitUtil.nextPa

/-- The memory when the sections are in place. -/
structure Copied (layout : ImageLayout) (flash before mem : BitVec 64 → BitVec 64) : Prop where
  moving : ∃ gone, Moving layout.base before gone mem ∧
    ∀ page, page ∈ gone ↔ ∃ span ∈ layout.moved, ∃ number < span.pages,
      page = span.page number
  words : ∀ part ∈ layout.sections,
    ∀ word < @TzTest.InitUtil.copyWords .aarch64 part.size,
      mem (placeOf layout.base before (part.dest + BitVec.ofNat 64 (8 * word))) =
        flash (part.src + BitVec.ofNat 64 (8 * word))
  /-- Only entries of the tables and the image's own pages were written. -/
  frame {addr : BitVec 64} : addr ∉ initMapper.Entries before layout.base →
    (∀ span ∈ layout.own, ∀ va, span.Covers va →
      addr ≠ placeOf layout.base before va) →
    mem addr = before addr

section Sound

variable {layout} {calls first : List MapCall}

theorem Sound.callsApart (sound : layout.Sound) (fit : layout.Matches calls first) :
    calls.Pairwise fun earlier later => earlier.span.Apart later.span := by
  apply List.pairwise_map.mp
  apply (fit.spans.pairwise_iff _).mp sound.apart
  intro left right apart va covers covers'
  exact apart va covers' covers

theorem Sound.callFits (sound : layout.Sound) (fit : layout.Matches calls first)
    {call : MapCall} (member : call ∈ calls) : call.span.Fits :=
  sound.fits _ (fit.spans.mem_iff.mpr (List.mem_map_of_mem member))

theorem Sound.rowsApart (sound : layout.Sound) (fit : layout.Matches calls first)
    {left right : MapCall} {i j : Nat} (less : i < j) (one : calls[i]? = some left)
    (other : calls[j]? = some right) : left.span.Apart right.span := by
  obtain ⟨inside, rfl⟩ := List.getElem?_eq_some_iff.mp one
  obtain ⟨inside', rfl⟩ := List.getElem?_eq_some_iff.mp other
  exact List.pairwise_iff_getElem.mp (sound.callsApart fit) i j inside inside' less

theorem Sound.placesApart (sound : layout.Sound) (fit : layout.Matches calls first)
    {ram : BitVec 64 → BitVec 64} {store : Store (BitVec 64) (BitVec 64)}
    (built : Built layout.base layout.stop ram calls store) {call other : MapCall} {i j : Nat}
    {va : BitVec 64} (less : i < j) (one : calls[i]? = some call)
    (two : calls[j]? = some other) (fresh : ∀ va, call.pa? va = none)
    (fresh' : ∀ va, other.pa? va = none) (covers : call.span.Covers va) :
    ∀ va', other.span.Covers va' →
      placeOf layout.base store.mem va ≠ placeOf layout.base store.mem va' := by
  intro va' covers' same
  have equal := built.place_inj (List.mem_of_getElem? one) (List.mem_of_getElem? two)
    fresh fresh' covers covers' same
  exact sound.rowsApart fit less one two va covers (equal ▸ covers')

theorem Sound.built (sound : layout.Sound) (fit : layout.Matches calls first)
    (placed : layout.Placed) (proper : ∀ call ∈ calls, call.Proper)
    (few : calls.length ≤ 2 ^ 10) {s : InitUtil} (starts : layout.Starts calls s) :
    ∃ built,
      MapCall.runAll layout.base calls { s with nextPa := layout.base + 0x1000 } =
        some built ∧
      Built layout.base layout.stop s.mem calls built.store := by
  obtain ⟨aligned, room, limit⟩ := placed
  have isTable : Within layout.base 12 64 := within_of_toNat aligned layout.base.isLt
  obtain ⟨store, ran⟩ := Placement.runAll_ends layout.base
    (calls.flatMap MapCall.placements) ⟨s.mem, layout.base + 0x1000⟩
  have mapped := MapCall.runAll_eq isTable calls { s with nextPa := layout.base + 0x1000 }
  obtain ⟨built, builds, same⟩ := Option.map_eq_some_iff.mp (mapped.trans ran)
  have below : store.next.toNat ≤ layout.stop := by
    rw [← same]
    exact starts.room builds
  have next : (layout.base + 0x1000).toNat = layout.base.toNat + 0x1000 :=
    toNat_bump (by omega)
  have pages := MapCall.pages_le calls fun call => sound.callFits fit
  refine ⟨built, builds, ?_⟩
  rw [same]
  refine
    { aligned := aligned
      limit := limit
      room := room
      proper := proper
      apart := sound.callsApart fit
      few := few
      ran := ran
      below := below
      rootTable := ?_
      clear := ?_ }
  · intro page member addr above under
    cases List.mem_singleton.mp member
    exact starts.clear above (by omega)
  · intro page member addr above under
    obtain ⟨lower, upper⟩ := Placement.tablesAll_inside ran (by
      change (layout.base + 0x1000).toNat + _ < _
      omega) member
    change (layout.base + 0x1000).toNat ≤ page.toNat at lower
    exact starts.clear (by omega) (by omega)

/-- Images with few pages fit. -/
theorem Placed.room_of_pages (placed : layout.Placed) {s built : InitUtil}
    (few : layout.base.toNat + 0x1000 +
      0x4000 * (calls.flatMap MapCall.placements).length ≤ layout.stop)
    (builds : MapCall.runAll layout.base calls { s with nextPa := layout.base + 0x1000 } =
      some built) : built.nextPa.toNat ≤ layout.stop := by
  obtain ⟨aligned, room, limit⟩ := placed
  have isTable : Within layout.base 12 64 := within_of_toNat aligned layout.base.isLt
  have ran := MapCall.runAll_eq isTable calls { s with nextPa := layout.base + 0x1000 }
  have next : (layout.base + 0x1000).toNat = layout.base.toNat + 0x1000 :=
    toNat_bump (by omega)
  obtain ⟨_, reached⟩ := Placement.runAll_next
    (ran.symm.trans (congrArg (Option.map InitUtil.store) builds)) (by
      change (layout.base + 0x1000).toNat + _ < _
      omega)
  change built.nextPa.toNat ≤ (layout.base + 0x1000).toNat + _ at reached
  omega

/-- In memories with the same tree and the same clear pool, the calls take the same
pages. -/
theorem Placement.runAll_next_same {base : BitVec 64} {stop : Nat}
    {free : Set (BitVec 64)} {left right last : Store (BitVec 64) (BitVec 64)}
    (places : List Placement)
    (alike : initMapper.Alike (fun _ : Unit => base) free left right)
    (pool : @Pool .aarch64 left.next stop)
    (inFree : @range .aarch64 left.next.toNat stop ⊆ free)
    (room : left.next.toNat + 0x4000 * places.length < 2 ^ 64)
    (ran : Placement.runAll base places left = some last)
    (below : last.next.toNat ≤ stop) :
    ∃ other, Placement.runAll base places right = some other ∧ other.next = last.next := by
  induction places generalizing left right free with
  | nil =>
      cases ran
      exact ⟨right, rfl, alike.next⟩
  | cons place places induction =>
      obtain ⟨later, first, rest⟩ := Option.bind_eq_some_iff.mp ran
      rw [List.length_cons] at room
      obtain ⟨above, most⟩ := Placement.run_next first (by lia)
      obtain ⟨above', _⟩ := Placement.runAll_next rest (by lia)
      obtain ⟨count, mem, same, tables, few⟩ := place.run_pages base left
      obtain ⟨own, atMost, next⟩ := place.page_next left
      cases Option.some.inj (first.symm.trans same)
      have start : (place.page left).2.next.toNat = left.next.toNat + 0x1000 * own := by
        rw [next]
        exact bump_iterate (by lia)
      have total : (initMapper.bump^[count] (place.page left).2.next).toNat =
          (place.page left).2.next.toNat + 0x1000 * count := bump_iterate (by lia)
      change (initMapper.bump^[count] (place.page left).2.next).toNat ≤ _ at above'
      have ownRoom : left.next.toNat + 0x1000 * own ≤ stop := by omega
      have tableRoom : (place.page left).2.next.toNat + 0x1000 * count ≤ stop := by omega
      have pool' : @Pool .aarch64 (place.page left).2.next stop := by
        rw [next]
        exact (@Pool.iterate .aarch64 _ _ _ pool ownRoom).1
      have pages : @range .aarch64 (place.page left).2.next.toNat
          ((place.page left).2.next.toNat + 0x1000 * count) ⊆ free := by
        intro addr inside
        have lower : (place.page left).2.next.toNat ≤ BitVec.toNat addr := inside.1
        have lower' : left.next.toNat ≤ BitVec.toNat addr := by omega
        exact inFree ⟨lower', lt_of_lt_of_le inside.2 tableRoom⟩
      obtain ⟨supply, beyond, pool'', _⟩ := initMapper_pool pool' tableRoom pages
      rw [← tables] at supply beyond
      obtain ⟨_, later, leftRan, rightRan, after⟩ := place.run_alike alike supply
      cases Option.some.inj (leftRan.symm.trans same)
      have left' : (initMapper.bump^[count] (place.page left).2.next).toNat +
          0x4000 * places.length < 2 ^ 64 := by omega
      have behind : @range .aarch64
          (initMapper.bump^[count] (place.page left).2.next).toNat stop ⊆
            initMapper.without free (place.tables base left) := by
        intro addr inside
        have lower : (initMapper.bump^[count] (place.page left).2.next).toNat ≤
            BitVec.toNat addr := inside.1
        have lower' : left.next.toNat ≤ BitVec.toNat addr := by omega
        refine beyond ⟨inFree ⟨lower', inside.2⟩, ?_⟩
        rintro ⟨_, under⟩
        change BitVec.toNat addr < (place.page left).2.next.toNat + _ at under
        omega
      obtain ⟨other, rest', equal⟩ := induction after pool'' behind left' rest
      exact ⟨other, Option.bind_eq_some_iff.mpr ⟨_, rightRan, rest'⟩, equal⟩

/-- The pool does not depend on what the rest of the memory holds. -/
theorem Sound.poolAfter_same (sound : layout.Sound) (fit : layout.Matches calls first)
    (placed : layout.Placed) (proper : ∀ call ∈ calls, call.Proper)
    (few : calls.length ≤ 2 ^ 10) {s s' : InitUtil} (starts : layout.Starts calls s)
    (clear : ∀ addr : BitVec 64, layout.base.toNat ≤ addr.toNat →
      addr.toNat < layout.stop → s'.mem addr = 0) :
    layout.poolAfter calls s' = layout.poolAfter calls s := by
  obtain ⟨state, _, built⟩ := sound.built fit placed proper few starts
  obtain ⟨aligned, room, limit⟩ := placed
  have isTable : Within layout.base 12 64 := within_of_toNat aligned layout.base.isLt
  have next : (layout.base + 0x1000).toNat = layout.base.toNat + 0x1000 :=
    toNat_bump (by omega)
  have pages := MapCall.pages_le calls fun call => sound.callFits fit
  have root (key : BitVec 64) : layout.base.toNat ≤
      (initMapper.entryOf 0 layout.base key).toNat ∧
      (initMapper.entryOf 0 layout.base key).toNat < layout.base.toNat + 0x1000 := by
    have page : (initMapper.entryOf 0 layout.base key).toNat / 0x1000 = _ :=
      entryOf_toNat isTable 0 key
    omega
  have empty (key : BitVec 64) : s.mem (initMapper.entryOf 0 layout.base key) = 0 ∧
      s'.mem (initMapper.entryOf 0 layout.base key) = 0 := by
    obtain ⟨lower, upper⟩ := root key
    exact ⟨starts.clear lower (by omega), clear _ lower (by omega)⟩
  have alike : initMapper.Alike (fun _ : Unit => layout.base)
      (initMapper.clearBeside layout.base s.mem s'.mem)
      ⟨s.mem, layout.base + 0x1000⟩ ⟨s'.mem, layout.base + 0x1000⟩ :=
    ⟨rfl, Mapper.twin_of_clear isTable empty⟩
  have pageAligned : (layout.base + 0x1000 : BitVec 64).toNat % 0x1000 = 0 := by omega
  have pool : @Pool .aarch64 (layout.base + 0x1000 : BitVec 64) layout.stop :=
    ⟨pageAligned, limit⟩
  have free : @range .aarch64 (layout.base + 0x1000 : BitVec 64).toNat layout.stop ⊆
      initMapper.clearBeside layout.base s.mem s'.mem := by
    intro (addr : BitVec 64) inside
    have lower : (layout.base + 0x1000).toNat ≤ addr.toNat := inside.1
    have upper : addr.toNat < layout.stop := inside.2
    refine ⟨starts.clear (by omega) upper, clear addr (by omega) upper, ?_⟩
    intro key same
    obtain ⟨_, under⟩ := root key
    rw [same] at lower
    omega
  obtain ⟨other, ran, same⟩ := Placement.runAll_next_same _ alike pool free (by
    change (layout.base + 0x1000).toNat + _ < _
    omega) built.ran built.below
  have next' (s : InitUtil) : layout.poolAfter calls s =
      (Placement.runAll layout.base (calls.flatMap MapCall.placements)
        ⟨s.mem, layout.base + 0x1000⟩).map Store.next := by
    have mapped := MapCall.runAll_eq isTable calls { s with nextPa := layout.base + 0x1000 }
    change _ = Placement.runAll layout.base _ ⟨s.mem, layout.base + 0x1000⟩ at mapped
    rw [poolAfter, ← mapped, Option.map_map]
    rfl
  rw [next', next', built.ran, ran]
  exact congrArg some same

theorem Sound.beside (sound : layout.Sound) {span moved : Span} {va : BitVec 64}
    (member : span ∈ layout.own ++ layout.direct) (covers : span.Covers va)
    (listed : moved ∈ layout.moved) {number : Nat} (inside : number < moved.pages) :
    ¬initMapper.SamePage va (moved.page number) := by
  have fits := sound.fits moved (List.mem_append_left _ listed)
  apply (sound.fits span (List.mem_append_right _ member)).not_samePage covers
    (fits.page_lt inside)
  intro shared
  exact (List.pairwise_append.mp sound.apart).2.2 moved listed span member _
    (fits.covers_page inside) shared

/-- An address of the image itself, from the tables that were built. -/
theorem Sound.found (sound : layout.Sound) (fit : layout.Matches calls first)
    {ram mem : BitVec 64 → BitVec 64} {store : Store (BitVec 64) (BitVec 64)}
    (built : Built layout.base layout.stop ram calls store)
    (copied : layout.Copied ram store.mem mem) {span : Span} {va : BitVec 64}
    (member : span ∈ layout.own) (covers : span.Covers va) :
    ∃ page attr, initMapper.translate store.mem layout.base va = some ⟨page, attr⟩ ∧
      hwWalk mem layout.base va = some ⟨page, attr⟩ ∧
      access layout.base mem va = some (placeOf layout.base store.mem va) ∧
      Taken layout.base store.next page ∧
      ∀ {key level table}, level ≤ 3 →
        initMapper.tableAt store.mem layout.base key level = some table →
        table ≠ page := by
  obtain ⟨⟨gone, moving, members⟩, _⟩ := copied
  obtain ⟨call, listed, rfl, fresh⟩ := fit.own span member
  obtain ⟨page, attr, translated, taken, apart⟩ :=
    built.booting.pooled (built.fits listed) listed fresh covers
  have stays : ∀ page ∈ gone, ¬initMapper.SamePage va page := by
    intro page removed
    obtain ⟨moved, there, number, inside, rfl⟩ := (members page).mp removed
    exact sound.beside (List.mem_append_left _ member) covers there inside
  refine ⟨page, attr, translated, ?_, built.own_access listed fresh covers moving stays,
    taken, apart⟩
  rw [hwWalk_eq ((built.fits listed).covers_lt covers), ← initMapper_translate]
  exact (moving.kept stays).trans translated

/-- With the sections in place the layout is there. -/
theorem Sound.relocated (sound : layout.Sound) (fit : layout.Matches calls first)
    {ram mem : BitVec 64 → BitVec 64} {store : Store (BitVec 64) (BitVec 64)}
    (built : Built layout.base layout.stop ram calls store)
    (copied : layout.Copied ram store.mem mem) :
    layout.Relocated ram ⟨mem, layout.base, store.next⟩ := by
  have found {span : Span} {va : BitVec 64} (member : span ∈ layout.own)
      (covers : span.Covers va) := sound.found fit built copied member covers
  obtain ⟨⟨gone, moving, members⟩, words, frame⟩ := copied
  have booting := built.booting
  have tableAt (va : BitVec 64) (level : Nat) :
      mapper.tableAt mem layout.base va level =
        initMapper.tableAt mem layout.base va level :=
    (Format.tableAt_withGood ..).symm
  obtain ⟨rest, parts⟩ := fit.parts
  refine
    { sections := ?_
      moved := ?_
      direct := ?_
      own := ?_
      ownDistinct := ?_
      tables := ?_
      tablesDistinct := ?_
      nothingElse := ?_
      root := rfl
      links := ?_
      next := ⟨booting.pool.aligned, built.below⟩
      frame := ?_ }
  · intro part offset member inside
    obtain ⟨call, flash, plan, owned, dest, src⟩ := fit.sections part member
    have copied := words part member
    rw [← dest, ← src] at copied ⊢
    obtain ⟨covers, _⟩ := plan.covers (built.fits plan.dest) inside
    have listed : flash ∈ calls := parts ▸ List.mem_append_left _ plan.src
    have byte := built.section_byte listed plan copied inside
    obtain ⟨_, _, _, _, reached, _⟩ := found owned covers
    exact (congrArg (Option.map (byteAt mem)) reached).trans (congrArg some byte)
  · intro span va member covers
    have fits := sound.fits span (List.mem_append_left _ member)
    obtain ⟨number, inside, same, _⟩ := fits.exists_page covers
    exact access_none (moving.removed ((members _).mpr ⟨span, member, number, inside, rfl⟩) same)
  · intro span va member covers
    obtain ⟨call, listed, rfl, given⟩ := fit.direct span member
    have identity := booting.identity (built.proper call listed) listed given covers
    apply (moving.identity identity _).access
    intro page removed
    obtain ⟨moved, there, number, inside, rfl⟩ := (members page).mp removed
    exact sound.beside (List.mem_append_right _ member) covers there inside
  · intro span va member covers
    obtain ⟨page, attr, _, walk, _, taken, apart⟩ := found member covers
    refine ⟨_, walk, taken, ?_⟩
    intro key level inside there
    change mapper.tableAt mem layout.base key level = some page at there
    rw [tableAt, moving.tables inside] at there
    exact apart inside there rfl
  · intro span span' va va' leaf leaf' member member' covers covers' walk walk' same
    obtain ⟨page, attr, translated, walked, _⟩ := found member covers
    obtain ⟨page', attr', translated', walked', _⟩ := found member' covers'
    cases walk.symm.trans walked
    cases walk'.symm.trans walked'
    obtain ⟨call, listed, rfl, fresh⟩ := fit.own span member
    obtain ⟨call', listed', rfl, fresh'⟩ := fit.own span' member'
    exact booting.pooled_distinct (built.fits listed) (built.fits listed') listed listed'
      fresh fresh' covers covers' translated translated' same
  · intro va table level inside there
    change mapper.tableAt mem layout.base va level = some table at there
    rw [tableAt, moving.tables inside] at there
    exact booting.tables inside there
  · intro va va' table level level' inside inside' there there'
    change mapper.tableAt mem layout.base va level = some table at there
    change mapper.tableAt mem layout.base va' level' = some table at there'
    rw [tableAt] at there there'
    exact table_place moving.forest inside inside' there there'
  · intro va small outside
    apply access_none
    have missing : initMapper.translate store.mem layout.base va = none := by
      apply booting.uncovered (fun call => built.fits) small
      intro call member
      exact outside _ (fit.spans.mem_iff.mpr (List.mem_map_of_mem member))
    by_cases removed : ∃ page ∈ gone, initMapper.SamePage va page
    · obtain ⟨page, member, same⟩ := removed
      exact moving.removed member same
    · refine (moving.kept ?_).trans missing
      exact fun page member same => removed ⟨page, member, same⟩
  · intro va table level below there
    change mapper.tableAt mem layout.base va level = some table at there
    rw [tableAt] at there
    have plain : Plain _ := @Forest.good _ _ _ _ _ _ _ _ _ _ moving.forest () _ _ _ below there
    exact plain.good
  · intro addr beside
    have outside : addr.toNat < _ ∨ store.next.toNat ≤ _ := beside.imp And.left id
    refine (frame ?_ ?_).trans (booting.frame outside)
    · intro entry
      have inside := booting.entry_inside entry
      omega
    · rintro span member va covers rfl
      obtain ⟨call, listed, rfl, fresh⟩ := fit.own span member
      obtain ⟨page, _, _, _, place, taken, _⟩ := built.pooled_access listed fresh covers
      have above := taken.above
      have below := taken.below
      omega

end Sound

end ImageLayout

end TzTest.Aarch64
