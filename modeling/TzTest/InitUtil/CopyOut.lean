import TzTest.InitUtil.Moving

/-!
# A section moves out of flash

One section of an image: its words are copied from the flash, which is mapped to
itself, to pages of the pool, and then the flash is unmapped.
-/

namespace TzTest.Aarch64

open Radix BitField

theorem pageCount_eq {len : BitVec 64} (short : len.toNat < 2 ^ 48) :
    pageCount len = (len.toNat + 0xFFF) / 0x1000 := by
  have sum : (len + 0xFFF).toNat = len.toNat + 0xFFF := by
    bv_omega
  have page (addr : BitVec 64) :
      (addr &&& ~~~0xFFF).toNat = addr.toNat / 0x1000 * 0x1000 :=
    @pageBase_toNat .aarch64 addr
  unfold pageCount
  rw [page, sum, Nat.mul_div_cancel _ (by decide : 0 < 0x1000)]

theorem copyWords_le {len : BitVec 64} (short : len.toNat < 2 ^ 48) :
    8 * @TzTest.InitUtil.copyWords .aarch64 len ≤ 0x1000 * pageCount len := by
  have count : @TzTest.InitUtil.copyWords .aarch64 len = (len.toNat + 7) / 8 := rfl
  rw [pageCount_eq short, count]
  omega

namespace Span

variable {span : Span} {va page : BitVec 64}

theorem Fits.word_toNat (fits : span.Fits) {word : Nat}
    (inside : 8 * (word + 1) ≤ 0x1000 * span.pages) :
    (span.base + BitVec.ofNat 64 (8 * word)).toNat = span.base.toNat + 8 * word := by
  have limit := fits.limit
  unfold stop at limit
  rw [BitVec.toNat_add, BitVec.toNat_ofNat]
  lia

theorem Fits.covers_word (fits : span.Fits) {word : Nat}
    (inside : 8 * (word + 1) ≤ 0x1000 * span.pages) :
    span.Covers (span.base + BitVec.ofNat 64 (8 * word)) := by
  have place := fits.word_toNat inside
  unfold Covers stop
  lia

theorem Fits.not_samePage (fits : span.Fits) (covers : span.Covers va)
    (small : page.toNat < 2 ^ 48) (beside : ¬span.Covers page) :
    ¬initMapper.SamePage va page := by
  intro same
  have aligned := fits.aligned
  have limit := fits.limit
  have pages := (samePage_iff_div (lt_of_lt_of_le covers.2 limit) small).mp same
  apply beside
  obtain ⟨above, below⟩ := covers
  unfold Covers stop at *
  omega

end Span

section CopyOut

variable {base : BitVec 64} {stop : Nat} {ram : BitVec 64 → BitVec 64}
variable {calls first rest : List MapCall} {call flash : MapCall}
variable {store : Store (BitVec 64) (BitVec 64)} {va addr size : BitVec 64}

/-- The place of an access, if there is one. -/
def placeOf (base : BitVec 64) (mem : BitVec 64 → BitVec 64) (va : BitVec 64) : BitVec 64 :=
  (access base mem va).getD 0

/-- An address of a row with pages of the pool. -/
theorem Built.pooled_access (built : Built base stop ram calls store) (member : call ∈ calls)
    (fresh : ∀ va, call.pa? va = none) (covers : call.span.Covers va) :
    ∃ page attr, initMapper.translate store.mem base va = some ⟨page, attr⟩ ∧
      access base store.mem va = some (placeOf base store.mem va) ∧
      (placeOf base store.mem va).toNat = page.toNat + va.toNat % 0x1000 ∧
      Taken base store.next page ∧
      placeOf base store.mem va ∉ initMapper.Entries store.mem base := by
  have booting := built.booting
  obtain ⟨page, attr, translated, taken, apart⟩ :=
    booting.pooled (built.fits member) member fresh covers
  have inside := (built.fits member).covers_lt covers
  have found := access_of_translate inside translated
  have place : placeOf base store.mem va = page ||| (va &&& 0xFFF) := by
    unfold placeOf
    rw [found]
    rfl
  have number := @offset_toNat page taken.aligned va
  refine ⟨page, attr, translated, place ▸ found, place ▸ number, taken, ?_⟩
  rw [place]
  rintro ⟨key, level, table, inside, there, same⟩
  have isTable := booting.tables inside there
  have entry := @entry_page table key (isTable.within booting.pool booting.room) level
  rw [← same, number] at entry
  have aligned := taken.aligned
  have aligned' := isTable.aligned
  exact apart inside there (BitVec.eq_of_toNat_eq (by omega))

theorem Built.place_above (built : Built base stop ram calls store) (member : call ∈ calls)
    (fresh : ∀ va, call.pa? va = none) (covers : call.span.Covers va) :
    base.toNat ≤ (placeOf base store.mem va).toNat := by
  obtain ⟨_, _, _, _, place, taken, _⟩ := built.pooled_access member fresh covers
  have above := taken.above
  omega

/-- No two addresses have one place. -/
theorem Built.place_inj (built : Built base stop ram calls store) {call' : MapCall}
    {va' : BitVec 64} (member : call ∈ calls) (member' : call' ∈ calls)
    (fresh : ∀ va, call.pa? va = none) (fresh' : ∀ va, call'.pa? va = none)
    (covers : call.span.Covers va) (covers' : call'.span.Covers va')
    (same : placeOf base store.mem va = placeOf base store.mem va') : va = va' := by
  obtain ⟨page, attr, translated, _, place, taken, _⟩ :=
    built.pooled_access member fresh covers
  obtain ⟨page', attr', translated', _, place', taken', _⟩ :=
    built.pooled_access member' fresh' covers'
  have addresses := congrArg BitVec.toNat same
  have aligned := taken.aligned
  have aligned' := taken'.aligned
  have one : page = page' := BitVec.eq_of_toNat_eq (by omega)
  have pages := built.booting.pooled_distinct (built.fits member) (built.fits member') member
    member' fresh fresh' covers covers' translated translated' one
  exact BitVec.eq_of_toNat_eq (by omega)

theorem Built.own_access (built : Built base stop ram calls store) (member : call ∈ calls)
    (fresh : ∀ va, call.pa? va = none) (covers : call.span.Covers va)
    {gone : List (BitVec 64)} {mem : BitVec 64 → BitVec 64}
    (moving : Moving base store.mem gone mem)
    (stays : ∀ page ∈ gone, ¬initMapper.SamePage va page) :
    access base mem va = some (placeOf base store.mem va) := by
  obtain ⟨page, attr, translated, found, _⟩ := built.pooled_access member fresh covers
  have inside := (built.fits member).covers_lt covers
  rw [← found, access_of_translate inside translated,
    access_of_translate inside ((moving.kept stays).trans translated)]

theorem Built.str_kept (built : Built base stop ram calls store) (member : call ∈ calls)
    (fresh : ∀ va, call.pa? va = none) (covers : call.span.Covers va)
    {gone : List (BitVec 64)} {mem : BitVec 64 → BitVec 64}
    (moving : Moving base store.mem gone mem)
    (stays : ∀ page ∈ gone, ¬initMapper.SamePage va page) (word : BitVec 64) :
    ∃ later, str base va word mem = some later ∧ Moving base store.mem gone later ∧
      later (placeOf base store.mem va) = word ∧
      ∀ addr, addr ≠ placeOf base store.mem va → later addr = mem addr := by
  have reached := built.own_access member fresh covers moving stays
  obtain ⟨_, _, _, _, _, _, outside⟩ := built.pooled_access member fresh covers
  exact ⟨_, Option.map_eq_some_iff.mpr ⟨_, reached, rfl⟩, moving.write outside word,
    Function.update_self .., fun _ other => Function.update_of_ne other ..⟩

theorem Built.home (built : Built base stop ram calls store) (parts : calls = first ++ rest)
    (given : ∀ call ∈ first, ∀ va, (call.pa? va).isSome)
    (low : ∀ call ∈ first, call.span.stop ≤ 61 * 2 ^ 21) (member : flash ∈ first)
    (window : ∀ addr : BitVec 64, base.toNat ≤ addr.toNat →
      addr.toNat < base.toNat + 0x40000 → Identity store.mem base addr)
    (covers : flash.span.Covers va) : Home base store.mem va := by
  intro level table inside there
  have booting := built.booting
  obtain ⟨above, below⟩ := built.lowTables parts given low member covers inside there
  have taken := booting.tables inside there
  have isTable := taken.within booting.pool booting.room
  have entry := @entry_page table va isTable level
  have aligned := taken.aligned
  exact ⟨isTable, above, window _ (by omega) (by omega)⟩

/-- A section: where it goes, and where it lies in flash. -/
structure Section (calls first : List MapCall) (call flash : MapCall) (size : BitVec 64) : Prop where
  dest : call ∈ calls
  fresh : ∀ va, call.pa? va = none
  src : flash ∈ first
  given : ∀ va, (flash.pa? va).isSome
  short : size.toNat < 2 ^ 48
  pages : call.span.pages = pageCount size
  pages' : flash.span.pages = pageCount size

/-- The words are copied as the tables say. -/
theorem Built.copyPlan (built : Built base stop ram calls store)
    (parts : calls = first ++ rest) (part : Section calls first call flash size)
    (low : flash.span.stop ≤ base.toNat) {gone : List (BitVec 64)} (beside : ∀ page ∈ gone, page.toNat < 2 ^ 48 ∧ ¬call.span.Covers page ∧
      ¬flash.span.Covers page) (start : InitUtil) (dest : start.x0 = call.span.base)
    (src : start.x1 = flash.span.base) :
    InitUtil.CopyPlan base start
      (fun word => placeOf base store.mem (call.span.base + BitVec.ofNat 64 (8 * word)))
      (fun word => flash.span.base + BitVec.ofNat 64 (8 * word))
      (@TzTest.InitUtil.copyWords .aarch64 size) (Moving base store.mem gone) := by
  have booting := built.booting
  have fits := built.fits part.dest
  have listed : flash ∈ calls := parts ▸ List.mem_append_left _ part.src
  have fits' := built.fits listed
  have words := copyWords_le part.short
  have lastWord {word : Nat} (inside : word < @TzTest.InitUtil.copyWords .aarch64 size) :
      8 * (word + 1) ≤ 0x1000 * call.span.pages := by
    rw [part.pages]
    omega
  have lastWord' {word : Nat} (inside : word < @TzTest.InitUtil.copyWords .aarch64 size) :
      8 * (word + 1) ≤ 0x1000 * flash.span.pages := by
    rw [part.pages']
    omega
  refine
    { dest := ?_
      src := ?_
      kept := ?_
      distinct := ?_
      apart := ?_ }
  · intro mem word moving inside
    have covers := fits.covers_word (lastWord inside)
    rw [dest]
    exact built.own_access part.dest part.fresh covers moving fun page member =>
      fits.not_samePage covers (beside page member).1 (beside page member).2.1
  · intro mem word moving inside
    have covers := fits'.covers_word (lastWord' inside)
    rw [src]
    apply (moving.identity _ _).access
    · exact booting.identity (built.proper flash listed) listed part.given covers
    · exact fun page member =>
        fits'.not_samePage covers (beside page member).1 (beside page member).2.2
  · intro mem word value moving inside
    have covers := fits.covers_word (lastWord inside)
    obtain ⟨_, _, _, _, _, _, outside⟩ := built.pooled_access part.dest part.fresh covers
    exact moving.write outside value
  · intro word word' inside inside' same
    have one := built.place_inj part.dest part.dest part.fresh part.fresh
      (fits.covers_word (lastWord inside)) (fits.covers_word (lastWord inside')) same
    have number := fits.word_toNat (lastWord inside)
    have number' := fits.word_toNat (lastWord inside')
    have addresses := congrArg BitVec.toNat one
    omega
  · intro word word' inside inside' same
    have covers := fits.covers_word (lastWord inside)
    obtain ⟨page, _, _, _, place, taken, _⟩ :=
      built.pooled_access part.dest part.fresh covers
    have covers' := fits'.covers_word (lastWord' inside')
    have below := lt_of_lt_of_le covers'.2 low
    have above := taken.above
    have addresses := congrArg BitVec.toNat same
    omega

/-- The section is copied, and nothing else has changed. -/
theorem Built.memcpy_ends (built : Built base stop ram calls store)
    (parts : calls = first ++ rest) (part : Section calls first call flash size)
    (low : flash.span.stop ≤ base.toNat) {gone : List (BitVec 64)}
    (beside : ∀ page ∈ gone, page.toNat < 2 ^ 48 ∧ ¬call.span.Covers page ∧
      ¬flash.span.Covers page) {s : InitUtil} (moving : Moving base store.mem gone s.mem) :
    ∃ last,
      ({ s with x0 := call.span.base, x1 := flash.span.base, x2 := size } :
        InitUtil).memcpy base = some last ∧
      Moving base store.mem gone last.mem ∧
      (∀ word < @TzTest.InitUtil.copyWords .aarch64 size,
        last.mem (placeOf base store.mem (call.span.base + BitVec.ofNat 64 (8 * word))) =
          s.mem (flash.span.base + BitVec.ofNat 64 (8 * word))) ∧
      ∀ addr, (∀ va, call.span.Covers va → addr ≠ placeOf base store.mem va) →
        last.mem addr = s.mem addr := by
  have fits := built.fits part.dest
  have words := copyWords_le part.short
  have plan := built.copyPlan parts part low beside
    { s with x0 := call.span.base, x1 := flash.span.base, x2 := size } rfl rfl
  obtain ⟨last, ran, moved, copying⟩ := InitUtil.memcpy_copies plan moving part.short
  refine ⟨last, ran, moved, fun word inside => copying.copied inside, ?_⟩
  intro addr apart
  apply copying.frame
  intro word inside
  apply apart
  apply fits.covers_word
  change word < @TzTest.InitUtil.copyWords .aarch64 size at inside
  rw [part.pages]
  omega

/-- The section is copied, its flash is gone, and nothing else has changed. -/
theorem Built.copyOut (built : Built base stop ram calls store)
    (parts : calls = first ++ rest)
    (given : ∀ call ∈ first, ∀ va, (call.pa? va).isSome)
    (low : ∀ call ∈ first, call.span.stop ≤ 61 * 2 ^ 21)
    (high : 61 * 2 ^ 21 ≤ base.toNat)
    (window : ∀ addr : BitVec 64, base.toNat ≤ addr.toNat →
      addr.toNat < base.toNat + 0x40000 → Identity store.mem base addr)
    (part : Section calls first call flash size)
    {gone : List (BitVec 64)} (below : ∀ page ∈ gone, page.toNat < base.toNat)
    (beside : ∀ page ∈ gone, page.toNat < 2 ^ 48 ∧ ¬call.span.Covers page ∧
      ¬flash.span.Covers page) {s : InitUtil} (moving : Moving base store.mem gone s.mem) :
    ∃ last, s.copyOut base base call.span.base flash.span.base size = some last ∧
      (∃ gone', Moving base store.mem gone' last.mem ∧
        ∀ page, page ∈ gone' ↔
          page ∈ gone ∨ ∃ number < flash.span.pages, page = flash.span.page number) ∧
      (∀ word < @TzTest.InitUtil.copyWords .aarch64 size,
        last.mem (placeOf base store.mem (call.span.base + BitVec.ofNat 64 (8 * word))) =
          s.mem (flash.span.base + BitVec.ofNat 64 (8 * word))) ∧
      ∀ addr ∉ initMapper.Entries store.mem base,
        (∀ va, call.span.Covers va → addr ≠ placeOf base store.mem va) →
        last.mem addr = s.mem addr := by
  have fits := built.fits part.dest
  have listed : flash ∈ calls := parts ▸ List.mem_append_left _ part.src
  have fits' := built.fits listed
  have words := copyWords_le part.short
  obtain ⟨middle, copied, moved, contents, untouched⟩ := built.memcpy_ends parts part
    (le_trans (low flash part.src) high) beside moving
  have row : (⟨flash.span.base, pageCount size⟩ : Span) = flash.span := by
    rw [← part.pages']
  obtain ⟨last, ran, _, gone', frame⟩ := @InitUtil.unmapVaRange_ends base store.mem gone
    { middle with x0 := flash.span.base, x1 := size } moved built.aligned below (by
      intro number inside
      change number < pageCount size at inside
      rw [← part.pages'] at inside
      change (Span.page ⟨flash.span.base, pageCount size⟩ number).toNat < _ ∧
        Home base store.mem (Span.page ⟨flash.span.base, pageCount size⟩ number)
      rw [row]
      have covers := fits'.covers_page inside
      exact ⟨lt_of_lt_of_le covers.2 (le_trans (low flash part.src) high),
        built.home parts given low part.src window covers⟩)
  refine ⟨last, Option.bind_eq_some_iff.mpr ⟨middle, copied, ran⟩, ?_, ?_, ?_⟩
  · change ∃ gone', _ ∧ ∀ page, page ∈ gone' ↔ page ∈ gone ∨
      ∃ number < pageCount size, page = Span.page ⟨flash.span.base, pageCount size⟩ number
      at gone'
    rw [row, ← part.pages'] at gone'
    exact gone'
  · intro word inside
    have covers : call.span.Covers (call.span.base + BitVec.ofNat 64 (8 * word)) := by
      apply fits.covers_word
      rw [part.pages]
      omega
    obtain ⟨_, _, _, _, _, _, outside⟩ := built.pooled_access part.dest part.fresh covers
    exact (frame _ outside).trans (contents word inside)
  · intro addr outside apart
    exact (frame addr outside).trans (untouched addr apart)

/-- A byte of a memory of words. -/
def byteAt (mem : BitVec 64 → BitVec 64) (pa : BitVec 64) : BitVec 8 :=
  (mem (BitVec.ofNat 64 (pa.toNat / 8 * 8))).extractLsb' (8 * (pa.toNat % 8)) 8

theorem byteAt_eq {mem : BitVec 64 → BitVec 64} {pa word : BitVec 64} {lane : Nat}
    (place : pa.toNat = word.toNat + lane) (small : lane < 8) (whole : word.toNat % 8 = 0) :
    byteAt mem pa = (mem word).extractLsb' (8 * lane) 8 := by
  have floor : BitVec.ofNat 64 (pa.toNat / 8 * 8) = word := by
    apply BitVec.eq_of_toNat_eq
    have wide := word.isLt
    rw [BitVec.toNat_ofNat]
    omega
  have rest : pa.toNat % 8 = lane := by omega
  unfold byteAt
  rw [floor, rest]

theorem Section.covers (part : Section calls first call flash size)
    (fits : call.span.Fits) {offset : Nat} (inside : offset < size.toNat) :
    call.span.Covers (call.span.base + BitVec.ofNat 64 offset) ∧
      (call.span.base + BitVec.ofNat 64 offset).toNat = call.span.base.toNat + offset := by
  have limit := fits.limit
  have short := part.short
  unfold Span.Covers
  unfold Span.stop at *
  rw [part.pages, pageCount_eq short] at *
  have place : (call.span.base + BitVec.ofNat 64 offset).toNat =
      call.span.base.toNat + offset := by
    rw [BitVec.toNat_add, BitVec.toNat_ofNat]
    omega
  omega

/-- The bytes come over with their words. -/
theorem Built.section_byte (built : Built base stop ram calls store)
    (listed : flash ∈ calls) (part : Section calls first call flash size)
    {mem : BitVec 64 → BitVec 64} {image : BitVec 64 → BitVec 64}
    (words : ∀ word < @TzTest.InitUtil.copyWords .aarch64 size,
      mem (placeOf base store.mem (call.span.base + BitVec.ofNat 64 (8 * word))) =
        image (flash.span.base + BitVec.ofNat 64 (8 * word)))
    {offset : Nat} (inside : offset < size.toNat) :
    byteAt mem (placeOf base store.mem (call.span.base + BitVec.ofNat 64 offset)) =
      byteAt image (flash.span.base + BitVec.ofNat 64 offset) := by
  have fits := built.fits part.dest
  have fits' := built.fits listed
  have count : @TzTest.InitUtil.copyWords .aarch64 size = (size.toNat + 7) / 8 := rfl
  have inWords : offset / 8 < @TzTest.InitUtil.copyWords .aarch64 size := by omega
  have few := copyWords_le part.short
  have room : 8 * (offset / 8 + 1) ≤ 0x1000 * call.span.pages := by
    rw [part.pages]
    omega
  have room' : 8 * (offset / 8 + 1) ≤ 0x1000 * flash.span.pages := by
    rw [part.pages']
    omega
  obtain ⟨covers, number⟩ := part.covers fits inside
  have coversWord := fits.covers_word room
  have word := fits.word_toNat room
  have word' := fits'.word_toNat room'
  have aligned := fits.aligned
  have aligned' := fits'.aligned
  have limit := fits.limit
  have limit' := fits'.limit
  have below := covers.2
  have belowWord := coversWord.2
  have samePage : initMapper.SamePage (call.span.base + BitVec.ofNat 64 offset)
      (call.span.base + BitVec.ofNat 64 (8 * (offset / 8))) := by
    apply (Span.samePage_iff_div (by omega) (by omega)).mpr
    omega
  obtain ⟨page, attr, translated, _, place, taken, _⟩ :=
    built.pooled_access part.dest part.fresh covers
  obtain ⟨page', attr', translated', _, placeWord, _, _⟩ :=
    built.pooled_access part.dest part.fresh coversWord
  rw [samePage.translate, translated'] at translated
  cases translated
  have whole := taken.aligned
  have lane : offset % 8 < 8 := Nat.mod_lt _ (by decide)
  have source : (flash.span.base + BitVec.ofNat 64 offset).toNat =
      flash.span.base.toNat + offset := by
    unfold Span.stop at limit'
    rw [BitVec.toNat_add, BitVec.toNat_ofNat]
    omega
  have here : byteAt mem (placeOf base store.mem (call.span.base + BitVec.ofNat 64 offset)) =
      (mem (placeOf base store.mem (call.span.base + BitVec.ofNat 64 (8 * (offset / 8))))).extractLsb'
        (8 * (offset % 8)) 8 :=
    byteAt_eq (by omega) lane (by omega)
  rw [here, words _ inWords]
  exact (byteAt_eq (by omega) lane (by omega)).symm

end CopyOut

end TzTest.Aarch64
