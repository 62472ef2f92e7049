import TzTest.InitUtil.Relocation

/-!
# The relocation of EL1

`el1_init` from the empty root table to `el1_init_start`.
-/

namespace TzTest.Aarch64

open Radix BitField

namespace ImageSymbols

variable (image : ImageSymbols) (world : World)

/-- Text, data and the first pages of the stacks are the image's own, and the flash of
text and data is unmapped. -/
def el1Layout : ImageLayout where
  base := el1PgtblBase world
  stop := (nextRamBase world).toNat
  sections :=
    [⟨image.textBase, image.flashText, image.textSize⟩,
      ⟨image.dataBase, image.flashData, image.dataSize⟩]
  moved :=
    [⟨image.flashText, pageCount image.textSize⟩, ⟨image.flashData, pageCount image.dataSize⟩]
  own :=
    [⟨image.textBase, pageCount image.textSize⟩, ⟨image.dataBase, pageCount image.dataSize⟩,
      ⟨el1StackBase world - 0x1000, 1⟩, ⟨el0StackBase world - 0x1000, 1⟩]
  direct :=
    [⟨image.initBase, pageCount image.initSize⟩,
      ⟨el1PgtblBase world, pageCount el1PgtblSize⟩, ⟨uart0Base, 1⟩]

/-- As a linker script lays an image out, in the first 122 MB of the flash. -/
structure El1Laid : Prop extends (image.el1Layout world).Sound where
  init : (Span.mk image.initBase (pageCount image.initSize)).stop ≤ 61 * 2 ^ 21
  flash : ∀ span ∈ (image.el1Layout world).moved, span.stop ≤ 61 * 2 ^ 21

/-- The rows of init, text and data in flash come first. -/
def firstCalls : List MapCall :=
  [.mapPaRange image.initBase (ptePage ||| pteAccess ||| pteUserRo) image.initSize,
    .mapPaRange image.flashText (ptePage ||| pteAccess ||| pteUserRo) image.textSize,
    .mapPaRange image.flashData (ptePage ||| pteAccess ||| pteUserRw) image.dataSize]

/-- The calls that map a section, to the pool and in flash. -/
def textCall : MapCall :=
  .mapVaRange image.textBase (ptePage ||| pteAccess ||| ptePrivRw) image.textSize

def dataCall : MapCall :=
  .mapVaRange image.dataBase (ptePage ||| pteAccess ||| ptePrivRw) image.dataSize

def flashTextCall : MapCall :=
  .mapPaRange image.flashText (ptePage ||| pteAccess ||| pteUserRo) image.textSize

def flashDataCall : MapCall :=
  .mapPaRange image.flashData (ptePage ||| pteAccess ||| pteUserRw) image.dataSize

def stackCall : MapCall :=
  .mapVa (el1StackBase world - 0x1000) (ptePage ||| pteAccess ||| ptePrivRw)

variable {image world}

theorem firstCalls_given : ∀ call ∈ image.firstCalls, ∀ va, (call.pa? va).isSome := by
  simp only [firstCalls, List.forall_mem_cons, MapCall.pa?]
  exact ⟨fun _ => rfl, fun _ => rfl, fun _ => rfl, nofun⟩

theorem El1Laid.low (laid : image.El1Laid world) :
    ∀ call ∈ image.firstCalls, call.span.stop ≤ 61 * 2 ^ 21 := by
  simp only [firstCalls, List.forall_mem_cons]
  exact ⟨laid.init, laid.flash _ (List.mem_cons_self ..),
    laid.flash _ (List.mem_cons_of_mem _ (List.mem_cons_self ..)), nofun⟩

theorem el1Calls_attributes : ∀ call ∈ image.el1Calls world,
    call.pgprop &&& 0x3 = 0x3 ∧ call.pgprop &&& outputAddress = 0 := by
  simp only [el1Calls, List.forall_mem_cons, MapCall.pgprop]
  exact ⟨by decide, by decide, by decide, by decide, by decide, by decide, by decide,
    by decide, by decide, nofun⟩

theorem el1Calls_pa : ∀ call ∈ image.el1Calls world, ∀ va pa,
    call.pa? va = some pa → pa = va := by
  simp only [el1Calls, List.forall_mem_cons, MapCall.pa?, Option.some.injEq]
  exact ⟨fun _ _ => Eq.symm, fun _ _ => Eq.symm, fun _ _ => Eq.symm, nofun, nofun, nofun,
    nofun, fun _ _ => Eq.symm, fun _ _ => Eq.symm, nofun⟩

theorem El1Laid.textSection (laid : image.El1Laid world) :
    Section (image.el1Calls world) image.firstCalls image.textCall image.flashTextCall
      image.textSize where
  dest := @List.mem_of_getElem? _ (image.el1Calls world) 3 _ rfl
  fresh _ := rfl
  src := @List.mem_of_getElem? _ image.firstCalls 1 _ rfl
  given _ := rfl
  short := laid.short _ (List.mem_cons_self ..)
  pages := rfl
  pages' := rfl

theorem El1Laid.dataSection (laid : image.El1Laid world) :
    Section (image.el1Calls world) image.firstCalls image.dataCall image.flashDataCall
      image.dataSize where
  dest := @List.mem_of_getElem? _ (image.el1Calls world) 4 _ rfl
  fresh _ := rfl
  src := @List.mem_of_getElem? _ image.firstCalls 2 _ rfl
  given _ := rfl
  short := laid.short _ (List.mem_cons_of_mem _ (List.mem_cons_self ..))
  pages := rfl
  pages' := rfl

/-- The calls map the pages of the layout. -/
theorem El1Laid.fit (laid : image.El1Laid world) :
    (image.el1Layout world).Matches (image.el1Calls world) image.firstCalls where
  parts := ⟨(image.el1Calls world).drop 3, rfl⟩
  spans := by
    have order : (image.el1Calls world).map MapCall.span =
        [⟨image.initBase, pageCount image.initSize⟩] ++
          (((image.el1Layout world).moved ++ (image.el1Layout world).own) ++
            [⟨el1PgtblBase world, pageCount el1PgtblSize⟩, ⟨uart0Base, 1⟩]) := rfl
    rw [order, ImageLayout.spans, ← List.append_assoc]
    exact List.perm_middle
  own := by
    simp only [el1Layout, List.forall_mem_cons]
    exact ⟨⟨_, @List.mem_of_getElem? _ (image.el1Calls world) 3 _ rfl, rfl, fun _ => rfl⟩,
      ⟨_, @List.mem_of_getElem? _ (image.el1Calls world) 4 _ rfl, rfl, fun _ => rfl⟩,
      ⟨_, @List.mem_of_getElem? _ (image.el1Calls world) 5 _ rfl, rfl, fun _ => rfl⟩,
      ⟨_, @List.mem_of_getElem? _ (image.el1Calls world) 6 _ rfl, rfl, fun _ => rfl⟩, nofun⟩
  direct := by
    simp only [el1Layout, List.forall_mem_cons]
    exact ⟨⟨_, @List.mem_of_getElem? _ (image.el1Calls world) 0 _ rfl, rfl, fun _ => rfl⟩,
      ⟨_, @List.mem_of_getElem? _ (image.el1Calls world) 7 _ rfl, rfl, fun _ => rfl⟩,
      ⟨_, @List.mem_of_getElem? _ (image.el1Calls world) 8 _ rfl, rfl, fun _ => rfl⟩, nofun⟩
  sections := by
    have text := laid.textSection
    have data := laid.dataSection
    simp only [el1Layout, List.forall_mem_cons]
    exact ⟨⟨_, _, text, List.mem_cons_self .., rfl, rfl⟩,
      ⟨_, _, data, List.mem_cons_of_mem _ (List.mem_cons_self ..), rfl, rfl⟩, nofun⟩

theorem el1Layout_placed (image : ImageSymbols) (world : World) :
    (image.el1Layout world).Placed := by
  have place : (el1PgtblBase world).toNat % 0x1000 = 0 ∧
      (el1PgtblBase world).toNat + 0x1000 ≤ (nextRamBase world).toNat ∧
      (nextRamBase world).toNat ≤ 2 ^ 36 := by
    cases world <;> decide
  exact ⟨place.1, place.2.1, place.2.2⟩

theorem El1Laid.proper (laid : image.El1Laid world) :
    ∀ call ∈ image.el1Calls world, call.Proper := by
  intro call member
  obtain ⟨type, noAddress⟩ := el1Calls_attributes call member
  exact ⟨laid.callFits laid.fit member, type, noAddress,
    fun _ _ asked => el1Calls_pa call member _ _ asked⟩

theorem el1PgtblBase_high (world : World) :
    61 * 2 ^ 21 ≤ (el1PgtblBase world).toNat ∧
      (el1PgtblBase world >>> tnSz) <<< tnSz = el1PgtblBase world := by
  cases world <;> decide

theorem stack_covers (world : World) :
    (stackCall world).span.Covers (el1StackBase world - 0x10 - 16) ∧
      (stackCall world).span.Covers (el1StackBase world - 0x10 - 16 + 8) ∧
      el1StackBase world - 0x10 - 16 ≠ el1StackBase world - 0x10 - 16 + 8 := by
  unfold Span.Covers
  cases world <;> decide

section Steps

variable {ram : BitVec 64 → BitVec 64} {store : Store (BitVec 64) (BitVec 64)}

theorem El1Laid.window (laid : image.El1Laid world)
    (built : Built (el1PgtblBase world) (nextRamBase world).toNat ram (image.el1Calls world)
      store) {addr : BitVec 64} (above : (el1PgtblBase world).toNat ≤ addr.toNat)
    (below : addr.toNat < (el1PgtblBase world).toNat + 0x40000) :
    Identity store.mem (el1PgtblBase world) addr := by
  have member : MapCall.mapPaRange (el1PgtblBase world)
      (ptePage ||| pteAccess ||| ptePrivRw) el1PgtblSize ∈ image.el1Calls world :=
    @List.mem_of_getElem? _ (image.el1Calls world) 7 _ rfl
  have pages : pageCount el1PgtblSize = 64 := by decide
  apply built.booting.identity (laid.proper _ member) member (fun _ => rfl)
  refine ⟨above, ?_⟩
  change addr.toNat < (el1PgtblBase world).toNat + 0x1000 * pageCount el1PgtblSize
  rw [pages]
  exact below

/-- Both sections, one after the other, with words on the stack that stay. -/
theorem El1Laid.copied (laid : image.El1Laid world) {s : InitUtil}
    (built : Built (el1PgtblBase world) (nextRamBase world).toNat ram (image.el1Calls world)
      store) (start : Moving (el1PgtblBase world) store.mem [] s.mem)
    (stored : ∀ addr, (∀ va, (stackCall world).span.Covers va →
      addr ≠ placeOf (el1PgtblBase world) store.mem va) → s.mem addr = store.mem addr) :
    ∃ middle last,
      s.copyOut (el1PgtblBase world) (el1PgtblBase world) image.textBase image.flashText
        image.textSize = some middle ∧
      middle.copyOut (el1PgtblBase world) (el1PgtblBase world) image.dataBase
        image.flashData image.dataSize = some last ∧
      (image.el1Layout world).Copied ram store.mem last.mem ∧
      ∀ va, (stackCall world).span.Covers va →
        last.mem (placeOf (el1PgtblBase world) store.mem va) =
          s.mem (placeOf (el1PgtblBase world) store.mem va) := by
  obtain ⟨high, _⟩ := el1PgtblBase_high world
  have parts : image.el1Calls world = image.firstCalls ++ (image.el1Calls world).drop 3 := rfl
  have fit := laid.fit
  have textPart := laid.textSection
  have dataPart := laid.dataSection
  have stack : stackCall world ∈ image.el1Calls world :=
    @List.mem_of_getElem? _ (image.el1Calls world) 5 _ rfl
  have flash (addr : BitVec 64) (below : addr.toNat < (el1PgtblBase world).toNat) :
      s.mem addr = ram addr := by
    refine (stored addr ?_).trans (built.booting.frame (.inl below))
    rintro va covers rfl
    exact absurd (built.place_above stack (fun _ => rfl) covers) (not_le.mpr below)
  have inFlash {call : MapCall} (member : call ∈ image.firstCalls) {va : BitVec 64}
      (covers : call.span.Covers va) : va.toNat < (el1PgtblBase world).toNat :=
    lt_of_lt_of_le covers.2 (le_trans (laid.low call member) high)
  have flashFits {call : MapCall} (member : call ∈ image.firstCalls) : call.span.Fits :=
    built.fits (parts ▸ List.mem_append_left _ member)
  have low : ∀ page ∈ ([] : List (BitVec 64)), page.toNat < (el1PgtblBase world).toNat :=
    nofun
  have beside : ∀ page ∈ ([] : List (BitVec 64)), page.toNat < 2 ^ 48 ∧
      ¬image.textCall.span.Covers page ∧ ¬image.flashTextCall.span.Covers page :=
    nofun
  obtain ⟨middle, textRan, ⟨gone, moving, members⟩, textWords, textFrame⟩ :=
    built.copyOut parts firstCalls_given laid.low high (fun addr => laid.window built)
      textPart low beside start
  have textPages {page : BitVec 64} (member : page ∈ gone) :
      page.toNat < 2 ^ 48 ∧ image.flashTextCall.span.Covers page := by
    rcases (members page).mp member with old | ⟨number, inside, rfl⟩
    · cases old
    · have fits := flashFits textPart.src
      exact ⟨fits.page_lt inside, fits.covers_page inside⟩
  obtain ⟨last, dataRan, ⟨gone', moving', members'⟩, dataWords, dataFrame⟩ :=
    built.copyOut parts firstCalls_given laid.low high (fun addr => laid.window built)
      dataPart (fun page member => inFlash textPart.src (textPages member).2)
      (fun page member => ⟨(textPages member).1,
        laid.rowsApart fit (by decide : 1 < 4) rfl rfl page (textPages member).2,
        laid.rowsApart fit (by decide : 1 < 2) rfl rfl page (textPages member).2⟩)
      moving
  refine ⟨middle, last, textRan, dataRan, ⟨⟨gone', moving', ?_⟩, ?_, ?_⟩, ?_⟩
  · intro page
    rw [members', members]
    constructor
    · rintro ((old | ⟨number, inside, rfl⟩) | ⟨number, inside, rfl⟩)
      · cases old
      · exact ⟨_, List.mem_cons_self .., number, inside, rfl⟩
      · exact ⟨_, List.mem_cons_of_mem _ (List.mem_cons_self ..), number, inside, rfl⟩
    · rintro ⟨span, member, number, inside, rfl⟩
      rcases List.mem_cons.mp member with rfl | member
      · exact .inl (.inr ⟨number, inside, rfl⟩)
      · cases List.mem_singleton.mp member
        exact .inr ⟨number, inside, rfl⟩
  · intro part member word inside
    rcases List.mem_cons.mp member with rfl | member
    · have words := copyWords_le textPart.short
      change word < @TzTest.InitUtil.copyWords .aarch64 image.textSize at inside
      have room : 8 * (word + 1) ≤ 0x1000 * pageCount image.textSize := by omega
      have covers : image.textCall.span.Covers
          (image.textBase + BitVec.ofNat 64 (8 * word)) :=
        (built.fits textPart.dest).covers_word room
      obtain ⟨_, _, _, _, _, _, outside⟩ :=
        built.pooled_access textPart.dest textPart.fresh covers
      have kept := dataFrame _ outside
        (laid.placesApart fit built (by decide : 3 < 4) rfl rfl textPart.fresh
          dataPart.fresh covers)
      refine kept.trans ((textWords word inside).trans (flash _ ?_))
      exact inFlash textPart.src ((flashFits textPart.src).covers_word room)
    · cases List.mem_singleton.mp member
      have words := copyWords_le dataPart.short
      change word < @TzTest.InitUtil.copyWords .aarch64 image.dataSize at inside
      have room : 8 * (word + 1) ≤ 0x1000 * pageCount image.dataSize := by omega
      have below : (image.flashData + BitVec.ofNat 64 (8 * word)).toNat <
          (el1PgtblBase world).toNat :=
        inFlash dataPart.src ((flashFits dataPart.src).covers_word room)
      refine (dataWords word inside).trans ((textFrame _ ?_ ?_).trans (flash _ below))
      · intro entry
        have above := (built.booting.entry_inside entry).1
        change (el1PgtblBase world).toNat ≤
          (image.flashData + BitVec.ofNat 64 (8 * word)).toNat at above
        omega
      · intro va covers same
        have above := built.place_above textPart.dest textPart.fresh covers
        rw [← same] at above
        change (el1PgtblBase world).toNat ≤
          (image.flashData + BitVec.ofNat 64 (8 * word)).toNat at above
        omega
  · intro addr outside apart
    refine (dataFrame addr outside ?_).trans ((textFrame addr outside ?_).trans
      (stored addr ?_))
    · exact apart _ (List.mem_cons_of_mem _ (List.mem_cons_self ..))
    · exact apart _ (List.mem_cons_self ..)
    · exact apart _ (List.mem_cons_of_mem _ (List.mem_cons_of_mem _ (List.mem_cons_self ..)))
  · intro va covers
    obtain ⟨_, _, _, _, _, _, outside⟩ := built.pooled_access stack (fun _ => rfl) covers
    refine (dataFrame _ outside ?_).trans (textFrame _ outside ?_)
    · intro va' covers' same
      exact laid.placesApart fit built (by decide : 4 < 5) rfl rfl dataPart.fresh
        (fun _ => rfl) covers' va covers same.symm
    · intro va' covers' same
      exact laid.placesApart fit built (by decide : 3 < 5) rfl rfl textPart.fresh
        (fun _ => rfl) covers' va covers same.symm

end Steps

end ImageSymbols

/-- The state that `el1_init` leaves for `el1_init_start`. -/
structure El1Enters (world : World) (image : ImageSymbols) (x4 : BitVec 64) (s : InitUtil)
    (start : El1Start) : Prop where
  ran : el1Init world image x4 s = some start
  x16 : start.x16 = x4
  x17 : (image.el1Layout world).poolAfter (image.el1Calls world) s = some start.x17
  relocated : (image.el1Layout world).Relocated s.mem start.toBooted

theorem ImageSymbols.El1Laid.enters {image : ImageSymbols} {world : World} {s : InitUtil}
    (x4 : BitVec 64) (laid : image.El1Laid world)
    (starts : (image.el1Layout world).Starts (image.el1Calls world) s) :
    ∃ start, El1Enters world image x4 s start := by
  have fit := laid.fit
  obtain ⟨_, root⟩ := ImageSymbols.el1PgtblBase_high world
  obtain ⟨high, high', differ⟩ := ImageSymbols.stack_covers world
  have stack : ImageSymbols.stackCall world ∈ image.el1Calls world :=
    @List.mem_of_getElem? _ (image.el1Calls world) 5 _ rfl
  have fresh (va : BitVec 64) : (ImageSymbols.stackCall world).pa? va = none := rfl
  obtain ⟨state, builds, built⟩ := laid.built fit (image.el1Layout_placed world) laid.proper
    (by change 9 ≤ 2 ^ 10; decide) starts
  obtain ⟨mem, stored, moving, held, rest⟩ := built.str_kept stack fresh high
    (Moving.refl built.booting.forest) nofun x4
  obtain ⟨mem', stored', moving', held', rest'⟩ := built.str_kept stack fresh high' moving
    nofun state.nextPa
  have other := mt (built.place_inj stack stack fresh fresh high high') differ
  have words (addr : BitVec 64)
      (apart : ∀ va, (ImageSymbols.stackCall world).span.Covers va →
        addr ≠ placeOf (el1PgtblBase world) state.store.mem va) :
      mem' addr = state.mem addr :=
    (rest' addr (apart _ high')).trans (rest addr (apart _ high))
  obtain ⟨middle, last, textRan, dataRan, copied, kept⟩ :=
    @ImageSymbols.El1Laid.copied image world s.mem state.store laid
      { state with mem := mem' } built moving' words
  obtain ⟨⟨gone, moved, members⟩, _⟩ := id copied
  have stays {va : BitVec 64} (covers : (ImageSymbols.stackCall world).span.Covers va) :
      ∀ page ∈ gone, ¬initMapper.SamePage va page := by
    intro page removed
    obtain ⟨span, there, number, inside, rfl⟩ := (members page).mp removed
    have listed : (ImageSymbols.stackCall world).span ∈
        (image.el1Layout world).own ++ (image.el1Layout world).direct :=
      @List.mem_of_getElem? _ _ 2 _ rfl
    exact laid.beside listed covers there inside
  have word := built.own_access stack fresh high moved (stays high)
  have word' := built.own_access stack fresh high' moved (stays high')
  have value := (kept _ high).trans ((rest' _ other).trans held)
  have value' := (kept _ high').trans held'
  refine ⟨⟨⟨last.mem, el1PgtblBase world, state.nextPa⟩, x4⟩, ⟨?_, rfl,
    Option.map_eq_some_iff.mpr ⟨state, builds, rfl⟩, laid.relocated fit built copied⟩⟩
  simp only [el1Init, root]
  refine Option.bind_eq_some_iff.mpr ⟨state, builds, ?_⟩
  refine Option.bind_eq_some_iff.mpr ⟨mem, stored, ?_⟩
  refine Option.bind_eq_some_iff.mpr ⟨mem', stored', ?_⟩
  refine Option.bind_eq_some_iff.mpr ⟨middle, textRan, ?_⟩
  refine Option.bind_eq_some_iff.mpr ⟨last, dataRan, ?_⟩
  refine Option.bind_eq_some_iff.mpr ⟨x4, Option.map_eq_some_iff.mpr ⟨_, word, value⟩, ?_⟩
  exact Option.bind_eq_some_iff.mpr
    ⟨_, Option.map_eq_some_iff.mpr ⟨_, word', value'⟩, rfl⟩

/-- From the empty root table on, the start-up code comes to `el1_init_start` with text
and data in pages of their own and their flash unmapped. -/
theorem el1Init_relocates {image : ImageSymbols} {world : World} {s : InitUtil}
    (x4 : BitVec 64) (laid : image.El1Laid world)
    (starts : (image.el1Layout world).Starts (image.el1Calls world) s) :
    ∃ start, el1Init world image x4 s = some start ∧ start.x16 = x4 ∧
      (image.el1Layout world).poolAfter (image.el1Calls world) s = some start.x17 ∧
      (image.el1Layout world).Relocated s.mem start.toBooted := by
  obtain ⟨start, ran, x16, x17, relocated⟩ := laid.enters x4 starts
  exact ⟨start, ran, x16, x17, relocated⟩

/-- Two pages of text, the second one in part, and a few words of data. -/
def smallEl1 : ImageSymbols where
  initBase := 0x10000
  initSize := 0x5A0
  flashText := 0x11000
  textBase := 0xC000000000
  textSize := 0x1234
  flashData := 0x13000
  dataBase := 0xC000002000
  dataSize := 0x13

theorem smallEl1_laid : smallEl1.El1Laid .secure where
  fits := by
    have fits : ∀ span ∈ (smallEl1.el1Layout .secure).spans,
        span.base.toNat % 0x1000 = 0 ∧ span.stop ≤ 2 ^ 48 := by
      decide
    exact fun span member => ⟨(fits span member).1, (fits span member).2⟩
  apart := by
    have order : (smallEl1.el1Layout .secure).spans.Pairwise fun left right =>
        left.stop ≤ right.base.toNat ∨ right.stop ≤ left.base.toNat := by
      decide
    exact order.imp Span.apart_of_stop
  short := by decide
  init := by decide
  flash := by decide

/-- A flash whose words hold their own addresses, and clear RAM. -/
def smallPowerOn : InitUtil :=
  { smallInit with mem := fun addr => if addr.toNat < 0x20000 then addr else 0 }

theorem smallPowerOn_starts :
    (smallEl1.el1Layout .secure).Starts (smallEl1.el1Calls .secure) smallPowerOn where
  clear above _ := by
    have high : (smallEl1.el1Layout .secure).base.toNat = 0x41040000 := by decide
    exact if_neg (by omega)
  room := (smallEl1.el1Layout_placed .secure).room_of_pages (by decide)

theorem el1Init_relocates_smallEl1 :
    ∃ start, el1Init .secure smallEl1 0x5000 smallPowerOn = some start ∧ start.x16 = 0x5000 ∧
      (smallEl1.el1Layout .secure).poolAfter (smallEl1.el1Calls .secure) smallPowerOn =
        some start.x17 ∧
      (smallEl1.el1Layout .secure).Relocated smallPowerOn.mem start.toBooted :=
  el1Init_relocates 0x5000 smallEl1_laid smallPowerOn_starts

end TzTest.Aarch64
