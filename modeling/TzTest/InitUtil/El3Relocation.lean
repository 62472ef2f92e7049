import TzTest.InitUtil.El3Init
import TzTest.InitUtil.Relocation

/-!
# The relocation of EL3

`el3_init` from the empty root table to `el3_init_start`.
-/

namespace TzTest.Aarch64

open Radix BitField

namespace ImageSymbols

variable (image : ImageSymbols)

/-- Text, data and the first page of the stack are the image's own.  Nothing is unmapped
again. -/
def el3Layout : ImageLayout where
  base := el3PgtblBase
  stop := el1SecureRamBase.toNat
  sections :=
    [⟨image.textBase, image.flashText, image.textSize⟩,
      ⟨image.dataBase, image.flashData, image.dataSize⟩]
  moved := []
  own :=
    [⟨image.textBase, pageCount image.textSize⟩, ⟨image.dataBase, pageCount image.dataSize⟩,
      ⟨el3StackBase - 0x1000, 1⟩]
  direct :=
    [⟨image.initBase, pageCount image.initSize⟩, ⟨image.flashText, pageCount image.textSize⟩,
      ⟨image.flashData, pageCount image.dataSize⟩,
      ⟨el3PgtblBase, pageCount el3PgtblSize⟩, ⟨uart0Base, 1⟩, ⟨sysregBase, 1⟩]

/-- As a linker script lays an image out, with the flash below the RAM. -/
structure El3Laid : Prop extends image.el3Layout.Sound where
  text : (Span.mk image.flashText (pageCount image.textSize)).stop ≤ ramBase.toNat
  data : (Span.mk image.flashData (pageCount image.dataSize)).stop ≤ ramBase.toNat

variable {image}

theorem el3Calls_attributes : ∀ call ∈ image.el3Calls,
    call.pgprop &&& 0x3 = 0x3 ∧ call.pgprop &&& outputAddress = 0 := by
  simp only [el3Calls, List.forall_mem_cons, MapCall.pgprop]
  exact ⟨by decide, by decide, by decide, by decide, by decide, by decide, by decide,
    by decide, by decide, nofun⟩

theorem el3Calls_pa : ∀ call ∈ image.el3Calls, ∀ va pa, call.pa? va = some pa → pa = va := by
  simp only [el3Calls, List.forall_mem_cons, MapCall.pa?, Option.some.injEq]
  exact ⟨fun _ _ => Eq.symm, fun _ _ => Eq.symm, fun _ _ => Eq.symm, nofun, nofun, nofun,
    fun _ _ => Eq.symm, fun _ _ => Eq.symm, fun _ _ => Eq.symm, nofun⟩

theorem El3Laid.textSection (laid : image.El3Laid) :
    Section image.el3Calls image.el3Calls
      (.mapVaRange image.textBase (ptePage ||| pteAccess ||| ptePrivRw) image.textSize)
      (.mapPaRange image.flashText (ptePage ||| pteAccess ||| ptePrivRo) image.textSize)
      image.textSize where
  dest := @List.mem_of_getElem? _ image.el3Calls 3 _ rfl
  fresh _ := rfl
  src := @List.mem_of_getElem? _ image.el3Calls 1 _ rfl
  given _ := rfl
  short := laid.short _ (List.mem_cons_self ..)
  pages := rfl
  pages' := rfl

theorem El3Laid.dataSection (laid : image.El3Laid) :
    Section image.el3Calls image.el3Calls
      (.mapVaRange image.dataBase (ptePage ||| pteAccess ||| ptePrivRw) image.dataSize)
      (.mapPaRange image.flashData (ptePage ||| pteAccess ||| ptePrivRo) image.dataSize)
      image.dataSize where
  dest := @List.mem_of_getElem? _ image.el3Calls 4 _ rfl
  fresh _ := rfl
  src := @List.mem_of_getElem? _ image.el3Calls 2 _ rfl
  given _ := rfl
  short := laid.short _ (List.mem_cons_of_mem _ (List.mem_cons_self ..))
  pages := rfl
  pages' := rfl

theorem el3Layout_spans : image.el3Layout.spans.Perm (image.el3Calls.map MapCall.span) := by
  let code : List Span := [⟨image.initBase, pageCount image.initSize⟩,
    ⟨image.flashText, pageCount image.textSize⟩, ⟨image.flashData, pageCount image.dataSize⟩]
  let devices : List Span := [⟨el3PgtblBase, pageCount el3PgtblSize⟩, ⟨uart0Base, 1⟩,
    ⟨sysregBase, 1⟩]
  have order : image.el3Calls.map MapCall.span =
      code ++ (image.el3Layout.own ++ devices) := rfl
  have direct : image.el3Layout.direct = code ++ devices := rfl
  have parts : image.el3Layout.spans = image.el3Layout.own ++ image.el3Layout.direct := rfl
  rw [order, parts, direct]
  exact List.perm_append_comm_assoc ..

/-- The calls map the pages of the layout. -/
theorem El3Laid.fit (laid : image.El3Laid) :
    image.el3Layout.Matches image.el3Calls image.el3Calls where
  parts := ⟨[], (List.append_nil _).symm⟩
  spans := el3Layout_spans
  own := by
    simp only [el3Layout, List.forall_mem_cons]
    exact ⟨⟨_, @List.mem_of_getElem? _ image.el3Calls 3 _ rfl, rfl, fun _ => rfl⟩,
      ⟨_, @List.mem_of_getElem? _ image.el3Calls 4 _ rfl, rfl, fun _ => rfl⟩,
      ⟨_, @List.mem_of_getElem? _ image.el3Calls 5 _ rfl, rfl, fun _ => rfl⟩, nofun⟩
  direct := by
    simp only [el3Layout, List.forall_mem_cons]
    exact ⟨⟨_, @List.mem_of_getElem? _ image.el3Calls 0 _ rfl, rfl, fun _ => rfl⟩,
      ⟨_, @List.mem_of_getElem? _ image.el3Calls 1 _ rfl, rfl, fun _ => rfl⟩,
      ⟨_, @List.mem_of_getElem? _ image.el3Calls 2 _ rfl, rfl, fun _ => rfl⟩,
      ⟨_, @List.mem_of_getElem? _ image.el3Calls 6 _ rfl, rfl, fun _ => rfl⟩,
      ⟨_, @List.mem_of_getElem? _ image.el3Calls 7 _ rfl, rfl, fun _ => rfl⟩,
      ⟨_, @List.mem_of_getElem? _ image.el3Calls 8 _ rfl, rfl, fun _ => rfl⟩, nofun⟩
  sections := by
    have text := laid.textSection
    have data := laid.dataSection
    simp only [el3Layout, List.forall_mem_cons]
    exact ⟨⟨_, _, text, List.mem_cons_self .., rfl, rfl⟩,
      ⟨_, _, data, List.mem_cons_of_mem _ (List.mem_cons_self ..), rfl, rfl⟩, nofun⟩

theorem el3Layout_placed (image : ImageSymbols) : image.el3Layout.Placed := by
  have place : el3PgtblBase.toNat % 0x1000 = 0 ∧
      el3PgtblBase.toNat + 0x1000 ≤ el1SecureRamBase.toNat ∧
      el1SecureRamBase.toNat ≤ 2 ^ 36 := by
    decide
  exact ⟨place.1, place.2.1, place.2.2⟩

theorem El3Laid.proper (laid : image.El3Laid) : ∀ call ∈ image.el3Calls, call.Proper := by
  intro call member
  obtain ⟨type, noAddress⟩ := el3Calls_attributes call member
  exact ⟨laid.callFits laid.fit member, type, noAddress,
    fun _ _ asked => el3Calls_pa call member _ _ asked⟩

def el3StackCall : MapCall :=
  .mapVa (el3StackBase - 0x1000) (ptePage ||| pteAccess ||| ptePrivRw)

/-- Both sections, one after the other, with a word on the stack that stays. -/
theorem El3Laid.copied (laid : image.El3Laid) {ram : BitVec 64 → BitVec 64}
    {store : Store (BitVec 64) (BitVec 64)} {s : InitUtil}
    (built : Built el3PgtblBase el1SecureRamBase.toNat ram image.el3Calls store)
    (start : Moving el3PgtblBase store.mem [] s.mem)
    (stored : ∀ addr, (∀ va, el3StackCall.span.Covers va →
      addr ≠ placeOf el3PgtblBase store.mem va) → s.mem addr = store.mem addr) :
    ∃ middle last,
      ({ s with x0 := image.textBase, x1 := image.flashText, x2 := image.textSize } :
        InitUtil).memcpy el3PgtblBase = some middle ∧
      ({ middle with x0 := image.dataBase, x1 := image.flashData, x2 := image.dataSize } :
        InitUtil).memcpy el3PgtblBase = some last ∧
      image.el3Layout.Copied ram store.mem last.mem ∧
      ∀ va, el3StackCall.span.Covers va →
        last.mem (placeOf el3PgtblBase store.mem va) =
          s.mem (placeOf el3PgtblBase store.mem va) := by
  have fit := laid.fit
  have textPart := laid.textSection
  have dataPart := laid.dataSection
  have under : ramBase.toNat ≤ el3PgtblBase.toNat := by decide
  have parts : image.el3Calls = image.el3Calls ++ [] := (List.append_nil _).symm
  have none (call flash : MapCall) : ∀ page ∈ ([] : List (BitVec 64)), page.toNat < 2 ^ 48 ∧
      ¬call.span.Covers page ∧ ¬flash.span.Covers page := by
    intro page member
    cases member
  obtain ⟨middle, textRan, moving, textWords, textFrame⟩ :=
    built.memcpy_ends parts textPart (le_trans laid.text under) (none _ _) start
  obtain ⟨last, dataRan, moving', dataWords, dataFrame⟩ :=
    built.memcpy_ends parts dataPart (le_trans laid.data under) (none _ _) moving
  have stack : el3StackCall ∈ image.el3Calls :=
    @List.mem_of_getElem? _ image.el3Calls 5 _ rfl
  have flash (addr : BitVec 64) (below : addr.toNat < el3PgtblBase.toNat) :
      s.mem addr = ram addr := by
    refine (stored addr ?_).trans (built.booting.frame (.inl below))
    rintro va covers rfl
    exact absurd (built.place_above stack (fun _ => rfl) covers) (not_le.mpr below)
  refine ⟨middle, last, textRan, dataRan, ⟨⟨[], moving', ?_⟩, ?_, ?_⟩, ?_⟩
  · intro page
    constructor
    · intro member
      cases member
    · rintro ⟨_, member, _⟩
      cases member
  · intro part member word inside
    rcases List.mem_cons.mp member with rfl | member
    · have words := copyWords_le textPart.short
      change word < @TzTest.InitUtil.copyWords .aarch64 image.textSize at inside
      have room : 8 * (word + 1) ≤ 0x1000 * pageCount image.textSize := by omega
      have covers := (built.fits textPart.dest).covers_word room
      have source := (built.fits textPart.src).covers_word room
      have kept := dataFrame _ (laid.placesApart fit built (by decide : 3 < 4) rfl rfl
        textPart.fresh dataPart.fresh covers)
      refine kept.trans ((textWords word inside).trans (flash _ ?_))
      exact lt_of_lt_of_le source.2 (le_trans laid.text under)
    · cases List.mem_singleton.mp member
      have words := copyWords_le dataPart.short
      change word < @TzTest.InitUtil.copyWords .aarch64 image.dataSize at inside
      have room : 8 * (word + 1) ≤ 0x1000 * pageCount image.dataSize := by omega
      have source := (built.fits dataPart.src).covers_word room
      have below := lt_of_lt_of_le source.2 (le_trans laid.data under)
      refine (dataWords word inside).trans ((textFrame _ ?_).trans (flash _ below))
      rintro va covers same
      have above := built.place_above textPart.dest textPart.fresh covers
      rw [← same] at above
      exact absurd above (not_le.mpr below)
  · intro addr _ apart
    refine (dataFrame addr ?_).trans ((textFrame addr ?_).trans (stored addr ?_))
    · exact apart _ (List.mem_cons_of_mem _ (List.mem_cons_self ..))
    · exact apart _ (List.mem_cons_self ..)
    · exact apart _ (List.mem_cons_of_mem _ (List.mem_cons_of_mem _ (List.mem_cons_self ..)))
  · intro va covers
    refine (dataFrame _ ?_).trans (textFrame _ ?_)
    · intro va' covers' same
      exact laid.placesApart fit built (by decide : 4 < 5) rfl rfl dataPart.fresh
        (fun _ => rfl) covers' va covers same.symm
    · intro va' covers' same
      exact laid.placesApart fit built (by decide : 3 < 5) rfl rfl textPart.fresh
        (fun _ => rfl) covers' va covers same.symm

end ImageSymbols

/-- The state that `el3_init` leaves for `el3_init_start`. -/
structure El3Enters (image : ImageSymbols) (s : InitUtil) (booted : Booted) : Prop where
  ran : el3Init image s = some booted
  x17 : image.el3Layout.poolAfter image.el3Calls s = some booted.x17
  relocated : image.el3Layout.Relocated s.mem booted

theorem ImageSymbols.El3Laid.enters {image : ImageSymbols} {s : InitUtil}
    (laid : image.El3Laid) (starts : image.el3Layout.Starts image.el3Calls s) :
    ∃ booted, El3Enters image s booted := by
  have fit := laid.fit
  have root : (el3PgtblBase >>> tnSz) <<< tnSz = el3PgtblBase := by decide
  have covers : ImageSymbols.el3StackCall.span.Covers (el3StackBase - 8) := by
    unfold Span.Covers
    decide
  have stack : ImageSymbols.el3StackCall ∈ image.el3Calls :=
    @List.mem_of_getElem? _ image.el3Calls 5 _ rfl
  have fresh (va : BitVec 64) : ImageSymbols.el3StackCall.pa? va = none := rfl
  obtain ⟨state, builds, built⟩ := laid.built fit image.el3Layout_placed laid.proper
    (by change 9 ≤ 2 ^ 10; decide) starts
  obtain ⟨mem, stored, moving, held, rest⟩ := built.str_kept stack fresh covers
    (Moving.refl built.booting.forest) nofun state.nextPa
  have words (addr : BitVec 64)
      (apart : ∀ va, ImageSymbols.el3StackCall.span.Covers va →
        addr ≠ placeOf el3PgtblBase state.store.mem va) :
      mem addr = state.mem addr :=
    rest addr (apart _ covers)
  obtain ⟨middle, last, textRan, dataRan, copied, kept⟩ :=
    @ImageSymbols.El3Laid.copied image laid s.mem state.store { state with mem := mem } built
      moving words
  obtain ⟨⟨gone, moved, members⟩, _⟩ := id copied
  have stays : ∀ page ∈ gone, ¬initMapper.SamePage (el3StackBase - 8) page := by
    intro page removed
    obtain ⟨_, there, _⟩ := (members page).mp removed
    cases there
  have word := built.own_access stack fresh covers moved stays
  have value := (kept _ covers).trans held
  refine ⟨⟨last.mem, el3PgtblBase, state.nextPa⟩, ⟨?_,
    Option.map_eq_some_iff.mpr ⟨state, builds, rfl⟩, laid.relocated fit built copied⟩⟩
  simp only [el3Init, root]
  refine Option.bind_eq_some_iff.mpr ⟨state, builds, ?_⟩
  refine Option.bind_eq_some_iff.mpr ⟨mem, stored, ?_⟩
  refine Option.bind_eq_some_iff.mpr ⟨middle, textRan, ?_⟩
  refine Option.bind_eq_some_iff.mpr ⟨last, dataRan, ?_⟩
  exact Option.bind_eq_some_iff.mpr ⟨_, Option.map_eq_some_iff.mpr ⟨_, word, value⟩, rfl⟩

/-- From the empty root table on, the start-up code comes to `el3_init_start` with text
and data in pages of their own. -/
theorem el3Init_relocates {image : ImageSymbols} {s : InitUtil} (laid : image.El3Laid)
    (starts : image.el3Layout.Starts image.el3Calls s) :
    ∃ booted, el3Init image s = some booted ∧
      image.el3Layout.poolAfter image.el3Calls s = some booted.x17 ∧
      image.el3Layout.Relocated s.mem booted := by
  obtain ⟨booted, ran, x17, relocated⟩ := laid.enters starts
  exact ⟨booted, ran, x17, relocated⟩

def smallEl3 : ImageSymbols where
  initBase := 0
  initSize := 0x4D0
  flashText := 0x1000
  textBase := 0xF000000000
  textSize := 0x2004
  flashData := 0x4000
  dataBase := 0xF000003000
  dataSize := 0x808

theorem smallEl3_laid : smallEl3.El3Laid where
  fits := by
    have fits : ∀ span ∈ smallEl3.el3Layout.spans,
        span.base.toNat % 0x1000 = 0 ∧ span.stop ≤ 2 ^ 48 := by
      decide
    exact fun span member => ⟨(fits span member).1, (fits span member).2⟩
  apart := by
    have order : smallEl3.el3Layout.spans.Pairwise fun left right =>
        left.stop ≤ right.base.toNat ∨ right.stop ≤ left.base.toNat := by
      decide
    exact order.imp Span.apart_of_stop
  short := by decide
  text := by decide
  data := by decide

/-- A flash whose words hold their own addresses, and clear RAM. -/
def smallReset : InitUtil :=
  { smallInit with mem := fun addr => if addr.toNat < 0x20000 then addr else 0 }

theorem smallReset_starts : smallEl3.el3Layout.Starts smallEl3.el3Calls smallReset where
  clear above _ := by
    have high : smallEl3.el3Layout.base.toNat = 0x40040000 := by decide
    exact if_neg (by omega)
  room := smallEl3.el3Layout_placed.room_of_pages (by decide)

theorem el3Init_relocates_smallEl3 :
    ∃ booted, el3Init smallEl3 smallReset = some booted ∧
      smallEl3.el3Layout.poolAfter smallEl3.el3Calls smallReset = some booted.x17 ∧
      smallEl3.el3Layout.Relocated smallReset.mem booted :=
  el3Init_relocates smallEl3_laid smallReset_starts

end TzTest.Aarch64
