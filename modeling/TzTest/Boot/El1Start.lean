import TzTest.Boot.El3Start
import TzTest.InitUtil.El1Relocation

/-!
# EL1 joins

`el1_start` maps the two pages that EL3 has set up, of which it gets the physical
address of the first one only.
-/

namespace TzTest.Aarch64.Boot

open Radix BitField

/-- The 2 MB of the tables of EL1. -/
def el1RegionEnd (world : World) : Nat :=
  regionEnd (el1PgtblBase world)

/-- The page of the heap for `syscntl`. -/
def el1Heap (world : World) : Span :=
  ⟨el1VaHeapBase world, 1⟩

/-- The page of `smc_interop_buf`, at the address that EL3 uses. -/
def interopPage : Span :=
  ⟨el3SmcInteropBuf, 1⟩

/-- EL1 has the two pages, and what it had before. -/
structure El1Ready (world : World) (init : Span) (syscntlPa bufPa : BitVec 64)
    (before : MemUtil 64) (started : El1Started) : Prop where
  settled : @Settled .aarch64 (el1PgtblBase world) (el1RegionEnd world) started.s
  syscntl : PageAt (el1PgtblBase world) started.s.mem started.syscntl syscntlPa
  smcInteropBuf : PageAt (el1PgtblBase world) started.s.mem started.smcInteropBuf bufPa
  place : started.syscntl = el1VaHeapBase world ∧ started.smcInteropBuf = el3SmcInteropBuf
  gone {va : BitVec 64} : init.Covers va →
    access (el1PgtblBase world) started.s.mem va = none
  kept {va : BitVec 64} : @Elsewhere .aarch64 (el1PgtblBase world) (el1RegionEnd world) va →
    ¬init.Covers va → ¬(el1Heap world).Covers va → ¬interopPage.Covers va →
    access (el1PgtblBase world) started.s.mem va =
      access (el1PgtblBase world) before.mem va
  next : before.memNextPa.toNat ≤ started.s.memNextPa.toNat
  frame {addr : BitVec 64} :
    addr.toNat < (el1PgtblBase world).toNat ∨ el1RegionEnd world ≤ addr.toNat →
    started.s.mem addr = before.mem addr

theorem el1Heap_facts (world : World) :
    (el1Heap world).Fits ∧ interopPage.Fits ∧ (el1Heap world).Covers (el1VaHeapBase world) ∧
      interopPage.Covers el3SmcInteropBuf ∧
      @Elsewhere .aarch64 (el1PgtblBase world) (el1RegionEnd world) (el1VaHeapBase world) ∧
      @Elsewhere .aarch64 (el1PgtblBase world) (el1RegionEnd world) el3SmcInteropBuf ∧
      ¬mapper.SamePage (el1VaHeapBase world) el3SmcInteropBuf := by
  unfold Span.Covers
  cases world
  · exact ⟨⟨by decide, by decide⟩, ⟨by decide, by decide⟩, by decide, by decide,
      ⟨by decide, .inr (by decide)⟩, ⟨by decide, .inr (by decide)⟩, by decide⟩
  · exact ⟨⟨by decide, by decide⟩, ⟨by decide, by decide⟩, by decide, by decide,
      ⟨by decide, .inr (by decide)⟩, ⟨by decide, .inr (by decide)⟩, by decide⟩

theorem el1Start_ends {world : World} {s : MemUtil 64}
    {base size syscntlPa bufPa : BitVec 64}
    (settled : @Settled .aarch64 (el1PgtblBase world) (el1RegionEnd world) s)
    (heap : s.memHeapPool = el1VaHeapBase world)
    (room : s.memNextPa.toNat + 0xC000 ≤ el1RegionEnd world)
    (fits : (Span.mk base (pageCount size)).Fits)
    (low : (Span.mk base (pageCount size)).stop ≤ (el1PgtblBase world).toNat)
    (page : Page syscntlPa) (bufPage : Page bufPa)
    (apart : syscntlPa.toNat + 0x1000 ≤ (el1PgtblBase world).toNat)
    (atPa : s.mem (bufPaAt syscntlPa) = bufPa)
    (atVa : s.mem (bufVaAt syscntlPa) = el3SmcInteropBuf) :
    ∃ started,
      (∀ fuel rounds, el1Start world (fuel + 2) (pageCount size + 2 + rounds) base size
        syscntlPa s = some started) ∧
      El1Ready world ⟨base, pageCount size⟩ syscntlPa bufPa s started := by
  obtain ⟨heapFits, interopFits, covers, covers', elsewhere, elsewhere', differ⟩ :=
    el1Heap_facts world
  obtain ⟨s1, ran1, init⟩ := unmapInit_ends fits low settled
  have heap1 : s1.memHeapPool = el1VaHeapBase world := init.heapPool.trans heap
  have next1 := init.next
  obtain ⟨s2, ran2, first, _, _, _⟩ := heapPage_ends init.settled (heap1 ▸ elsewhere)
    (by rw [next1]; omega)
  rw [heap1] at first ran2
  have most := first.most
  rw [next1] at most
  obtain ⟨s3, ran3, second, _⟩ := mapPage_ends first.settled elsewhere page (by omega)
  have most' := second.most
  obtain ⟨s4, ran4, third, _⟩ := mapPage_ends second.settled elsewhere' bufPage (by omega)
  obtain ⟨attr, here⟩ := second.here
  obtain ⟨attr', here'⟩ := third.here
  have facts : (el1VaHeapBase world).toNat % 0x1000 = 0 ∧
      (el1VaHeapBase world).toNat < 2 ^ 48 := by
    cases world <;> decide
  have syscntlAt := PageAt.of_translate facts.1 facts.2 page here
  have syscntlStays := syscntlAt.congr facts.1 facts.2 (third.others elsewhere differ)
  -- memory that is not EL1's own keeps its contents
  have foreign {addr : BitVec 64}
      (outside : addr.toNat < (el1PgtblBase world).toNat ∨ el1RegionEnd world ≤ addr.toNat) :
      s3.mem addr = s.mem addr ∧ s4.mem addr = s.mem addr := by
    obtain ⟨there, same⟩ := init.beside (settled.beside outside)
    obtain ⟨there', same'⟩ := first.beside there
    obtain ⟨there'', same''⟩ := second.beside there'
    obtain ⟨_, same'''⟩ := third.beside there''
    have chain := same''.trans (same'.trans same)
    exact ⟨chain, same'''.trans chain⟩
  have field {offset : BitVec 64} (small : offset.toNat < 0x1000) :=
    @foreign (syscntlPa + offset) (by
      have wide := page.small
      have number := @add_toNat syscntlPa offset (by omega) small
      omega)
  have vaWord := field (by decide : (8 : BitVec 64).toNat < 0x1000)
  have paWord := field (by decide : (0 : BitVec 64).toNat < 0x1000)
  have readVa : ldr (el1PgtblBase world) s3.mem (bufVaAt (el1VaHeapBase world)) =
      some el3SmcInteropBuf :=
    (syscntlAt.ldr (by decide)).trans (congrArg some (vaWord.1.trans atVa))
  have readPa : ldr (el1PgtblBase world) s3.mem (bufPaAt (el1VaHeapBase world)) =
      some bufPa :=
    (syscntlAt.ldr (by decide)).trans (congrArg some (paWord.1.trans atPa))
  have readAgain : ldr (el1PgtblBase world) s4.mem (bufVaAt (el1VaHeapBase world)) =
      some el3SmcInteropBuf :=
    (syscntlStays.ldr (by decide)).trans (congrArg some (vaWord.2.trans atVa))
  have untouched {va : BitVec 64}
      (clear : @Elsewhere .aarch64 (el1PgtblBase world) (el1RegionEnd world) va)
      (outside : ¬(el1Heap world).Covers va) (beyond : ¬interopPage.Covers va) :
      mapper.translate s4.mem (el1PgtblBase world) va =
        mapper.translate s1.mem (el1PgtblBase world) va := by
    have notHeap := not_samePage_of_uncovered heapFits clear.small covers outside
    have notBuf := not_samePage_of_uncovered interopFits clear.small covers' beyond
    exact (third.others clear notBuf).trans ((second.others clear notHeap).trans
      (first.others clear notHeap))
  have bufAt : PageAt (el1PgtblBase world) s4.mem el3SmcInteropBuf bufPa :=
    PageAt.of_translate (by decide) (by decide) bufPage here'
  refine ⟨⟨s4, el1VaHeapBase world, el3SmcInteropBuf⟩, ?_, ?_⟩
  · intro fuel rounds
    have count : pageCount size + 2 + rounds = pageCount size + 1 + (1 + rounds) := by omega
    have count' : pageCount size + 2 + rounds = pageCount size + rounds + 2 := by omega
    refine Option.bind_eq_some_iff.mpr ⟨s1, count ▸ ran1 _, ?_⟩
    refine Option.bind_eq_some_iff.mpr ⟨(el1VaHeapBase world, s2), count' ▸ ran2 .., ?_⟩
    refine Option.bind_eq_some_iff.mpr ⟨s3, ran3 fuel, ?_⟩
    refine Option.bind_eq_some_iff.mpr ⟨el3SmcInteropBuf, readVa, ?_⟩
    refine Option.bind_eq_some_iff.mpr ⟨bufPa, readPa, ?_⟩
    refine Option.bind_eq_some_iff.mpr ⟨s4, ran4 fuel, ?_⟩
    exact Option.bind_eq_some_iff.mpr ⟨el3SmcInteropBuf, readAgain, rfl⟩
  · refine
      { settled := third.settled
        syscntl := syscntlStays
        smcInteropBuf := bufAt
        place := ⟨rfl, rfl⟩
        gone := ?_
        kept := ?_
        next := ?_
        frame := fun outside => (foreign outside).2 }
    · intro va inside
      have under := lt_of_lt_of_le inside.2 low
      have far : (el1PgtblBase world).toNat ≤ (el1Heap world).base.toNat ∧
          (el1PgtblBase world).toNat ≤ interopPage.base.toNat := by
        cases world <;> decide
      have missing := (untouched ⟨lt_of_lt_of_le inside.2 fits.limit, .inl under⟩
        (by rintro ⟨above, _⟩; omega) (by rintro ⟨above, _⟩; omega)).trans (init.gone inside)
      unfold access
      rw [hwWalk_none missing]
      rfl
    · intro va clear outside notHeap notBuf
      exact access_congr ((untouched clear notHeap notBuf).trans (init.others clear outside))
    · have order := le_trans first.advances (le_trans second.advances third.advances)
      rw [next1] at order
      exact order

theorem el1Layout_windowed (image : ImageSymbols) (world : World) :
    (image.el1Layout world).Windowed where
  window := List.mem_cons_of_mem _ (List.mem_cons_self ..)
  inRegion := by
    change (el1PgtblBase world).toNat + 0x40000 < regionEnd (el1PgtblBase world)
    cases world <;> decide
  owned := by
    change regionEnd (el1PgtblBase world) ≤ (nextRamBase world).toNat
    cases world <;> decide

/-- EL1 has come to the point where it loads EL0. -/
structure El1Booted (world : World) (image : ImageSymbols) (syscntlPa bufPa : BitVec 64)
    (s : InitUtil) (start : El1Start) (started : El1Started) : Prop where
  enters : El1Enters world image syscntlPa s start
  ran (fuel rounds : Nat) :
    bootEl1 world image (fuel + 2) (pageCount image.initSize + 2 + rounds) syscntlPa s =
      some started
  ready : El1Ready world ⟨image.initBase, pageCount image.initSize⟩ syscntlPa bufPa
    ⟨start.mem, start.x17, el1VaHeapBase world⟩ started

theorem bootEl1_ends {world : World} {image : ImageSymbols} {s : InitUtil}
    {syscntlPa bufPa : BitVec 64} (laid : image.El1Laid world)
    (starts : (image.el1Layout world).Starts (image.el1Calls world) s)
    (few : (image.el1Layout world).Few (image.el1Calls world) s)
    (page : Page syscntlPa) (bufPage : Page bufPa)
    (above : el3PgtblBase.toNat ≤ syscntlPa.toNat)
    (apart : syscntlPa.toNat + 0x1000 ≤ (el1PgtblBase world).toNat)
    (atPa : s.mem (bufPaAt syscntlPa) = bufPa)
    (atVa : s.mem (bufVaAt syscntlPa) = el3SmcInteropBuf) :
    ∃ start started, El1Booted world image syscntlPa bufPa s start started := by
  obtain ⟨start, enters⟩ := laid.enters syscntlPa starts
  have taken := few _ enters.x17
  change _ ≤ (el1PgtblBase world).toNat + 0x40000 at taken
  have far : (el1PgtblBase world).toNat + 0x4C000 ≤ el1RegionEnd world := by
    cases world <;> decide
  have settled := enters.relocated.settled (image.el1Layout_placed world)
    (el1Layout_windowed image world) starts.clear taken (el1VaHeapBase world)
  have fits : (Span.mk image.initBase (pageCount image.initSize)).Fits := by
    apply laid.fits
    exact List.mem_append_right _ (List.mem_append_right _ (List.mem_cons_self ..))
  have low : (Span.mk image.initBase (pageCount image.initSize)).stop ≤
      (el1PgtblBase world).toNat :=
    le_trans laid.init (ImageSymbols.el1PgtblBase_high world).1
  have field {offset : BitVec 64} (small : offset.toNat < 0x1000) :
      start.mem (syscntlPa + offset) = s.mem (syscntlPa + offset) := by
    have wide := page.small
    have number := @add_toNat syscntlPa offset (by omega) small
    refine enters.relocated.frame (.inl ⟨?_, not_startUpWord_of_el3 ?_⟩)
    · change _ < (el1PgtblBase world).toNat
      omega
    · omega
  obtain ⟨started, starts', ready⟩ := @el1Start_ends world
    ⟨start.mem, start.x17, el1VaHeapBase world⟩ _ _ _ _ settled rfl
    (by change start.x17.toNat + _ ≤ _; omega) fits low page bufPage apart
    ((field (by decide)).trans atPa) ((field (by decide)).trans atVa)
  refine ⟨start, started, enters, ?_, ready⟩
  intro fuel rounds
  refine Option.bind_eq_some_iff.mpr ⟨start, enters.ran, ?_⟩
  rw [enters.x16]
  exact starts' fuel rounds

theorem El1Booted.frame {world : World} {image : ImageSymbols} {syscntlPa bufPa : BitVec 64}
    {s : InitUtil} {start : El1Start} {started : El1Started}
    (boots : El1Booted world image syscntlPa bufPa s start started) {addr : BitVec 64}
    (outside : addr.toNat < (el1PgtblBase world).toNat ∧ ¬StartUpWord addr ∨
      el1RegionEnd world ≤ addr.toNat) :
    started.s.mem addr = s.mem addr := by
  obtain ⟨enters, _, ready⟩ := boots
  have next : started.s.memNextPa.toNat ≤ el1RegionEnd world := ready.settled.below
  have taken : start.x17.toNat ≤ started.s.memNextPa.toNat := ready.next
  exact (ready.frame (outside.imp And.left id)).trans
    (enters.relocated.frame (outside.imp id (le_trans (le_trans taken next))))

/-- The image of the nonsecure world, with the sections of `smallEl1`. -/
def smallNonsecure : ImageSymbols :=
  { smallEl1 with textBase := 0x80000000, dataBase := 0x80002000 }

theorem smallNonsecure_laid : smallNonsecure.El1Laid .nonsecure where
  fits := by
    have fits : ∀ span ∈ (smallNonsecure.el1Layout .nonsecure).spans,
        span.base.toNat % 0x1000 = 0 ∧ span.stop ≤ 2 ^ 48 := by
      decide
    exact fun span member => ⟨(fits span member).1, (fits span member).2⟩
  apart := by
    have order : (smallNonsecure.el1Layout .nonsecure).spans.Pairwise fun left right =>
        left.stop ≤ right.base.toNat ∨ right.stop ≤ left.base.toNat := by
      decide
    exact order.imp Span.apart_of_stop
  short := by decide
  init := by decide
  flash := by decide

/-- The small images. -/
def smallImage : World → ImageSymbols
  | .secure => smallEl1
  | .nonsecure => smallNonsecure

theorem smallImage_laid (world : World) : (smallImage world).El1Laid world := by
  cases world with
  | secure => exact smallEl1_laid
  | nonsecure => exact smallNonsecure_laid

theorem smallImage_starts {world : World} {s : InitUtil}
    (clear : ∀ addr : BitVec 64, (el1PgtblBase world).toNat ≤ addr.toNat →
      addr.toNat < (nextRamBase world).toNat → s.mem addr = 0) :
    ((smallImage world).el1Layout world).Starts ((smallImage world).el1Calls world) s where
  clear above below := clear _ above below
  room := ((smallImage world).el1Layout_placed world).room_of_pages (by
    cases world <;> decide)

theorem smallImage_few {world : World} {s : InitUtil}
    (clear : ∀ addr : BitVec 64, (el1PgtblBase world).toNat ≤ addr.toNat →
      addr.toNat < (nextRamBase world).toNat → s.mem addr = 0) :
    ((smallImage world).el1Layout world).Few ((smallImage world).el1Calls world) s := by
  have taken : (((smallImage world).el1Layout world).poolAfter
      ((smallImage world).el1Calls world) { smallInit with mem := fun _ => 0 }).all
        fun next => decide (next.toNat ≤ (el1PgtblBase world).toNat + 0x40000) := by
    cases world <;> decide +kernel
  have laid := smallImage_laid world
  have same := laid.poolAfter_same laid.fit ((smallImage world).el1Layout_placed world)
    laid.proper (by change 9 ≤ 2 ^ 10; decide)
    (@smallImage_starts world { smallInit with mem := fun _ => 0 } fun _ _ _ => rfl) clear
  intro next reached
  rw [← same, reached] at taken
  exact of_decide_eq_true taken

end TzTest.Aarch64.Boot
