import TzTest.Boot.Pages
import TzTest.InitUtil.El3Relocation

/-!
# EL3 is ready for EL1

`el3_start` unmaps the init segment and sets up two pages, of which EL1 gets to know
the physical addresses.
-/

namespace TzTest.Aarch64.Boot

open Radix BitField

/-- The 2 MB of the tables of EL3. -/
def el3RegionEnd : Nat :=
  regionEnd el3PgtblBase

/-- The two pages of the heap. -/
def el3Heap : Span :=
  ⟨el3VaHeapBase, 2⟩

def el3SmcInteropBuf : BitVec 64 :=
  el3VaHeapBase + 0x1000

/-- What EL3 leaves for EL1: the page of `syscntl` tells where the page of
`smc_interop_buf` is. -/
structure El3Ready (init : Span) (before : MemUtil 64) (started : El3Started) : Prop where
  settled : @Settled .aarch64 el3PgtblBase el3RegionEnd started.s
  syscntl : PageAt el3PgtblBase started.s.mem started.syscntl started.syscntlPa
  smcInteropBuf : PageAt el3PgtblBase started.s.mem started.smcInteropBuf
    (started.s.mem (bufPaAt started.syscntlPa))
  bufVa : started.s.mem (bufVaAt started.syscntlPa) = started.smcInteropBuf
  place : started.syscntl = el3VaHeapBase ∧ started.smcInteropBuf = el3SmcInteropBuf
  start : el3PgtblBase.toNat ≤ before.memNextPa.toNat
  /-- Both pages were unused, and are not one. -/
  syscntlPage : Page started.syscntlPa ∧
    before.memNextPa.toNat ≤ started.syscntlPa.toNat ∧
    started.syscntlPa.toNat < (started.s.mem (bufPaAt started.syscntlPa)).toNat
  bufPage : Page (started.s.mem (bufPaAt started.syscntlPa)) ∧
    (started.s.mem (bufPaAt started.syscntlPa)).toNat < started.s.memNextPa.toNat
  /-- They are not tables either. -/
  beside {offset : BitVec 64} : offset.toNat < 0x1000 →
    @Beside .aarch64 el3PgtblBase el3RegionEnd started.s (started.syscntlPa + offset) ∧
      @Beside .aarch64 el3PgtblBase el3RegionEnd started.s
        (started.s.mem (bufPaAt started.syscntlPa) + offset)
  gone {va : BitVec 64} : init.Covers va → access el3PgtblBase started.s.mem va = none
  kept {va : BitVec 64} : @Elsewhere .aarch64 el3PgtblBase el3RegionEnd va →
    ¬init.Covers va → ¬el3Heap.Covers va →
    access el3PgtblBase started.s.mem va = access el3PgtblBase before.mem va
  frame {addr : BitVec 64} :
    addr.toNat < el3PgtblBase.toNat ∨ el3RegionEnd ≤ addr.toNat →
    started.s.mem addr = before.mem addr

theorem not_samePage_of_uncovered {span : Span} (fits : span.Fits) {va page : BitVec 64}
    (small : va.toNat < 2 ^ 48) (covers : span.Covers page) (outside : ¬span.Covers va) :
    ¬mapper.SamePage va page := by
  intro same
  exact fits.not_samePage covers small outside fun level below => (same level below).symm

theorem el3Heap_facts :
    el3Heap.Fits ∧ el3Heap.Covers el3VaHeapBase ∧ el3Heap.Covers el3SmcInteropBuf ∧
      @Elsewhere .aarch64 el3PgtblBase el3RegionEnd el3VaHeapBase ∧
      @Elsewhere .aarch64 el3PgtblBase el3RegionEnd el3SmcInteropBuf ∧
      ¬mapper.SamePage el3VaHeapBase el3SmcInteropBuf := by
  refine ⟨⟨by decide, by decide⟩, ?_, ?_, ⟨by decide, .inr (by decide)⟩,
    ⟨by decide, .inr (by decide)⟩, by decide⟩ <;>
  · unfold Span.Covers
    decide

/-- Both fields are written. -/
structure Filled (base : BitVec 64) (stop : Nat) (syscntlPa bufVa bufPa : BitVec 64)
    (s later : MemUtil 64) : Prop where
  settled : @Settled .aarch64 base stop later
  translated (va : BitVec 64) :
    mapper.translate later.mem base va = mapper.translate s.mem base va
  next : later.memNextPa = s.memNextPa
  bufVa : later.mem (bufVaAt syscntlPa) = bufVa
  bufPa : later.mem (bufPaAt syscntlPa) = bufPa
  frame {addr : BitVec 64} : addr ≠ bufVaAt syscntlPa → addr ≠ bufPaAt syscntlPa →
    later.mem addr = s.mem addr
  beside {addr : BitVec 64} : @Beside .aarch64 base stop s addr →
    @Beside .aarch64 base stop later addr

theorem fill_ends {base syscntl syscntlPa bufVa bufPa attr : BitVec 64} {stop : Nat}
    {s : MemUtil 64} (settled : @Settled .aarch64 base stop s)
    (syscntlAt : PageAt base s.mem syscntl syscntlPa) (page : Page bufPa)
    (translated : mapper.translate s.mem base bufVa = some ⟨bufPa, attr⟩)
    (beside : ∀ offset : BitVec 64, offset.toNat < 0x1000 →
      @Beside .aarch64 base stop s (syscntlPa + offset)) :
    ∃ middle later,
      str base (bufVaAt syscntl) bufVa s.mem = some middle ∧
      str base (bufPaAt syscntl) (memLookupPa base bufVa { s with mem := middle }) middle =
        some later ∧
      Filled base stop syscntlPa bufVa bufPa s { s with mem := later } := by
  have atVa := beside 8 (by decide)
  have settled' := settled.write atVa bufVa
  have same' (va : BitVec 64) :
      mapper.translate (s.write (bufVaAt syscntlPa) bufVa).mem base va =
        mapper.translate s.mem base va := translate_write atVa bufVa va
  have looked : memLookupPa base bufVa (s.write (bufVaAt syscntlPa) bufVa) = bufPa :=
    memLookupPa_page settled' page ((same' bufVa).trans translated)
  have beside' {addr : BitVec 64} (there : @Beside .aarch64 base stop s addr) :
      @Beside .aarch64 base stop (s.write (bufVaAt syscntlPa) bufVa) addr :=
    atVa.write there bufVa
  have atPa := beside' (beside 0 (by decide))
  have reached : access base (s.write (bufVaAt syscntlPa) bufVa).mem (bufPaAt syscntl) =
      some (bufPaAt syscntlPa) :=
    (access_congr (same' _)).trans (syscntlAt 0 (by decide))
  have differ : bufVaAt syscntlPa ≠ bufPaAt syscntlPa := by
    unfold bufVaAt bufPaAt
    bv_omega
  refine ⟨(s.write (bufVaAt syscntlPa) bufVa).mem,
    ((s.write (bufVaAt syscntlPa) bufVa).write (bufPaAt syscntlPa) bufPa).mem,
    syscntlAt.str (by decide) bufVa, ?_, settled'.write atPa bufPa, ?_, rfl, ?_,
    Function.update_self .., ?_, ?_⟩
  · exact Option.map_eq_some_iff.mpr ⟨_, reached, congrArg _ looked⟩
  · intro va
    exact (translate_write atPa bufPa va).trans (same' va)
  · exact (Function.update_of_ne differ ..).trans (Function.update_self ..)
  · intro addr notVa notPa
    exact (Function.update_of_ne notPa ..).trans (Function.update_of_ne notVa ..)
  · intro addr there
    exact atPa.write (beside' there) bufPa

theorem el3Start_ends {s : MemUtil 64} {base size : BitVec 64}
    (settled : @Settled .aarch64 el3PgtblBase el3RegionEnd s)
    (heap : s.memHeapPool = el3VaHeapBase)
    (room : s.memNextPa.toNat + 0x8000 ≤ el3RegionEnd)
    (fits : (Span.mk base (pageCount size)).Fits)
    (low : (Span.mk base (pageCount size)).stop ≤ el3PgtblBase.toNat) :
    ∃ started,
      (∀ fuel rounds, el3Start (fuel + 2) (pageCount size + 2 + rounds) base size s =
        some started) ∧
      El3Ready ⟨base, pageCount size⟩ s started := by
  obtain ⟨heapFits, covers, covers', elsewhere, elsewhere', differ⟩ := el3Heap_facts
  obtain ⟨s1, ran1, init⟩ := unmapInit_ends fits low settled
  have heap1 : s1.memHeapPool = el3VaHeapBase := init.heapPool.trans heap
  have next1 := init.next
  obtain ⟨s2, ran2, first, heap2, more, own⟩ := heapPage_ends init.settled (heap1 ▸ elsewhere)
    (by rw [next1]; omega)
  rw [heap1] at heap2 first ran2
  change s2.memHeapPool = el3SmcInteropBuf at heap2
  have most := first.most
  rw [next1] at most
  obtain ⟨s3, ran3, second, _, more', own'⟩ := heapPage_ends first.settled (heap2 ▸ elsewhere')
    (by omega)
  rw [heap2] at second ran3
  obtain ⟨attr, here⟩ := first.here
  obtain ⟨attr', here'⟩ := second.here
  have page : Page s1.memNextPa := Settled.page init.settled (by rw [next1]; omega)
  have page' : Page s2.memNextPa := Settled.page first.settled (by omega)
  have stays := (second.others elsewhere differ).trans here
  have syscntlAt := PageAt.of_translate (by decide) (by decide) page stays
  have bufAt := PageAt.of_translate (by decide) (by decide) page' here'
  have beside {offset : BitVec 64} (small : offset.toNat < 0x1000) :
      @Beside .aarch64 el3PgtblBase el3RegionEnd s3 (s1.memNextPa + offset) :=
    (second.beside (own offset small)).1
  obtain ⟨mem4, mem5, stored, stored', filled⟩ :=
    fill_ends second.settled syscntlAt page' here' fun _ => beside
  have bufPa : mem5 (bufPaAt s1.memNextPa) = s2.memNextPa := filled.bufPa
  have untouched {va : BitVec 64} (clear : @Elsewhere .aarch64 el3PgtblBase el3RegionEnd va)
      (outside : ¬el3Heap.Covers va) :
      mapper.translate mem5 el3PgtblBase va = mapper.translate s1.mem el3PgtblBase va :=
    (filled.translated va).trans
      ((second.others clear (not_samePage_of_uncovered heapFits clear.small covers' outside)).trans
        (first.others clear (not_samePage_of_uncovered heapFits clear.small covers outside)))
  have looked : memLookupPa el3PgtblBase el3VaHeapBase { s3 with mem := mem5 } =
      s1.memNextPa :=
    memLookupPa_page filled.settled page ((filled.translated _).trans stays)
  refine ⟨⟨{ s3 with mem := mem5 }, el3VaHeapBase, el3SmcInteropBuf, s1.memNextPa⟩, ?_, ?_⟩
  · intro fuel rounds
    have count : pageCount size + 2 + rounds = pageCount size + 1 + (1 + rounds) := by omega
    have count' : pageCount size + 2 + rounds = pageCount size + rounds + 2 := by omega
    refine Option.bind_eq_some_iff.mpr ⟨s1, count ▸ ran1 _, ?_⟩
    refine Option.bind_eq_some_iff.mpr ⟨(el3VaHeapBase, s2), count' ▸ ran2 .., ?_⟩
    refine Option.bind_eq_some_iff.mpr ⟨(el3SmcInteropBuf, s3), count' ▸ ran3 .., ?_⟩
    refine Option.bind_eq_some_iff.mpr ⟨mem4, stored, ?_⟩
    refine Option.bind_eq_some_iff.mpr ⟨mem5, stored', ?_⟩
    exact congrArg some (congrArg _ looked)
  · refine
      { settled := filled.settled
        syscntl := syscntlAt.congr (by decide) (by decide) (filled.translated _)
        smcInteropBuf := ?_
        bufVa := filled.bufVa
        place := ⟨rfl, rfl⟩
        start := settled.start
        syscntlPage := ?_
        bufPage := ?_
        beside := ?_
        gone := ?_
        kept := ?_
        frame := ?_ }
    · change PageAt el3PgtblBase mem5 el3SmcInteropBuf (mem5 (bufPaAt s1.memNextPa))
      rw [bufPa]
      exact bufAt.congr (by decide) (by decide) (filled.translated _)
    · change Page s1.memNextPa ∧ _ ∧ s1.memNextPa.toNat < (mem5 _).toNat
      rw [bufPa, ← next1]
      exact ⟨page, le_refl _, by omega⟩
    · change Page (mem5 (bufPaAt s1.memNextPa)) ∧ (mem5 (bufPaAt s1.memNextPa)).toNat < _
      rw [bufPa]
      exact ⟨page', by change _ < s3.memNextPa.toNat; omega⟩
    · intro offset small
      refine ⟨filled.beside (beside small), ?_⟩
      change @Beside .aarch64 _ _ _ (mem5 (bufPaAt s1.memNextPa) + offset)
      rw [bufPa]
      exact filled.beside (own' offset small)
    · intro va inside
      have below := lt_of_lt_of_le inside.2 low
      have beyond : ¬el3Heap.Covers va := by
        rintro ⟨above, _⟩
        have far : el3PgtblBase.toNat ≤ el3Heap.base.toNat := by decide
        omega
      have missing := (untouched ⟨lt_of_lt_of_le inside.2 fits.limit, .inl below⟩ beyond).trans
        (init.gone inside)
      unfold access
      rw [hwWalk_none missing]
      rfl
    · intro va clear outside beyond
      exact access_congr ((untouched clear beyond).trans (init.others clear outside))
    · intro addr apart
      have start : el3PgtblBase.toNat ≤ s.memNextPa.toNat := settled.start
      obtain ⟨there, same⟩ := init.beside (settled.beside apart)
      obtain ⟨there', same'⟩ := first.beside there
      obtain ⟨_, same''⟩ := second.beside there'
      have inside {offset : BitVec 64} (small : offset.toNat < 0x1000) :
          addr ≠ s1.memNextPa + offset := by
        rintro rfl
        have wide := page.small
        have number := @add_toNat s1.memNextPa offset (by omega) small
        rw [next1] at number
        rw [next1] at apart
        omega
      exact (filled.frame (inside (by decide)) (inside (by decide))).trans
        (same''.trans (same'.trans same))

theorem not_startUpWord_of_el3 {addr : BitVec 64}
    (above : el3PgtblBase.toNat ≤ addr.toNat) : ¬StartUpWord addr := by
  have words : ramBase.toNat + 0x2008 ≤ el3PgtblBase.toNat := by decide
  exact not_startUpWord (le_trans words above)

theorem el3Layout_windowed (image : ImageSymbols) : image.el3Layout.Windowed where
  window := List.mem_cons_of_mem _ (List.mem_cons_of_mem _ (List.mem_cons_of_mem _
    (List.mem_cons_self ..)))
  inRegion := by
    change el3PgtblBase.toNat + 0x40000 < regionEnd el3PgtblBase
    decide
  owned := by
    change regionEnd el3PgtblBase ≤ el1SecureRamBase.toNat
    decide

/-- EL3 has come to the point where it starts EL1. -/
structure El3Booted (image : ImageSymbols) (s : InitUtil) (booted : Booted)
    (started : El3Started) : Prop where
  enters : El3Enters image s booted
  ran (fuel rounds : Nat) :
    bootEl3 image (fuel + 2) (pageCount image.initSize + 2 + rounds) s = some started
  ready : El3Ready ⟨image.initBase, pageCount image.initSize⟩
    ⟨booted.mem, booted.x17, el3VaHeapBase⟩ started

theorem bootEl3_ends {image : ImageSymbols} {s : InitUtil} (laid : image.El3Laid)
    (init : (Span.mk image.initBase (pageCount image.initSize)).stop ≤ el3PgtblBase.toNat)
    (starts : image.el3Layout.Starts image.el3Calls s)
    (few : image.el3Layout.Few image.el3Calls s) :
    ∃ booted started, El3Booted image s booted started := by
  obtain ⟨booted, enters⟩ := laid.enters starts
  have taken := few _ enters.x17
  change _ ≤ el3PgtblBase.toNat + 0x40000 at taken
  have room : booted.x17.toNat + 0x8000 ≤ el3RegionEnd := by
    have far : el3PgtblBase.toNat + 0x48000 ≤ el3RegionEnd := by decide
    omega
  have settled := enters.relocated.settled image.el3Layout_placed
    (el3Layout_windowed image) starts.clear taken el3VaHeapBase
  have fits : (Span.mk image.initBase (pageCount image.initSize)).Fits := by
    apply laid.fits
    exact List.mem_append_right _ (List.mem_append_right _ (List.mem_cons_self ..))
  obtain ⟨started, starts', ready⟩ := @el3Start_ends
    ⟨booted.mem, booted.x17, el3VaHeapBase⟩ _ _ settled rfl room fits init
  refine ⟨booted, started, enters, ?_, ready⟩
  intro fuel rounds
  exact Option.bind_eq_some_iff.mpr ⟨booted, enters.ran, starts' fuel rounds⟩

theorem El3Booted.frame {image : ImageSymbols} {s : InitUtil} {booted : Booted}
    {started : El3Started} (boots : El3Booted image s booted started) {addr : BitVec 64}
    (outside : addr.toNat < el3PgtblBase.toNat ∧ ¬StartUpWord addr ∨
      el3RegionEnd ≤ addr.toNat) :
    started.s.mem addr = s.mem addr := by
  obtain ⟨enters, _, ready⟩ := boots
  obtain ⟨_, unused, order⟩ := ready.syscntlPage
  obtain ⟨_, inside⟩ := ready.bufPage
  have next : started.s.memNextPa.toNat ≤ el3RegionEnd := ready.settled.below
  change booted.x17.toNat ≤ started.syscntlPa.toNat at unused
  have taken : booted.x17.toNat ≤ el3RegionEnd := by omega
  exact (ready.frame (outside.imp And.left id)).trans
    (enters.relocated.frame (outside.imp id (le_trans taken)))

theorem smallEl3_few {s : InitUtil}
    (clear : ∀ addr : BitVec 64, el3PgtblBase.toNat ≤ addr.toNat →
      addr.toNat < el1SecureRamBase.toNat → s.mem addr = 0) :
    smallEl3.el3Layout.Few smallEl3.el3Calls s := by
  have taken : (smallEl3.el3Layout.poolAfter smallEl3.el3Calls smallReset).all
      fun next => decide (next.toNat ≤ el3PgtblBase.toNat + 0x40000) := by
    decide +kernel
  have same := smallEl3_laid.poolAfter_same smallEl3_laid.fit
    smallEl3.el3Layout_placed smallEl3_laid.proper (by change 9 ≤ 2 ^ 10; decide)
    smallReset_starts clear
  intro next reached
  rw [← same, reached] at taken
  exact of_decide_eq_true taken

end TzTest.Aarch64.Boot
