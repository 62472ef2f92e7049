import TzTest.Boot.Start
import TzTest.Boot.Handoff

/-!
# The init segment is unmapped

The loop of `el3_start` and `el1_start` takes away the pages of the init segment, and
nothing else.
-/

namespace TzTest.Aarch64.Boot

open Radix BitField

/-- The pages of a range from one number on are gone. -/
structure Unmapped (base : BitVec 64) (stop : Nat) (span : Span) (number : Nat)
    (s later : MemUtil 64) : Prop where
  settled : @Settled .aarch64 base stop later
  gone {va : BitVec 64} : @Elsewhere .aarch64 base stop va →
    (∃ n, number ≤ n ∧ n < span.pages ∧ mapper.SamePage va (span.page n)) →
    mapper.translate later.mem base va = none
  others {va : BitVec 64} : @Elsewhere .aarch64 base stop va →
    (∀ n, number ≤ n → n < span.pages → ¬mapper.SamePage va (span.page n)) →
    mapper.translate later.mem base va = mapper.translate s.mem base va
  next : later.memNextPa = s.memNextPa
  heapPool : later.memHeapPool = s.memHeapPool
  beside {addr : BitVec 64} : @Beside .aarch64 base stop s addr →
    @Beside .aarch64 base stop later addr ∧ later.mem addr = s.mem addr

variable {base : BitVec 64} {stop : Nat} {s later : MemUtil 64}

theorem roundedUp_toNat (size : BitVec 64) :
    ((size + (0x1000 - 1)) &&& ~~~(0x1000 - 1)).toNat = 0x1000 * pageCount size := by
  have floor (addr : BitVec 64) : (addr &&& ~~~0xFFF).toNat = addr.toNat / 0x1000 * 0x1000 :=
    @pageBase_toNat .aarch64 addr
  have less : (0x1000 - 1 : BitVec 64) = 0xFFF := by decide
  unfold pageCount
  rw [less, floor]
  omega

theorem page_succ (span : Span) (number : Nat) :
    span.page (number + 1) = span.page number + 0x1000 := by
  unfold Span.page
  rw [Nat.mul_succ, BitVec.ofNat_add, BitVec.add_assoc]
  rfl

/-- The loop from one of its rounds on. -/
theorem unmapInit_from (size : BitVec 64) {start : BitVec 64}
    (elsewhere : ∀ number < pageCount size,
      @Elsewhere .aarch64 base stop ((Span.mk start (pageCount size)).page number))
    (settled : @Settled .aarch64 base stop s) {number left : Nat} (total : number + left = pageCount size) :
    ∃ later, (∀ rounds, unmapInit base size (left + 1 + rounds)
        (BitVec.ofNat 64 (0x1000 * number))
        ((Span.mk start (pageCount size)).page number) s = some later) ∧
      Unmapped base stop ⟨start, pageCount size⟩ number s later := by
  have bound := roundedUp_toNat size
  have limit := ((size + (0x1000 - 1)) &&& ~~~(0x1000 - 1)).isLt
  have offset : (BitVec.ofNat 64 (0x1000 * number)).toNat = 0x1000 * number := by
    rw [BitVec.toNat_ofNat]
    omega
  induction left generalizing number s with
  | zero =>
      refine ⟨s, ?_, settled, ?_, fun _ _ => rfl, rfl, rfl, fun beside => ⟨beside, rfl⟩⟩
      · intro rounds
        have done : ¬BitVec.ofNat 64 (0x1000 * number) <
            (size + (0x1000 - 1)) &&& ~~~(0x1000 - 1) := by
          rw [BitVec.lt_def, offset, bound]
          omega
        rw [Nat.add_right_comm]
        exact if_neg done
      · rintro va _ ⟨n, above, below, _⟩
        change n < pageCount size at below
        omega
  | succ left induction =>
      have inside : number < pageCount size := by omega
      let op : MemOp .aarch64 :=
        .unmapVa ((Span.mk start (pageCount size)).page number)
      obtain ⟨middle, ran, _, leaves⟩ := settled.call op (elsewhere number inside)
        settled.below
      have next : middle.memNextPa = s.memNextPa := by
        apply BitVec.eq_of_toNat_eq
        exact leaves.taken
      have unmapped : (memUnmapVa base ((Span.mk start (pageCount size)).page number) s).2 =
          middle := Option.some.inj (ran 0)
      obtain ⟨later, rest, last⟩ := @induction middle leaves.settled (number + 1) (by omega) (by rw [BitVec.toNat_ofNat]; omega)
      refine ⟨later, ?_, last.settled, ?_, ?_, last.next.trans next,
        last.heapPool.trans leaves.heapPool, ?_⟩
      · intro rounds
        have more : BitVec.ofNat 64 (0x1000 * number) <
            (size + (0x1000 - 1)) &&& ~~~(0x1000 - 1) := by
          rw [BitVec.lt_def, offset, bound]
          omega
        have step : BitVec.ofNat 64 (0x1000 * number) + 0x1000 =
            BitVec.ofNat 64 (0x1000 * (number + 1)) := by
          rw [Nat.mul_succ, BitVec.ofNat_add]
          rfl
        have count : left + 1 + 1 + rounds = left + 1 + rounds + 1 := by omega
        rw [count, unmapInit, if_pos more, step, ← page_succ, unmapped]
        exact rest rounds
      · rintro va clear ⟨n, above, below, same⟩
        by_cases later' : ∃ n, number + 1 ≤ n ∧ n < pageCount size ∧
            mapper.SamePage va ((Span.mk start (pageCount size)).page n)
        · exact last.gone clear later'
        · have here : n = number := by
            by_contra other
            exact later' ⟨n, by omega, below, same⟩
          subst here
          refine (last.others clear ?_).trans (leaves.here same)
          exact fun n above below same => later' ⟨n, above, below, same⟩
      · intro va clear apart
        refine (last.others clear ?_).trans (leaves.others clear ?_)
        · exact fun n above below => apart n (by omega) below
        · exact apart number (le_refl _) inside
      · intro addr beside
        obtain ⟨beside', same⟩ := leaves.beside beside
        obtain ⟨beside'', same'⟩ := last.beside beside'
        exact ⟨beside'', same'.trans same⟩

/-- The init segment below the tables is gone when the loop is left. -/
structure InitGone (base : BitVec 64) (stop : Nat) (init : Span) (s later : MemUtil 64) :
    Prop where
  settled : @Settled .aarch64 base stop later
  gone {va : BitVec 64} : init.Covers va → mapper.translate later.mem base va = none
  others {va : BitVec 64} : @Elsewhere .aarch64 base stop va → ¬init.Covers va →
    mapper.translate later.mem base va = mapper.translate s.mem base va
  next : later.memNextPa = s.memNextPa
  heapPool : later.memHeapPool = s.memHeapPool
  beside {addr : BitVec 64} : @Beside .aarch64 base stop s addr →
    @Beside .aarch64 base stop later addr ∧ later.mem addr = s.mem addr

theorem unmapInit_ends {start size : BitVec 64}
    (fits : (Span.mk start (pageCount size)).Fits)
    (low : (Span.mk start (pageCount size)).stop ≤ base.toNat)
    (settled : @Settled .aarch64 base stop s) :
    ∃ later, (∀ rounds, unmapInit base size (pageCount size + 1 + rounds) 0 start s =
        some later) ∧
      InitGone base stop ⟨start, pageCount size⟩ s later := by
  have covered {va : BitVec 64} (covers : (Span.mk start (pageCount size)).Covers va) :
      @Elsewhere .aarch64 base stop va :=
    ⟨lt_of_lt_of_le covers.2 fits.limit, .inl (lt_of_lt_of_le covers.2 low)⟩
  obtain ⟨later, ran, unmapped⟩ := unmapInit_from size
    (fun number inside => covered (fits.covers_page inside)) settled (Nat.zero_add _)
  have first : (Span.mk start (pageCount size)).page 0 = start := BitVec.add_zero _
  rw [first] at ran
  refine ⟨later, ran, unmapped.settled, ?_, ?_, unmapped.next, unmapped.heapPool,
    unmapped.beside⟩
  · intro va covers
    obtain ⟨number, inside, same, _⟩ := fits.exists_page covers
    exact unmapped.gone (covered covers) ⟨number, Nat.zero_le _, inside, same⟩
  · intro va clear outside
    apply unmapped.others clear
    intro number _ inside same
    exact fits.not_samePage (fits.covers_page inside) clear.small outside
      fun level below => (same level below).symm

end TzTest.Aarch64.Boot
