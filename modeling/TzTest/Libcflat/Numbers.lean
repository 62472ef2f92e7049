import Mathlib.Data.Nat.Digits.Lemmas
import TzTest.Libcflat.Format

/-!
# Numbers and their digits

`print_int` and `print_unsigned` write the digits from the last one on into a local
array and turn them around.  They print the number unless the array is too short.
-/

namespace TzTest.Libcflat

theorem digits_getElem {digit : Nat} (small : digit < 16) :
    digits[digit]? = some (digitChar digit) := by
  have inside : digit < digits.length := small
  simp [digitChar, List.getD, List.getElem?_eq_getElem inside]

/-- The loop adds the digits while there is room. -/
theorem digitLoop_eq {size base rounds n : Nat} {buf : List CChar} (big : 2 ≤ base)
    (small : base ≤ 16) (enough : (Nat.digits base n).length < rounds)
    (inside : buf.length ≤ size) :
    digitLoop size base rounds n buf =
      if buf.length + (Nat.digits base n).length ≤ size then
        some (buf ++ (Nat.digits base n).map digitChar)
      else none := by
  induction rounds generalizing n buf with
  | zero => cases enough
  | succ rounds induction =>
      rw [digitLoop]
      by_cases zero : n = 0
      · simp [zero, inside]
      · have more : Nat.digits base n = n % base :: Nat.digits base (n / base) :=
          Nat.digits_def' big (Nat.pos_of_ne_zero zero)
        have remainder : (n : Int).tmod base = ((n % base : Nat) : Int) := rfl
        have quotient : (n : Int).tdiv base = ((n / base : Nat) : Int) := rfl
        have digit : n % base < 16 := lt_of_lt_of_le (Nat.mod_lt n (by omega)) small
        have nonzero : (n : Int) ≠ 0 := by omega
        rw [more] at enough
        rw [if_pos nonzero, remainder, quotient, if_neg (by omega), Int.toNat_natCast,
          digits_getElem digit, more, List.length_cons, List.map_cons]
        simp only [bind, Option.bind_some, push]
        by_cases room : buf.length < size
        · have longer : (buf ++ [digitChar (n % base)]).length ≤ size := by
            simpa using room
          rw [if_pos room, Option.bind_some, induction (Nat.lt_of_succ_lt_succ enough) longer]
          simp [Nat.add_assoc, Nat.add_comm 1]
        · rw [if_neg room, Option.bind_none, if_neg (by omega)]

theorem swap_length (buf : List CChar) (i : Nat) : (swap buf i).length = buf.length := by
  simp [swap]

theorem swapLoop_length (buf : List CChar) (i : Nat) :
    (swapLoop buf i).length = buf.length := by
  induction i with
  | zero => rfl
  | succ i induction => rw [swapLoop, swap_length, induction]

/-- After some rounds, both ends have changed their places. -/
theorem swapLoop_get (buf : List CChar) {i : Nat} (half : i ≤ buf.length / 2) {place : Nat}
    (inside : place < buf.length) :
    (swapLoop buf i).getD place 0 =
      if place < i ∨ buf.length - i ≤ place then buf.getD (buf.length - 1 - place) 0
      else buf.getD place 0 := by
  induction i generalizing place with
  | zero =>
      have neither : ¬(place < 0 ∨ buf.length - 0 ≤ place) := by omega
      rw [if_neg neither]
      rfl
  | succ i induction =>
      have low : i < buf.length := by omega
      have high : buf.length - 1 - i < buf.length := by omega
      have atLow := @induction (by omega) i low
      have atHigh := @induction (by omega) _ high
      have atPlace := @induction (by omega) place inside
      rw [if_neg (by omega)] at atLow
      rw [if_neg (by omega)] at atHigh
      have length := swapLoop_length buf i
      simp only [swapLoop, swap, length, List.getD_eq_getElem?_getD, List.getElem?_set,
        List.length_set] at atLow atHigh atPlace ⊢
      by_cases last : buf.length - 1 - i = place
      · subst last
        have back : buf.length - 1 - (buf.length - 1 - i) = i := by omega
        have moved : buf.length - 1 - i < i + 1 ∨
            buf.length - (i + 1) ≤ buf.length - 1 - i := .inr (by omega)
        rw [if_pos rfl, if_pos high, if_pos moved, back]
        exact atLow
      · by_cases first : i = place
        · subst first
          have moved : i < i + 1 ∨ buf.length - (i + 1) ≤ i := .inl (Nat.lt_succ_self i)
          rw [if_neg last, if_pos rfl, if_pos low, if_pos moved]
          exact atHigh
        · have same : (place < i ∨ buf.length - i ≤ place) ↔
              (place < i + 1 ∨ buf.length - (i + 1) ≤ place) := by omega
          rw [if_neg last, if_neg first]
          simpa only [same] using atPlace

theorem swapLoop_eq_reverse (buf : List CChar) :
    swapLoop buf (buf.length / 2) = buf.reverse := by
  apply List.ext_getElem
  · simp [swapLoop_length]
  · intro place inside inside'
    have within : place < buf.length := by simpa using inside'
    have found := swapLoop_get buf (le_refl _) within
    have mirror : buf.length - 1 - place < buf.length := by omega
    simp only [List.getD_eq_getElem?_getD, List.getElem?_eq_getElem, inside, within, mirror,
      Option.getD_some] at found
    rw [found, List.getElem_reverse]
    split
    · rfl
    · congr 1
      omega

variable {arch : Arch}

theorem finish_eq {size : Nat} {ps : Pstream arch} {buf text : List CChar}
    {props : Strprops} (filled : buf = text.reverse) :
    ((push size 0 (swapLoop buf (buf.length / 2))).bind fun _ =>
        some (printStr ps (swapLoop buf (buf.length / 2)) props)) =
      if text.length < size then some (printStr ps text props) else none := by
  subst filled
  rw [swapLoop_eq_reverse, List.reverse_reverse, push]
  split <;> rfl

theorem push_finish_eq {size : Nat} {ps : Pstream arch} {buf text : List CChar}
    {props : Strprops} {c : CChar} (filled : buf ++ [c] = text.reverse) :
    ((push size c buf).bind fun buf =>
        (push size 0 (swapLoop buf (buf.length / 2))).bind fun _ =>
          some (printStr ps (swapLoop buf (buf.length / 2)) props)) =
      if text.length < size then some (printStr ps text props) else none := by
  by_cases room : buf.length < size
  · rw [push, if_pos room]
    exact finish_eq filled
  · have length := congrArg List.length filled
    simp only [List.length_append, List.length_singleton, List.length_reverse] at length
    rw [push, if_neg room, if_neg (by omega)]
    rfl

theorem printDigits_signed {size : Nat} {ps : Pstream arch} {buf : List CChar}
    {props : Strprops} :
    printDigits size ps buf true props =
      if buf.length + 1 < size then some (printStr ps (ch '-' :: buf.reverse) props)
      else none := by
  have filled : buf ++ [ch '-'] = (ch '-' :: buf.reverse).reverse := by simp
  have finished := @push_finish_eq arch size ps _ _ props _ filled
  rw [List.length_cons, List.length_reverse] at finished
  rw [← finished]
  unfold printDigits
  by_cases room : buf.length < size
  · simp [push, room]
  · simp [push, room]

theorem printDigits_unsigned {size : Nat} {ps : Pstream arch} {buf : List CChar}
    {props : Strprops} :
    printDigits size ps buf false props =
      if (if buf = [] then [ch '0'] else buf.reverse).length < size then
        some (printStr ps (if buf = [] then [ch '0'] else buf.reverse) props)
      else none := by
  cases buf with
  | nil =>
      have finished := @push_finish_eq arch size ps [] [ch '0'] props _ rfl
      rw [if_pos rfl, ← finished]
      rfl
  | cons c buf =>
      have finished := @finish_eq arch size ps (c :: buf) (c :: buf).reverse props (by simp)
      rw [if_neg (List.cons_ne_nil c buf), ← finished]
      rfl

theorem digits_short {base n : Nat} (big : 2 ≤ base) (small : n < 2 ^ 64) :
    (Nat.digits base n).length < 65 := by
  apply Nat.lt_succ_of_le
  rw [Nat.digits_length_le_iff big]
  exact lt_of_lt_of_le small (Nat.pow_le_pow_left big 64)

theorem numeral_eq (base n : Nat) :
    (if (Nat.digits base n).map digitChar = [] then [ch '0']
      else ((Nat.digits base n).map digitChar).reverse) = numeral base n := by
  unfold numeral
  simp only [List.map_eq_nil_iff, Nat.digits_eq_nil_iff_eq_zero]

theorem digits_le_numeral (base n : Nat) :
    (Nat.digits base n).length ≤ (numeral base n).length := by
  unfold numeral
  split
  · rename_i zero
    simp [zero]
  · simp

/-- A number with its sign. -/
def signed (s : Bool) (text : List CChar) : List CChar :=
  if s then ch '-' :: text else text

/-- The loop and what follows it print the number unless the array is too short. -/
theorem printNumber_eq {size base n : Nat} {ps : Pstream arch} {s : Bool}
    {props : Strprops} (big : 2 ≤ base) (small : base ≤ 16) (inside : n < 2 ^ 64)
    (nonzero : s = true → n ≠ 0) :
    ((digitLoop size base 65 n []).bind fun buf => printDigits size ps buf s props) =
      if (signed s (numeral base n)).length < size then
        some (printStr ps (signed s (numeral base n)) props)
      else none := by
  have loop := @digitLoop_eq size base 65 n [] big small (digits_short big inside)
    (Nat.zero_le _)
  simp only [List.length_nil, Nat.zero_add, List.nil_append] at loop
  have printed : printDigits size ps ((Nat.digits base n).map digitChar) s props =
      if (signed s (numeral base n)).length < size then
        some (printStr ps (signed s (numeral base n)) props)
      else none := by
    cases s with
    | true =>
        have text : numeral base n = ((Nat.digits base n).map digitChar).reverse :=
          if_neg (nonzero rfl)
        rw [printDigits_signed, signed, if_pos rfl, text, List.length_cons,
          List.length_reverse]
    | false =>
        rw [printDigits_unsigned, numeral_eq]
        rfl
  have longer : (Nat.digits base n).length ≤ (signed s (numeral base n)).length := by
    apply le_trans (digits_le_numeral base n)
    cases s with
    | true => exact Nat.le_succ _
    | false => exact le_refl _
  rw [loop, ← printed]
  by_cases room : (Nat.digits base n).length ≤ size
  · rw [if_pos room]
    rfl
  · rw [if_neg room, printed, if_neg (by omega)]
    rfl

theorem printUnsigned_eq {ps : Pstream arch} {n : Nat} {props : Strprops}
    (inside : n < 2 ^ 64) :
    printUnsigned ps n 16 props =
      if HexFits arch n then some (printStr ps (hex n) props) else none := by
  exact @printNumber_eq arch (sizeofLong arch * 3 + 1) 16 n ps false props (by decide)
    (by decide) inside nofun

/-- `print_int` has a result unless it was called with the smallest number. -/
theorem printInt_eq {ps : Pstream arch} {n : Int} {props : Strprops}
    (low : -2 ^ 63 ≤ n) (high : n < 2 ^ 63) :
    printInt ps n 10 props =
      if DecimalFits arch n then some (printStr ps (decimal n) props) else none := by
  by_cases smallest : n = -2 ^ 63
  · subst smallest
    rfl
  · have printed := @printNumber_eq arch (sizeofLong arch * 3 + 2) 10 n.natAbs ps
      (decide (n < 0)) props (by decide) (by decide) (by omega) (by simp; omega)
    have text : signed (decide (n < 0)) (numeral 10 n.natAbs) = decimal n := by
      simp [signed, decimal]
    rw [text] at printed
    simp only [DecimalFits, ne_eq, smallest, not_false_eq_true, true_and]
    rw [← printed]
    by_cases negative : n < 0
    · have value : negate n = ((n.natAbs : Nat) : Int) := by
        unfold negate
        rw [Int.bmod_eq_of_le (by omega) (by omega)]
        omega
      simp only [printInt, negative, if_true, value, decide_true]
      rfl
    · have value : n = ((n.natAbs : Nat) : Int) := by omega
      simp only [printInt, negative, if_false, decide_false]
      rw [← value]
      rfl

theorem numeral_length_le {base n count : Nat} (big : 2 ≤ base) (some : 1 ≤ count) :
    (numeral base n).length ≤ count ↔ n < base ^ count := by
  unfold numeral
  split
  · rename_i zero
    subst zero
    have power : 0 < base ^ count := Nat.pow_pos (by omega)
    simpa [power] using some
  · rw [List.length_reverse, List.length_map]
    exact Nat.digits_length_le_iff big n

theorem decimalFits_iff {n : Int} (low : -2 ^ 63 ≤ n) (high : n < 2 ^ 63) :
    (DecimalFits .aarch64 n ↔ n ≠ -2 ^ 63) ∧
      (DecimalFits .arm n ↔ -10 ^ 12 < n ∧ n < 10 ^ 13) := by
  have length (count : Nat) (some : 1 ≤ count) :
      (numeral 10 n.natAbs).length ≤ count ↔ n.natAbs < 10 ^ count :=
    numeral_length_le (by decide) some
  have sizes : sizeofLong .aarch64 * 3 + 2 = 26 ∧ sizeofLong .arm * 3 + 2 = 14 := by decide
  obtain ⟨wide, narrow⟩ := sizes
  unfold DecimalFits decimal
  rw [wide, narrow]
  by_cases negative : n < 0
  · have first := length 24 (by decide)
    have second := length 12 (by decide)
    rw [if_pos negative, List.length_cons]
    omega
  · have first := length 25 (by decide)
    have second := length 13 (by decide)
    rw [if_neg negative]
    omega

theorem hexFits_iff {n : Nat} (inside : n < 2 ^ 64) :
    HexFits .aarch64 n ∧ (HexFits .arm n ↔ n < 16 ^ 12) := by
  have length (count : Nat) (some : 1 ≤ count) :
      (numeral 16 n).length ≤ count ↔ n < 16 ^ count :=
    numeral_length_le (by decide) some
  have sizes : sizeofLong .aarch64 * 3 + 1 = 25 ∧ sizeofLong .arm * 3 + 1 = 13 := by decide
  obtain ⟨wide, narrow⟩ := sizes
  have first := length 24 (by decide)
  have second := length 12 (by decide)
  unfold HexFits hex
  rw [wide, narrow, Int.natAbs_natCast]
  omega

/-- The arrays are long enough for every number on AArch64 except the smallest one,
which `print_int` cannot print, and on ARM for twelve digits only. -/
theorem numbers_print_iff (props : Strprops) :
    (∀ (ps : Pstream .aarch64) (n : BitVec 64),
      ((printInt ps n.toInt 10 props).isSome ↔ n ≠ BitVec.intMin 64) ∧
        (printUnsigned ps n.toNat 16 props).isSome) ∧
    ∀ (ps : Pstream .arm) (n : BitVec 64),
      ((printInt ps n.toInt 10 props).isSome ↔ -10 ^ 12 < n.toInt ∧ n.toInt < 10 ^ 13) ∧
        ((printUnsigned ps n.toNat 16 props).isSome ↔ n.toNat < 16 ^ 12) := by
  have smallest (n : BitVec 64) : n ≠ BitVec.intMin 64 ↔ n.toInt ≠ -2 ^ 63 := by
    rw [ne_eq, ← BitVec.toInt_inj]
    rfl
  constructor
  · intro ps n
    have fits := (decimalFits_iff n.le_toInt n.toInt_lt).1
    have fits' := (hexFits_iff n.isLt).1
    rw [printInt_eq n.le_toInt n.toInt_lt, printUnsigned_eq n.isLt, smallest]
    simp [fits, fits']
  · intro ps n
    have fits := (decimalFits_iff n.le_toInt n.toInt_lt).2
    have fits' := (hexFits_iff n.isLt).2
    rw [printInt_eq n.le_toInt n.toInt_lt, printUnsigned_eq n.isLt]
    simp [fits, fits']

end TzTest.Libcflat
