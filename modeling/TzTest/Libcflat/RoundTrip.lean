import TzTest.Libcflat.Vsnprintf

/-!
# Reading back

A number that was printed is read back by `atol` unless zeros stand before its sign, and
every sequence of directives can be written as a format.
-/

namespace TzTest.Libcflat

variable {arch : Arch}

theorem digitChar_value : ∀ digit < 10, isDigit (digitChar digit) = true ∧
    (digitChar digit - ch '0').toNat = digit := by
  decide

/-- Digits that are read from the first one on. -/
def numberFrom (start : Nat) (digits : List CChar) : Nat :=
  digits.foldl (fun acc c => acc * 10 + (c - ch '0').toNat) start

theorem numberFrom_append (start : Nat) (first last : List CChar) :
    numberFrom start (first ++ last) = numberFrom (numberFrom start first) last := by
  simp [numberFrom]

theorem numberOf_reverse {digits : List Nat} (small : ∀ digit ∈ digits, digit < 10) :
    numberOf (digits.map digitChar).reverse = Nat.ofDigits 10 digits := by
  induction digits with
  | nil => rfl
  | cons digit digits induction =>
      have rest := induction fun other member => small other (List.mem_cons_of_mem _ member)
      have first := (digitChar_value digit (small digit (List.mem_cons_self ..))).2
      change numberFrom 0 _ = _ at rest ⊢
      rw [List.map_cons, List.reverse_cons, numberFrom_append, rest, Nat.ofDigits_cons]
      simp only [numberFrom, List.foldl_cons, List.foldl_nil, first]
      ring

theorem numberOf_numeral (n : Nat) : numberOf (numeral 10 n) = n := by
  unfold numeral
  split
  · rename_i zero
    rw [zero]
    decide
  · rw [numberOf_reverse fun digit member => Nat.digits_lt_base (by decide) member]
    exact Nat.ofDigits_digits 10 n

theorem numeral_digits (n : Nat) : ∀ c ∈ numeral 10 n, isDigit c := by
  unfold numeral
  split
  · decide
  · intro c member
    obtain ⟨digit, inside, rfl⟩ := List.mem_map.mp (List.mem_reverse.mp member)
    exact (digitChar_value digit (Nat.digits_lt_base (by decide) inside)).1

/-- A number ends where no digit follows. -/
def Ends (rest : List CChar) : Prop :=
  ∀ c ∈ rest.head?, isDigit c = false

theorem ends_nil : Ends [] := by
  simp [Ends]

theorem takeWhile_digits {digits rest : List CChar} (all : ∀ c ∈ digits, isDigit c)
    (ends : Ends rest) :
    (digits ++ rest).takeWhile isDigit = digits ∧
      (digits ++ rest).dropWhile isDigit = rest := by
  induction digits with
  | nil =>
      cases rest with
      | nil => exact ⟨rfl, rfl⟩
      | cons c rest =>
          have other := ends c rfl
          simp [other]
  | cons digit digits induction =>
      obtain ⟨taken, dropped⟩ := induction fun c member =>
        all c (List.mem_cons_of_mem _ member)
      have first := all digit (List.mem_cons_self ..)
      simp [first, taken, dropped]

theorem numeral_ne_nil (n : Nat) : numeral 10 n ≠ [] := by
  unfold numeral
  split
  · exact List.cons_ne_nil _ _
  · rename_i nonzero
    simpa [Nat.digits_eq_nil_iff_eq_zero] using nonzero

/-- A width is read back. -/
theorem readWidth_decimal {n : Int} {rest : List CChar} (ends : Ends rest) :
    readWidth (decimal n ++ rest) = (n, rest) := by
  obtain ⟨taken, dropped⟩ := takeWhile_digits (numeral_digits n.natAbs) ends
  by_cases negative : n < 0
  · have value : -((n.natAbs : Nat) : Int) = n := by omega
    simp only [decimal, negative, if_true, List.cons_append, readWidth, taken, dropped,
      numberOf_numeral, value]
  · have value : ((n.natAbs : Nat) : Int) = n := by omega
    obtain ⟨c, digits, more⟩ := List.exists_cons_of_ne_nil (numeral_ne_nil n.natAbs)
    have digit := numeral_digits n.natAbs c (by simp [more])
    have dash : c ≠ ch '-' := by
      rintro rfl
      exact absurd digit (by decide)
    rw [more] at taken dropped
    have number := numberOf_numeral n.natAbs
    rw [more] at number
    simp only [decimal, negative, if_false, more, List.cons_append, readWidth, dash] at *
    rw [taken, dropped, number, value]

theorem atolLoop_number {digits rest : List CChar} (all : ∀ c ∈ digits, isDigit c)
    (ends : Ends rest) :
    atolLoop 0 (digits ++ rest) = BitVec.ofNat arch.width (numberOf digits) := by
  have read := @atolLoop_eq arch 0 (digits ++ rest)
  rw [(takeWhile_digits all ends).1] at read
  exact read

theorem digit_apart {c : CChar} (digit : isDigit c) :
    c ≠ ch ' ' ∧ c ≠ ch '\t' ∧ c ≠ ch '-' ∧ c ≠ ch '+' := by
  refine ⟨?_, ?_, ?_, ?_⟩ <;>
  · rintro rfl
    exact absurd digit (by decide)

theorem atol_digits {digits rest : List CChar} (all : ∀ c ∈ digits, isDigit c)
    (some : digits ≠ []) (ends : Ends rest) :
    (atol (digits ++ rest) : Word arch) = BitVec.ofNat arch.width (numberOf digits) := by
  obtain ⟨c, more, rfl⟩ := List.exists_cons_of_ne_nil some
  obtain ⟨space, tab, dash, plus⟩ := digit_apart (all c (List.mem_cons_self ..))
  have read := @atolLoop_number arch (c :: more) rest all ends
  simp only [List.cons_append] at read ⊢
  simp only [atol, List.dropWhile_cons, space, tab, dash, plus, decide_false, Bool.or_false,
    Bool.false_eq_true, if_false, read]

theorem atol_decimal {n : Int} {rest : List CChar} (ends : Ends rest) :
    (atol (decimal n ++ rest) : Word arch) = BitVec.ofInt arch.width n := by
  by_cases negative : n < 0
  · have read := @atolLoop_number arch (numeral 10 n.natAbs) rest (numeral_digits _) ends
    have start : ch '-' ≠ ch ' ' ∧ ch '-' ≠ ch '\t' := by decide
    have value : n = -((n.natAbs : Nat) : Int) := by omega
    simp only [decimal, negative, if_true, List.cons_append, atol, List.dropWhile_cons, start,
      decide_false, Bool.or_false, Bool.false_eq_true, if_false, read, numberOf_numeral]
    conv_rhs => rw [value]
    rw [BitVec.ofInt_neg, BitVec.ofInt_natCast]
  · have value : n = ((n.natAbs : Nat) : Int) := by omega
    have text : decimal n = numeral 10 n.natAbs := if_neg negative
    rw [text, atol_digits (numeral_digits _) (numeral_ne_nil _) ends, numberOf_numeral]
    conv_rhs => rw [value]
    rw [BitVec.ofInt_natCast]

theorem atol_spaces (count : Nat) (text : List CChar) :
    (atol (List.replicate count (ch ' ') ++ text) : Word arch) = atol text := by
  induction count with
  | zero => rfl
  | succ count induction => exact induction

/-- Zeros before the digits do not change a number, and hide a sign. -/
theorem atol_zeros {count : Nat} {n : Int} (some : 0 < count) :
    (atol (List.replicate count (ch '0') ++ decimal n) : Word arch) =
      if n < 0 then 0 else BitVec.ofInt arch.width n := by
  have zeros : ∀ c ∈ List.replicate count (ch '0'), isDigit c := by
    intro c member
    rw [List.eq_of_mem_replicate member]
    decide
  have none (start : Nat) (count : Nat) :
      numberFrom start (List.replicate count (ch '0')) = start * 10 ^ count := by
    induction count generalizing start with
    | zero => simp [numberFrom]
    | succ count induction =>
        change numberFrom (start * 10 + 0) (List.replicate count (ch '0')) = _
        rw [induction, Nat.add_zero, Nat.pow_succ']
        ring
  have empty : List.replicate count (ch '0') ≠ [] := by
    simpa using Nat.ne_of_gt some
  by_cases negative : n < 0
  · have ends : Ends (decimal n) := by
      intro c head
      rw [decimal, if_pos negative] at head
      cases head
      decide
    rw [atol_digits zeros empty ends, if_pos negative]
    change BitVec.ofNat _ (numberFrom 0 _) = 0
    rw [none, Nat.zero_mul]
    rfl
  · have text : decimal n = numeral 10 n.natAbs := if_neg negative
    have value : n = ((n.natAbs : Nat) : Int) := by omega
    have all : ∀ c ∈ List.replicate count (ch '0') ++ numeral 10 n.natAbs, isDigit c := by
      intro c member
      rcases List.mem_append.mp member with zero | digit
      · exact zeros c zero
      · exact numeral_digits _ c digit
    have number : numberOf (List.replicate count (ch '0') ++ numeral 10 n.natAbs) =
        n.natAbs := by
      change numberFrom 0 _ = _
      rw [numberFrom_append, none, Nat.zero_mul]
      exact numberOf_numeral _
    have read := @atol_digits arch _ [] all (by simp [empty]) ends_nil
    rw [List.append_nil, number] at read
    rw [text, if_neg negative, read]
    conv_rhs => rw [value]
    rw [BitVec.ofInt_natCast]

/-- A printed number is read back unless zeros stand before its sign. -/
theorem atol_field_iff {props : Strprops} {n : Int}
    (low : -2 ^ (arch.width - 1) ≤ n) (high : n < 2 ^ (arch.width - 1))
    (pad : props.pad = ch ' ' ∨ props.pad = ch '0') :
    (atol (field props (decimal n)) : Word arch).toInt = n ↔
      ¬(props.pad = ch '0' ∧ n < 0 ∧ (decimal n).length < props.npad.toInt) := by
  have exact' : (BitVec.ofInt arch.width n).toInt = n := by
    apply BitVec.toInt_ofInt_eq_self _ low high
    cases arch <;> decide
  have spaces (count : Nat) : Ends (List.replicate count (ch ' ')) := by
    intro c head
    have space := List.eq_of_mem_replicate (List.mem_of_mem_head? head)
    rw [space]
    decide
  have plain : (atol (decimal n) : Word arch) = BitVec.ofInt arch.width n := by
    have read := @atol_decimal arch n [] ends_nil
    rwa [List.append_nil] at read
  by_cases right : 0 < props.npad.toInt
  · rw [field, if_pos right]
    rcases pad with space | zero
    · have apart : ch ' ' ≠ ch '0' := by decide
      rw [space, atol_spaces, plain, exact']
      simp [apart]
    · rw [zero]
      by_cases wide : (decimal n).length < props.npad.toInt
      · rw [atol_zeros (by omega)]
        by_cases negative : n < 0
        · have none : (0 : Word arch).toInt = 0 := BitVec.toInt_zero
          rw [if_pos negative, none]
          simp only [negative, wide, and_self, not_true_eq_false, iff_false]
          omega
        · simp [negative, exact']
      · have nothing : props.npad.toInt.toNat - (decimal n).length = 0 := by omega
        rw [nothing, List.replicate_zero, List.nil_append, plain]
        simp [exact', wide]
  · have narrow : ¬((decimal n).length : Int) < props.npad.toInt := by omega
    rw [field, if_neg right, atol_decimal (spaces _)]
    simp [exact', narrow]

/-- `"%06d"` with -42 gives `"000-42"`, which is read as zero. -/
theorem atol_field_minus :
    (atol (field ⟨ch '0', 6⟩ (decimal (-42))) : Word .aarch64).toInt ≠ -42 := by
  intro same
  exact (atol_field_iff (by decide) (by decide) (.inr rfl)).mp same
    ⟨rfl, by decide, by decide⟩

/-- The character of a conversion. -/
def Conversion.letter : Conversion → CChar
  | percent => ch '%'
  | char => ch 'c'
  | decimal _ => ch 'd'
  | hex _ => ch 'x'
  | pointer => ch 'p'
  | string => ch 's'
  | other c => c

/-- How many `l` stand before it. -/
def Conversion.longs : Conversion → Nat
  | decimal nlong => nlong
  | hex nlong => nlong
  | _ => 0

/-- A width that is not zero. -/
def spellWidth (npad : BitVec 32) : List CChar :=
  if npad = 0 then [] else decimal npad.toInt

def Piece.spell : Piece → List CChar
  | literal c => [c]
  | directive props conversion =>
      ch '%' :: ((if props.pad = ch '0' then [ch '0'] else []) ++ spellWidth props.npad ++
        List.replicate conversion.longs (ch 'l') ++ [conversion.letter])

/-- A character that ends a directive. -/
def Ending (c : CChar) : Prop :=
  c ≠ ch '0' ∧ ¬((ch '1' ≤ c ∧ c ≤ ch '9') ∨ c = ch '-') ∧ c ≠ ch 'l'

/-- The pieces that a format can spell. -/
def Piece.Proper : Piece → Prop
  | literal c => c ≠ 0 ∧ c ≠ ch '%'
  | directive props conversion =>
      (props.pad = ch ' ' ∨ props.pad = ch '0') ∧ conversion.letter ≠ 0 ∧
        Ending conversion.letter ∧
        conversionOf conversion.longs conversion.letter = conversion

instance (c : CChar) : Decidable (Ending c) :=
  inferInstanceAs (Decidable (_ ∧ _ ∧ _))

instance : (piece : Piece) → Decidable piece.Proper
  | .literal _ => inferInstanceAs (Decidable (_ ∧ _))
  | .directive _ _ => inferInstanceAs (Decidable (_ ∧ _ ∧ _ ∧ _))

theorem Ending.notDigit {c : CChar} (ending : Ending c) : isDigit c = false := by
  obtain ⟨zero, width, _⟩ := ending
  by_contra digit
  apply width
  left
  have inside : ch '0' ≤ c ∧ c ≤ ch '9' := by simpa [isDigit] using digit
  have apart : c.toNat ≠ (ch '0').toNat := fun same => zero (BitVec.eq_of_toNat_eq same)
  refine ⟨?_, inside.2⟩
  have low : (ch '0').toNat ≤ c.toNat := inside.1
  change (ch '1').toNat ≤ c.toNat
  have next : (ch '1').toNat = (ch '0').toNat + 1 := by decide
  omega

theorem parseDirective_longs {props : Strprops} {nlong count : Nat} {c : CChar}
    {rest : List CChar} (ending : Ending c) :
    parseDirective props nlong (List.replicate count (ch 'l') ++ c :: rest) =
      some (props, conversionOf (nlong + count) c, rest) := by
  induction count generalizing nlong with
  | zero =>
      obtain ⟨zero, width, long⟩ := ending
      rw [List.replicate_zero, List.nil_append, parseDirective, if_neg zero, dif_neg width,
        if_neg long]
      rfl
  | succ count induction =>
      rw [List.replicate_succ, List.cons_append, parseDirective, if_neg (by decide),
        dif_neg (by decide), if_pos rfl, induction, Nat.add_right_comm]
      rfl

/-- A number that is not zero starts with its sign or with another digit than zero. -/
theorem decimal_starts {n : Int} (nonzero : n ≠ 0) :
    ∃ c more, decimal n = c :: more ∧ ((ch '1' ≤ c ∧ c ≤ ch '9') ∨ c = ch '-') := by
  by_cases negative : n < 0
  · exact ⟨ch '-', _, if_pos negative, .inr rfl⟩
  · have some : n.natAbs ≠ 0 := by omega
    have text : decimal n = ((Nat.digits 10 n.natAbs).map digitChar).reverse := by
      rw [decimal, if_neg negative, numeral, if_neg some]
    have digits : Nat.digits 10 n.natAbs ≠ [] := Nat.digits_ne_nil_iff_ne_zero.mpr some
    have first := Nat.getLast_digit_ne_zero 10 some
    have small := Nat.digits_lt_base (b := 10) (by decide) (List.getLast_mem digits)
    have whole := List.dropLast_append_getLast digits
    refine ⟨digitChar ((Nat.digits 10 n.natAbs).getLast digits),
      ((Nat.digits 10 n.natAbs).dropLast.map digitChar).reverse, ?_, .inl ?_⟩
    · rw [text]
      conv_lhs => rw [← whole]
      simp
    · generalize (Nat.digits 10 n.natAbs).getLast digits = digit at first small
      have all : ∀ digit < 10, digit ≠ 0 →
          ch '1' ≤ digitChar digit ∧ digitChar digit ≤ ch '9' := by decide
      exact all digit small first

theorem readWidth_none {fmt : List CChar} (ends : Ends fmt)
    (sign : ∀ c ∈ fmt.head?, c ≠ ch '-') : readWidth fmt = (0, fmt) := by
  cases fmt with
  | nil => rfl
  | cons c f =>
      have other := ends c rfl
      have dash := sign c rfl
      simp [readWidth, dash, other, numberOf]

theorem parseDirective_spell {props : Strprops} {conversion : Conversion}
    {rest : List CChar} (proper : (Piece.directive props conversion).Proper) :
    parseDirective ⟨ch ' ', 0⟩ 0
        ((if props.pad = ch '0' then [ch '0'] else []) ++ spellWidth props.npad ++
          List.replicate conversion.longs (ch 'l') ++ [conversion.letter] ++ rest) =
      some (props, conversion, rest) := by
  obtain ⟨pad, _, ending, back⟩ := proper
  have ends : Ends (List.replicate conversion.longs (ch 'l') ++
      conversion.letter :: rest) := by
    intro c head
    cases longs : conversion.longs with
    | zero =>
        rw [longs] at head
        cases head
        exact ending.notDigit
    | succ count =>
        rw [longs] at head
        cases head
        decide
  have last (props : Strprops) := @parseDirective_longs props 0 conversion.longs _ rest ending
  rw [Nat.zero_add, back] at last
  have width : BitVec.ofInt 32 props.npad.toInt = props.npad := BitVec.ofInt_toInt
  simp only [List.append_assoc, List.singleton_append]
  rcases pad with space | zero
  · have apart : props.pad ≠ ch '0' := by
      rw [space]
      decide
    rw [if_neg apart, List.nil_append, spellWidth]
    split
    · rename_i none
      rw [List.nil_append, last, ← space, ← none]
    · rename_i some
      have nonzero : props.npad.toInt ≠ 0 := by
        intro same
        exact some (BitVec.eq_of_toInt_eq (by rw [same]; rfl))
      obtain ⟨c, more, spelled, starts⟩ := decimal_starts nonzero
      have read := @readWidth_decimal props.npad.toInt _ ends
      have notZero : c ≠ ch '0' := by
        rintro rfl
        exact absurd starts (by decide)
      rw [spelled, List.cons_append] at read ⊢
      rw [parseDirective, if_neg notZero, dif_pos starts, read]
      rw [last, width, ← space]
  · have read : readWidth (spellWidth props.npad ++ (List.replicate conversion.longs (ch 'l') ++
        conversion.letter :: rest)) =
        (props.npad.toInt, List.replicate conversion.longs (ch 'l') ++
          conversion.letter :: rest) := by
      unfold spellWidth
      split
      · rename_i none
        rw [List.nil_append, none]
        apply readWidth_none ends
        intro c head
        cases longs : conversion.longs with
        | zero =>
            rw [longs] at head
            cases head
            exact fun dash => ending.2.1 (.inr dash)
        | succ count =>
            rw [longs] at head
            cases head
            decide
      · exact readWidth_decimal ends
    rw [if_pos zero, List.singleton_append, parseDirective, if_pos rfl, read, last, width,
      ← zero]

theorem decimal_nonzero (n : Int) : 0 ∉ decimal n := by
  have digits : 0 ∉ numeral 10 n.natAbs := by
    intro member
    exact absurd (numeral_digits _ _ member) (by decide)
  unfold decimal
  split
  · intro member
    rcases List.mem_cons.mp member with dash | digit
    · exact absurd dash (by decide)
    · exact digits digit
  · exact digits

theorem Piece.Proper.spell_nonzero {piece : Piece} (proper : piece.Proper) :
    0 ∉ piece.spell := by
  cases piece with
  | literal c =>
      have nonzero : ¬(0 = c) := fun same => proper.1 same.symm
      simpa [Piece.spell] using nonzero
  | directive props conversion =>
      obtain ⟨_, letter, _, _⟩ := proper
      have percent : ¬(0 = ch '%') := by decide
      have zero : ¬(0 = ch '0') := by decide
      have long : ¬(0 = ch 'l') := by decide
      have width : 0 ∉ spellWidth props.npad := by
        unfold spellWidth
        split
        · simp
        · exact decimal_nonzero _
      have flag : 0 ∉ (if props.pad = ch '0' then [ch '0'] else []) := by
        split
        · simpa using zero
        · simp
      simp only [Piece.spell, List.mem_cons, List.mem_append, List.mem_replicate, percent,
        flag, width, long, and_false, false_or, List.not_mem_nil, or_false]
      exact fun same => letter same.symm

/-- Proper pieces are read back from the format that spells them. -/
theorem parse_spell {pieces : List Piece} (proper : ∀ piece ∈ pieces, piece.Proper) :
    0 ∉ pieces.flatMap Piece.spell ∧ parse (pieces.flatMap Piece.spell) = pieces := by
  constructor
  · intro member
    obtain ⟨piece, listed, zero⟩ := List.mem_flatMap.mp member
    exact (proper piece listed).spell_nonzero zero
  · induction pieces with
    | nil => exact parse_nil
    | cons piece pieces induction =>
        have rest := induction fun other member => proper other (List.mem_cons_of_mem _ member)
        have first := proper piece (List.mem_cons_self ..)
        rw [List.flatMap_cons]
        cases piece with
        | literal c =>
            rw [Piece.spell, List.singleton_append, parse_literal _ first.2, rest]
        | directive props conversion =>
            rw [Piece.spell, List.cons_append,
              parse_directive (parseDirective_spell first), rest]

/-- `"EL%d %-8s\n"` -/
def smallPieces : List Piece :=
  [.literal (ch 'E'), .literal (ch 'L'), .directive ⟨ch ' ', 0⟩ (.decimal 0),
    .literal (ch ' '), .directive ⟨ch ' ', -8⟩ .string, .literal (ch '\n')]

theorem parse_spell_smallPieces :
    smallPieces.flatMap Piece.spell = "EL%d %-8s\n".toList.map ch ∧
      parse ("EL%d %-8s\n".toList.map ch) = smallPieces := by
  have spelled : smallPieces.flatMap Piece.spell = "EL%d %-8s\n".toList.map ch := by
    decide +kernel
  refine ⟨spelled, ?_⟩
  rw [← spelled]
  exact (parse_spell (by decide)).2

end TzTest.Libcflat
