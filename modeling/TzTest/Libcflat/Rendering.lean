import TzTest.Libcflat.Numbers

/-!
# `vsnprintf` prints what the format means

The output of the directives goes through `addchar` only, which writes as long as there
is room and counts in any case.
-/

namespace TzTest.Libcflat

variable {arch : Arch}

theorem addchars_eq (c : CChar) (count : Nat) (p : Pstream arch) :
    addchars c count p = (List.replicate count c).foldl addchar p := by
  induction count generalizing p with
  | zero => rfl
  | succ count induction => exact induction (addchar p c)

theorem toInt_ofNat_of_lt {n : Nat} (small : n < 2 ^ 31) :
    (BitVec.ofNat 32 n).toInt = n := by
  rw [BitVec.toInt_ofNat', Int.bmod_eq_of_le (by omega) (by omega)]

/-- `print_str` fills the field. -/
theorem printStr_eq {p : Pstream arch} {s : List CChar} {props : Strprops}
    (short : s.length < 2 ^ 31) :
    printStr p s props = (field props s).foldl addchar p := by
  have strlen := toInt_ofNat_of_lt short
  have low := props.npad.le_toInt
  have high := props.npad.toInt_lt
  simp only [Nat.reduceSub] at low high
  by_cases right : 0 < props.npad.toInt
  · have rest : (props.npad - BitVec.ofNat 32 s.length).toInt =
        props.npad.toInt - s.length := by
      rw [BitVec.toInt_sub, strlen, Int.bmod_eq_of_le (by omega) (by omega)]
    have count : (props.npad.toInt - s.length).toNat =
        props.npad.toInt.toNat - s.length := by omega
    have back : props.npad - BitVec.ofNat 32 s.length + BitVec.ofNat 32 s.length =
        props.npad := by simp
    simp only [printStr, field, right, if_true, rest, addchars_eq, List.foldl_append, count]
    by_cases more : 0 < props.npad.toInt - s.length
    · have zero : ¬(0 : BitVec 32).toInt < 0 := by decide
      simp only [more, if_true, zero, if_false]
    · have nothing : (-props.npad.toInt).toNat = 0 := by omega
      simp only [more, if_false, rest, back, nothing, List.replicate_zero, List.foldl_nil,
        ite_self]
  · have rest : (props.npad + BitVec.ofNat 32 s.length).toInt =
        props.npad.toInt + s.length := by
      rw [BitVec.toInt_add, strlen, Int.bmod_eq_of_le (by omega) (by omega)]
    have count : (-(props.npad.toInt + s.length)).toNat =
        (-props.npad.toInt).toNat - s.length := by omega
    simp only [printStr, field, right, if_false, rest, addchars_eq, List.foldl_append, count]
    by_cases left : props.npad.toInt < 0
    · simp only [left, if_true]
    · have nothing : (-props.npad.toInt).toNat = 0 := by omega
      simp [left, nothing]

theorem not_isDigit {c : CChar} : (c < ch '0' ∨ ch '9' < c) ↔ isDigit c = false := by
  simp [isDigit, BitVec.lt_def, BitVec.le_def]
  omega

theorem atolLoop_eq (acc : Nat) (s : List CChar) :
    atolLoop (BitVec.ofNat arch.width acc) s =
      BitVec.ofNat arch.width ((s.takeWhile isDigit).foldl
        (fun acc c => acc * 10 + (c - ch '0').toNat) acc) := by
  induction s generalizing acc with
  | nil => rfl
  | cons c s induction =>
      rw [atolLoop]
      by_cases digit : isDigit c
      · have value : BitVec.ofNat arch.width acc * 10 + (c - ch '0').setWidth arch.width =
            BitVec.ofNat arch.width (acc * 10 + (c - ch '0').toNat) := by
          rw [BitVec.ofNat_add, BitVec.ofNat_mul]
          congr 1
          apply BitVec.eq_of_toNat_eq
          rw [BitVec.toNat_setWidth, BitVec.toNat_ofNat]
        rw [if_neg (by simp [not_isDigit, digit]), value, induction,
          List.takeWhile_cons_of_pos digit]
        rfl
      · rw [if_pos (not_isDigit.mpr (by simpa using digit)),
          List.takeWhile_cons_of_neg digit]
        rfl

theorem drop_takeWhile (s : List CChar) :
    s.drop (s.takeWhile isDigit).length = s.dropWhile isDigit := by
  have whole : s.takeWhile isDigit ++ s.dropWhile isDigit = s :=
    List.takeWhile_append_dropWhile
  have dropped : (s.takeWhile isDigit ++ s.dropWhile isDigit).drop
      (s.takeWhile isDigit).length = s.dropWhile isDigit := List.drop_left
  rwa [whole] at dropped

/-- The characters that `atol` skips, and a `+`. -/
def blanks : List CChar :=
  [ch ' ', ch '\t', ch '+']

theorem fmtnum_eq {fmt : List CChar} (starts : ∀ c ∈ fmt.head?, c ∉ blanks) :
    fmtnum arch fmt = (BitVec.ofInt 32 (readWidth fmt).1, (readWidth fmt).2) := by
  cases fmt with
  | nil => cases arch <;> rfl
  | cons c f =>
      have apart : c ≠ ch ' ' ∧ c ≠ ch '\t' ∧ c ≠ ch '+' := by
        simpa [blanks] using starts c rfl
      obtain ⟨space, tab, plus⟩ := apart
      have wide := arch.le_width
      by_cases dash : c = ch '-'
      · subst dash
        have value : (atol (ch '-' :: f) : Word arch) =
            -BitVec.ofNat arch.width (numberOf (f.takeWhile isDigit)) := by
          have start : ch '-' ≠ ch ' ' ∧ ch '-' ≠ ch '\t' := by decide
          simp only [atol, List.dropWhile_cons, start, decide_false, Bool.or_false,
            Bool.false_eq_true, if_false, if_true]
          exact congrArg _ (atolLoop_eq 0 f)
        simp only [fmtnum, readWidth, if_true, value, BitVec.ofInt_neg, BitVec.ofInt_natCast,
          BitVec.setWidth_neg_of_le wide, BitVec.setWidth_ofNat_of_le wide, Nat.add_comm 1,
          List.drop_succ_cons, drop_takeWhile]
      · have value : (atol (c :: f) : Word arch) =
            BitVec.ofNat arch.width (numberOf ((c :: f).takeWhile isDigit)) := by
          simp only [atol, List.dropWhile_cons, space, tab, plus, dash, decide_false,
            Bool.or_false, Bool.false_eq_true, if_false]
          exact atolLoop_eq 0 (c :: f)
        simp only [fmtnum, readWidth, dash, if_false, value, BitVec.ofInt_natCast,
          BitVec.setWidth_ofNat_of_le wide, Nat.zero_add, drop_takeWhile]

/-- The string arguments are of a length that an `int` holds. -/
def Short (va : List (VaArg arch)) : Prop :=
  ∀ value, VaArg.string value ∈ va → value.chars.length < 2 ^ 31

theorem Short.tail {arg : VaArg arch} {va : List (VaArg arch)} (short : Short (arg :: va)) :
    Short va :=
  fun value member => short value (List.mem_cons_of_mem _ member)

theorem vaInt_range {nlong : Nat} {va rest : List (VaArg arch)} {n : Int}
    (found : vaInt nlong va = some (n, rest)) :
    -2 ^ 63 ≤ n ∧ n < 2 ^ 63 ∧ (Short va → Short rest) := by
  have wide : arch.width - 1 ≤ 63 := by cases arch <;> decide
  have power : (2 : Int) ^ (arch.width - 1) ≤ 2 ^ 63 :=
    pow_le_pow_right₀ (by decide) wide
  cases va with
  | nil => cases found
  | cons arg va =>
      have short : Short (arg :: va) → Short va := Short.tail
      cases arg with
      | int value =>
          have low := value.le_toInt
          have high := value.toInt_lt
          simp only [vaInt, Option.ite_none_right_eq_some, Option.some.injEq,
            Prod.mk.injEq] at found
          obtain ⟨_, rfl, rfl⟩ := found
          exact ⟨by omega, by omega, short⟩
      | long value =>
          have low := value.le_toInt
          have high := value.toInt_lt
          simp only [vaInt, Option.ite_none_right_eq_some, Option.some.injEq,
            Prod.mk.injEq] at found
          obtain ⟨_, rfl, rfl⟩ := found
          exact ⟨by omega, by omega, short⟩
      | longLong value =>
          have low := value.le_toInt
          have high := value.toInt_lt
          simp only [vaInt, Option.ite_none_right_eq_some, Option.some.injEq,
            Prod.mk.injEq] at found
          obtain ⟨_, rfl, rfl⟩ := found
          exact ⟨by omega, by omega, short⟩
      | pointer value => cases found
      | string value => cases found

theorem toNat_lt_word (value : Word arch) : value.toNat < 2 ^ 64 := by
  apply lt_of_lt_of_le value.isLt
  cases arch <;> decide

theorem vaUnsigned_range {nlong : Nat} {va rest : List (VaArg arch)} {n : Int}
    (found : vaUnsigned nlong va = some (n, rest)) :
    ∃ value : Nat, n = value ∧ value < 2 ^ 64 ∧ (Short va → Short rest) := by
  cases va with
  | nil => cases found
  | cons arg va =>
      have short : Short (arg :: va) → Short va := Short.tail
      cases arg with
      | int value =>
          simp only [vaUnsigned, Option.ite_none_right_eq_some, Option.some.injEq,
            Prod.mk.injEq] at found
          obtain ⟨_, rfl, rfl⟩ := found
          exact ⟨value.toNat, rfl, by omega, short⟩
      | long value =>
          simp only [vaUnsigned, Option.ite_none_right_eq_some, Option.some.injEq,
            Prod.mk.injEq] at found
          obtain ⟨_, rfl, rfl⟩ := found
          exact ⟨value.toNat, rfl, toNat_lt_word value, short⟩
      | longLong value =>
          simp only [vaUnsigned, Option.ite_none_right_eq_some, Option.some.injEq,
            Prod.mk.injEq] at found
          obtain ⟨_, rfl, rfl⟩ := found
          exact ⟨value.toNat, rfl, value.isLt, short⟩
      | pointer value => cases found
      | string value => cases found

theorem decimal_case {props : Strprops} {nlong : Nat} {s : Pstream arch} {fmt : List CChar}
    {va : List (VaArg arch)} :
    (do let (n, va) ← vaInt nlong va
        let s ← printInt s n 10 props
        return (⟨s, fmt, va⟩ : Formatting arch)) =
      ((Conversion.decimal nlong).text props va).map fun printed =>
        ⟨printed.1.foldl addchar s, fmt, printed.2⟩ := by
  simp only [Conversion.text]
  cases found : vaInt nlong va with
  | none => rfl
  | some result =>
      obtain ⟨n, rest⟩ := result
      obtain ⟨low, high, _⟩ := vaInt_range found
      simp only [bind, Option.bind_some, printInt_eq low high]
      by_cases fits : DecimalFits arch n
      · have bound : sizeofLong arch * 3 + 2 < 2 ^ 31 := by cases arch <;> decide
        rw [if_pos fits, if_pos fits, printStr_eq (lt_trans fits.2 bound)]
        rfl
      · rw [if_neg fits, if_neg fits]
        rfl

theorem hex_case {props : Strprops} {nlong : Nat} {s : Pstream arch} {fmt : List CChar}
    {va : List (VaArg arch)} :
    (do let (n, va) ← vaUnsigned nlong va
        let s ← printUnsigned s n 16 props
        return (⟨s, fmt, va⟩ : Formatting arch)) =
      ((Conversion.hex nlong).text props va).map fun printed =>
        ⟨printed.1.foldl addchar s, fmt, printed.2⟩ := by
  simp only [Conversion.text]
  cases found : vaUnsigned nlong va with
  | none => rfl
  | some result =>
      obtain ⟨n, rest⟩ := result
      obtain ⟨value, rfl, small, _⟩ := vaUnsigned_range found
      simp only [bind, Option.bind_some, printUnsigned_eq small]
      by_cases fits : HexFits arch value
      · have bound : sizeofLong arch * 3 + 1 < 2 ^ 31 := by cases arch <;> decide
        rw [if_pos fits, if_pos fits, printStr_eq (lt_trans fits bound)]
        rfl
      · rw [if_neg fits, if_neg fits]
        rfl

theorem pointer_case {props : Strprops} {s : Pstream arch} {fmt : List CChar}
    {va : List (VaArg arch)} :
    (match va with
      | .pointer value :: va => do
          let s := printStr s ("0x".toList.map ch) props
          let s ← printUnsigned s value.toNat 16 props
          return (⟨s, fmt, va⟩ : Formatting arch)
      | _ => none) =
      (Conversion.pointer.text props va).map fun printed =>
        ⟨printed.1.foldl addchar s, fmt, printed.2⟩ := by
  cases va with
  | nil => rfl
  | cons arg va =>
      cases arg with
      | pointer value =>
          simp only [Conversion.text, bind, printUnsigned_eq (toNat_lt_word value)]
          by_cases fits : HexFits arch value.toNat
          · have bound : sizeofLong arch * 3 + 1 < 2 ^ 31 := by cases arch <;> decide
            rw [if_pos fits, if_pos fits, printStr_eq (lt_trans fits bound),
              printStr_eq (by decide)]
            simp only [Option.bind_some, Option.map_some, List.foldl_append]
            rfl
          · rw [if_neg fits, if_neg fits]
            rfl
      | int value => rfl
      | long value => rfl
      | longLong value => rfl
      | string value => rfl

/-- The switch on the character that ends a directive. -/
theorem morefmt_conversion {jumps : Nat} {props : Strprops} {nlong : Nat}
    {s : Pstream arch} {f : CChar} {fmt : List CChar} {va : List (VaArg arch)}
    (short : Short va) (zero : f ≠ ch '0')
    (width : ¬((ch '1' ≤ f ∧ f ≤ ch '9') ∨ f = ch '-')) (long : f ≠ ch 'l') :
    morefmt (jumps + 1) props nlong ⟨s, f :: fmt, va⟩ =
      ((conversionOf nlong f).text props va).map fun printed =>
        ⟨printed.1.foldl addchar s, fmt, printed.2⟩ := by
  by_cases percent : f = ch '%'
  · subst percent
    rfl
  by_cases char : f = ch 'c'
  · subst char
    cases va with
    | nil => rfl
    | cons arg va => cases arg <;> rfl
  by_cases decimal : f = ch 'd'
  · subst decimal
    exact decimal_case
  by_cases hex : f = ch 'x'
  · subst hex
    exact hex_case
  by_cases pointer : f = ch 'p'
  · subst pointer
    exact pointer_case
  by_cases string : f = ch 's'
  · subst string
    cases va with
    | nil => rfl
    | cons arg va =>
        cases arg with
        | string value =>
            have printed := @printStr_eq arch s value.chars props
              (short value (List.mem_cons_self ..))
            exact congrArg (fun later => some (Formatting.mk later fmt va)) printed
        | int value => rfl
        | long value => rfl
        | longLong value => rfl
        | pointer value => rfl
  · simp only [morefmt, conversionOf, percent, char, zero, width, long, decimal, hex, pointer,
      string, if_false]
    rfl

theorem morefmt_blank {jumps : Nat} {props : Strprops} {nlong : Nat} {s : Pstream arch}
    {c : CChar} {fmt : List CChar} {va : List (VaArg arch)} (blank : c ∈ blanks) :
    morefmt (jumps + 1) props nlong ⟨s, c :: fmt, va⟩ = some ⟨addchar s c, fmt, va⟩ ∧
      parseDirective props nlong (c :: fmt) = some (props, .other c, fmt) ∧
      (fmtnum arch (c :: fmt)).2 = c :: fmt ∧ readWidth (c :: fmt) = (0, c :: fmt) := by
  simp only [blanks, List.mem_cons, List.not_mem_nil, or_false] at blank
  rcases blank with rfl | rfl | rfl
  · exact ⟨rfl, by rw [parseDirective]; rfl, rfl, rfl⟩
  · exact ⟨rfl, by rw [parseDirective]; rfl, rfl, rfl⟩
  · exact ⟨rfl, by rw [parseDirective]; rfl, rfl, rfl⟩

/-- A width is read as a whole. -/
theorem morefmt_width {jumps : Nat} {props : Strprops} {nlong : Nat} {s : Pstream arch}
    {f : CChar} {fmt : List CChar} {va : List (VaArg arch)}
    (width : (ch '1' ≤ f ∧ f ≤ ch '9') ∨ f = ch '-') :
    morefmt (jumps + 1) props nlong ⟨s, f :: fmt, va⟩ =
      morefmt jumps { props with npad := BitVec.ofInt 32 (readWidth (f :: fmt)).1 } nlong
        ⟨s, (readWidth (f :: fmt)).2, va⟩ := by
  have apart (c : CChar) (outside : ¬((ch '1' ≤ c ∧ c ≤ ch '9') ∨ c = ch '-')) : f ≠ c := by
    rintro rfl
    exact outside width
  have percent := apart (ch '%') (by decide)
  have char := apart (ch 'c') (by decide)
  have zero := apart (ch '0') (by decide)
  have starts : ∀ c ∈ (f :: fmt).head?, c ∉ blanks := by
    intro c head
    cases head
    simp only [blanks, List.mem_cons, List.not_mem_nil, or_false, not_or]
    exact ⟨apart _ (by decide), apart _ (by decide), apart _ (by decide)⟩
  simp only [morefmt, percent, char, zero, width, if_false, if_true, fmtnum_eq starts]

theorem morefmt_eq {jumps : Nat} {props : Strprops} {nlong : Nat} {s : Pstream arch}
    {fmt : List CChar} {va : List (VaArg arch)} (short : Short va)
    (enough : fmt.length < jumps) :
    morefmt jumps props nlong ⟨s, fmt, va⟩ =
      match parseDirective props nlong fmt with
      | none => some ⟨s, [], va⟩
      | some (props, conversion, rest) =>
          (conversion.text props va).map fun printed =>
            ⟨printed.1.foldl addchar s, rest, printed.2⟩ := by
  induction jumps generalizing props nlong fmt with
  | zero => cases enough
  | succ jumps induction =>
      cases fmt with
      | nil =>
          rw [parseDirective]
          rfl
      | cons f fmt =>
          have room : fmt.length < jumps := Nat.lt_of_succ_lt_succ enough
          have shorter {rest : List CChar} (le : rest.length ≤ fmt.length) :
              rest.length < jumps := lt_of_le_of_lt le room
          rw [parseDirective]
          by_cases zero : f = ch '0'
          · subst zero
            rw [if_pos rfl]
            by_cases starts : ∀ c ∈ fmt.head?, c ∉ blanks
            · rw [← induction (shorter (readWidth_length fmt))]
              simp only [morefmt, fmtnum_eq starts]
              rfl
            · cases fmt with
              | nil => simp at starts
              | cons c fmt =>
                  have blank : c ∈ blanks := by simpa using starts
                  obtain ⟨_, parsed, _, width⟩ :=
                    @morefmt_blank arch 0 ⟨ch '0', 0⟩ nlong s c fmt va blank
                  obtain ⟨jumps, rfl⟩ : ∃ more, jumps = more + 1 :=
                    Nat.exists_eq_succ_of_ne_zero (Nat.ne_zero_of_lt room)
                  obtain ⟨printed, _, same, _⟩ := @morefmt_blank arch jumps
                    ⟨ch '0', (fmtnum arch (c :: fmt)).1⟩ nlong s c fmt va blank
                  have ran : morefmt (jumps + 1 + 1) props nlong ⟨s, ch '0' :: c :: fmt, va⟩ =
                      morefmt (jumps + 1) ⟨ch '0', (fmtnum arch (c :: fmt)).1⟩ nlong
                        ⟨s, (fmtnum arch (c :: fmt)).2, va⟩ := rfl
                  rw [ran, same, printed, width]
                  change _ = match parseDirective ⟨ch '0', 0⟩ nlong (c :: fmt) with
                    | none => some (⟨s, [], va⟩ : Formatting arch)
                    | some (props, conversion, rest) => _
                  rw [parsed]
                  rfl
          · rw [if_neg zero]
            by_cases width : (ch '1' ≤ f ∧ f ≤ ch '9') ∨ f = ch '-'
            · have consumed := @readWidth_shorter f fmt (width.symm.imp id isDigit_of_nonzero)
              rw [dif_pos width, ← induction (shorter consumed)]
              exact morefmt_width width
            · rw [dif_neg width]
              by_cases long : f = ch 'l'
              · subst long
                rw [if_pos rfl, ← induction room]
                rfl
              · rw [if_neg long]
                exact morefmt_conversion short zero width long

/-- A directive leaves the arguments behind its own. -/
theorem Conversion.text_short {conversion : Conversion} {props : Strprops}
    {va rest : List (VaArg arch)} {first : List CChar}
    (found : conversion.text props va = some (first, rest)) (short : Short va) :
    Short rest := by
  cases conversion with
  | percent =>
      cases found
      exact short
  | other c =>
      cases found
      exact short
  | decimal nlong =>
      obtain ⟨⟨n, left⟩, taken, printed⟩ := Option.bind_eq_some_iff.mp found
      obtain ⟨_, _, kept⟩ := vaInt_range taken
      simp only [Option.ite_none_right_eq_some, Option.some.injEq, Prod.mk.injEq] at printed
      obtain ⟨_, _, rfl⟩ := printed
      exact kept short
  | hex nlong =>
      obtain ⟨⟨n, left⟩, taken, printed⟩ := Option.bind_eq_some_iff.mp found
      obtain ⟨_, _, _, kept⟩ := vaUnsigned_range taken
      simp only [Option.ite_none_right_eq_some, Option.some.injEq, Prod.mk.injEq] at printed
      obtain ⟨_, _, rfl⟩ := printed
      exact kept short
  | char =>
      cases va with
      | nil => cases found
      | cons arg va =>
          cases arg <;> cases found
          exact short.tail
  | string =>
      cases va with
      | nil => cases found
      | cons arg va =>
          cases arg <;> cases found
          exact short.tail
  | pointer =>
      cases va with
      | nil => cases found
      | cons arg va =>
          cases arg with
          | pointer value =>
              simp only [Conversion.text, Option.ite_none_right_eq_some, Option.some.injEq,
                Prod.mk.injEq] at found
              obtain ⟨_, _, rfl⟩ := found
              exact short.tail
          | int value => cases found
          | long value => cases found
          | longLong value => cases found
          | string value => cases found

/-- The loop adds the text of the format. -/
theorem formatLoop_eq {rounds : Nat} {s : Pstream arch} {fmt : List CChar}
    {va : List (VaArg arch)} (short : Short va) (enough : fmt.length < rounds) :
    formatLoop rounds ⟨s, fmt, va⟩ =
      (text (parse fmt) va).map fun output => output.foldl addchar s := by
  induction rounds generalizing s fmt va with
  | zero => cases enough
  | succ rounds induction =>
      cases fmt with
      | nil =>
          rw [parse]
          rfl
      | cons f fmt =>
          have room : fmt.length < rounds := Nat.lt_of_succ_lt_succ enough
          rw [formatLoop]
          by_cases percent : f = ch '%'
          · subst percent
            simp only [ne_eq, not_true_eq_false, if_false, morefmt_eq short room]
            cases parsed : parseDirective ⟨ch ' ', 0⟩ 0 fmt with
            | none =>
                have ended := @induction s [] va short (Nat.zero_lt_of_lt room)
                rw [parse_nil] at ended
                rw [parse_cut parsed]
                exact ended
            | some result =>
                obtain ⟨props, conversion, rest⟩ := result
                have shorter := lt_trans (parseDirective_length parsed) room
                rw [parse_directive parsed]
                simp only [text]
                cases printed : conversion.text props va with
                | none => rfl
                | some result =>
                    obtain ⟨first, left⟩ := result
                    simp only [Option.map_some, bind, Option.bind_some,
                      induction (Conversion.text_short printed short) shorter]
                    cases text (parse rest) left with
                    | none => rfl
                    | some output => simp
          · rw [parse_literal fmt percent]
            simp only [percent, ne_eq, not_false_eq_true, if_true, text, Option.map_map]
            exact induction short room

/-- Characters from an address on. -/
def stored (mem : Word arch → CChar) (addr : Word arch) : List CChar → Word arch → CChar
  | [] => mem
  | c :: text => stored (Function.update mem addr c) (addr + 1) text

/-- Beyond the room, the characters are only counted. -/
theorem foldl_addchar (output : List CChar) (p : Pstream arch) :
    output.foldl addchar p =
      { mem := stored p.mem p.buffer (output.take p.remain.toNat)
        buffer := p.buffer + BitVec.ofNat arch.width (min output.length p.remain.toNat)
        remain := p.remain - BitVec.ofNat 32 (min output.length p.remain.toNat)
        added := p.added + BitVec.ofNat 32 output.length } := by
  induction output generalizing p with
  | nil => simp [stored]
  | cons c output induction =>
      have count : p.added + 1 + BitVec.ofNat 32 output.length =
          p.added + BitVec.ofNat 32 (output.length + 1) := by
        rw [Nat.add_comm, BitVec.ofNat_add, ← BitVec.add_assoc]
        rfl
      rw [List.foldl_cons, induction]
      by_cases full : p.remain = 0
      · simpa [addchar, full, stored] using count
      · have positive : 0 < p.remain.toNat := by
          apply Nat.pos_of_ne_zero
          intro zero
          exact full (BitVec.eq_of_toNat_eq zero)
        have left : (p.remain - 1).toNat = p.remain.toNat - 1 :=
          BitVec.toNat_sub_of_le positive
        have moved : min (output.length + 1) p.remain.toNat =
            1 + min output.length (p.remain.toNat - 1) := by omega
        have taken : (c :: output).take p.remain.toNat =
            c :: output.take (p.remain.toNat - 1) := by
          obtain ⟨room, more⟩ := Nat.exists_eq_succ_of_ne_zero (Nat.ne_of_gt positive)
          simp [more]
        simp only [addchar, full, ne_eq, not_false_eq_true, if_true, left, taken, count,
          List.length_cons, moved, stored, BitVec.ofNat_add, ← BitVec.add_assoc]
        rw [sub_sub]
        rfl

end TzTest.Libcflat
