import Mathlib.Data.Nat.Digits.Defs
import TzTest.Libcflat.Printf

/-!
# What a format means

A format is a sequence of characters and directives.  Each directive takes its argument
and stands for a text, and the output is one text after the other.
-/

namespace TzTest.Libcflat

inductive Conversion where
  | percent
  | char
  | decimal (nlong : Nat)
  | hex (nlong : Nat)
  | pointer
  | string
  | other (c : CChar)
  deriving DecidableEq

inductive Piece where
  | literal (c : CChar)
  | directive (props : Strprops) (conversion : Conversion)
  deriving DecidableEq

/-- The number that decimal digits stand for. -/
def numberOf (digits : List CChar) : Nat :=
  digits.foldl (fun acc c => acc * 10 + (c - ch '0').toNat) 0

/-- A width, and what follows it. -/
def readWidth (fmt : List CChar) : Int × List CChar :=
  match fmt with
  | [] => (0, [])
  | c :: f =>
      if c = ch '-' then
        (-(numberOf (f.takeWhile isDigit) : Int), f.dropWhile isDigit)
      else
        (numberOf ((c :: f).takeWhile isDigit), (c :: f).dropWhile isDigit)

theorem readWidth_length (fmt : List CChar) : (readWidth fmt).2.length ≤ fmt.length := by
  cases fmt with
  | nil => simp [readWidth]
  | cons c f =>
      have rest (s : List CChar) : (s.dropWhile isDigit).length ≤ s.length :=
        (List.dropWhile_suffix _).length_le
      by_cases dash : c = ch '-'
      · have shorter := rest f
        simp only [readWidth, dash, if_true, List.length_cons]
        omega
      · simpa [readWidth, dash] using rest (c :: f)

theorem readWidth_shorter {c : CChar} {f : List CChar} (starts : c = ch '-' ∨ isDigit c) :
    (readWidth (c :: f)).2.length ≤ f.length := by
  have rest : (f.dropWhile isDigit).length ≤ f.length :=
    (List.dropWhile_suffix _).length_le
  by_cases dash : c = ch '-'
  · simpa [readWidth, dash] using rest
  · have digit := starts.resolve_left dash
    simpa [readWidth, dash, digit] using rest

/-- The character that a directive ends with. -/
def conversionOf (nlong : Nat) (c : CChar) : Conversion :=
  if c = ch '%' then .percent
  else if c = ch 'c' then .char
  else if c = ch 'd' then .decimal nlong
  else if c = ch 'x' then .hex nlong
  else if c = ch 'p' then .pointer
  else if c = ch 's' then .string
  else .other c

theorem isDigit_of_nonzero {f : CChar} (digit : ch '1' ≤ f ∧ f ≤ ch '9') : isDigit f := by
  have low : ch '0' ≤ ch '1' := by decide
  simp [isDigit, digit.2, BitVec.le_trans low digit.1]

/-- The flags and widths of a directive, its conversion and what follows.  There is none
where the format ends before. -/
def parseDirective (props : Strprops) (nlong : Nat) (fmt : List CChar) :
    Option (Strprops × Conversion × List CChar) :=
  match fmt with
  | [] => none
  | f :: fmt =>
      if f = ch '0' then
        parseDirective ⟨ch '0', BitVec.ofInt 32 (readWidth fmt).1⟩ nlong (readWidth fmt).2
      else if width : (ch '1' ≤ f ∧ f ≤ ch '9') ∨ f = ch '-' then
        parseDirective { props with npad := BitVec.ofInt 32 (readWidth (f :: fmt)).1 } nlong
          (readWidth (f :: fmt)).2
      else if f = ch 'l' then
        parseDirective props (nlong + 1) fmt
      else
        some (props, conversionOf nlong f, fmt)
termination_by fmt.length
decreasing_by
  · exact Nat.lt_succ_of_le (readWidth_length fmt)
  · exact Nat.lt_succ_of_le (readWidth_shorter (width.symm.imp id isDigit_of_nonzero))
  · exact Nat.lt_succ_self _

theorem parseDirective_length {props : Strprops} {nlong : Nat} {fmt : List CChar}
    {props' : Strprops} {conversion : Conversion} {rest : List CChar}
    (parsed : parseDirective props nlong fmt = some (props', conversion, rest)) :
    rest.length < fmt.length := by
  fun_induction parseDirective props nlong fmt with
  | case1 => cases parsed
  | case2 props nlong fmt induction =>
      exact lt_of_lt_of_le (induction parsed) (Nat.le_succ_of_le (readWidth_length fmt))
  | case3 props nlong f fmt zero width induction =>
      have shorter := @readWidth_shorter f fmt (width.symm.imp id isDigit_of_nonzero)
      exact lt_of_lt_of_le (induction parsed) (Nat.le_succ_of_le shorter)
  | case4 props nlong fmt zero width induction =>
      exact lt_of_lt_of_le (induction parsed) (Nat.le_succ _)
  | case5 props nlong f fmt zero width long =>
      cases parsed
      exact Nat.lt_succ_self _

def parse (fmt : List CChar) : List Piece :=
  match fmt with
  | [] => []
  | f :: fmt =>
      if f ≠ ch '%' then
        .literal f :: parse fmt
      else
        match _parsed : parseDirective ⟨ch ' ', 0⟩ 0 fmt with
        | none => []
        | some (props, conversion, rest) => .directive props conversion :: parse rest
termination_by fmt.length
decreasing_by
  · exact Nat.lt_succ_self _
  · exact Nat.lt_succ_of_lt (parseDirective_length _parsed)

@[simp] theorem parse_nil : parse [] = [] := by
  rw [parse]

theorem parse_literal {f : CChar} (fmt : List CChar) (plain : f ≠ ch '%') :
    parse (f :: fmt) = .literal f :: parse fmt := by
  rw [parse, if_pos plain]

theorem parse_cut {fmt : List CChar} (cut : parseDirective ⟨ch ' ', 0⟩ 0 fmt = none) :
    parse (ch '%' :: fmt) = [] := by
  rw [parse, if_neg (not_not_intro rfl)]
  split
  · rfl
  · rename_i parsed
    rw [cut] at parsed
    cases parsed

theorem parse_directive {fmt rest : List CChar} {props : Strprops} {conversion : Conversion}
    (parsed : parseDirective ⟨ch ' ', 0⟩ 0 fmt = some (props, conversion, rest)) :
    parse (ch '%' :: fmt) = .directive props conversion :: parse rest := by
  rw [parse, if_neg (not_not_intro rfl)]
  split
  · rename_i cut
    rw [cut] at parsed
    cases parsed
  · rename_i found
    rw [found] at parsed
    cases parsed
    rfl

/-- A text in its field, with spaces behind it when the width is negative. -/
def field (props : Strprops) (text : List CChar) : List CChar :=
  if 0 < props.npad.toInt then
    List.replicate (props.npad.toInt.toNat - text.length) props.pad ++ text
  else
    text ++ List.replicate ((-props.npad.toInt).toNat - text.length) (ch ' ')

def digitChar (digit : Nat) : CChar :=
  digits.getD digit 0

/-- A number, the first digit first. -/
def numeral (base n : Nat) : List CChar :=
  if n = 0 then [ch '0'] else ((Nat.digits base n).map digitChar).reverse

def decimal (n : Int) : List CChar :=
  if n < 0 then ch '-' :: numeral 10 n.natAbs else numeral 10 n.natAbs

def hex (n : Int) : List CChar :=
  numeral 16 n.natAbs

variable {arch : Arch}

/-- What fits into the array of `print_int`. -/
def DecimalFits (arch : Arch) (n : Int) : Prop :=
  n ≠ -2 ^ 63 ∧ (decimal n).length < sizeofLong arch * 3 + 2

/-- What fits into the array of `print_unsigned`. -/
def HexFits (arch : Arch) (n : Int) : Prop :=
  (hex n).length < sizeofLong arch * 3 + 1

instance (n : Int) : Decidable (DecimalFits arch n) :=
  inferInstanceAs (Decidable (_ ∧ _))

instance (n : Int) : Decidable (HexFits arch n) :=
  inferInstanceAs (Decidable (_ < _))

/-- The text of a conversion, and the arguments that it leaves. -/
def Conversion.text (props : Strprops) :
    Conversion → List (VaArg arch) → Option (List CChar × List (VaArg arch))
  | percent, va => some ([ch '%'], va)
  | char, .int value :: va => some ([value.setWidth 8], va)
  | decimal nlong, va => do
      let (n, va) ← vaInt nlong va
      if DecimalFits arch n then some (field props (Libcflat.decimal n), va) else none
  | hex nlong, va => do
      let (n, va) ← vaUnsigned nlong va
      if HexFits arch n then some (field props (Libcflat.hex n), va) else none
  | pointer, .pointer value :: va =>
      if HexFits arch value.toNat then
        some (field props ("0x".toList.map ch) ++ field props (Libcflat.hex value.toNat), va)
      else
        none
  | string, .string value :: va => some (field props value.chars, va)
  | other c, va => some ([c], va)
  | _, _ => none

/-- The text of a format, one piece after the other. -/
def text : List Piece → List (VaArg arch) → Option (List CChar)
  | [], _ => some []
  | .literal c :: pieces, va => (text pieces va).map (c :: ·)
  | .directive props conversion :: pieces, va => do
      let (first, va) ← conversion.text props va
      let rest ← text pieces va
      return first ++ rest

end TzTest.Libcflat
