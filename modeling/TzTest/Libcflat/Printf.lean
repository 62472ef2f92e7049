import Mathlib.Logic.Function.Basic
import TzTest.Arch

/-!
# `printf`

The formatted output of libcflat.  Characters have no sign on ARM and AArch64.  A
string argument is given by its characters before the terminating zero, the format in
the same way, and an access beyond a local array or to an argument of another type has
no result.
-/

namespace TzTest.Libcflat

/-- A `char`. -/
abbrev CChar := BitVec 8

/-- The code of a character of the source. -/
def ch (c : Char) : CChar :=
  BitVec.ofNat 8 c.toNat

/-- The characters before the zero that ends a string. -/
structure CString where
  chars : List CChar
  nonzero : 0 ∉ chars
  deriving DecidableEq

/-- `sizeof(long)` -/
def sizeofLong (arch : Arch) : Nat :=
  arch.width / 8

/-- `pstream_t`, and the memory behind it. -/
structure Pstream (arch : Arch) where
  mem : Word arch → CChar
  buffer : Word arch
  remain : BitVec 32
  added : BitVec 32

/-- `strprops_t` -/
structure Strprops where
  pad : CChar
  npad : BitVec 32
  deriving DecidableEq

variable {arch : Arch}

def addchar (p : Pstream arch) (c : CChar) : Pstream arch :=
  if p.remain ≠ 0 then
    { mem := Function.update p.mem p.buffer c
      buffer := p.buffer + 1
      remain := p.remain - 1
      added := p.added + 1 }
  else
    { p with added := p.added + 1 }

/-- A loop that adds the same character. -/
def addchars (c : CChar) : Nat → Pstream arch → Pstream arch
  | 0, p => p
  | count + 1, p => addchars c count (addchar p c)

def printStr (p : Pstream arch) (s : List CChar) (props : Strprops) : Pstream arch :=
  let strlen := BitVec.ofNat 32 s.length
  let npad := props.npad
  let (npad, p) :=
    if 0 < npad.toInt then
      let npad := npad - strlen
      (if 0 < npad.toInt then 0 else npad, addchars props.pad npad.toInt.toNat p)
    else
      (npad, p)
  let p := s.foldl addchar p
  if npad.toInt < 0 then
    addchars (ch ' ') (-(npad + strlen).toInt).toNat p
  else
    p

def digits : List CChar :=
  "0123456789abcdef".toList.map ch

/-- `*p++ = c` in an array of `size` characters. -/
def push (size : Nat) (c : CChar) (buf : List CChar) : Option (List CChar) :=
  if buf.length < size then some (buf ++ [c]) else none

/-- `while (n)`, with a bound on the rounds.  Division rounds towards zero. -/
def digitLoop (size : Nat) (base : Int) : (rounds : Nat) → Int → List CChar →
    Option (List CChar)
  | 0, _, _ => none
  | rounds + 1, n, buf =>
      if n ≠ 0 then
        if n.tmod base < 0 then
          none
        else do
          let c ← digits[(n.tmod base).toNat]?
          let buf ← push size c buf
          digitLoop size base rounds (n.tdiv base) buf
      else
        some buf

/-- One round of the loop that turns the digits around. -/
def swap (buf : List CChar) (i : Nat) : List CChar :=
  (buf.set i (buf.getD (buf.length - 1 - i) 0)).set (buf.length - 1 - i) (buf.getD i 0)

def swapLoop (buf : List CChar) : (i : Nat) → List CChar
  | 0 => buf
  | i + 1 => swap (swapLoop buf i) i

/-- From the sign on, to `print_str`. -/
def printDigits (size : Nat) (ps : Pstream arch) (buf : List CChar) (s : Bool)
    (props : Strprops) : Option (Pstream arch) := do
  let buf ← if s then push size (ch '-') buf else some buf
  let buf ← if buf.isEmpty then push size (ch '0') buf else some buf
  let buf := swapLoop buf (buf.length / 2)
  let _ ← push size 0 buf
  return printStr ps buf props

/-- The value of `-n` in a `long long`. -/
def negate (n : Int) : Int :=
  Int.bmod (-n) (2 ^ 64)

/-- `print_int`, for an `n` in the range of `long long`. -/
def printInt (ps : Pstream arch) (n : Int) (base : Int) (props : Strprops) :
    Option (Pstream arch) := do
  let size := sizeofLong arch * 3 + 2
  let (n, s) := if n < 0 then (negate n, true) else (n, false)
  let buf ← digitLoop size base 65 n []
  printDigits size ps buf s props

/-- `print_unsigned`, for an `n` in the range of `unsigned long long`. -/
def printUnsigned (ps : Pstream arch) (n : Int) (base : Int) (props : Strprops) :
    Option (Pstream arch) := do
  let size := sizeofLong arch * 3 + 1
  let buf ← digitLoop size base 65 n []
  printDigits size ps buf false props

def isDigit (c : CChar) : Bool :=
  ch '0' ≤ c && c ≤ ch '9'

/-- The loop of `atol`. -/
def atolLoop (acc : Word arch) : List CChar → Word arch
  | [] => acc
  | c :: s =>
      if c < ch '0' ∨ ch '9' < c then
        acc
      else
        atolLoop (acc * 10 + (c - ch '0').setWidth arch.width) s

def atol (s : List CChar) : Word arch :=
  match s.dropWhile fun c => c = ch ' ' || c = ch '\t' with
  | [] => 0
  | c :: s =>
      if c = ch '-' then
        -atolLoop 0 s
      else if c = ch '+' then
        atolLoop 0 s
      else
        atolLoop 0 (c :: s)

/-- `fmtnum`, which also returns the rest of the format. -/
def fmtnum (arch : Arch) (fmt : List CChar) : BitVec 32 × List CChar :=
  let (f, len) :=
    match fmt with
    | [] => ([], 0)
    | c :: f => if c = ch '-' then (f, 1) else (c :: f, 0)
  let len := len + (f.takeWhile isDigit).length
  ((atol fmt : Word arch).setWidth 32, fmt.drop len)

/-- An argument that `va_arg` finds. -/
inductive VaArg (arch : Arch) where
  | int (value : BitVec 32)
  | long (value : Word arch)
  | longLong (value : BitVec 64)
  | pointer (value : Word arch)
  | string (value : CString)
  deriving DecidableEq

/-- `va_arg` for an `int`, a `long` or a `long long`. -/
def vaInt (nlong : Nat) : List (VaArg arch) → Option (Int × List (VaArg arch))
  | .int value :: va => if nlong = 0 then some (value.toInt, va) else none
  | .long value :: va => if nlong = 1 then some (value.toInt, va) else none
  | .longLong value :: va => if 2 ≤ nlong then some (value.toInt, va) else none
  | _ => none

/-- `va_arg` for the unsigned types. -/
def vaUnsigned (nlong : Nat) : List (VaArg arch) → Option (Int × List (VaArg arch))
  | .int value :: va => if nlong = 0 then some (value.toNat, va) else none
  | .long value :: va => if nlong = 1 then some (value.toNat, va) else none
  | .longLong value :: va => if 2 ≤ nlong then some (value.toNat, va) else none
  | _ => none

/-- The state of `vsnprintf`. -/
structure Formatting (arch : Arch) where
  s : Pstream arch
  fmt : List CChar
  va : List (VaArg arch)

/-- From `morefmt` to the end of the switch, with a bound on the jumps back. -/
def morefmt : (jumps : Nat) → Strprops → (nlong : Nat) → Formatting arch →
    Option (Formatting arch)
  | 0, _, _, _ => none
  | jumps + 1, props, nlong, state =>
      match state.fmt with
      | [] => some state
      | f :: fmt =>
          if f = ch '%' then
            some { state with s := addchar state.s (ch '%'), fmt := fmt }
          else if f = ch 'c' then
            match state.va with
            | .int value :: va => some ⟨addchar state.s (value.setWidth 8), fmt, va⟩
            | _ => none
          else if f = ch '0' then
            let (npad, fmt) := fmtnum arch fmt
            morefmt jumps ⟨ch '0', npad⟩ nlong { state with fmt := fmt }
          else if (ch '1' ≤ f ∧ f ≤ ch '9') ∨ f = ch '-' then
            let (npad, fmt) := fmtnum arch (f :: fmt)
            morefmt jumps { props with npad := npad } nlong { state with fmt := fmt }
          else if f = ch 'l' then
            morefmt jumps props (nlong + 1) { state with fmt := fmt }
          else if f = ch 'd' then do
            let (n, va) ← vaInt nlong state.va
            let s ← printInt state.s n 10 props
            return ⟨s, fmt, va⟩
          else if f = ch 'x' then do
            let (n, va) ← vaUnsigned nlong state.va
            let s ← printUnsigned state.s n 16 props
            return ⟨s, fmt, va⟩
          else if f = ch 'p' then
            match state.va with
            | .pointer value :: va => do
                let s := printStr state.s ("0x".toList.map ch) props
                let s ← printUnsigned s value.toNat 16 props
                return ⟨s, fmt, va⟩
            | _ => none
          else if f = ch 's' then
            match state.va with
            | .string value :: va => some ⟨printStr state.s value.chars props, fmt, va⟩
            | _ => none
          else
            some { state with s := addchar state.s f, fmt := fmt }

/-- The loop of `vsnprintf`, with a bound on its rounds and on the jumps in each. -/
def formatLoop : (rounds : Nat) → Formatting arch → Option (Pstream arch)
  | 0, _ => none
  | rounds + 1, state =>
      match state.fmt with
      | [] => some state.s
      | f :: fmt =>
          if f ≠ ch '%' then
            formatLoop rounds { state with s := addchar state.s f, fmt := fmt }
          else do
            let state ← morefmt rounds ⟨ch ' ', 0⟩ 0 { state with fmt := fmt }
            formatLoop rounds state

/-- `vsnprintf`, with the memory that it leaves. -/
def vsnprintf (rounds : Nat) (mem : Word arch → CChar) (buf : Word arch)
    (size : BitVec 32) (fmt : CString) (va : List (VaArg arch)) :
    Option ((Word arch → CChar) × BitVec 32) := do
  let s ← formatLoop rounds ⟨⟨mem, buf, size - 1, 0⟩, fmt.chars, va⟩
  return (Function.update s.mem s.buffer 0, s.added + 1)

/-- `puts`: the characters that are written to the UART, with a bound on the rounds. -/
def puts (mem : Word arch → CChar) : (rounds : Nat) → (s : Word arch) → Option (List CChar)
  | 0, _ => none
  | rounds + 1, s =>
      if mem s ≠ 0 then (puts mem rounds (s + 1)).map (mem s :: ·) else some []

/-- `printf`, with its array `buf` on the stack. -/
def printf (rounds : Nat) (mem : Word arch → CChar) (buf : Word arch) (fmt : CString)
    (va : List (VaArg arch)) : Option (List CChar × BitVec 32) := do
  let (mem, r) ← vsnprintf rounds mem buf 2000 fmt va
  let written ← puts mem rounds buf
  return (written, r)

end TzTest.Libcflat
