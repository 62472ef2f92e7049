import TzTest.Libcflat.Printf

/-!
# Strings and memory

The functions of `string.c` but `atol`, which works on the characters only.  A loop that
runs up to a zero has a bound on its rounds.
-/

namespace TzTest.Libcflat

variable {arch : Arch}

/-- The characters of a memory. -/
abbrev Memory (arch : Arch) :=
  Word arch → CChar

def strlen (mem : Memory arch) : (rounds : Nat) → (buf len : Word arch) → Option (Word arch)
  | 0, _, _ => none
  | rounds + 1, buf, len =>
      if mem buf ≠ 0 then strlen mem rounds (buf + 1) (len + 1) else some len

/-- The end of a string, where `strcat` goes on. -/
def strend (mem : Memory arch) : (rounds : Nat) → (p : Word arch) → Option (Word arch)
  | 0, _ => none
  | rounds + 1, p => if mem p ≠ 0 then strend mem rounds (p + 1) else some p

/-- `while ((*p++ = *src++) != 0)` -/
def strcatLoop : (rounds : Nat) → (p src : Word arch) → Memory arch → Option (Memory arch)
  | 0, _, _, _ => none
  | rounds + 1, p, src, mem =>
      let c := mem src
      let mem := Function.update mem p c
      if c ≠ 0 then strcatLoop rounds (p + 1) (src + 1) mem else some mem

def strcat (rounds : Nat) (dest src : Word arch) (mem : Memory arch) :
    Option (Memory arch) := do
  let p ← strend mem rounds dest
  strcatLoop rounds p src mem

def strcpy (rounds : Nat) (dest src : Word arch) (mem : Memory arch) :
    Option (Memory arch) :=
  strcat rounds dest src (Function.update mem dest 0)

/-- The result of `strcmp`, an `int`. -/
def strcmp (mem : Memory arch) : (rounds : Nat) → (a b : Word arch) → Option Int
  | 0, _, _ => none
  | rounds + 1, a, b =>
      if mem a = mem b then
        if mem a = 0 then some ((mem a).toNat - (mem b).toNat)
        else strcmp mem rounds (a + 1) (b + 1)
      else
        some ((mem a).toNat - (mem b).toNat)

/-- `strchr`, with `none` inside for `NULL`. -/
def strchr (mem : Memory arch) (c : BitVec 32) :
    (rounds : Nat) → (s : Word arch) → Option (Option (Word arch))
  | 0, _ => none
  | rounds + 1, s =>
      if mem s ≠ c.setWidth 8 then
        if mem s = 0 then some none else strchr mem c rounds (s + 1)
      else
        some (some s)

/-- The loop of `memset`, from an index on. -/
def memsetLoop (a : Word arch) (c : CChar) : (left : Nat) → (i : Word arch) →
    Memory arch → Memory arch
  | 0, _, mem => mem
  | left + 1, i, mem => memsetLoop a c left (i + 1) (Function.update mem (a + i) c)

def memset (s : Word arch) (c : BitVec 32) (n : Word arch) (mem : Memory arch) :
    Memory arch :=
  memsetLoop s (c.setWidth 8) n.toNat 0 mem

/-- The loop of `memcpy`, from an index on. -/
def memcpyLoop (a b : Word arch) : (left : Nat) → (i : Word arch) →
    Memory arch → Memory arch
  | 0, _, mem => mem
  | left + 1, i, mem =>
      memcpyLoop a b left (i + 1) (Function.update mem (a + i) (mem (b + i)))

def memcpy (dest src n : Word arch) (mem : Memory arch) : Memory arch :=
  memcpyLoop dest src n.toNat 0 mem

/-- The loop of `memcmp`. -/
def memcmpLoop (mem : Memory arch) : (n : Nat) → (a b : Word arch) → Int
  | 0, _, _ => 0
  | n + 1, a, b =>
      let ret : Int := (mem a).toNat - (mem b).toNat
      if ret ≠ 0 then ret else memcmpLoop mem n (a + 1) (b + 1)

def memcmp (s1 s2 n : Word arch) (mem : Memory arch) : Int :=
  memcmpLoop mem n.toNat s1 s2

/-- `while (n--) *d++ = *s++` -/
def copyUp : (n : Nat) → (d s : Word arch) → Memory arch → Memory arch
  | 0, _, _, mem => mem
  | n + 1, d, s, mem => copyUp n (d + 1) (s + 1) (Function.update mem d (mem s))

/-- `while (n--) *--d = *--s` -/
def copyDown : (n : Nat) → (d s : Word arch) → Memory arch → Memory arch
  | 0, _, _, mem => mem
  | n + 1, d, s, mem =>
      copyDown n (d - 1) (s - 1) (Function.update mem (d - 1) (mem (s - 1)))

def memmove (dest src n : Word arch) (mem : Memory arch) : Memory arch :=
  if dest ≤ src then
    copyUp n.toNat dest src mem
  else
    copyDown n.toNat (dest + n) (src + n) mem

/-- The loop of `memchr`. -/
def memchrLoop (mem : Memory arch) (chr : CChar) :
    (n : Nat) → (str : Word arch) → Option (Word arch)
  | 0, _ => none
  | n + 1, str => if mem str = chr then some str else memchrLoop mem chr n (str + 1)

def memchr (s : Word arch) (c : BitVec 32) (n : Word arch) (mem : Memory arch) :
    Option (Word arch) :=
  memchrLoop mem (c.setWidth 8) n.toNat s

end TzTest.Libcflat
