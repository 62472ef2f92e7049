import TzTest.Bytes
import TzTest.Library.Loop

/-!
# The start-up `memcpy`

`memcpy` of `init_util.S`, which copies the text and the data of an image out
of flash in words.  The two loops differ in their exit test: AArch64 leaves on a
signed comparison, ARM on equality with zero.
-/

namespace TzTest.InitUtil

variable {arch : Arch}

/-- Bytes of a general register. -/
def wordSize : Arch → Nat
  | .aarch64 => 8
  | .arm => 4

/-- What `memcpy` uses: `x0`, `x1`, `x2` and `x10`, or `r0`, `r1`, `r2` and
`r10`. -/
structure Copy (arch : Arch) where
  mem : Word arch → BitVec 8
  dest : Word arch
  src : Word arch
  len : Word arch
  word : BitVec (8 * wordSize arch)

namespace Copy

/-- The conditional branch to `memcpy_done`: `ble` or `beq` after a comparison
with zero. -/
def done : {arch : Arch} → Copy arch → Bool
  | .aarch64, c => BitVec.sle c.len 0
  | .arm, c => c.len == 0

/-- `ldr` and `str`, both with their increment, and `subs`. -/
def move (c : Copy arch) : Copy arch :=
  let size := BitVec.ofNat arch.width (wordSize arch)
  let word := loadWord c.mem c.src (wordSize arch)
  { mem := storeWord c.mem c.dest word
    dest := c.dest + size
    src := c.src + size
    len := c.len - size
    word := word }

/-- From `memcpy` to the branch back to it. -/
def round (c : Copy arch) : Option (Copy arch) :=
  if c.done then none else some c.move

end Copy

/-- Rounds of the loop: the words that a length begins. -/
def copyWords (len : Word arch) : Nat :=
  (len.toNat + (wordSize arch - 1)) / wordSize arch

/-- The first bytes are those of the source, and nothing is written from the
length rounded up to a word on, or before the destination. -/
structure Copied (c last : Copy arch) : Prop where
  bytes : ∀ addr : Word arch, (addr - c.dest).toNat < c.len.toNat →
    last.mem addr = c.mem (c.src + (addr - c.dest))
  confined : ∀ addr : Word arch, wordSize arch * copyWords c.len ≤ (addr - c.dest).toNat →
    last.mem addr = c.mem addr

/-- Both ranges begin at a word, and no byte belongs to both. -/
structure Apart (dest src len : Word arch) : Prop where
  destAligned : dest.toNat % wordSize arch = 0
  srcAligned : src.toNat % wordSize arch = 0
  disjoint : ∀ addr : Word arch, (addr - dest).toNat < len.toNat →
    len.toNat ≤ (addr - src).toNat

/-- The lengths that the exit test is made for. -/
def CopyLength : {arch : Arch} → Word arch → Prop
  | .aarch64, len => len.toNat < 2 ^ 63
  | .arm, len => len.toNat % 4 = 0

theorem offset_step {addr dest : Word arch} {moved : Nat}
    (room : moved + wordSize arch ≤ 2 ^ arch.width) :
    (addr - (dest + BitVec.ofNat arch.width moved)).toNat < wordSize arch ↔
      moved ≤ (addr - dest).toNat ∧
        (addr - dest).toNat < moved + wordSize arch := by
  have addrWide := addr.isLt
  have destWide := dest.isLt
  simp only [BitVec.toNat_sub, BitVec.toNat_add, BitVec.toNat_ofNat]
  generalize addr.toNat = target at *
  generalize dest.toNat = start at *
  cases arch with
  | aarch64 =>
      simp only [Arch.width, wordSize] at *
      omega
  | arm =>
      simp only [Arch.width, wordSize] at *
      omega

theorem copyWords_room (len : Word arch) :
    wordSize arch * copyWords len ≤ 2 ^ arch.width := by
  have wide := len.isLt
  unfold copyWords
  generalize len.toNat = length at *
  cases arch with
  | aarch64 =>
      simp only [Arch.width, wordSize] at *
      omega
  | arm =>
      simp only [Arch.width, wordSize] at *
      omega

theorem Apart.words {dest src len : Word arch} (apart : Apart dest src len)
    {addr : Word arch}
    (inside : (addr - dest).toNat < wordSize arch * copyWords len) :
    wordSize arch * copyWords len ≤ (addr - src).toNat := by
  obtain ⟨destAligned, srcAligned, disjoint⟩ := apart
  have below := disjoint
    (addr - BitVec.ofNat arch.width (addr.toNat % wordSize arch))
  have addrWide := addr.isLt
  have destWide := dest.isLt
  have srcWide := src.isLt
  have lenWide := len.isLt
  unfold copyWords at *
  simp only [BitVec.toNat_sub, BitVec.toNat_ofNat] at *
  generalize addr.toNat = place at *
  generalize dest.toNat = target at *
  generalize src.toNat = start at *
  generalize len.toNat = length at *
  cases arch with
  | aarch64 =>
      simp only [Arch.width, wordSize] at *
      omega
  | arm =>
      simp only [Arch.width, wordSize] at *
      omega

/-- The state after a number of rounds. -/
structure Moved (start : Copy arch) (words : Nat) (c : Copy arch) : Prop where
  dest : c.dest =
    start.dest + BitVec.ofNat arch.width (wordSize arch * words)
  src : c.src = start.src + BitVec.ofNat arch.width (wordSize arch * words)
  len : c.len = start.len - BitVec.ofNat arch.width (wordSize arch * words)
  mem : ∀ addr : Word arch, c.mem addr =
    if (addr - start.dest).toNat < wordSize arch * words then
      start.mem (start.src + (addr - start.dest))
    else
      start.mem addr

theorem moved_zero (start : Copy arch) : Moved start 0 start := by
  constructor <;> simp

theorem Moved.move {start c : Copy arch} {words : Nat}
    (moved : Moved start words c) (apart : Apart start.dest start.src start.len)
    (more : words < copyWords start.len) : Moved start (words + 1) c.move := by
  have total := copyWords_room start.len
  have next : wordSize arch * (words + 1) = wordSize arch * words + wordSize arch :=
    Nat.mul_succ ..
  have within : wordSize arch * (words + 1) ≤
      wordSize arch * copyWords start.len := Nat.mul_le_mul_left _ more
  refine ⟨?_, ?_, ?_, ?_⟩
  · rw [next, BitVec.ofNat_add, ← BitVec.add_assoc, ← moved.dest]
    rfl
  · rw [next, BitVec.ofNat_add, ← BitVec.add_assoc, ← moved.src]
    rfl
  · rw [next, BitVec.ofNat_add, ← BitVec.sub_sub, ← moved.len]
    rfl
  · intro addr
    have inWord := @offset_step _ addr start.dest (wordSize arch * words)
      (by omega)
    rw [← moved.dest] at inWord
    change storeWord c.mem c.dest (loadWord c.mem c.src (wordSize arch)) addr = _
    unfold storeWord
    by_cases here : (addr - c.dest).toNat < wordSize arch
    · obtain ⟨above, below⟩ := inWord.mp here
      have source : c.src + (addr - c.dest) = start.src + (addr - start.dest) := by
        rw [moved.src, moved.dest]
        generalize BitVec.ofNat arch.width (wordSize arch * words) = done
        grind
      have offset : start.src + (addr - start.dest) - start.src =
          addr - start.dest := by
        grind
      have unwritten : ¬(start.src + (addr - start.dest) - start.dest).toNat <
          wordSize arch * words := by
        intro written
        have beyond := apart.words (lt_of_lt_of_le written
          (le_trans (by omega) within))
        rw [offset] at beyond
        omega
      rw [if_pos here, loadWord_byte _ _ here, BitVec.ofNat_toNat,
        BitVec.setWidth_eq, source, moved.mem, if_neg unwritten,
        if_pos (by omega)]
    · rw [if_neg here, moved.mem]
      by_cases before : (addr - start.dest).toNat < wordSize arch * words
      · rw [if_pos before, if_pos (by omega)]
      · rw [if_neg before, if_neg]
        intro inside
        exact here (inWord.mpr ⟨by omega, by omega⟩)

theorem sle_zero_iff (len : BitVec 64) :
    BitVec.sle len 0 = true ↔ len.toNat = 0 ∨ 2 ^ 63 ≤ len.toNat := by
  have zero : (0 : BitVec 64).toInt = 0 := by decide
  rw [BitVec.sle_iff_toInt_le, zero, BitVec.toInt_eq_toNat_cond]
  split_ifs <;> omega

theorem done_aarch64_iff (c : Copy .aarch64) :
    c.done = true ↔ c.len.toNat = 0 ∨ 2 ^ 63 ≤ c.len.toNat :=
  sle_zero_iff c.len

theorem done_arm_iff (c : Copy .arm) : c.done = true ↔ c.len.toNat = 0 := by
  rw [Copy.done, beq_iff_eq, ← BitVec.toNat_inj]
  rfl

theorem Moved.toNat_len {start c : Copy arch} {words : Nat}
    (moved : Moved start words c) (within : words ≤ copyWords start.len) :
    c.len.toNat = (2 ^ arch.width - wordSize arch * words + start.len.toNat) %
      2 ^ arch.width := by
  have total := copyWords_room start.len
  have room : wordSize arch * words ≤ 2 ^ arch.width :=
    le_trans (Nat.mul_le_mul_left _ within) total
  rw [moved.len, BitVec.toNat_sub, BitVec.toNat_ofNat]
  rcases Nat.lt_or_eq_of_le room with less | full
  · rw [Nat.mod_eq_of_lt less]
  · rw [full, Nat.mod_self, Nat.sub_zero, Nat.sub_self, Nat.add_mod_left,
      Nat.zero_add]

/-- The exit test holds after the last word, and not before it. -/
theorem Moved.done_iff {start c : Copy arch} {words : Nat}
    (moved : Moved start words c) (length : CopyLength start.len)
    (within : words ≤ copyWords start.len) :
    c.done = true ↔ words = copyWords start.len := by
  have left := moved.toNat_len within
  have wide := start.len.isLt
  unfold copyWords at *
  cases arch with
  | aarch64 =>
      have bound : start.len.toNat < 2 ^ 63 := length
      rw [done_aarch64_iff, left]
      generalize start.len.toNat = total at *
      simp only [Arch.width, wordSize] at *
      omega
  | arm =>
      have bound : start.len.toNat % 4 = 0 := length
      rw [done_arm_iff, left]
      generalize start.len.toNat = total at *
      simp only [Arch.width, wordSize] at *
      omega

theorem Moved.copied {start last : Copy arch}
    (moved : Moved start (copyWords start.len) last) : Copied start last := by
  have covers : start.len.toNat ≤ wordSize arch * copyWords start.len := by
    unfold copyWords
    cases arch with
    | aarch64 =>
        simp only [wordSize]
        omega
    | arm =>
        simp only [wordSize]
        omega
  constructor
  · intro addr inside
    rw [moved.mem, if_pos (lt_of_lt_of_le inside covers)]
  · intro addr beyond
    rw [moved.mem, if_neg (not_lt.mpr beyond)]

/-- A number of words are left to copy. -/
def Remaining (start : Copy arch) (remaining : Nat) (c : Copy arch) : Prop :=
  ∃ words, words + remaining = copyWords start.len ∧ Moved start words c

/-- A length that the exit test is made for is copied. -/
theorem copied_of_copyLength {start : Copy arch}
    (apart : Apart start.dest start.src start.len)
    (length : CopyLength start.len) :
    ∃ last, Loop.Ends Copy.round start last ∧ Copied start last := by
  have leaves (c : Copy arch) (state : Remaining start 0 c) : c.round = none := by
    obtain ⟨words, count, moved⟩ := state
    have stop := (moved.done_iff length (by omega)).mpr count
    rw [Copy.round, if_pos stop]
  have turns (remaining : Nat) (c : Copy arch)
      (state : Remaining start (remaining + 1) c) :
      ∃ next, c.round = some next ∧ Remaining start remaining next := by
    obtain ⟨words, count, moved⟩ := state
    have go : ¬c.done = true := by
      rw [moved.done_iff length (by omega)]
      omega
    refine ⟨c.move, ?_, words + 1, by omega, moved.move apart (by omega)⟩
    rw [Copy.round, if_neg go]
  obtain ⟨last, ends, words, count, moved⟩ :=
    Loop.ends_of_countdown leaves turns
      ⟨0, Nat.zero_add (copyWords start.len), moved_zero start⟩
  rw [Nat.add_zero] at count
  subst count
  exact ⟨last, ends, moved.copied⟩

/-- Steps of four bytes do not reach zero from a length that is no multiple of
four. -/
theorem not_ends_of_odd_length {start : Copy .arm}
    (odd : start.len.toNat % 4 ≠ 0) (last : Copy .arm) :
    ¬Loop.Ends Copy.round start last := by
  have turns (c : Copy .arm) (state : c.len.toNat % 4 ≠ 0) :
      ∃ next, c.round = some next ∧ next.len.toNat % 4 ≠ 0 := by
    have go : ¬c.done = true := by
      rw [done_arm_iff]
      omega
    refine ⟨c.move, by rw [Copy.round, if_neg go], ?_⟩
    have step : c.move.len.toNat = (2 ^ 32 - 4 + c.len.toNat) % 2 ^ 32 :=
      BitVec.toNat_sub ..
    omega
  exact Loop.not_ends turns odd last

theorem ends_of_negative {start last : Copy .aarch64}
    (negative : 2 ^ 63 ≤ start.len.toNat)
    (ends : Loop.Ends Copy.round start last) : last = start := by
  have stop : start.done = true := by
    rw [done_aarch64_iff]
    exact .inr negative
  have left : start.round = none := by rw [Copy.round, if_pos stop]
  exact ends.unique (Loop.ends_of_none left)

/-- The loops end with the source copied for the lengths that their exit tests
are made for, and for no others. -/
theorem memcpy_copies_iff {dest src len : Word arch} (apart : Apart dest src len) :
    (∀ mem word, ∃ last, Loop.Ends Copy.round ⟨mem, dest, src, len, word⟩ last ∧
      Copied ⟨mem, dest, src, len, word⟩ last) ↔ CopyLength len := by
  constructor
  · intro copies
    cases arch with
    | aarch64 =>
        change len.toNat < 2 ^ 63
        by_contra negative
        have positive : 0 < len.toNat := by omega
        obtain ⟨last, ends, copied⟩ :=
          copies (fun addr => if addr = dest then 1 else 0) 0
        have unchanged := ends_of_negative (not_lt.mp negative) ends
        have first := copied.bytes dest (by simpa using positive)
        have different : src ≠ dest := by
          intro same
          have far := apart.disjoint dest (by simpa using positive)
          rw [same, BitVec.sub_self] at far
          exact absurd positive (not_lt.mpr far)
        simp [unchanged, different] at first
    | arm =>
        by_contra odd
        obtain ⟨last, ends, _⟩ := copies (fun _ => 0) 0
        have rest : len.toNat % 4 ≠ 0 := odd
        exact not_ends_of_odd_length rest last ends
  · intro length mem word
    exact copied_of_copyLength apart length

theorem apart_text {len : BitVec 32} (short : len.toNat ≤ 0x10000) :
    @Apart .arm (0x80041000 : BitVec 32) (0x04001000 : BitVec 32) len := by
  refine ⟨rfl, rfl, ?_⟩
  intro (addr : BitVec 32) inside
  have dest : (0x80041000 : BitVec 32).toNat = 0x80041000 := rfl
  have src : (0x04001000 : BitVec 32).toNat = 0x04001000 := rfl
  have wide : addr.toNat < 2 ^ 32 := addr.isLt
  have offset := BitVec.toNat_sub addr (0x80041000 : BitVec 32)
  have other := BitVec.toNat_sub addr (0x04001000 : BitVec 32)
  change (addr - 0x80041000).toNat < len.toNat at inside
  change len.toNat ≤ (addr - 0x04001000).toNat
  omega

theorem memcpy_copies_iff_aligned :
    (∀ mem word, ∃ last,
      Loop.Ends Copy.round
        (⟨mem, (0x80041000 : BitVec 32), (0x04001000 : BitVec 32),
          (0x1008 : BitVec 32), word⟩ : Copy .arm) last ∧
      Copied ⟨mem, (0x80041000 : BitVec 32), (0x04001000 : BitVec 32),
        (0x1008 : BitVec 32), word⟩ last) ↔
      @CopyLength .arm (0x1008 : BitVec 32) :=
  memcpy_copies_iff (apart_text (by decide))

/-- Six bytes, as the linker may find them. -/
theorem memcpy_never_returns :
    @Apart .arm (0x80041000 : BitVec 32) (0x04001000 : BitVec 32)
        (6 : BitVec 32) ∧
      ∀ mem word last, ¬Loop.Ends Copy.round
        (⟨mem, (0x80041000 : BitVec 32), (0x04001000 : BitVec 32),
          (6 : BitVec 32), word⟩ : Copy .arm) last := by
  refine ⟨apart_text (by decide), ?_⟩
  intro mem word last
  apply not_ends_of_odd_length
  show (6 : BitVec 32).toNat % 4 ≠ 0
  decide

end TzTest.InitUtil
