import Mathlib.Data.BitVec

/-!
# Fields of machine words

A word lies within a range of bit positions when all its ones do.  Words within
disjoint ranges are put together by `|||` and taken apart by masks.
-/

namespace BitField

variable {width : Nat}

def Within (word : BitVec width) (low high : Nat) : Prop :=
  ∀ index, word.getLsbD index = true → low ≤ index ∧ index < high

/-- All ones of the range. -/
def IsMask (mask : BitVec width) (low high : Nat) : Prop :=
  ∀ index : Fin width, mask.getLsbD index = decide (low ≤ index ∧ index < high)

instance (mask : BitVec width) (low high : Nat) :
    Decidable (IsMask mask low high) :=
  inferInstanceAs (Decidable (∀ _ : Fin width, _))

variable {word left right mask : BitVec width} {low high low' high' : Nat}

theorem IsMask.getLsbD (isMask : IsMask mask low high) {index : Nat}
    (inside : index < width) :
    mask.getLsbD index = decide (low ≤ index ∧ index < high) :=
  isMask ⟨index, inside⟩

theorem IsMask.within (isMask : IsMask mask low high) :
    Within mask low high := by
  intro index one
  have inside := BitVec.lt_of_getLsbD one
  rw [isMask.getLsbD inside] at one
  exact of_decide_eq_true one

theorem Within.mono (within : Within word low high) (lower : low' ≤ low)
    (higher : high ≤ high') : Within word low' high' := by
  intro index one
  obtain ⟨above, below⟩ := within index one
  exact ⟨le_trans lower above, lt_of_lt_of_le below higher⟩

theorem within_and_mask (isMask : IsMask mask low high) (word : BitVec width) :
    Within (word &&& mask) low high := by
  intro index one
  rw [BitVec.getLsbD_and, Bool.and_eq_true] at one
  exact isMask.within index one.2

theorem Within.shiftLeft (within : Within word low high) (shift : Nat) :
    Within (word <<< shift) (low + shift) (high + shift) := by
  intro index one
  rw [BitVec.getLsbD_shiftLeft] at one
  simp only [Bool.and_eq_true, decide_eq_true_eq, Bool.not_eq_true',
    decide_eq_false_iff_not] at one
  obtain ⟨⟨_, above⟩, one⟩ := one
  have place := within _ one
  omega

theorem within_of_toNat (aligned : word.toNat % 2 ^ low = 0)
    (bounded : word.toNat < 2 ^ high) : Within word low high := by
  intro index one
  constructor
  · by_contra below
    have split := Nat.mod_add_div word.toNat (2 ^ low)
    rw [aligned, Nat.zero_add] at split
    rw [BitVec.getLsbD, ← split, Nat.testBit_two_pow_mul] at one
    simp only [Bool.and_eq_true, decide_eq_true_eq] at one
    exact below one.1
  · by_contra above
    have small : word.toNat < 2 ^ index :=
      lt_of_lt_of_le bounded (Nat.pow_le_pow_right (by decide) (not_lt.mp above))
    rw [BitVec.getLsbD, Nat.testBit_lt_two_pow small] at one
    cases one

theorem Within.toNat_lt (within : Within word low high) :
    word.toNat < 2 ^ high := by
  apply Nat.lt_pow_two_of_testBit
  intro index above
  rw [← Bool.not_eq_true]
  intro one
  have place := within index one
  omega

theorem Within.toNat_mod (within : Within word low high) :
    word.toNat % 2 ^ low = 0 := by
  apply Nat.eq_of_testBit_eq
  intro index
  rw [Nat.testBit_mod_two_pow, Nat.zero_testBit, ← Bool.not_eq_true,
    Bool.and_eq_true, decide_eq_true_eq]
  rintro ⟨below, one⟩
  have place := within index one
  omega

theorem Within.and_mask (within : Within word low high)
    (isMask : IsMask mask low' high') (lower : low' ≤ low)
    (higher : high ≤ high') : word &&& mask = word := by
  apply BitVec.eq_of_getLsbD_eq
  intro index inside
  rw [BitVec.getLsbD_and, isMask.getLsbD inside]
  cases one : word.getLsbD index with
  | false => rfl
  | true =>
      obtain ⟨above, below⟩ := within index one
      rw [Bool.true_and, decide_eq_true_eq]
      exact ⟨le_trans lower above, lt_of_lt_of_le below higher⟩

theorem Within.and_eq_zero (first : Within left low high)
    (second : Within right low' high') (disjoint : high ≤ low' ∨ high' ≤ low) :
    left &&& right = 0 := by
  apply BitVec.eq_of_getLsbD_eq
  intro index inside
  have zero : (0 : BitVec width).getLsbD index = false := BitVec.getLsbD_zero
  rw [BitVec.getLsbD_and, zero, ← Bool.not_eq_true,
    Bool.and_eq_true]
  rintro ⟨one, other⟩
  have place := first index one
  have place' := second index other
  omega

/-- Below a word that lies above it, a word can be read back. -/
theorem Within.or_cancel {low₂ high₂ : Nat} (above : Within word low high)
    (first : Within left low' high') (second : Within right low₂ high₂)
    (below : high' ≤ low) (below₂ : high₂ ≤ low)
    (same : word ||| left = word ||| right) : left = right := by
  apply BitVec.eq_of_getLsbD_eq
  intro index inside
  have bits := congrArg (fun whole : BitVec width => whole.getLsbD index) same
  simp only [BitVec.getLsbD_or] at bits
  cases one : word.getLsbD index with
  | false =>
      rw [one, Bool.false_or, Bool.false_or] at bits
      exact bits
  | true =>
      have place := above index one
      have leftZero : left.getLsbD index = false := by
        rw [← Bool.not_eq_true]
        intro other
        have place' := first index other
        omega
      have rightZero : right.getLsbD index = false := by
        rw [← Bool.not_eq_true]
        intro other
        have place' := second index other
        omega
      rw [leftZero, rightZero]

/-- A shift that loses no bit can be undone. -/
theorem Within.shiftLeft_inj (first : Within left low high)
    (second : Within right low high) {shift : Nat} (fits : high + shift ≤ width)
    (same : left <<< shift = right <<< shift) : left = right := by
  apply BitVec.eq_of_toNat_eq
  have bound : 2 ^ (high + shift) ≤ 2 ^ width :=
    Nat.pow_le_pow_right (by decide) fits
  have numbers := congrArg BitVec.toNat same
  have product {word : BitVec width} (small : word.toNat < 2 ^ high) :
      word.toNat * 2 ^ shift < 2 ^ width := by
    calc word.toNat * 2 ^ shift < 2 ^ high * 2 ^ shift :=
          Nat.mul_lt_mul_of_pos_right small (Nat.two_pow_pos shift)
      _ = 2 ^ (high + shift) := (Nat.pow_add 2 high shift).symm
      _ ≤ 2 ^ width := bound
  rw [BitVec.toNat_shiftLeft, BitVec.toNat_shiftLeft, Nat.shiftLeft_eq,
    Nat.shiftLeft_eq, Nat.mod_eq_of_lt (product first.toNat_lt),
    Nat.mod_eq_of_lt (product second.toNat_lt)] at numbers
  exact Nat.eq_of_mul_eq_mul_right (Nat.two_pow_pos shift) numbers

theorem Within.toNat_or (first : Within left low high)
    (second : Within right low' high') (disjoint : high ≤ low' ∨ high' ≤ low) :
    (left ||| right).toNat = left.toNat + right.toNat := by
  rw [← BitVec.add_eq_or_of_and_eq_zero _ _ (first.and_eq_zero second disjoint),
    BitVec.toNat_add_of_and_eq_zero (first.and_eq_zero second disjoint)]

end BitField
