import TzTest.InitUtil.Spans

/-!
# Copies and unmapped pages through the tables

Once the MMU is on, `memcpy` and `unmap_va_range` reach the memory through the
tables of the image.  The copy is the one that its addresses say as long as it
writes to no table, and the entries are found where the tables map them to
themselves.
-/

namespace TzTest.Aarch64

open Radix BitField

section Access

variable {mem : BitVec 64 → BitVec 64} {base va page attr : BitVec 64}

theorem access_of_translate (inside : va.toNat < 2 ^ 48)
    (translated : initMapper.translate mem base va = some ⟨page, attr⟩) :
    access base mem va = some (page ||| (va &&& 0xFFF)) := by
  unfold access
  rw [hwWalk_eq inside, ← initMapper_translate, translated]
  rfl

theorem access_none (missing : initMapper.translate mem base va = none) :
    access base mem va = none := by
  unfold access
  rw [hwWalk_none ((initMapper_translate ..).symm.trans missing)]
  rfl

theorem offset_toNat (isPage : page.toNat % 0x1000 = 0) (va : BitVec 64) :
    (page ||| (va &&& 0xFFF)).toNat = page.toNat + va.toNat % 0x1000 := by
  have above : Within page 12 64 := within_of_toNat isPage page.isLt
  have low : Within (va &&& 0xFFF) 0 12 :=
    within_and_mask (by decide : IsMask (0xFFF : BitVec 64) 0 12) va
  have mask : (0xFFF : BitVec 64).toNat = 2 ^ 12 - 1 := rfl
  rw [above.toNat_or low (.inr (le_refl _)), BitVec.toNat_and, mask,
    Nat.and_two_pow_sub_one_eq_mod]

/-- The address is translated to itself. -/
def Identity (mem : BitVec 64 → BitVec 64) (base va : BitVec 64) : Prop :=
  ∃ page attr, initMapper.translate mem base va = some ⟨page, attr⟩ ∧
    page.toNat = va.toNat / 0x1000 * 0x1000

theorem Identity.access (identity : Identity mem base va) :
    access base mem va = some va := by
  obtain ⟨page, attr, translated, place⟩ := identity
  -- A page that the tables lead to lies below `2 ^ 48`, and so does its own address.
  have small : page.toNat < 2 ^ 48 :=
    (pa_within ((initMapper_translate ..).symm.trans translated)).toNat_lt
  rw [access_of_translate (by omega) translated]
  apply congrArg some
  apply BitVec.eq_of_toNat_eq
  rw [offset_toNat (by omega), place]
  omega

end Access

namespace InitUtil

/-- After some words of a copy. -/
structure Copying (start : InitUtil) (target source : Nat → BitVec 64) (words : Nat)
    (s : InitUtil) : Prop where
  x0 : s.x0 = start.x0 + BitVec.ofNat 64 (8 * words)
  x1 : s.x1 = start.x1 + BitVec.ofNat 64 (8 * words)
  x2 : s.x2 = start.x2 - BitVec.ofNat 64 (8 * words)
  nextPa : s.nextPa = start.nextPa
  copied {word : Nat} : word < words → s.mem (target word) = start.mem (source word)
  frame {addr : BitVec 64} : (∀ word < words, addr ≠ target word) →
    s.mem addr = start.mem addr

section Copy

variable {ttbr0 : BitVec 64} {start : InitUtil} {target source : Nat → BitVec 64}
variable {total : Nat} {tables : (BitVec 64 → BitVec 64) → Prop}

/-- Where the words of a copy lie, as long as the tables stay as they are. -/
structure CopyPlan (ttbr0 : BitVec 64) (start : InitUtil) (target source : Nat → BitVec 64)
    (total : Nat) (tables : (BitVec 64 → BitVec 64) → Prop) : Prop where
  dest {mem word} : tables mem → word < total →
    access ttbr0 mem (start.x0 + BitVec.ofNat 64 (8 * word)) = some (target word)
  src {mem word} : tables mem → word < total →
    access ttbr0 mem (start.x1 + BitVec.ofNat 64 (8 * word)) = some (source word)
  kept {mem word} (value : BitVec 64) : tables mem → word < total →
    tables (Function.update mem (target word) value)
  distinct {word word'} : word < total → word' < total → target word = target word' →
    word = word'
  apart {word word'} : word < total → word' < total → target word ≠ source word'

theorem add_word (addr : BitVec 64) (words : Nat) :
    addr + BitVec.ofNat 64 (8 * words) + 8 = addr + BitVec.ofNat 64 (8 * (words + 1)) := by
  rw [Nat.mul_succ, BitVec.ofNat_add, BitVec.add_assoc]
  rfl

theorem Copying.move (plan : CopyPlan ttbr0 start target source total tables)
    {words : Nat} {s : InitUtil} (copying : Copying start target source words s)
    (kept : tables s.mem) (more : words < total) :
    ∃ later, s.memcpyMove ttbr0 = some later ∧ tables later.mem ∧
      Copying start target source (words + 1) later := by
  have from' : access ttbr0 s.mem s.x1 = some (source words) := by
    rw [copying.x1]
    exact plan.src kept more
  have to' : access ttbr0 s.mem s.x0 = some (target words) := by
    rw [copying.x0]
    exact plan.dest kept more
  have untouched : s.mem (source words) = start.mem (source words) :=
    copying.frame fun word before same =>
      plan.apart (lt_trans before more) more same.symm
  refine ⟨_, Option.bind_eq_some_iff.mpr ⟨_, from',
    Option.bind_eq_some_iff.mpr ⟨_, to', rfl⟩⟩, plan.kept _ kept more, ?_⟩
  refine
    { x0 := ?_
      x1 := ?_
      x2 := ?_
      nextPa := copying.nextPa
      copied := ?_
      frame := ?_ }
  · change s.x0 + 8 = _
    rw [copying.x0, add_word]
  · change s.x1 + 8 = _
    rw [copying.x1, add_word]
  · change s.x2 - 8 = _
    rw [copying.x2, BitVec.sub_sub, Nat.mul_succ, BitVec.ofNat_add]
    rfl
  · intro word before
    change Function.update s.mem (target words) _ (target word) = _
    rcases Nat.lt_succ_iff_lt_or_eq.mp before with earlier | rfl
    · have other : target word ≠ target words := by
        intro same
        exact absurd (plan.distinct (lt_trans earlier more) more same) (Nat.ne_of_lt earlier)
      rw [Function.update_of_ne other]
      exact copying.copied earlier
    · rw [Function.update_self]
      exact untouched
  · intro addr outside
    change Function.update s.mem (target words) _ addr = _
    rw [Function.update_of_ne (outside words (Nat.lt_succ_self words))]
    exact copying.frame fun word before => outside word (Nat.lt_succ_of_lt before)

theorem Copying.sle_iff {words : Nat} {s : InitUtil}
    (copying : Copying start target source words s)
    (short : start.x2.toNat < 2 ^ 48)
    (within : words ≤ @TzTest.InitUtil.copyWords .aarch64 start.x2) :
    BitVec.sle s.x2 0 = true ↔ words = @TzTest.InitUtil.copyWords .aarch64 start.x2 := by
  have count : @TzTest.InitUtil.copyWords .aarch64 start.x2 = (start.x2.toNat + 7) / 8 := rfl
  have left : s.x2.toNat = (2 ^ 64 - 8 * words + start.x2.toNat) % 2 ^ 64 := by
    rw [copying.x2, BitVec.toNat_sub, BitVec.toNat_ofNat,
      Nat.mod_eq_of_lt (by omega : 8 * words < 2 ^ 64)]
  rw [TzTest.InitUtil.sle_zero_iff, left]
  omega

/-- The words are copied where the tables say, and nothing else is written. -/
theorem memcpy_copies
    (plan : CopyPlan ttbr0 start target source
      (@TzTest.InitUtil.copyWords .aarch64 start.x2) tables)
    (kept : tables start.mem) (short : start.x2.toNat < 2 ^ 48) :
    ∃ last, start.memcpy ttbr0 = some last ∧ tables last.mem ∧
      Copying start target source (@TzTest.InitUtil.copyWords .aarch64 start.x2) last := by
  have loop (left words : Nat) (s : InitUtil)
      (sum : words + left = @TzTest.InitUtil.copyWords .aarch64 start.x2)
      (kept : tables s.mem) (copying : Copying start target source words s) :
      ∃ last, memcpyLoop ttbr0 (left + 1) s = some last ∧ tables last.mem ∧
        Copying start target source (@TzTest.InitUtil.copyWords .aarch64 start.x2) last := by
    induction left generalizing words s with
    | zero =>
        have done := (copying.sle_iff short (by omega)).mpr (by omega)
        refine ⟨s, if_pos done, kept, ?_⟩
        rw [← sum]
        exact copying
    | succ left induction =>
        have more : ¬BitVec.sle s.x2 0 = true := by
          rw [copying.sle_iff short (by omega)]
          omega
        obtain ⟨later, moved, kept', copying'⟩ := copying.move plan kept (by omega)
        obtain ⟨last, ran, ends⟩ := induction (words + 1) later (by omega) kept' copying'
        refine ⟨last, ?_, ends⟩
        rw [memcpyLoop, if_neg more]
        exact Option.bind_eq_some_iff.mpr ⟨later, moved, ran⟩
  apply loop _ 0 start (Nat.zero_add _) kept
  exact ⟨(BitVec.add_zero _).symm, (BitVec.add_zero _).symm, (BitVec.sub_zero _).symm, rfl,
    nofun, fun _ => rfl⟩

end Copy

end InitUtil

end TzTest.Aarch64
