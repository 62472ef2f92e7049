import TzTest.Libcflat.String
import TzTest.Libcflat.Vsnprintf

/-!
# Copies of a given size

`memmove` copies between regions that overlap in any way.  `memcpy` does so unless the
destination begins inside the source.
-/

namespace TzTest.Libcflat

variable {arch : Arch}

/-- A region that ends before the last address or there. -/
def Inside (p n : Word arch) : Prop :=
  p.toNat + n.toNat ≤ 2 ^ arch.width

theorem toNat_add_ofNat {p : Word arch} {i : Nat} (inside : p.toNat + i < 2 ^ arch.width) :
    (p + BitVec.ofNat arch.width i).toNat = p.toNat + i := by
  rw [BitVec.toNat_add, BitVec.toNat_ofNat, Nat.mod_eq_of_lt (by omega : i < 2 ^ arch.width),
    Nat.mod_eq_of_lt inside]

/-- A part of a region has been copied and nothing else was written. -/
structure Moved (before after : Memory arch) (dest src : Word arch) (low high : Nat) :
    Prop where
  copied {i : Nat} : low ≤ i → i < high →
    after (dest + BitVec.ofNat arch.width i) = before (src + BitVec.ofNat arch.width i)
  frame {addr : Word arch} :
    (∀ i, low ≤ i → i < high → addr ≠ dest + BitVec.ofNat arch.width i) →
    after addr = before addr

theorem Moved.refl (mem : Memory arch) (dest src : Word arch) (place : Nat) :
    Moved mem mem dest src place place where
  copied above below := by omega
  frame _ := rfl

variable {before mem : Memory arch} {dest src : Word arch} {low high : Nat}

/-- One more character behind the part. -/
theorem Moved.above (moved : Moved before mem dest src low high) (order : low ≤ high)
    (fits : dest.toNat + high < 2 ^ arch.width)
    (unread : ∀ i, low ≤ i → i < high →
      src + BitVec.ofNat arch.width high ≠ dest + BitVec.ofNat arch.width i) :
    Moved before
      (Function.update mem (dest + BitVec.ofNat arch.width high)
        (mem (src + BitVec.ofNat arch.width high))) dest src low (high + 1) where
  copied {i} above below := by
    by_cases last : i = high
    · subst last
      rw [Function.update_self]
      exact moved.frame unread
    · have apart : dest + BitVec.ofNat arch.width i ≠ dest + BitVec.ofNat arch.width high :=
        fun same => last (add_ofNat_inj (by omega) (by omega) same)
      rw [Function.update_of_ne apart]
      exact moved.copied above (by omega)
  frame apart := by
    rw [Function.update_of_ne (apart high order (Nat.lt_succ_self _))]
    exact moved.frame fun i above below => apart i above (Nat.lt_succ_of_lt below)

/-- One more character before the part. -/
theorem Moved.below (moved : Moved before mem dest src (low + 1) high) (order : low < high)
    (fits : dest.toNat + high ≤ 2 ^ arch.width)
    (unread : ∀ i, low + 1 ≤ i → i < high →
      src + BitVec.ofNat arch.width low ≠ dest + BitVec.ofNat arch.width i) :
    Moved before
      (Function.update mem (dest + BitVec.ofNat arch.width low)
        (mem (src + BitVec.ofNat arch.width low))) dest src low high where
  copied {i} above below := by
    by_cases first : i = low
    · subst first
      rw [Function.update_self]
      exact moved.frame unread
    · have apart : dest + BitVec.ofNat arch.width i ≠ dest + BitVec.ofNat arch.width low :=
        fun same => first (add_ofNat_inj (by omega) (by omega) same)
      rw [Function.update_of_ne apart]
      exact moved.copied (by omega) below
  frame apart := by
    rw [Function.update_of_ne (apart low (le_refl _) order)]
    exact moved.frame fun i above below => apart i (by omega) below

/-- Upwards, no character is overwritten before it is read unless the destination begins
inside the source. -/
theorem copyUp_moves {left : Nat} (moved : Moved before mem dest src 0 low)
    (destFits : dest.toNat + (low + left) ≤ 2 ^ arch.width)
    (srcFits : src.toNat + (low + left) ≤ 2 ^ arch.width)
    (apart : dest.toNat ≤ src.toNat ∨ src.toNat + (low + left) ≤ dest.toNat) :
    Moved before
      (copyUp left (dest + BitVec.ofNat arch.width low) (src + BitVec.ofNat arch.width low)
        mem) dest src 0 (low + left) := by
  induction left generalizing low mem with
  | zero => exact moved
  | succ left induction =>
      have next (p : Word arch) : p + BitVec.ofNat arch.width low + 1 =
          p + BitVec.ofNat arch.width (low + 1) := by
        rw [BitVec.ofNat_add, ← BitVec.add_assoc]
        rfl
      have unread : ∀ i, 0 ≤ i → i < low →
          src + BitVec.ofNat arch.width low ≠ dest + BitVec.ofNat arch.width i := by
        intro i _ below same
        have numbers := congrArg BitVec.toNat same
        rw [toNat_add_ofNat (by omega), toNat_add_ofNat (by omega)] at numbers
        omega
      have more := moved.above (Nat.zero_le _) (by omega) unread
      have rest := @induction _ (low + 1) more (by omega) (by omega) (by omega)
      rw [Nat.add_right_comm, Nat.add_assoc] at rest
      rw [copyUp, next, next]
      exact rest

/-- Downwards, the same holds unless the source begins inside the destination. -/
theorem copyDown_moves {left : Nat} (moved : Moved before mem dest src left high)
    (order : left ≤ high) (destFits : dest.toNat + high ≤ 2 ^ arch.width)
    (srcFits : src.toNat + high ≤ 2 ^ arch.width) (apart : src.toNat ≤ dest.toNat) :
    Moved before
      (copyDown left (dest + BitVec.ofNat arch.width left)
        (src + BitVec.ofNat arch.width left) mem) dest src 0 high := by
  induction left generalizing mem with
  | zero => exact moved
  | succ left induction =>
      have last (p : Word arch) : p + BitVec.ofNat arch.width (left + 1) - 1 =
          p + BitVec.ofNat arch.width left := by
        rw [BitVec.ofNat_add, ← BitVec.add_assoc]
        exact BitVec.add_sub_cancel _ _
      have unread : ∀ i, left + 1 ≤ i → i < high →
          src + BitVec.ofNat arch.width left ≠ dest + BitVec.ofNat arch.width i := by
        intro i above below same
        have numbers := congrArg BitVec.toNat same
        rw [toNat_add_ofNat (by omega), toNat_add_ofNat (by omega)] at numbers
        omega
      have more := moved.below (by omega) destFits unread
      rw [copyDown, last, last]
      exact induction more (by omega)

theorem memcpyLoop_eq (a b : Word arch) (left : Nat) (i : Word arch) (mem : Memory arch) :
    memcpyLoop a b left i mem = copyUp left (a + i) (b + i) mem := by
  induction left generalizing i mem with
  | zero => rfl
  | succ left induction =>
      rw [memcpyLoop, copyUp, induction, BitVec.add_assoc, BitVec.add_assoc]

/-- The characters that `memset` has not reached are as they were. -/
theorem memsetLoop_sets {a : Word arch} {c : CChar} {left done : Nat}
    (fits : done + left ≤ 2 ^ arch.width)
    (set : ∀ i < done, mem (a + BitVec.ofNat arch.width i) = c) :
    (∀ i < done + left, memsetLoop a c left (BitVec.ofNat arch.width done) mem
        (a + BitVec.ofNat arch.width i) = c) ∧
      ∀ addr, (∀ i, done ≤ i → i < done + left → addr ≠ a + BitVec.ofNat arch.width i) →
        memsetLoop a c left (BitVec.ofNat arch.width done) mem addr = mem addr := by
  induction left generalizing done mem with
  | zero => exact ⟨set, fun _ _ => rfl⟩
  | succ left induction =>
      have next : BitVec.ofNat arch.width done + 1 = BitVec.ofNat arch.width (done + 1) := by
        rw [BitVec.ofNat_add]
        rfl
      have more : ∀ i < done + 1, Function.update mem (a + BitVec.ofNat arch.width done) c
          (a + BitVec.ofNat arch.width i) = c := by
        intro i inside
        by_cases last : i = done
        · subst last
          exact Function.update_self ..
        · have apart : a + BitVec.ofNat arch.width i ≠ a + BitVec.ofNat arch.width done :=
            fun same => last (add_ofNat_inj (by omega) (by omega) same)
          rw [Function.update_of_ne apart]
          exact set i (by omega)
      obtain ⟨all, frame⟩ := @induction _ (done + 1) (by omega) more
      have total : done + (left + 1) = done + 1 + left := by omega
      rw [memsetLoop, next, total]
      refine ⟨all, ?_⟩
      intro addr outside
      rw [frame addr fun i above below => outside i (by omega) below]
      exact Function.update_of_ne (outside done (le_refl _) (by omega)) ..

theorem memset_sets (s : Word arch) (c : BitVec 32) (n : Word arch) (mem : Memory arch) :
    (∀ i < n.toNat, memset s c n mem (s + BitVec.ofNat arch.width i) = c.setWidth 8) ∧
      ∀ addr, (∀ i < n.toNat, addr ≠ s + BitVec.ofNat arch.width i) →
        memset s c n mem addr = mem addr := by
  have size := n.isLt
  obtain ⟨all, frame⟩ := @memsetLoop_sets arch mem s (c.setWidth 8) n.toNat 0 (by omega)
    (fun _ inside => absurd inside (Nat.not_lt_zero _))
  rw [Nat.zero_add] at all frame
  exact ⟨all, fun addr outside => frame addr fun i _ below => outside i below⟩

theorem add_zero_ofNat (p : Word arch) : p + BitVec.ofNat arch.width 0 = p := by
  simp

theorem memmove_moves (mem : Memory arch) {dest src n : Word arch} (destFits : Inside dest n)
    (srcFits : Inside src n) : Moved mem (memmove dest src n mem) dest src 0 n.toNat := by
  unfold memmove
  by_cases order : dest ≤ src
  · have moved := @copyUp_moves arch mem mem dest src 0 n.toNat (Moved.refl ..)
      (by rwa [Nat.zero_add]) (by rwa [Nat.zero_add]) (.inl order)
    rw [add_zero_ofNat, add_zero_ofNat, Nat.zero_add] at moved
    rwa [if_pos order]
  · have less : src.toNat ≤ dest.toNat := Nat.le_of_lt (Nat.lt_of_not_le order)
    have moved := @copyDown_moves arch mem mem dest src n.toNat n.toNat (Moved.refl ..)
      (le_refl _) destFits srcFits less
    have size : BitVec.ofNat arch.width n.toNat = n := by simp
    rw [size] at moved
    rwa [if_neg order]

/-- The destination begins inside the source, behind its first character. -/
def BeginsInside (dest src n : Word arch) : Prop :=
  src.toNat < dest.toNat ∧ dest.toNat < src.toNat + n.toNat

theorem memcpy_eq (dest src n : Word arch) (mem : Memory arch) :
    memcpy dest src n mem = copyUp n.toNat dest src mem := by
  rw [memcpy, memcpyLoop_eq]
  simp

theorem memcpy_moves (mem : Memory arch) {dest src n : Word arch} (destFits : Inside dest n)
    (srcFits : Inside src n) (apart : ¬BeginsInside dest src n) :
    Moved mem (memcpy dest src n mem) dest src 0 n.toNat := by
  have beside : dest.toNat ≤ src.toNat ∨ src.toNat + (0 + n.toNat) ≤ dest.toNat := by
    unfold BeginsInside at apart
    omega
  have moved := @copyUp_moves arch mem mem dest src 0 n.toNat (Moved.refl ..)
    (by rwa [Nat.zero_add]) (by rwa [Nat.zero_add]) beside
  rw [add_zero_ofNat, add_zero_ofNat, Nat.zero_add] at moved
  rwa [memcpy_eq]

/-- Where the destination begins inside the source, the copy repeats what lies before
it. -/
theorem copyUp_repeats {left done distance : Nat} (some : 0 < distance)
    (ahead : dest = src + BitVec.ofNat arch.width distance)
    (fits : dest.toNat + (done + left) ≤ 2 ^ arch.width)
    (order : dest.toNat = src.toNat + distance)
    (kept : ∀ i < distance,
      mem (src + BitVec.ofNat arch.width i) = before (src + BitVec.ofNat arch.width i))
    (repeated : ∀ i < done, mem (dest + BitVec.ofNat arch.width i) =
      before (src + BitVec.ofNat arch.width (i % distance))) :
    ∀ i < done + left,
      copyUp left (dest + BitVec.ofNat arch.width done) (src + BitVec.ofNat arch.width done)
          mem (dest + BitVec.ofNat arch.width i) =
        before (src + BitVec.ofNat arch.width (i % distance)) := by
  induction left generalizing done mem with
  | zero => exact repeated
  | succ left induction =>
      have next (p : Word arch) : p + BitVec.ofNat arch.width done + 1 =
          p + BitVec.ofNat arch.width (done + 1) := by
        rw [BitVec.ofNat_add, ← BitVec.add_assoc]
        rfl
      have read : mem (src + BitVec.ofNat arch.width done) =
          before (src + BitVec.ofNat arch.width (done % distance)) := by
        by_cases first : done < distance
        · rw [Nat.mod_eq_of_lt first]
          exact kept done first
        · have back : src + BitVec.ofNat arch.width done =
              dest + BitVec.ofNat arch.width (done - distance) := by
            rw [ahead, BitVec.add_assoc, ← BitVec.ofNat_add]
            congr 2
            omega
          have same : done % distance = (done - distance) % distance :=
            Nat.mod_eq_sub_mod (by omega)
          rw [back, repeated _ (by omega), same]
      rw [copyUp, next, next, read]
      have total : done + (left + 1) = done + 1 + left := by omega
      rw [total] at fits ⊢
      apply induction fits
      · intro i inside
        have apart : src + BitVec.ofNat arch.width i ≠
            dest + BitVec.ofNat arch.width done := by
          intro same
          have numbers := congrArg BitVec.toNat same
          rw [toNat_add_ofNat (by omega), toNat_add_ofNat (by omega)] at numbers
          omega
        rw [Function.update_of_ne apart]
        exact kept i inside
      · intro i inside
        by_cases last : i = done
        · subst last
          exact Function.update_self ..
        · have apart : dest + BitVec.ofNat arch.width i ≠
              dest + BitVec.ofNat arch.width done :=
            fun same => last (add_ofNat_inj (by omega) (by omega) same)
          rw [Function.update_of_ne apart]
          exact repeated i (by omega)

/-- `memmove` copies in any case.  `memcpy` agrees with it on every memory if and only if
the destination does not begin inside the source. -/
theorem memmove_memcpy {dest src n : Word arch} (destFits : Inside dest n)
    (srcFits : Inside src n) :
    (∀ mem, Moved mem (memmove dest src n mem) dest src 0 n.toNat) ∧
      ((∀ mem, memcpy dest src n mem = memmove dest src n mem) ↔
        ¬BeginsInside dest src n) := by
  refine ⟨fun mem => memmove_moves mem destFits srcFits, ?_, ?_⟩
  · rintro same ⟨above, below⟩
    unfold Inside at destFits srcFits
    have distance : 0 < dest.toNat - src.toNat := by omega
    have ahead : dest = src + BitVec.ofNat arch.width (dest.toNat - src.toNat) := by
      apply BitVec.eq_of_toNat_eq
      rw [toNat_add_ofNat (by omega)]
      omega
    -- only the first character of the source differs from the others
    let mem : Memory arch := Function.update (fun _ => 1) src 0
    have repeated := @copyUp_repeats arch mem mem dest src n.toNat 0 _ distance ahead
      (by omega) (by omega) (fun _ _ => rfl) (fun _ inside => absurd inside (Nat.not_lt_zero _))
      (dest.toNat - src.toNat) (by omega)
    rw [add_zero_ofNat, add_zero_ofNat, Nat.mod_self, add_zero_ofNat, ← memcpy_eq,
      same mem] at repeated
    have moved := (memmove_moves mem destFits srcFits).copied (Nat.zero_le _)
      (by omega : dest.toNat - src.toNat < n.toNat)
    rw [← ahead, repeated] at moved
    have apart : dest ≠ src := by
      rintro rfl
      omega
    have first : mem src = 0 := Function.update_self ..
    have other : mem dest = 1 := Function.update_of_ne apart ..
    rw [first, other] at moved
    exact absurd moved (by decide)
  · intro apart mem
    have copied := memcpy_moves mem destFits srcFits apart
    have moved := memmove_moves mem destFits srcFits
    funext addr
    by_cases inside : ∃ i < n.toNat, addr = dest + BitVec.ofNat arch.width i
    · obtain ⟨i, below, rfl⟩ := inside
      rw [copied.copied (Nat.zero_le _) below, moved.copied (Nat.zero_le _) below]
    · have outside : ∀ i, 0 ≤ i → i < n.toNat → addr ≠ dest + BitVec.ofNat arch.width i :=
        fun i _ below same => inside ⟨i, below, same⟩
      rw [copied.frame outside, moved.frame outside]

/-- A copy by four characters upwards within eight. -/
theorem memmove_memcpy_four :
    (∀ mem : Memory .aarch64, memmove 0x1004 0x1000 8 mem 0x1008 = mem 0x1004) ∧
      ¬∀ mem : Memory .aarch64, memcpy 0x1004 0x1000 8 mem = memmove 0x1004 0x1000 8 mem := by
  obtain ⟨moves, agree⟩ := @memmove_memcpy .aarch64 0x1004 0x1000 8 (by unfold Inside; decide)
    (by unfold Inside; decide)
  constructor
  · intro mem
    exact @Moved.copied _ _ _ _ _ _ _ (moves mem) 4 (by decide) (by decide)
  · rw [agree, not_not]
    unfold BeginsInside
    decide

end TzTest.Libcflat
