import TzTest.Libcflat.Rendering

/-!
# The buffer of `vsnprintf`

The buffer gets the beginning of the text and a zero.  `printf` puts what a buffer of
2000 characters holds.
-/

namespace TzTest.Libcflat

variable {arch : Arch}

theorem ofNat_inj {i j : Nat} (small : i < 2 ^ arch.width) (small' : j < 2 ^ arch.width)
    (same : BitVec.ofNat arch.width i = BitVec.ofNat arch.width j) : i = j := by
  have numbers := congrArg BitVec.toNat same
  simpa [Nat.mod_eq_of_lt small, Nat.mod_eq_of_lt small'] using numbers

theorem add_ofNat_inj {addr : Word arch} {i j : Nat} (small : i < 2 ^ arch.width)
    (small' : j < 2 ^ arch.width)
    (same : addr + BitVec.ofNat arch.width i = addr + BitVec.ofNat arch.width j) : i = j :=
  ofNat_inj small small' ((BitVec.add_right_inj addr).mp same)

theorem add_one_ofNat (addr : Word arch) (i : Nat) :
    addr + 1 + BitVec.ofNat arch.width i = addr + BitVec.ofNat arch.width (i + 1) := by
  rw [Nat.add_comm, BitVec.ofNat_add, ← BitVec.add_assoc]
  rfl

theorem stored_frame {mem : Word arch → CChar} {addr other : Word arch}
    {output : List CChar}
    (apart : ∀ i < output.length, other ≠ addr + BitVec.ofNat arch.width i) :
    stored mem addr output other = mem other := by
  induction output generalizing mem addr with
  | nil => rfl
  | cons c output induction =>
      have first : other ≠ addr := by
        simpa using apart 0 (Nat.succ_pos _)
      rw [stored, induction]
      · exact Function.update_of_ne first ..
      · intro i inside
        rw [add_one_ofNat]
        exact apart (i + 1) (Nat.succ_lt_succ inside)

theorem stored_get {mem : Word arch → CChar} {addr : Word arch} {output : List CChar}
    {i : Nat} (fits : output.length ≤ 2 ^ arch.width) (inside : i < output.length) :
    stored mem addr output (addr + BitVec.ofNat arch.width i) = output.getD i 0 := by
  induction output generalizing mem addr i with
  | nil => cases inside
  | cons c output induction =>
      rw [List.length_cons] at fits
      cases i with
      | zero =>
          have start : addr + BitVec.ofNat arch.width 0 = addr := by simp
          rw [start, stored, stored_frame]
          · exact Function.update_self ..
          · intro j below same
            rw [add_one_ofNat] at same
            have zero := @add_ofNat_inj arch addr 0 (j + 1) (by omega) (by omega)
              (start.trans same)
            cases zero
      | succ i =>
          rw [stored, ← add_one_ofNat]
          exact induction (by omega) (Nat.lt_of_succ_lt_succ inside)

/-- The memory at `buf` holds the text as far as there is room, and a zero. -/
structure Printed (buf : Word arch) (room : Nat) (output : List CChar)
    (before after : Word arch → CChar) : Prop where
  chars {i : Nat} : i < min output.length room →
    after (buf + BitVec.ofNat arch.width i) = output.getD i 0
  ended : after (buf + BitVec.ofNat arch.width (min output.length room)) = 0
  frame {addr : Word arch} :
    (∀ i ≤ min output.length room, addr ≠ buf + BitVec.ofNat arch.width i) →
    after addr = before addr

variable {mem : Word arch → CChar} {buf : Word arch} {size : BitVec 32} {fmt : CString}
variable {va : List (VaArg arch)} {rounds : Nat}

theorem vsnprintf_eq (short : Short va) (enough : fmt.chars.length < rounds) :
    vsnprintf rounds mem buf size fmt va =
      (text (parse fmt.chars) va).map fun output =>
        (Function.update (stored mem buf (output.take (size - 1).toNat))
            (buf + BitVec.ofNat arch.width (min output.length (size - 1).toNat)) 0,
          BitVec.ofNat 32 (output.length + 1)) := by
  unfold vsnprintf
  rw [formatLoop_eq short enough]
  cases text (parse fmt.chars) va with
  | none => rfl
  | some output =>
      have counted : (0 : BitVec 32) + BitVec.ofNat 32 output.length + 1 =
          BitVec.ofNat 32 (output.length + 1) := by
        simp [BitVec.ofNat_add]
      simp only [Option.map_some, bind, Option.bind_some, foldl_addchar, counted]
      rfl

theorem printed_of_stored {output : List CChar} {room : Nat} (small : room < 2 ^ 32) :
    Printed buf room output mem
      (Function.update (stored mem buf (output.take room))
        (buf + BitVec.ofNat arch.width (min output.length room)) 0) := by
  have wide : 2 ^ 32 ≤ 2 ^ arch.width := Nat.pow_le_pow_right (by decide) arch.le_width
  have length : (output.take room).length = min output.length room := by
    simp [Nat.min_comm]
  refine
    { chars := ?_
      ended := Function.update_self ..
      frame := ?_ }
  · intro i inside
    have apart : buf + BitVec.ofNat arch.width i ≠
        buf + BitVec.ofNat arch.width (min output.length room) := by
      intro same
      have equal := add_ofNat_inj (by omega) (by omega) same
      omega
    rw [Function.update_of_ne apart, stored_get (by omega) (by omega)]
    have below : i < room := by omega
    simp [List.getD_eq_getElem?_getD, List.getElem?_take_of_lt below]
  · intro addr apart
    rw [Function.update_of_ne (apart _ (le_refl _))]
    apply stored_frame
    intro i inside
    exact apart i (by omega)

theorem vsnprintf_some (mem : Word arch → CChar) (buf : Word arch) (size : BitVec 32)
    {output : List CChar} (short : Short va) (enough : fmt.chars.length < rounds)
    (prints : text (parse fmt.chars) va = some output) :
    ∃ after,
      vsnprintf rounds mem buf size fmt va =
        some (after, BitVec.ofNat 32 (output.length + 1)) ∧
      Printed buf (size - 1).toNat output mem after := by
  refine ⟨_, ?_, printed_of_stored (size - 1).isLt⟩
  rw [vsnprintf_eq short enough, prints]
  rfl

/-- `vsnprintf` has a result when the text of the format has one, and then it puts the
text into the buffer, as far as `size - 1` characters have room, and ends it with a zero.
It returns the length of the whole text with its zero. -/
theorem vsnprintf_prints (mem : Word arch → CChar) (buf : Word arch) (size : BitVec 32)
    {fmt : CString} {va : List (VaArg arch)} (short : Short va) {rounds : Nat}
    (enough : fmt.chars.length < rounds) :
    match text (parse fmt.chars) va with
    | none => vsnprintf rounds mem buf size fmt va = none
    | some output => ∃ after,
        vsnprintf rounds mem buf size fmt va =
          some (after, BitVec.ofNat 32 (output.length + 1)) ∧
        Printed buf (size - 1).toNat output mem after := by
  cases prints : text (parse fmt.chars) va with
  | none =>
      have ran := @vsnprintf_eq arch mem buf size fmt va rounds short enough
      rw [prints] at ran
      exact ran
  | some output => exact vsnprintf_some mem buf size short enough prints

/-- `"%5d!"` -/
def smallFormat : CString :=
  ⟨[ch '%', ch '5', ch 'd', ch '!'], by decide⟩

theorem smallFormat_text :
    text (parse smallFormat.chars) [(.int 42 : VaArg arch)] =
      some ("   42!".toList.map ch) := by
  have width : readWidth [ch '5', ch 'd', ch '!'] = (5, [ch 'd', ch '!']) := by decide
  have parsed : parseDirective ⟨ch ' ', 0⟩ 0 [ch '5', ch 'd', ch '!'] =
      some (⟨ch ' ', 5⟩, .decimal 0, [ch '!']) := by
    rw [parseDirective, if_neg (by decide), dif_pos (by decide), width, parseDirective,
      if_neg (by decide), dif_neg (by decide), if_neg (by decide)]
    rfl
  have pieces : parse smallFormat.chars =
      [.directive ⟨ch ' ', 5⟩ (.decimal 0), .literal (ch '!')] := by
    change parse (ch '%' :: [ch '5', ch 'd', ch '!']) = _
    rw [parse_directive parsed, parse_literal _ (by decide), parse_nil]
  rw [pieces]
  cases arch <;> decide +kernel

theorem smallFormat_short : Short [(.int 42 : VaArg arch)] := by
  intro value member
  cases List.mem_singleton.mp member

/-- The buffer is two characters too short for the text and its zero. -/
theorem vsnprintf_prints_smallFormat :
    ∃ after, vsnprintf 5 (fun _ => 1) (0x1000 : Word .aarch64) 5 smallFormat [.int 42] =
        some (after, 7) ∧
      after 0x1003 = ch '4' ∧ after 0x1004 = 0 ∧ after 0x1005 = 1 := by
  have prints := vsnprintf_prints (fun _ => 1) (0x1000 : Word .aarch64) 5 smallFormat_short
    (by decide : smallFormat.chars.length < 5)
  rw [smallFormat_text] at prints
  obtain ⟨after, ran, printed⟩ := prints
  refine ⟨after, ran, printed.chars (by decide : 3 < _), printed.ended, ?_⟩
  apply printed.frame
  decide

/-- An address in the array of `size` characters. -/
def InBuffer (buf : Word arch) (size : BitVec 32) (addr : Word arch) : Prop :=
  ∃ i < size.toInt.toNat, addr = buf + BitVec.ofNat arch.width i

/-- The array is all that is written if and only if it has room for the zero. -/
theorem vsnprintf_inside_iff (buf : Word arch) (size : BitVec 32) {fmt : CString}
    {va : List (VaArg arch)} {output : List CChar} (short : Short va)
    (prints : text (parse fmt.chars) va = some output) {rounds : Nat}
    (enough : fmt.chars.length < rounds) :
    (∀ mem after r, vsnprintf rounds mem buf size fmt va = some (after, r) →
        ∀ addr, ¬InBuffer buf size addr → after addr = mem addr) ↔
      0 < size.toInt := by
  constructor
  · intro inside
    by_contra empty
    obtain ⟨after, ran, printed⟩ := vsnprintf_some (fun _ => 1) buf size short enough prints
    have kept := inside _ _ _ ran
      (buf + BitVec.ofNat arch.width (min output.length (size - 1).toNat)) (by
        rintro ⟨i, below, _⟩
        omega)
    rw [printed.ended] at kept
    exact absurd kept (by decide)
  · intro room mem after r found addr outside
    obtain ⟨after', ran, printed⟩ := vsnprintf_some mem buf size short enough prints
    obtain ⟨rfl, _⟩ := Prod.mk.inj (Option.some.inj (found.symm.trans ran))
    apply printed.frame
    have value := size.toInt_eq_toNat_cond
    have last : (size - 1).toNat + 1 = size.toInt.toNat := by
      have positive : 0 < size.toNat := by omega
      have less : (size - 1).toNat = size.toNat - 1 := BitVec.toNat_sub_of_le positive
      omega
    intro i below same
    exact outside ⟨i, by omega, same⟩

theorem vsnprintf_inside_smallFormat :
    ¬∀ mem after r, vsnprintf 5 mem (0x1000 : Word .aarch64) 0 smallFormat [.int 42] =
        some (after, r) →
      ∀ addr, ¬InBuffer 0x1000 0 addr → after addr = mem addr := by
  rw [vsnprintf_inside_iff 0x1000 0 smallFormat_short smallFormat_text
    (by decide : smallFormat.chars.length < 5)]
  decide

theorem puts_eq {mem : Word arch → CChar} {s : Word arch} {chars : List CChar}
    {rounds : Nat} (enough : chars.length < rounds)
    (held : ∀ i < chars.length, mem (s + BitVec.ofNat arch.width i) = chars.getD i 0)
    (ended : mem (s + BitVec.ofNat arch.width chars.length) = 0) :
    puts mem rounds s = some (chars.takeWhile (· ≠ 0)) := by
  induction chars generalizing s rounds with
  | nil =>
      obtain ⟨rounds, rfl⟩ := Nat.exists_eq_succ_of_ne_zero (Nat.ne_zero_of_lt enough)
      have zero : mem s = 0 := by simpa using ended
      simp [puts, zero]
  | cons c chars induction =>
      obtain ⟨rounds, rfl⟩ := Nat.exists_eq_succ_of_ne_zero (Nat.ne_zero_of_lt enough)
      have first : mem s = c := by simpa using held 0 (Nat.succ_pos _)
      have rest := @induction (s + 1) rounds (Nat.lt_of_succ_lt_succ enough)
        (fun i inside => by
          rw [add_one_ofNat]
          exact held (i + 1) (Nat.succ_lt_succ inside))
        (by rwa [add_one_ofNat])
      by_cases zero : c = 0
      · simp [puts, first, zero]
      · rw [puts, first, if_pos zero, rest, List.takeWhile_cons_of_pos (by simpa using zero)]
        rfl

/-- The UART gets the first 1999 characters of the text, up to a zero in it. -/
theorem printf_eq (mem : Word arch → CChar) (buf : Word arch) {fmt : CString}
    {va : List (VaArg arch)} (short : Short va) {rounds : Nat}
    (enough : fmt.chars.length < rounds) (whole : 2000 ≤ rounds) :
    printf rounds mem buf fmt va =
      (text (parse fmt.chars) va).map fun output =>
        ((output.take 1999).takeWhile (· ≠ 0), BitVec.ofNat 32 (output.length + 1)) := by
  cases prints : text (parse fmt.chars) va with
  | none =>
      have ran := @vsnprintf_eq arch mem buf 2000 fmt va rounds short enough
      rw [prints] at ran
      exact congrArg (Option.bind · _) ran
  | some output =>
      obtain ⟨after, ran, printed⟩ := vsnprintf_some mem buf 2000 short enough prints
      have room : ((2000 : BitVec 32) - 1).toNat = 1999 := by decide
      rw [room] at printed
      have length : (output.take 1999).length = min output.length 1999 := by
        simp [Nat.min_comm]
      have held (i : Nat) (inside : i < (output.take 1999).length) :
          after (buf + BitVec.ofNat arch.width i) = (output.take 1999).getD i 0 := by
        have below : i < 1999 := by omega
        rw [printed.chars (by omega)]
        simp [List.getD_eq_getElem?_getD, List.getElem?_take_of_lt below]
      have written := @puts_eq arch after buf (output.take 1999) rounds (by omega) held
        (by rw [length]; exact printed.ended)
      simp only [printf, ran, bind, Option.bind_some, written]
      rfl

theorem printf_eq_smallFormat :
    printf 2000 (fun _ => 1) (0x1000 : Word .arm) smallFormat [.int 42] =
      some ("   42!".toList.map ch, 7) := by
  rw [printf_eq (fun _ => 1) 0x1000 smallFormat_short (by decide) (le_refl 2000),
    smallFormat_text]
  decide

end TzTest.Libcflat
