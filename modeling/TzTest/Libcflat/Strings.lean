import TzTest.Libcflat.Copying

/-!
# Strings in memory

The comparisons follow the order of the characters, the searches find the first place,
and `strcat` and `strcpy` write the string that they should and its zero.
-/

namespace TzTest.Libcflat

variable {arch : Arch} {mem : Memory arch}

/-- A string, and the zero behind it. -/
def Holds (mem : Memory arch) : Word arch → List CChar → Prop
  | p, [] => mem p = 0
  | p, c :: s => mem p = c ∧ c ≠ 0 ∧ Holds mem (p + 1) s

instance decidableHolds (mem : Memory arch) :
    (p : Word arch) → (s : List CChar) → Decidable (Holds mem p s)
  | p, [] => inferInstanceAs (Decidable (mem p = 0))
  | p, _ :: s =>
      have := decidableHolds mem (p + 1) s
      inferInstanceAs (Decidable (_ ∧ _ ∧ Holds mem (p + 1) s))

/-- The strings `"ab"` and `"b"`. -/
def smallMemory : Memory .aarch64 :=
  stored (stored (fun _ => 0) 0x10 [ch 'a', ch 'b']) 0x20 [ch 'b']

/-- The characters of a region. -/
def region (mem : Memory arch) (p : Word arch) : Nat → List CChar
  | 0 => []
  | n + 1 => mem p :: region mem (p + 1) n

theorem Holds.nonzero {p : Word arch} {s : List CChar} (holds : Holds mem p s) :
    ∀ c ∈ s, c ≠ 0 := by
  induction s generalizing p with
  | nil => nofun
  | cons c s induction =>
      obtain ⟨_, first, rest⟩ := holds
      intro d member
      rcases List.mem_cons.mp member with rfl | later
      · exact first
      · exact induction rest d later

/-- A string does not depend on other memory. -/
theorem Holds.congr {after : Memory arch} {p : Word arch} {s : List CChar}
    (holds : Holds mem p s)
    (same : ∀ i ≤ s.length,
      after (p + BitVec.ofNat arch.width i) = mem (p + BitVec.ofNat arch.width i)) :
    Holds after p s := by
  induction s generalizing p with
  | nil =>
      have here := same 0 (le_refl _)
      rw [add_zero_ofNat] at here
      exact here.trans holds
  | cons c s induction =>
      obtain ⟨first, nonzero, rest⟩ := holds
      have here := same 0 (Nat.zero_le _)
      rw [add_zero_ofNat] at here
      refine ⟨here.trans first, nonzero, induction rest ?_⟩
      intro i inside
      rw [add_one_ofNat]
      exact same (i + 1) (Nat.succ_le_succ inside)

theorem difference_zero {a b : CChar} : (a.toNat : Int) - b.toNat = 0 ↔ a = b := by
  rw [← BitVec.toNat_inj]
  omega

theorem difference_negative {a b : CChar} : (a.toNat : Int) - b.toNat < 0 ↔ a < b := by
  rw [BitVec.lt_def]
  omega

/-- `strcmp` compares by the first character that differs, and a string is less than its
continuations. -/
theorem strcmp_order {rounds : Nat} {a b : Word arch} {s t : List CChar}
    (left : Holds mem a s) (right : Holds mem b t) (enough : s.length < rounds) :
    ∃ r, strcmp mem rounds a b = some r ∧ (r = 0 ↔ s = t) ∧ (r < 0 ↔ s < t) := by
  induction s generalizing rounds a b t with
  | nil =>
      obtain ⟨rounds, rfl⟩ := Nat.exists_eq_succ_of_ne_zero (Nat.ne_zero_of_lt enough)
      have ended : mem a = 0 := left
      cases t with
      | nil =>
          have ended' : mem b = 0 := right
          refine ⟨0, ?_, by simp, by simp⟩
          rw [strcmp, ended, ended', if_pos rfl, if_pos rfl]
          rfl
      | cons c t =>
          obtain ⟨first, nonzero, _⟩ := right
          have apart : (0 : CChar) ≠ c := nonzero.symm
          have less : (0 : CChar) < c := by
            rw [BitVec.lt_def]
            exact Nat.pos_of_ne_zero fun zero => nonzero (BitVec.eq_of_toNat_eq zero)
          refine ⟨((0 : CChar).toNat : Int) - c.toNat, ?_, ?_, ?_⟩
          · rw [strcmp, ended, first, if_neg apart]
          · exact iff_of_false (mt difference_zero.mp apart) nofun
          · exact iff_of_true (difference_negative.mpr less) (List.nil_lt_cons _ _)
  | cons c s induction =>
      obtain ⟨rounds, rfl⟩ := Nat.exists_eq_succ_of_ne_zero (Nat.ne_zero_of_lt enough)
      obtain ⟨first, nonzero, rest⟩ := left
      cases t with
      | nil =>
          have ended : mem b = 0 := right
          have notLess : ¬c < 0 := by simp [BitVec.lt_def]
          refine ⟨(c.toNat : Int) - (0 : CChar).toNat, ?_, ?_, ?_⟩
          · rw [strcmp, first, ended, if_neg nonzero]
          · exact iff_of_false (mt difference_zero.mp nonzero) nofun
          · exact iff_of_false (mt difference_negative.mp notLess) (List.not_lt_nil _)
      | cons d t =>
          obtain ⟨first', _, rest'⟩ := right
          by_cases same : c = d
          · subst same
            obtain ⟨r, compared, equal, less⟩ :=
              induction rest rest' (Nat.lt_of_succ_lt_succ enough)
            refine ⟨r, ?_, ?_, ?_⟩
            · rw [strcmp, if_pos (first.trans first'.symm), if_neg (by rwa [first]), compared]
            · simp [equal]
            · simp [less]
          · refine ⟨(c.toNat : Int) - d.toNat, ?_, ?_, ?_⟩
            · rw [strcmp, first, first', if_neg same]
            · rw [difference_zero]
              simp [same]
            · rw [difference_negative]
              simp [same, List.cons_lt_cons_iff]

theorem strcmp_order_ab :
    ∃ r, @strcmp .aarch64 smallMemory 3 0x10 0x20 = some r ∧ r < 0 := by
  obtain ⟨r, compared, _, less⟩ := @strcmp_order .aarch64 smallMemory 3 0x10 0x20
    [ch 'a', ch 'b'] [ch 'b'] (by decide) (by decide) (by decide)
  exact ⟨r, compared, less.mpr (by decide)⟩

theorem memcmpLoop_order (n : Nat) (a b : Word arch) :
    (memcmpLoop mem n a b = 0 ↔ region mem a n = region mem b n) ∧
      (memcmpLoop mem n a b < 0 ↔ region mem a n < region mem b n) := by
  induction n generalizing a b with
  | zero => simp [memcmpLoop, region]
  | succ n induction =>
      obtain ⟨equal, less⟩ := induction (a + 1) (b + 1)
      by_cases same : mem a = mem b
      · have go : memcmpLoop mem (n + 1) a b = memcmpLoop mem n (a + 1) (b + 1) := by
          rw [memcmpLoop, difference_zero.mpr same]
          rfl
        rw [go, equal, less, region, region, same]
        simp
      · have differ : (mem a).toNat - ((mem b).toNat : Int) ≠ 0 :=
          fun zero => same (difference_zero.mp zero)
        have stop : memcmpLoop mem (n + 1) a b = (mem a).toNat - ((mem b).toNat : Int) := by
          rw [memcmpLoop]
          exact if_pos differ
        rw [stop, difference_zero, difference_negative, region, region,
          List.cons_lt_cons_iff]
        simp [same]

theorem memcmp_order (s1 s2 n : Word arch) (mem : Memory arch) :
    (memcmp s1 s2 n mem = 0 ↔ region mem s1 n.toNat = region mem s2 n.toNat) ∧
      (memcmp s1 s2 n mem < 0 ↔ region mem s1 n.toNat < region mem s2 n.toNat) :=
  memcmpLoop_order n.toNat s1 s2

theorem strlen_eq {rounds : Nat} {buf : Word arch} {s : List CChar} (holds : Holds mem buf s)
    (enough : s.length < rounds) (len : Word arch) :
    strlen mem rounds buf len = some (len + BitVec.ofNat arch.width s.length) := by
  induction s generalizing rounds buf len with
  | nil =>
      obtain ⟨rounds, rfl⟩ := Nat.exists_eq_succ_of_ne_zero (Nat.ne_zero_of_lt enough)
      have ended : mem buf = 0 := holds
      simp [strlen, ended]
  | cons c s induction =>
      obtain ⟨rounds, rfl⟩ := Nat.exists_eq_succ_of_ne_zero (Nat.ne_zero_of_lt enough)
      obtain ⟨first, nonzero, rest⟩ := holds
      rw [strlen, first, if_pos nonzero, induction rest (Nat.lt_of_succ_lt_succ enough),
        add_one_ofNat]
      rfl

theorem strend_eq {rounds : Nat} {p : Word arch} {s : List CChar} (holds : Holds mem p s)
    (enough : s.length < rounds) :
    strend mem rounds p = some (p + BitVec.ofNat arch.width s.length) := by
  induction s generalizing rounds p with
  | nil =>
      obtain ⟨rounds, rfl⟩ := Nat.exists_eq_succ_of_ne_zero (Nat.ne_zero_of_lt enough)
      have ended : mem p = 0 := holds
      simp [strend, ended]
  | cons c s induction =>
      obtain ⟨rounds, rfl⟩ := Nat.exists_eq_succ_of_ne_zero (Nat.ne_zero_of_lt enough)
      obtain ⟨first, nonzero, rest⟩ := holds
      rw [strend, first, if_pos nonzero, induction rest (Nat.lt_of_succ_lt_succ enough),
        add_one_ofNat]
      rfl

/-- The place of a character, when it is there. -/
def placeIn (p : Word arch) (chars : List CChar) (c : CChar) : Option (Word arch) :=
  if c ∈ chars then some (p + BitVec.ofNat arch.width (chars.idxOf c)) else none

theorem placeIn_cons_self (p : Word arch) (c : CChar) (chars : List CChar) :
    placeIn p (c :: chars) c = some p := by
  simp [placeIn]

theorem placeIn_cons_of_ne {p : Word arch} {c d : CChar} {chars : List CChar}
    (apart : d ≠ c) : placeIn p (d :: chars) c = placeIn (p + 1) chars c := by
  have member : c ∈ d :: chars ↔ c ∈ chars := by simp [apart.symm]
  simp only [placeIn, member, List.idxOf_cons_ne _ apart, add_one_ofNat]

/-- `strchr` finds the first such character of the string or its zero. -/
theorem strchr_eq {rounds : Nat} {p : Word arch} {s : List CChar} (holds : Holds mem p s)
    (enough : s.length < rounds) (c : BitVec 32) :
    strchr mem c rounds p = some (placeIn p (s ++ [0]) (c.setWidth 8)) := by
  generalize wanted : c.setWidth 8 = c'
  induction s generalizing rounds p with
  | nil =>
      obtain ⟨rounds, rfl⟩ := Nat.exists_eq_succ_of_ne_zero (Nat.ne_zero_of_lt enough)
      have ended : mem p = 0 := holds
      rw [strchr, ended, wanted, List.nil_append]
      by_cases zero : 0 = c'
      · subst zero
        rw [placeIn_cons_self, if_neg (not_not_intro rfl)]
      · rw [placeIn_cons_of_ne zero, if_pos zero, if_pos rfl]
        rfl
  | cons d s induction =>
      obtain ⟨rounds, rfl⟩ := Nat.exists_eq_succ_of_ne_zero (Nat.ne_zero_of_lt enough)
      obtain ⟨first, nonzero, rest⟩ := holds
      rw [strchr, first, wanted, List.cons_append]
      by_cases here : d = c'
      · subst here
        rw [placeIn_cons_self, if_neg (not_not_intro rfl)]
      · rw [placeIn_cons_of_ne here, if_pos here, if_neg nonzero,
          induction rest (Nat.lt_of_succ_lt_succ enough)]

theorem memchrLoop_eq (chr : CChar) (n : Nat) (p : Word arch) :
    memchrLoop mem chr n p = placeIn p (region mem p n) chr := by
  induction n generalizing p with
  | zero => rfl
  | succ n induction =>
      rw [memchrLoop, region]
      by_cases here : mem p = chr
      · rw [if_pos here, here, placeIn_cons_self]
      · rw [if_neg here, placeIn_cons_of_ne here, induction]

theorem memchr_eq (s : Word arch) (c : BitVec 32) (n : Word arch) (mem : Memory arch) :
    memchr s c n mem = placeIn s (region mem s n.toNat) (c.setWidth 8) :=
  memchrLoop_eq ..

/-- The loop copies the string with its zero. -/
theorem strcatLoop_holds {rounds : Nat} {p src : Word arch} {t : List CChar}
    (holds : Holds mem src t) (enough : t.length < rounds)
    (fits : t.length < 2 ^ arch.width)
    (apart : ∀ i ≤ t.length, ∀ j ≤ t.length,
      src + BitVec.ofNat arch.width i ≠ p + BitVec.ofNat arch.width j) :
    ∃ after, strcatLoop rounds p src mem = some after ∧ Holds after p t ∧
      ∀ addr, (∀ j ≤ t.length, addr ≠ p + BitVec.ofNat arch.width j) →
        after addr = mem addr := by
  induction t generalizing rounds p src mem with
  | nil =>
      obtain ⟨rounds, rfl⟩ := Nat.exists_eq_succ_of_ne_zero (Nat.ne_zero_of_lt enough)
      have ended : mem src = 0 := holds
      refine ⟨Function.update mem p 0, ?_, Function.update_self .., ?_⟩
      · simp only [strcatLoop, ended, ne_eq, not_true_eq_false, if_false]
      · intro addr other
        have differ := other 0 (le_refl _)
        rw [add_zero_ofNat] at differ
        exact Function.update_of_ne differ ..
  | cons c t induction =>
      obtain ⟨rounds, rfl⟩ := Nat.exists_eq_succ_of_ne_zero (Nat.ne_zero_of_lt enough)
      obtain ⟨first, nonzero, rest⟩ := holds
      rw [List.length_cons] at fits
      have written (i : Nat) (inside : i ≤ t.length) :
          src + 1 + BitVec.ofNat arch.width i ≠ p := by
        have differ := apart (i + 1) (Nat.succ_le_succ inside) 0 (Nat.zero_le _)
        rwa [add_zero_ofNat, ← add_one_ofNat] at differ
      have kept : Holds (Function.update mem p c) (src + 1) t :=
        rest.congr fun i inside => Function.update_of_ne (written i inside) ..
      obtain ⟨after, ran, held, frame⟩ := @induction (Function.update mem p c) rounds (p + 1)
        (src + 1) kept (Nat.lt_of_succ_lt_succ enough) (by omega)
        fun i inside j inside' => by
          rw [add_one_ofNat, add_one_ofNat]
          exact apart (i + 1) (Nat.succ_le_succ inside) (j + 1) (Nat.succ_le_succ inside')
      have start : ∀ j ≤ t.length, p ≠ p + 1 + BitVec.ofNat arch.width j := by
        intro j inside same
        rw [add_one_ofNat] at same
        have zero := @add_ofNat_inj arch p 0 (j + 1) (by omega) (by omega)
          ((add_zero_ofNat p).trans same)
        cases zero
      refine ⟨after, ?_, ⟨?_, nonzero, held⟩, ?_⟩
      · simp only [strcatLoop, first, nonzero, ne_eq, not_false_eq_true, if_true]
        exact ran
      · rw [frame p start]
        exact Function.update_self ..
      · intro addr other
        have differ := other 0 (Nat.zero_le _)
        rw [add_zero_ofNat] at differ
        rw [frame addr]
        · exact Function.update_of_ne differ ..
        · intro j inside
          rw [add_one_ofNat]
          exact other (j + 1) (Nat.succ_le_succ inside)

theorem Holds.append {p : Word arch} {s t : List CChar} (nonzero : ∀ c ∈ s, c ≠ 0)
    (first : ∀ i < s.length, mem (p + BitVec.ofNat arch.width i) = s.getD i 0)
    (last : Holds mem (p + BitVec.ofNat arch.width s.length) t) :
    Holds mem p (s ++ t) := by
  induction s generalizing p with
  | nil => simpa using last
  | cons c s induction =>
      have here : mem p = c := by simpa using first 0 (Nat.succ_pos _)
      refine ⟨here, nonzero c (List.mem_cons_self ..), induction ?_ ?_ ?_⟩
      · exact fun d member => nonzero d (List.mem_cons_of_mem _ member)
      · intro i inside
        rw [add_one_ofNat]
        exact first (i + 1) (Nat.succ_lt_succ inside)
      · rwa [add_one_ofNat]

theorem Holds.get {p : Word arch} {s : List CChar} (holds : Holds mem p s) {i : Nat}
    (inside : i < s.length) : mem (p + BitVec.ofNat arch.width i) = s.getD i 0 := by
  induction s generalizing p i with
  | nil => cases inside
  | cons c s induction =>
      obtain ⟨first, _, rest⟩ := holds
      cases i with
      | zero =>
          rw [add_zero_ofNat]
          exact first
      | succ i =>
          rw [← add_one_ofNat]
          exact induction rest (Nat.lt_of_succ_lt_succ inside)

/-- `strcat` makes one string of two when the second one lies apart from what it
writes. -/
theorem strcat_holds {rounds : Nat} {dest src : Word arch} {s t : List CChar}
    (left : Holds mem dest s) (right : Holds mem src t) (enough : s.length < rounds)
    (enough' : t.length < rounds) (fits : s.length + t.length < 2 ^ arch.width)
    (apart : ∀ i ≤ t.length, ∀ j, s.length ≤ j → j ≤ s.length + t.length →
      src + BitVec.ofNat arch.width i ≠ dest + BitVec.ofNat arch.width j) :
    ∃ after, strcat rounds dest src mem = some after ∧ Holds after dest (s ++ t) ∧
      ∀ addr, (∀ j, s.length ≤ j → j ≤ s.length + t.length →
        addr ≠ dest + BitVec.ofNat arch.width j) → after addr = mem addr := by
  have place (j : Nat) : dest + BitVec.ofNat arch.width s.length +
      BitVec.ofNat arch.width j = dest + BitVec.ofNat arch.width (s.length + j) := by
    rw [BitVec.add_assoc, ← BitVec.ofNat_add]
  obtain ⟨after, ran, held, frame⟩ := @strcatLoop_holds arch mem rounds
    (dest + BitVec.ofNat arch.width s.length) src t right enough' (by omega)
    fun i inside j inside' => by
      rw [place]
      exact apart i inside (s.length + j) (by omega) (by omega)
  refine ⟨after, ?_, ?_, ?_⟩
  · exact Option.bind_eq_some_iff.mpr ⟨_, strend_eq left enough, ran⟩
  · apply Holds.append left.nonzero _ held
    intro i inside
    rw [frame]
    · exact left.get inside
    · intro j inside' same
      rw [place] at same
      have equal := add_ofNat_inj (by omega) (by omega) same
      omega
  · intro addr other
    apply frame
    intro j inside
    rw [place]
    exact other (s.length + j) (by omega) (by omega)

theorem strcat_holds_ab :
    ∃ after, strcat 3 0x10 0x20 smallMemory = some after ∧
      Holds after 0x10 [ch 'a', ch 'b', ch 'b'] := by
  have apart : ∀ i ≤ 1, ∀ j ≤ 3, (0x20 + BitVec.ofNat 64 i) ≠ 0x10 + BitVec.ofNat 64 j := by
    decide
  obtain ⟨after, ran, held, _⟩ := @strcat_holds .aarch64 smallMemory 3 0x10 0x20
    [ch 'a', ch 'b'] [ch 'b'] (by decide) (by decide) (by decide) (by decide) (by decide)
    fun i inside j _ below => apart i inside j below
  exact ⟨after, ran, held⟩

/-- `strcpy` copies a string to a place apart from it. -/
theorem strcpy_holds {rounds : Nat} {dest src : Word arch} {t : List CChar}
    (right : Holds mem src t) (enough : t.length < rounds)
    (fits : t.length < 2 ^ arch.width)
    (apart : ∀ i ≤ t.length, ∀ j ≤ t.length,
      src + BitVec.ofNat arch.width i ≠ dest + BitVec.ofNat arch.width j) :
    ∃ after, strcpy rounds dest src mem = some after ∧ Holds after dest t ∧
      ∀ addr, (∀ j ≤ t.length, addr ≠ dest + BitVec.ofNat arch.width j) →
        after addr = mem addr := by
  have other (i : Nat) (inside : i ≤ t.length) :
      src + BitVec.ofNat arch.width i ≠ dest := by
    have differ := apart i inside 0 (Nat.zero_le _)
    rwa [add_zero_ofNat] at differ
  have kept : Holds (Function.update mem dest 0) src t :=
    right.congr fun i inside => Function.update_of_ne (other i inside) ..
  have empty : Holds (Function.update mem dest 0) dest [] := Function.update_self ..
  have start := strend_eq empty (Nat.zero_lt_of_lt enough)
  rw [List.length_nil, add_zero_ofNat] at start
  obtain ⟨after, ran, held, frame⟩ := strcatLoop_holds kept enough fits apart
  refine ⟨after, Option.bind_eq_some_iff.mpr ⟨dest, start, ran⟩, held, ?_⟩
  intro addr outside
  have differ := outside 0 (Nat.zero_le _)
  rw [add_zero_ofNat] at differ
  rw [frame addr outside]
  exact Function.update_of_ne differ ..

end TzTest.Libcflat
