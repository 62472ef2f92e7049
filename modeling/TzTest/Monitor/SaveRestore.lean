import TzTest.Monitor.Aarch64

/-!
# `MONITOR_SAVE_STATE` and `MONITOR_RESTORE_STATE`

The macros move the registers of the save list to and from the slots of a
state buffer, through `x1` and `x2`.
-/

namespace TzTest.Aarch64

open Cpu Slots

/-- The slots of a register pair, as offsets into the buffer. -/
def pairSlots (pair : Reg × Reg × Nat) : List (Reg × Nat) :=
  [(pair.1, pair.2.2), (pair.2.1, pair.2.2 + 8)]

/-- The registers that a world keeps across a switch, with their slots. -/
def saveList : List (Reg × Nat) :=
  sysPairs.flatMap pairSlots ++
    (generalPairs.flatMap pairSlots ++ [(.x 30, 28 * 16)])

/-- Where the slots are in the buffer at `base`. -/
def slotsAt (base : BitVec 64) (slots : List (Reg × Nat)) :
    List (Reg × BitVec 64) :=
  slots.map fun slot => (slot.1, base + BitVec.ofNat 64 slot.2)

theorem slotsAt_append (base : BitVec 64) (first last : List (Reg × Nat)) :
    slotsAt base (first ++ last) = slotsAt base first ++ slotsAt base last :=
  List.map_append

/-- What the system register macros overwrite. -/
def scratch : List Reg := [.x 1, .x 2]

/-- The slots hold registers other than the base and the scratch registers. -/
def Clear (slots : List (Reg × Nat)) : Prop :=
  ∀ slot ∈ slots, slot.1 ∉ Reg.x 0 :: scratch

instance (slots : List (Reg × Nat)) : Decidable (Clear slots) :=
  inferInstanceAs (Decidable (∀ slot ∈ slots, _))

theorem Clear.append {first last : List (Reg × Nat)} :
    Clear (first ++ last) ↔ Clear first ∧ Clear last :=
  List.forall_mem_append

/-- The registers have been written to the slots of the buffer at `x0`. -/
structure Saves (slots : List (Reg × Nat)) (before after : Cpu) : Prop where
  mem :
    after.mem =
      updates before.mem (saved (slotsAt (before.regs (.x 0)) slots) before.regs)
  regs : ∀ reg ∉ scratch, after.regs reg = before.regs reg

/-- The registers have been read from the slots of the buffer at `x0`. -/
structure Restores (slots : List (Reg × Nat)) (before after : Cpu) : Prop where
  mem : after.mem = before.mem
  regs : ∀ reg ∉ scratch,
    after.regs reg =
      updates before.regs
        (restored (slotsAt (before.regs (.x 0)) slots) before.mem) reg

section Compose

variable {first last : List (Reg × Nat)} {before middle after : Cpu}

theorem Saves.append (clear : Clear last) (firstSaved : Saves first before middle)
    (lastSaved : Saves last middle after) :
    Saves (first ++ last) before after where
  mem := by
    have base : middle.regs (.x 0) = before.regs (.x 0) :=
      firstSaved.regs _ (by decide)
    have values :
        saved (slotsAt (before.regs (.x 0)) last) middle.regs =
          saved (slotsAt (before.regs (.x 0)) last) before.regs := by
      apply saved_congr
      intro slot member
      obtain ⟨source, inside, rfl⟩ := List.mem_map.mp member
      exact firstSaved.regs _
        (fun absurdly => clear source inside (List.mem_cons_of_mem _ absurdly))
    rw [lastSaved.mem, firstSaved.mem, base, values, slotsAt_append,
      saved_append, updates_append]
  regs := fun reg outside =>
    (lastSaved.regs reg outside).trans (firstSaved.regs reg outside)

theorem Restores.regs_of_not_mem (restores : Restores first before after)
    {reg : Reg} (kept : reg ∉ scratch) (outside : reg ∉ first.map Prod.fst) :
    after.regs reg = before.regs reg := by
  rw [restores.regs reg kept]
  apply updates_of_not_mem
  intro member
  simp only [restored, slotsAt, List.map_map] at member
  exact outside member

theorem Restores.regs_of_mem (restores : Restores first before after)
    (clear : Clear first) (distinct : (first.map Prod.fst).Nodup)
    {slot : Reg × BitVec 64}
    (member : slot ∈ slotsAt (before.regs (.x 0)) first) :
    after.regs slot.1 = before.mem slot.2 := by
  obtain ⟨source, inside, rfl⟩ := List.mem_map.mp member
  have kept : source.1 ∉ scratch := fun absurdly =>
    clear source inside (List.mem_cons_of_mem _ absurdly)
  rw [restores.regs _ kept]
  apply updates_of_mem
  · rw [restored, slotsAt, List.map_map, List.map_map]
    exact distinct
  · exact List.mem_map.mpr ⟨_, member, rfl⟩

theorem Restores.append (clear : Clear first)
    (firstRestored : Restores first before middle)
    (lastRestored : Restores last middle after) :
    Restores (first ++ last) before after where
  mem := lastRestored.mem.trans firstRestored.mem
  regs := by
    intro reg outside
    have base : middle.regs (.x 0) = before.regs (.x 0) := by
      apply firstRestored.regs_of_not_mem (by decide)
      intro member
      obtain ⟨slot, inside, named⟩ := List.mem_map.mp member
      exact clear slot inside (named ▸ List.mem_cons_self ..)
    rw [lastRestored.regs reg outside, base, firstRestored.mem, slotsAt_append,
      restored_append, updates_append]
    exact updates_congr (firstRestored.regs reg outside) _

end Compose

section Macros

variable (c : Cpu)

theorem saves_nil : Saves [] c c :=
  ⟨rfl, fun _ _ => rfl⟩

theorem restores_nil : Restores [] c c :=
  ⟨rfl, fun _ _ => rfl⟩

theorem slot_succ (base : BitVec 64) (offset : Nat) :
    base + BitVec.ofNat 64 (offset + 8) = base + BitVec.ofNat 64 offset + 8 := by
  rw [BitVec.ofNat_add, BitVec.add_assoc]
  rfl

theorem saves_stp (pair : Reg × Reg × Nat) :
    Saves (pairSlots pair) c (stp pair.1 pair.2.1 (.x 0) pair.2.2 c) where
  mem := by
    simp only [saved, slotsAt, pairSlots, List.map_cons, List.map_nil,
      updates_cons, updates_nil, slot_succ]
    rfl
  regs := fun _ _ => rfl

theorem saves_sysPair {pair : Reg × Reg × Nat}
    (clear : Clear (pairSlots pair)) :
    Saves (pairSlots pair) c (saveSysPair c pair) := by
  have notFirst : pair.2.1 ≠ .x 1 := fun same =>
    clear (pair.2.1, pair.2.2 + 8) (by simp [pairSlots]) (by simp [scratch, same])
  have value : (mov (.x 1) pair.1 c).regs pair.2.1 = c.regs pair.2.1 :=
    Function.update_of_ne notFirst ..
  constructor
  · have moved := (saves_stp
      (mov (.x 2) pair.2.1 (mov (.x 1) pair.1 c)) (.x 1, .x 2, pair.2.2)).mem
    refine moved.trans ?_
    simp only [saved, slotsAt, pairSlots, List.map_cons, List.map_nil]
    simp [mov, Cpu.set, Function.update_of_ne, notFirst]
  · intro reg outside
    simp only [scratch, List.mem_cons, List.not_mem_nil, or_false, not_or] at outside
    exact (Function.update_of_ne outside.2 ..).trans
      (Function.update_of_ne outside.1 ..)

theorem saves_str :
    Saves [(.x 30, 28 * 16)] c (str (.x 30) (.x 0) (28 * 16) c) where
  mem := by
    simp only [saved, slotsAt, List.map_cons, List.map_nil, updates_cons,
      updates_nil]
    rfl
  regs := fun _ _ => rfl

theorem restores_ldr :
    Restores [(.x 30, 28 * 16)] c (ldr (.x 30) (.x 0) (28 * 16) c) where
  mem := rfl
  regs := by
    intro reg _
    simp only [restored, slotsAt, List.map_cons, List.map_nil, updates_cons,
      updates_nil]
    rfl

theorem restores_ldp {pair : Reg × Reg × Nat} :
    Restores (pairSlots pair) c (ldp pair.1 pair.2.1 (.x 0) pair.2.2 c) where
  mem := rfl
  regs := by
    intro reg _
    simp only [restored, slotsAt, pairSlots, List.map_cons, List.map_nil,
      updates_cons, updates_nil, slot_succ]
    rfl

theorem restores_sysPair (pair : Reg × Reg × Nat)
    (clear : Clear (pairSlots pair)) :
    Restores (pairSlots pair) c (restoreSysPair c pair) := by
  have notSecond : pair.1 ≠ .x 2 := fun same =>
    clear (pair.1, pair.2.2) (by simp [pairSlots]) (by simp [scratch, same])
  constructor
  · rfl
  · intro reg outside
    simp only [scratch, List.mem_cons, List.not_mem_nil, or_false, not_or] at outside
    simp only [restored, slotsAt, pairSlots, List.map_cons, List.map_nil,
      updates_cons, updates_nil, slot_succ, restoreSysPair, mov, ldp, Cpu.set]
    by_cases second : reg = pair.2.1
    · subst second
      simp [Function.update_self, notSecond.symm]
    · by_cases here : reg = pair.1
      · subst here
        simp [second]
      · simp [second, here, outside]

theorem saves_foldl {save : Cpu → Reg × Reg × Nat → Cpu}
    (pairs : List (Reg × Reg × Nat))
    (saves : ∀ pair ∈ pairs, ∀ c, Saves (pairSlots pair) c (save c pair))
    (clear : Clear (pairs.flatMap pairSlots)) (c : Cpu) :
    Saves (pairs.flatMap pairSlots) c (pairs.foldl save c) := by
  induction pairs generalizing c with
  | nil => exact saves_nil c
  | cons pair rest induction =>
      have restClear : Clear (rest.flatMap pairSlots) := (Clear.append.mp clear).2
      exact Saves.append restClear (saves pair (List.mem_cons_self ..) c)
        (induction (fun other inside => saves other (List.mem_cons_of_mem _ inside))
          restClear _)

theorem restores_foldl {restore : Cpu → Reg × Reg × Nat → Cpu}
    (pairs : List (Reg × Reg × Nat))
    (restores : ∀ pair ∈ pairs, ∀ c, Restores (pairSlots pair) c (restore c pair))
    (clear : Clear (pairs.flatMap pairSlots)) (c : Cpu) :
    Restores (pairs.flatMap pairSlots) c (pairs.foldl restore c) := by
  induction pairs generalizing c with
  | nil => exact restores_nil c
  | cons pair rest induction =>
      obtain ⟨here, restClear⟩ := Clear.append.mp clear
      exact Restores.append here (restores pair (List.mem_cons_self ..) c)
        (induction (fun other inside => restores other (List.mem_cons_of_mem _ inside))
          restClear _)

theorem clear_parts :
    Clear (sysPairs.flatMap pairSlots) ∧ Clear (generalPairs.flatMap pairSlots) ∧
      Clear [(.x 30, 28 * 16)] := by
  decide

theorem clear_saveList : Clear saveList := by
  obtain ⟨clearSys, clearGeneral, clearLink⟩ := clear_parts
  exact Clear.append.mpr ⟨clearSys, Clear.append.mpr ⟨clearGeneral, clearLink⟩⟩

theorem clear_sysPairs {pair : Reg × Reg × Nat} (member : pair ∈ sysPairs) :
    Clear (pairSlots pair) := by
  intro slot inside
  apply clear_parts.1
  exact List.mem_flatMap.mpr ⟨pair, member, inside⟩

theorem monitorSaveState_saves : Saves saveList c (monitorSaveState c) := by
  obtain ⟨clearSys, clearGeneral, clearLink⟩ := clear_parts
  have system := saves_foldl sysPairs
    (fun pair member c => saves_sysPair c (clear_sysPairs member)) clearSys c
  have general := saves_foldl generalPairs (fun pair _ c => saves_stp c pair)
    clearGeneral (sysPairs.foldl saveSysPair c)
  have link := saves_str (generalPairs.foldl
    (fun c pair => stp pair.1 pair.2.1 (.x 0) pair.2.2 c)
    (sysPairs.foldl saveSysPair c))
  have rest := general.append clearLink link
  exact system.append (Clear.append.mpr ⟨clearGeneral, clearLink⟩) rest

theorem monitorRestoreState_restores :
    Restores saveList c (monitorRestoreState c) := by
  obtain ⟨clearSys, clearGeneral, _⟩ := clear_parts
  have system := restores_foldl sysPairs
    (fun pair member c => restores_sysPair c pair (clear_sysPairs member))
    clearSys c
  have general := restores_foldl generalPairs (fun pair _ c => restores_ldp c)
    clearGeneral (sysPairs.foldl restoreSysPair c)
  have link := restores_ldr (generalPairs.foldl
    (fun c pair => ldp pair.1 pair.2.1 (.x 0) pair.2.2 c)
    (sysPairs.foldl restoreSysPair c))
  have rest := Restores.append clearGeneral general link
  exact Restores.append clearSys system rest

end Macros

end TzTest.Aarch64
