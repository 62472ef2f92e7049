import TzTest.Monitor.Arm

/-!
# `monitor_save_state` and `monitor_restore_state` on ARM

Both walk through the buffer with `r0`, one block of registers for each mode,
and use `r3` on the way.
-/

namespace TzTest.Arm

open Cpu Slots

/-- Registers that the walk uses itself. -/
def scratch : List Reg := [.r 0, .r 3]

/-- The registers of the buffer, in its order.  `r1` and `r2` hold the status
and the address to return to. -/
def contextRegs : List Reg :=
  [.sp .sys, .lr .sys] ++
    (bankedModes.flatMap (fun mode => [.spsr mode, .sp mode, .lr mode]) ++
      ([.r 1, .r 2] ++ highRegs.map (Operand.reg .mon)))

theorem wordsFrom_append (addr : BitVec 32) (first last : List Reg) :
    wordsFrom addr (first ++ last) =
      wordsFrom addr first ++
        wordsFrom (addr + BitVec.ofNat 32 (4 * first.length)) last := by
  induction first generalizing addr with
  | nil =>
      simp only [List.nil_append, wordsFrom, List.length_nil, Nat.mul_zero]
      rw [BitVec.add_zero]
  | cons reg rest induction =>
      have moved : addr + 4 + BitVec.ofNat 32 (4 * rest.length) =
          addr + BitVec.ofNat 32 (4 * (reg :: rest).length) := by
        rw [List.length_cons, Nat.mul_succ, Nat.add_comm, BitVec.ofNat_add,
          ← BitVec.add_assoc]
        rfl
      rw [List.cons_append, wordsFrom, induction, moved]
      rfl

theorem map_fst_wordsFrom (addr : BitVec 32) (list : List Reg) :
    (wordsFrom addr list).map Prod.fst = list := by
  induction list generalizing addr with
  | nil => rfl
  | cons reg rest induction => exact congrArg (List.cons reg) (induction _)

theorem fst_mem_of_wordsFrom {addr : BitVec 32} {list : List Reg}
    {slot : Reg × BitVec 32} (member : slot ∈ wordsFrom addr list) :
    slot.1 ∈ list := by
  have named := @List.mem_map_of_mem _ _ _ _ Prod.fst member
  rwa [map_fst_wordsFrom] at named

/-- The registers have been stored from `r0` on. -/
structure Saves (list : List Reg) (before after : Cpu) : Prop where
  next : after.regs (.r 0) =
    before.regs (.r 0) + BitVec.ofNat 32 (4 * list.length)
  mem : after.mem =
    updates before.mem (saved (wordsFrom (before.regs (.r 0)) list) before.regs)
  regs : ∀ reg ∉ scratch, after.regs reg = before.regs reg

/-- The registers have been loaded from `r0` on. -/
structure Restores (list : List Reg) (before after : Cpu) : Prop where
  next : after.regs (.r 0) =
    before.regs (.r 0) + BitVec.ofNat 32 (4 * list.length)
  mem : after.mem = before.mem
  regs : ∀ reg ∉ scratch,
    after.regs reg =
      updates before.regs
        (restored (wordsFrom (before.regs (.r 0)) list) before.mem) reg

def Clear (list : List Reg) : Prop :=
  ∀ reg ∈ list, reg ∉ scratch

instance (list : List Reg) : Decidable (Clear list) :=
  inferInstanceAs (Decidable (∀ reg ∈ list, _))

section Compose

variable {first last : List Reg} {before middle after : Cpu}

theorem next_append (base : BitVec 32) :
    base + BitVec.ofNat 32 (4 * first.length) + BitVec.ofNat 32 (4 * last.length) =
      base + BitVec.ofNat 32 (4 * (first ++ last).length) := by
  rw [List.length_append, Nat.mul_add, BitVec.ofNat_add, BitVec.add_assoc]

theorem Saves.append (firstSaved : Saves first before middle)
    (lastSaved : Saves last middle after) (clear : Clear last) :
    Saves (first ++ last) before after where
  next := by
    rw [lastSaved.next, firstSaved.next, next_append]
  mem := by
    have values (addr : BitVec 32) :
        saved (wordsFrom addr last) middle.regs =
          saved (wordsFrom addr last) before.regs := by
      apply saved_congr
      intro slot member
      have named := fst_mem_of_wordsFrom member
      exact firstSaved.regs _ (clear _ named)
    rw [lastSaved.mem, values, firstSaved.mem, firstSaved.next, wordsFrom_append,
      saved_append, updates_append]
  regs := fun reg outside =>
    (lastSaved.regs reg outside).trans (firstSaved.regs reg outside)

theorem Restores.append (firstRestored : Restores first before middle)
    (lastRestored : Restores last middle after) :
    Restores (first ++ last) before after where
  next := by
    rw [lastRestored.next, firstRestored.next, next_append]
  mem := lastRestored.mem.trans firstRestored.mem
  regs := by
    intro reg outside
    rw [lastRestored.regs reg outside, firstRestored.mem, firstRestored.next,
      wordsFrom_append, restored_append, updates_append]
    exact updates_congr (firstRestored.regs reg outside) _

theorem Restores.regs_of_not_mem (restores : Restores first before after)
    {reg : Reg} (kept : reg ∉ scratch) (outside : reg ∉ first) :
    after.regs reg = before.regs reg := by
  rw [restores.regs reg kept]
  apply updates_of_not_mem
  rw [restored, List.map_map]
  show reg ∉ (wordsFrom (before.regs (.r 0)) first).map Prod.fst
  rw [map_fst_wordsFrom]
  exact outside

theorem Restores.regs_of_mem (restores : Restores first before after)
    (clear : Clear first) (distinct : first.Nodup) {slot : Reg × BitVec 32}
    (member : slot ∈ wordsFrom (before.regs (.r 0)) first) :
    after.regs slot.1 = before.mem slot.2 := by
  have named := fst_mem_of_wordsFrom member
  rw [restores.regs _ (clear _ named)]
  apply updates_of_mem
  · rw [restored, List.map_map]
    show ((wordsFrom (before.regs (.r 0)) first).map Prod.fst).Nodup
    rw [map_fst_wordsFrom]
    exact distinct
  · exact List.mem_map.mpr ⟨slot, member, rfl⟩

end Compose

section Blocks

variable (c : Cpu)

theorem Saves.of_cps {list : List Reg} {mode : Mode} {after : Cpu}
    (saves : Saves list (cps mode c) after) : Saves list c after :=
  ⟨saves.next, saves.mem, saves.regs⟩

theorem Restores.of_cps {list : List Reg} {mode : Mode} {after : Cpu}
    (restores : Restores list (cps mode c) after) : Restores list c after :=
  ⟨restores.next, restores.mem, restores.regs⟩

theorem saves_stmia (list : List Operand) :
    Saves (list.map (Operand.reg c.mode)) c (stmia list c) where
  next := by
    rw [List.length_map]
    exact regs_set_self _ _ _
  mem := rfl
  regs := fun reg outside =>
    regs_set_of_ne (fun same => outside (by simp [scratch, same])) _ _

theorem saves_mode (mode : Mode) :
    Saves [.spsr mode, .sp mode, .lr mode] c (saveMode c mode) := by
  have stored := saves_stmia (mov (.r 3) .spsr (cps mode c)) [.r 3, .sp, .lr]
  have status : (mov (.r 3) .spsr (cps mode c)).regs (.r 3) =
      c.regs (.spsr mode) :=
    regs_set_self _ _ _
  have others {reg : Reg} (outside : reg ≠ .r 3) :
      (mov (.r 3) .spsr (cps mode c)).regs reg = c.regs reg :=
    regs_set_of_ne outside _ _
  constructor
  · exact stored.next.trans (by rw [others (by decide)]; rfl)
  · refine stored.mem.trans ?_
    rw [others (by decide)]
    show updates c.mem (saved (wordsFrom _ [.r 3, .sp mode, .lr mode]) _) = _
    simp only [wordsFrom, saved, List.map_cons, List.map_nil]
    rw [status, others (by simp), others (by simp)]
  · intro reg outside
    refine (stored.regs reg outside).trans (others ?_)
    rintro rfl
    exact outside (by decide)

theorem restores_ldmia (list : List Operand) :
    Restores (list.map (Operand.reg c.mode)) c (ldmia list c) where
  next := by
    rw [List.length_map]
    exact regs_set_self _ _ _
  mem := rfl
  regs := fun reg outside =>
    regs_set_of_ne (fun same => outside (by simp [scratch, same])) _ _

theorem restores_mode (mode : Mode) :
    Restores [.spsr mode, .sp mode, .lr mode] c (restoreMode c mode) := by
  have loaded := restores_ldmia (cps mode c) [.r 3, .sp, .lr]
  have stays : (ldmia [.r 3, .sp, .lr] (cps mode c)).mode = mode := rfl
  constructor
  · refine (regs_set_of_ne (by simp [Operand.reg]) _ _).trans ?_
    exact loaded.next
  · exact loaded.mem
  · intro reg outside
    simp only [scratch, List.mem_cons, List.not_mem_nil, or_false, not_or] at outside
    simp only [restoreMode, mov, ldmia, loadMultiple, cps, Cpu.set, Operand.reg,
      wordsFrom, restored, List.map_cons, List.map_nil, updates_cons, updates_nil]
    by_cases status : reg = .spsr mode
    · subst status
      simp
    · simp [status, outside, Function.update_apply]

theorem saves_foldl (modes : List Mode) :
    Saves (modes.flatMap fun mode => [.spsr mode, .sp mode, .lr mode]) c
      (modes.foldl saveMode c) := by
  induction modes generalizing c with
  | nil => exact ⟨(BitVec.add_zero _).symm, rfl, fun _ _ => rfl⟩
  | cons mode rest induction =>
      apply (saves_mode c mode).append (induction _)
      intro reg member
      obtain ⟨other, _, inside⟩ := List.mem_flatMap.mp member
      simp only [List.mem_cons, List.not_mem_nil, or_false] at inside
      rcases inside with rfl | rfl | rfl <;> simp [scratch]

theorem restores_foldl (modes : List Mode) :
    Restores (modes.flatMap fun mode => [.spsr mode, .sp mode, .lr mode]) c
      (modes.foldl restoreMode c) := by
  induction modes generalizing c with
  | nil => exact ⟨(BitVec.add_zero _).symm, rfl, fun _ _ => rfl⟩
  | cons mode rest induction =>
      exact (restores_mode c mode).append (induction _)

theorem clear_contextRegs : Clear contextRegs := by
  decide

theorem contextRegs_nodup : contextRegs.Nodup := by
  decide

theorem saveBody_saves : Saves contextRegs c (saveBody c) := by
  have user : Saves [.sp .sys, .lr .sys] c (stmia [.sp, .lr] (cps .sys c)) :=
    (saves_stmia (cps .sys c) [.sp, .lr]).of_cps
  have banked := saves_foldl (stmia [.sp, .lr] (cps .sys c)) bankedModes
  generalize visited :
    bankedModes.foldl saveMode (stmia [.sp, .lr] (cps .sys c)) = d at banked
  have monitor : Saves [.r 1, .r 2] d (stmia [.r 1, .r 2] (cps .mon d)) :=
    (saves_stmia (cps .mon d) [.r 1, .r 2]).of_cps
  have high : Saves (highRegs.map (Operand.reg .mon)) _ _ :=
    saves_stmia (stmia [.r 1, .r 2] (cps .mon d)) highRegs
  have rest := monitor.append high (by decide)
  have all := user.append (banked.append rest (by decide)) (by decide)
  rw [← visited] at all
  exact all

theorem restoreBody_restores : Restores contextRegs c (restoreBody c) := by
  have user : Restores [.sp .sys, .lr .sys] c (ldmia [.sp, .lr] (cps .sys c)) :=
    (restores_ldmia (cps .sys c) [.sp, .lr]).of_cps
  have banked := restores_foldl (ldmia [.sp, .lr] (cps .sys c)) bankedModes
  generalize visited :
    bankedModes.foldl restoreMode (ldmia [.sp, .lr] (cps .sys c)) = d at banked
  have monitor : Restores [.r 1, .r 2] d (ldmia [.r 1, .r 2] (cps .mon d)) :=
    (restores_ldmia (cps .mon d) [.r 1, .r 2]).of_cps
  have high : Restores (highRegs.map (Operand.reg .mon)) _ _ :=
    restores_ldmia (ldmia [.r 1, .r 2] (cps .mon d)) highRegs
  have all := user.append (banked.append (monitor.append high))
  rw [← visited] at all
  exact all

theorem mode_saveBody : (saveBody c).mode = .mon := rfl

theorem mode_restoreBody : (restoreBody c).mode = .mon := rfl

end Blocks

end TzTest.Arm
