import TzTest.Monitor.TrapReturn
import TzTest.Monitor.ArmTrap

/-!
# Where a trapped instruction is resumed

On AArch64, the handler's `__set_exception_return` decides; on ARM, it is empty,
and the vector returns with what it has stacked.
-/

namespace TzTest

namespace Aarch64

/-- The classes of the instructions that the level of the vector traps and comes
back from. -/
def SyncVector.traps : SyncVector → List ExceptionClass
  | el1Current _ => [.unknown, .wfiWfe, .simd]
  | el1Lower64 _ => [.unknown, .wfiWfe, .simd]
  | el3Current => [.sysinsn, .wfiWfe, .simd]
  | el3Lower64 => [.sysinsn, .wfiWfe, .simd]

section Trapped

variable {vector : SyncVector}

theorem record_action {arch : Arch} (excp : SysException)
    (ec iss far : Word arch) (el state : U32) :
    (excp.record ec iss far el state).action = excp.action := by
  unfold SysException.record
  split_ifs <;> rfl

theorem handle_action (vector : SyncVector) (c : Cpu) (excp : SysException) :
    (vector.handle c excp).action = excp.action := by
  cases vector <;> exact record_action ..

theorem ofCode?_code (label : ExceptionClass) :
    ExceptionClass.ofCode? (BitVec.ofNat Arch.aarch64.width label.code) =
      some label := by
  cases label <;> decide

/-- The handler's return address for a trapped instruction. -/
theorem returnAddress_of_traps {call : Cpu} {excp : SysException}
    {elr : BitVec 64} {label : ExceptionClass} (member : label ∈ vector.traps)
    (ec : call.regs (.x 0) = BitVec.ofNat 64 label.code) :
    vector.returnAddress call elr excp =
      some (if excp.action = SysException.skip then elr + 4 else elr) := by
  have found : @ExceptionClass.ofCode? .aarch64 (call.regs (.x 0)) = some label :=
    ec ▸ ofCode?_code label
  let resume (action : U32) : Option (BitVec 64) :=
    some (if action = SysException.skip then elr + 4 else elr)
  have el1 (world : World) (inList : label ∈ [.unknown, .wfiWfe, .simd]) :
      (@el1HandleException .aarch64 world (call.regs (.x 0)) (call.regs (.x 1))
        (call.regs (.x 2)) elr excp).2 =
        some (if excp.action = SysException.skip then elr + 4 else elr) := by
    simp only [List.mem_cons, List.not_mem_nil, or_false] at inList
    rcases inList with rfl | rfl | rfl <;>
      simp only [el1HandleException, found, skipReturn] <;>
      exact congrArg resume (record_action ..)
  have el3 (inList : label ∈ [.sysinsn, .wfiWfe, .simd]) :
      (@el3HandleException .aarch64 (call.regs (.x 0)) (call.regs (.x 1))
        (call.regs (.x 2)) elr excp).2 =
        some (if excp.action = SysException.skip then elr + 4 else elr) := by
    simp only [List.mem_cons, List.not_mem_nil, or_false] at inList
    rcases inList with rfl | rfl | rfl <;>
      simp only [el3HandleException, found, skipReturn] <;>
      exact congrArg resume (record_action ..)
  cases vector with
  | el1Current world => exact el1 world member
  | el1Lower64 world => exact el1 world member
  | el3Current => exact el3 member
  | el3Lower64 => exact el3 member

variable (trap : Trap vector)

/-- The exception is one of the classes. -/
def Trap.IsTrap : Prop :=
  ∃ label ∈ vector.traps,
    (trap.exception.esr.extractLsb 31 26).toNat = label.code

theorem Trap.call_class {label : ExceptionClass}
    (same : (trap.exception.esr.extractLsb 31 26).toNat = label.code) :
    (trap.exception.call vector).regs (.x 0) = BitVec.ofNat 64 label.code := by
  have ec := (arguments_entry vector trap.exception.esr trap.exception.far
    (trap.exception.taken vector)).ec
  have link : (trap.exception.call vector).regs (.x 0) =
      trap.exception.esr.setWidth 64 >>> 26 :=
    (Cpu.regs_set_of_ne (by decide) _ _).trans ec
  have wide := trap.exception.esr.isLt
  apply BitVec.eq_of_toNat_eq
  rw [link, class_toNat, BitVec.toNat_ofNat, ← same, extractLsb_class,
    Nat.mod_eq_of_lt (by omega)]

/-- No exception changes what the test has asked for. -/
theorem Trap.leaving_action :
    trap.leaving.excp.action = trap.exception.interrupted.excp.action := by
  have starts : trap.entered.excp.action =
      trap.exception.interrupted.excp.action := by
    rw [trap.entry.record]
    exact handle_action ..
  apply @Nesting.Serves.invariant _ _ _ _ _ _ _ _ _ _ _
    (fun m => m.excp.action = trap.exception.interrupted.excp.action) trap.body
    _ _ _ starts
  · intro kept before after step same
    exact step.action.trans same
  · rintro kept e before entered ⟨rfl, entry⟩ same
    rw [entry.record, handle_action]
    exact same
  · rintro kept e leaving after ⟨resume, back, exit, rfl⟩ same
    exact same

theorem Trap.final_elr (isTrap : trap.IsTrap) :
    trap.final.regs vector.elr =
      if trap.exception.interrupted.excp.action = SysException.skip then
        trap.exception.pc + 4
      else trap.exception.pc := by
  obtain ⟨label, member, same⟩ := isTrap
  have address := trap.returned.address
  rw [returnAddress_of_traps member (trap.call_class same), trap.leaving_action]
    at address
  rw [trap.popped.elr, trap.returned.elr]
  exact (Option.some.inj address).symm

end Trapped

end Aarch64

/-- An instruction of four bytes that has been trapped, in an exception from
which the handler comes back. -/
inductive Trapped where
  | aarch64 {vector : Aarch64.SyncVector} (trap : Aarch64.Trap vector)
      (isTrap : trap.IsTrap)
  | arm (trap : Arm.Trap)

namespace Trapped

def arch : Trapped → Arch
  | aarch64 _ _ => .aarch64
  | arm _ => .arm

/-- `syncntl->excp.action` at the exception. -/
def action : Trapped → U32
  | aarch64 trap _ => trap.exception.interrupted.excp.action
  | arm trap => trap.exception.interrupted.excp.action

/-- The code is resumed behind the instruction if it is to be skipped, and at
the instruction otherwise. -/
def ResumesAsAsked : Trapped → Prop
  | @aarch64 vector trap _ =>
      trap.final.regs vector.elr =
        if trap.exception.interrupted.excp.action = SysException.skip then
          trap.exception.pc + 4
        else trap.exception.pc
  | arm trap =>
      trap.final.regs .pc =
        if trap.exception.interrupted.excp.action = SysException.skip then
          trap.exception.pc + 4
        else trap.exception.pc

/-- On ARM, the instruction is skipped in any case. -/
theorem resumesAsAsked_iff (trapped : Trapped) :
    trapped.ResumesAsAsked ↔
      trapped.arch = .aarch64 ∨ trapped.action = SysException.skip := by
  cases trapped with
  | aarch64 trap isTrap =>
      exact ⟨fun _ => Or.inl rfl, fun _ => trap.final_elr isTrap⟩
  | arm trap =>
      have past : trap.exception.pc + 4 ≠ trap.exception.pc := by
        intro same
        have zero : (4 : BitVec 32) = 0 := add_eq_left.mp same
        exact absurd zero (by decide)
      change trap.final.regs .pc = _ ↔ Arch.arm = .aarch64 ∨
        trap.exception.interrupted.excp.action = SysException.skip
      rw [trap.final_pc]
      split_ifs with skips
      · exact iff_of_true rfl (Or.inr skips)
      · exact iff_of_false past (not_or.mpr ⟨nofun, skips⟩)

/-- An undefined instruction that is not to be skipped. -/
theorem resumesAsAsked_fails_on_arm :
    ¬(Trapped.arm Arm.undefTrap).ResumesAsAsked := by
  intro resumes
  have pc := Arm.undefTrap.final_pc.symm.trans resumes
  exact absurd pc (by decide)

end Trapped

end TzTest
