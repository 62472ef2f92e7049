import TzTest.El0

/-!
# EL3's answers

What `el3_handle_smc` and the world switch behind it do for each operation,
and that EL3's `secure_state`, `SCR.NS` and the running world stay in step.
-/

namespace TzTest

open Coroutine (Verdict)

variable {arch : Arch} {Paging : Type}

namespace World

@[simp] theorem state_xor_one (world : World) :
    world.state ^^^ 1 = world.other.state := by
  cases world <;> decide

end World

private theorem and_one_eq_zero_iff {width : Nat} (word : BitVec width) :
    word &&& 1 = 0 ↔ word.getLsbD 0 = false := by
  constructor
  · intro equality
    have bit := congrArg (fun word => word.getLsbD 0) equality
    by_cases positive : 0 < width
    · simpa [positive] using bit
    · exact BitVec.getLsbD_of_ge word 0 (by omega)
  · intro clear
    apply BitVec.eq_of_getLsbD_eq
    intro index below
    by_cases first : index = 0
    · simp [first, clear]
    · simp [first]

theorem Word.and_scrNs_eq_zero_iff (scr : Word arch) :
    scr &&& scrNs arch = 0 ↔ scr.nsBit = false :=
  and_one_eq_zero_iff scr

private theorem toggled_bit {width : Nat} (positive : 0 < width)
    (word : BitVec width) :
    ((word &&& 1) ^^^ 1).getLsbD 0 = !word.getLsbD 0 := by
  simp [positive]

private theorem set_bit {width : Nat} (positive : 0 < width)
    (word : BitVec width) : (word ||| 1).getLsbD 0 = true := by
  simp [positive]

private theorem cleared_bit {width : Nat} (positive : 0 < width)
    (word : BitVec width) : (word &&& ~~~1).getLsbD 0 = false := by
  simp [positive]

theorem nsBit_switchScr (scr : Word arch) :
    (Sys.switchScr scr).nsBit = !scr.nsBit := by
  cases arch with
  | aarch64 => exact @toggled_bit 64 (by decide) scr
  | arm =>
      cases bit : scr.nsBit with
      | false =>
          have clear : scr &&& 1 = 0 := (Word.and_scrNs_eq_zero_iff scr).mpr bit
          simp only [Sys.switchScr, if_pos clear]
          exact @set_bit 32 (by decide) scr
      | true =>
          have set : ¬scr &&& 1 = 0 := fun clear => by
            simp [(Word.and_scrNs_eq_zero_iff scr).mp clear] at bit
          simp only [Sys.switchScr, if_neg set]
          exact @cleared_bit 32 (by decide) scr

namespace Sys

/-- A world switch as EL3 makes it: the C variable, then the registers. -/
def cross (sys : Sys arch Paging) : Sys arch Paging :=
  { sys with secureState := sys.secureState ^^^ 1 }.worldSwitch

section Cross

variable (sys : Sys arch Paging)

@[simp] theorem cross_interop : sys.cross.interop = sys.interop := by
  cases arch <;> rfl

@[simp] theorem cross_paging : sys.cross.paging = sys.paging := by
  cases arch <;> rfl

@[simp] theorem cross_testCntl : sys.cross.testCntl = sys.testCntl := by
  cases arch <;> rfl

@[simp] theorem cross_shutdown : sys.cross.shutdown = sys.shutdown := by
  cases arch <;> rfl

@[simp] theorem cross_executed : sys.cross.executed = sys.executed := by
  cases arch <;> rfl

@[simp] theorem cross_delivered : sys.cross.delivered = sys.delivered := by
  cases arch <;> rfl

@[simp] theorem cross_secureState :
    sys.cross.secureState = sys.secureState ^^^ 1 := by
  cases arch <;> rfl

@[simp] theorem cross_scr : sys.cross.regs.scr = switchScr sys.regs.scr := by
  cases arch <;> rfl

end Cross

theorem InStep.cross {sys : Sys arch Paging} {world : World}
    (inStep : sys.InStep world) : sys.cross.InStep world.other := by
  constructor
  · rw [cross_secureState, inStep.secureState, World.state_xor_one]
  · rw [cross_scr, nsBit_switchScr, inStep.ns]
    cases world <;> rfl

theorem InStep.congr {before after : Sys arch Paging} {world : World}
    (inStep : before.InStep world)
    (sameState : after.secureState = before.secureState)
    (sameNs : after.regs.scr.nsBit = before.regs.scr.nsBit) :
    after.InStep world :=
  ⟨sameState.trans inStep.secureState, sameNs.trans inStep.ns⟩

theorem InStep.unique {sys : Sys arch Paging} {left right : World}
    (inLeft : sys.InStep left) (inRight : sys.InStep right) : left = right :=
  World.state_inj.mp (inLeft.secureState.symm.trans inRight.secureState)

/-- `READ_SCR() & SCR_NS` is the state number of the running world. -/
theorem InStep.scr_and_scrNs {sys : Sys arch Paging} {world : World}
    (inStep : sys.InStep world) :
    sys.regs.scr &&& scrNs arch = U32.word arch world.state := by
  have bit := inStep.ns
  cases world with
  | secure =>
      rw [(Word.and_scrNs_eq_zero_iff sys.regs.scr).mpr bit]
      cases arch <;> rfl
  | nonsecure =>
      apply BitVec.eq_of_getLsbD_eq
      intro index below
      have positive := Nat.lt_of_lt_of_le (by decide : 0 < 32) arch.le_width
      by_cases first : index = 0
      · subst first
        simpa [scrNs, U32.word, World.state, positive, Word.nsBit,
          World.ns] using bit
      · simp [scrNs, U32.word, World.state, first]

end Sys

section Answer

variable (env : Env arch Paging) (site : SmcSite) (sys : Sys arch Paging)

theorem el3Answer_of_switch {op : SmcOp} {ret : U32}
    {after : Sys arch Paging} (nonzero : ret ≠ 0)
    (result : el3Switch env (U32.word arch op.code) sys = some (ret, after)) :
    el3Answer env ⟨site, op⟩ sys = .switch ret after.cross := by
  simp only [el3Answer, el3HandleSmc, result, Option.map_some, ne_eq,
    nonzero, not_false_eq_true, if_true, if_false]
  rfl

theorem el3Answer_of_stay {op : SmcOp} {after : Sys arch Paging}
    (result : el3Switch env (U32.word arch op.code) sys = some (0, after)) :
    el3Answer env ⟨site, op⟩ sys = .stay 0 after := by
  simp [el3Answer, el3HandleSmc, result]

theorem el3Answer_of_stuck {op : SmcOp}
    (result : el3Switch env (U32.word arch op.code) sys = none) :
    el3Answer env ⟨site, op⟩ sys = .stuck sys := by
  simp [el3Answer, el3HandleSmc, result]

theorem el3Answer_yield :
    el3Answer env ⟨site, .yield⟩ sys = .switch SvcOp.yield.code sys.cross :=
  el3Answer_of_switch env site sys (SvcOp.code_ne_zero _) (by simp [el3Switch])

theorem el3Answer_getReg :
    el3Answer env ⟨site, .getReg⟩ sys = .stay 0 (el3GetReg sys) :=
  el3Answer_of_stay env site sys (by simp [el3Switch])

theorem el3Answer_setReg :
    el3Answer env ⟨site, .setReg⟩ sys = .stay 0 (el3SetReg sys) :=
  el3Answer_of_stay env site sys (by simp [el3Switch])

theorem el3Answer_test :
    el3Answer env ⟨site, .test⟩ sys =
      .switch SvcOp.test.code
        (el3GetReg
          (sys.setInterop (sys.interop.setTest sys.interop.test.hop))).cross :=
  el3Answer_of_switch env site sys (SvcOp.code_ne_zero _) (by simp [el3Switch])

/-- The dispatches that EL3 runs itself while `world` is running. -/
def El3Owns (desc : Desc arch) (world : World) : Prop :=
  desc.disp.el = 3 ∧ desc.disp.state = U32.word arch world.state

instance (desc : Desc arch) (world : World) : Decidable (El3Owns desc world) :=
  inferInstanceAs (Decidable (_ ∧ _))

theorem el3Dispatch_test_iff {world : World} (inStep : sys.InStep world) :
    (sys.interop.disp.el = U32.word arch Image.el3.exceptionLevel ∧
        sys.interop.disp.state = (sys.regs.scr &&& scrNs arch)) ↔
      El3Owns sys.interop world := by
  rw [inStep.scr_and_scrNs, El3Owns]
  cases arch <;> rfl

theorem el3Answer_dispatch_forward {world : World} (inStep : sys.InStep world)
    (foreign : ¬El3Owns sys.interop world) :
    el3Answer env ⟨site, .dispatch⟩ sys =
      .switch SvcOp.dispatch.code sys.cross := by
  refine el3Answer_of_switch env site sys (SvcOp.code_ne_zero _) ?_
  simp only [el3Switch, SmcOp.ofCode?_code, el3Dispatch]
  rw [if_neg (mt (el3Dispatch_test_iff sys inStep).mp foreign)]

theorem el3Answer_dispatch_run {world : World} (inStep : sys.InStep world)
    (owned : El3Owns sys.interop world) :
    el3Answer env ⟨site, .dispatch⟩ sys =
      .stay 0 (el3RunTest env sys.interop.disp.fid 3 world.state
        sys.interop.disp.arg.low sys) := by
  refine el3Answer_of_stay env site sys ?_
  have levels : sys.interop.disp.el.low = 3 := by
    rw [owned.1]
    cases arch <;> rfl
  have states : sys.interop.disp.state.low = world.state := by
    rw [owned.2, Word.low_word]
  simp only [el3Switch, SmcOp.ofCode?_code, el3Dispatch]
  rw [if_pos ((el3Dispatch_test_iff sys inStep).mpr owned), levels, states]

end Answer

end TzTest
