import TzTest.Protocol.Answers

/-!
# Register requests and test functions

A register request never leaves its world: the EL1 and EL3 code that serves it
runs to its end and answers the caller.  `getReg` and `setReg` say what the
request has done by then for each image that can make it, and a test function
is the sequence of its requests.
-/

namespace TzTest

open Coroutine (Local)

variable {arch : Arch} {Paging : Type}

namespace Sys

/-- A register request changes the registers and the interop buffer only. -/
structure Quiet (before after : Sys arch Paging) : Prop where
  secureState : after.secureState = before.secureState
  parked : after.parked = before.parked
  paging : after.paging = before.paging
  testCntl : after.testCntl = before.testCntl
  shutdown : after.shutdown = before.shutdown
  executed : after.executed = before.executed
  delivered : after.delivered = before.delivered

theorem Quiet.refl (sys : Sys arch Paging) : sys.Quiet sys := by
  constructor <;> rfl

theorem Quiet.trans {before middle after : Sys arch Paging}
    (first : before.Quiet middle) (last : middle.Quiet after) :
    before.Quiet after where
  secureState := last.secureState.trans first.secureState
  parked := last.parked.trans first.parked
  paging := last.paging.trans first.paging
  testCntl := last.testCntl.trans first.testCntl
  shutdown := last.shutdown.trans first.shutdown
  executed := last.executed.trans first.executed
  delivered := last.delivered.trans first.delivered

theorem quiet_setInterop (sys : Sys arch Paging) (desc : Desc arch) :
    sys.Quiet (sys.setInterop desc) := by
  constructor <;> rfl

theorem quiet_el3GetReg (sys : Sys arch Paging) : sys.Quiet (el3GetReg sys) := by
  unfold el3GetReg
  dsimp only
  split
  · split
    · exact sys.quiet_setInterop _
    · exact Quiet.refl sys
  · exact Quiet.refl sys

theorem el3GetReg_cases (sys : Sys arch Paging) :
    (sys.interop.data.el = 3 ∧ ∃ data,
        (RegKey.ofCode? sys.interop.data.key).bind (el3ReadReg sys.regs) =
          some data ∧
        el3GetReg sys = sys.setInterop (sys.interop.setDataData data)) ∨
      (¬(sys.interop.data.el = 3 ∧ ∃ data,
          (RegKey.ofCode? sys.interop.data.key).bind (el3ReadReg sys.regs) =
            some data) ∧ el3GetReg sys = sys) := by
  unfold el3GetReg
  by_cases level : sys.interop.data.el = 3
  · simp only [if_pos level]
    cases found : (RegKey.ofCode? sys.interop.data.key).bind
        (el3ReadReg sys.regs) with
    | some data => exact .inl ⟨level, data, rfl, rfl⟩
    | none => exact .inr ⟨by simp, rfl⟩
  · simp only [if_neg level]
    exact .inr ⟨fun other => level other.1, trivial⟩

theorem quiet_el3SetReg (sys : Sys arch Paging) : sys.Quiet (el3SetReg sys) := by
  unfold el3SetReg
  dsimp only
  split
  · split
    · constructor <;> rfl
    · exact Quiet.refl sys
  · exact Quiet.refl sys

theorem el3SetReg_elsewhere (sys : Sys arch Paging)
    (elsewhere : sys.interop.data.el ≠ 3) : el3SetReg sys = sys :=
  if_neg elsewhere

@[simp] theorem regs_el3GetReg (sys : Sys arch Paging) :
    (el3GetReg sys).regs = sys.regs := by
  unfold el3GetReg
  dsimp only
  split
  · split <;> rfl
  · rfl

@[simp] theorem regs_setInterop (sys : Sys arch Paging) (desc : Desc arch) :
    (sys.setInterop desc).regs = sys.regs :=
  rfl

end Sys

/-- What a `SVC_OP_GET_REG` leaves in the caller's descriptor. -/
def svcGetResult (env : Env arch Paging) (world : World) (desc : Desc arch)
    (sys : Sys arch Paging) : Desc arch × Sys arch Paging :=
  if desc.data.el = 1 then
    match (RegKey.ofCode? desc.data.key).bind
        (el1ReadReg env world sys.regs) with
    | some data => (desc.setDataData data, sys)
    | none => (desc, sys)
  else if desc.data.el = 3 then
    ((el3GetReg (sys.setInterop desc)).interop, el3GetReg (sys.setInterop desc))
  else
    (desc, sys)

/-- What a `SVC_OP_SET_REG` does. -/
def svcSetResult (world : World) (desc : Desc arch) (sys : Sys arch Paging) :
    Sys arch Paging :=
  if desc.data.el = 1 then
    match RegKey.ofCode? desc.data.key with
    | some key =>
        { sys with regs := el1WriteReg world sys.regs key desc.data.data }
    | none => sys
  else if desc.data.el = 3 then
    el3SetReg (sys.setInterop desc)
  else
    sys

/-- The register request of a test function of the image. -/
def getReg (env : Env arch Paging) (image : Image) (key : Word arch) (el : U32)
    (sys : Sys arch Paging) : Word arch × Sys arch Paging :=
  match image with
  | .el3 => (((RegKey.ofCode? key).bind (el3ReadReg sys.regs)).getD 0, sys)
  | .el1 _ =>
      let sys := el3GetReg (sys.setInterop (sys.interop.setDataKey key el))
      (sys.interop.data.data, sys)
  | .el0 world =>
      let (desc, sys) := svcGetResult env world (env.stack.setDataKey key el) sys
      (desc.data.data, sys)

def setReg (env : Env arch Paging) (image : Image) (key : Word arch) (el : U32)
    (data : Word arch) (sys : Sys arch Paging) : Sys arch Paging :=
  match image with
  | .el3 =>
      match RegKey.ofCode? key with
      | some key => { sys with regs := el3WriteReg sys.regs key data }
      | none => sys
  | .el1 _ =>
      el3SetReg
        (sys.setInterop ((sys.interop.setDataKey key el).setDataData data))
  | .el0 world =>
      svcSetResult world ((env.stack.setDataKey key el).setDataData data) sys

theorem quiet_svcGetResult (env : Env arch Paging) (world : World)
    (desc : Desc arch) (sys : Sys arch Paging) :
    sys.Quiet (svcGetResult env world desc sys).2 := by
  unfold svcGetResult
  split
  · split <;> exact Sys.Quiet.refl sys
  · split
    · exact (sys.quiet_setInterop desc).trans (Sys.quiet_el3GetReg _)
    · exact Sys.Quiet.refl sys

theorem regs_svcGetResult (env : Env arch Paging) (world : World)
    (desc : Desc arch) (sys : Sys arch Paging) :
    (svcGetResult env world desc sys).2.regs = sys.regs := by
  unfold svcGetResult
  split
  · split <;> rfl
  · split <;> simp

theorem quiet_svcSetResult (world : World) (desc : Desc arch)
    (sys : Sys arch Paging) : sys.Quiet (svcSetResult world desc sys) := by
  unfold svcSetResult
  split
  · split
    · constructor <;> rfl
    · exact Sys.Quiet.refl sys
  · split
    · exact (sys.quiet_setInterop desc).trans (Sys.quiet_el3SetReg _)
    · exact Sys.Quiet.refl sys

theorem quiet_getReg (env : Env arch Paging) (image : Image) (key : Word arch)
    (el : U32) (sys : Sys arch Paging) :
    sys.Quiet (getReg env image key el sys).2 := by
  cases image with
  | el3 => exact Sys.Quiet.refl sys
  | el1 _ => exact (sys.quiet_setInterop _).trans (Sys.quiet_el3GetReg _)
  | el0 world => exact quiet_svcGetResult env world _ sys

theorem regs_getReg (env : Env arch Paging) (image : Image) (key : Word arch)
    (el : U32) (sys : Sys arch Paging) :
    (getReg env image key el sys).2.regs = sys.regs := by
  cases image with
  | el3 => rfl
  | el1 _ => simp [getReg]
  | el0 world => exact regs_svcGetResult env world _ sys

theorem quiet_setReg (env : Env arch Paging) (image : Image) (key : Word arch)
    (el : U32) (data : Word arch) (sys : Sys arch Paging) :
    sys.Quiet (setReg env image key el data sys) := by
  cases image with
  | el3 =>
      simp only [setReg]
      split
      · constructor <;> rfl
      · exact Sys.Quiet.refl sys
  | el1 _ => exact (sys.quiet_setInterop _).trans (Sys.quiet_el3SetReg _)
  | el0 world => exact quiet_svcSetResult world _ sys

theorem regs_setReg_el1 (env : Env arch Paging) (world : World)
    (key data : Word arch) {el : U32} (sys : Sys arch Paging)
    (elsewhere : el ≠ 3) :
    (setReg env (.el1 world) key el data sys).regs = sys.regs := by
  have level : ((sys.interop.setDataKey key el).setDataData data).data.el ≠ 3 :=
    by simpa using elsewhere
  have same := Sys.el3SetReg_elsewhere
    (sys.setInterop ((sys.interop.setDataKey key el).setDataData data)) level
  simp only [setReg, same, Sys.regs_setInterop]

namespace Handler

/-- What the test function of an image does, request after request. -/
def run (env : Env arch Paging) (image : Image) :
    Handler arch → Sys arch Paging → Sys arch Paging
  | .done, sys => sys
  | .getReg key el next, sys =>
      (next (TzTest.getReg env image key el sys).1).run env image
        (TzTest.getReg env image key el sys).2
  | .setReg key el data next, sys =>
      next.run env image (TzTest.setReg env image key el data sys)

/-- None of the requests that the test function comes to make changes
`SCR.NS`. -/
def KeepsNs (env : Env arch Paging) (image : Image) :
    Handler arch → Sys arch Paging → Prop
  | .done, _ => True
  | .getReg key el next, sys =>
      (next (TzTest.getReg env image key el sys).1).KeepsNs env image
        (TzTest.getReg env image key el sys).2
  | .setReg key el data next, sys =>
      (TzTest.setReg env image key el data sys).regs.scr.nsBit =
          sys.regs.scr.nsBit ∧
        next.KeepsNs env image (TzTest.setReg env image key el data sys)

theorem quiet_run (env : Env arch Paging) (image : Image)
    (handler : Handler arch) (sys : Sys arch Paging) :
    sys.Quiet (handler.run env image sys) := by
  induction handler generalizing sys with
  | done => exact Sys.Quiet.refl sys
  | getReg key el next induction =>
      exact (quiet_getReg env image key el sys).trans (induction _ _)
  | setReg key el data next induction =>
      exact (quiet_setReg env image key el data sys).trans (induction _)

theorem KeepsNs.nsBit_run {env : Env arch Paging} {image : Image}
    {handler : Handler arch} {sys : Sys arch Paging}
    (keeps : handler.KeepsNs env image sys) :
    (handler.run env image sys).regs.scr.nsBit = sys.regs.scr.nsBit := by
  induction handler generalizing sys with
  | done => rfl
  | getReg key el next induction =>
      have later := induction _ keeps
      rwa [regs_getReg] at later
  | setReg key el data next induction =>
      exact (induction keeps.2).trans keeps.1

theorem KeepsNs.inStep_run {env : Env arch Paging} {image : Image}
    {handler : Handler arch} {sys : Sys arch Paging} {world : World}
    (keeps : handler.KeepsNs env image sys) (inStep : sys.InStep world) :
    (handler.run env image sys).InStep world :=
  inStep.congr (quiet_run env image handler sys).secureState keeps.nsBit_run

end Handler

section Code

variable (env : Env arch Paging) (world : World)

theorem local_smcGetReg (key : Word arch) (el : U32) (sys : Sys arch Paging) :
    Local (el3Answer env) (smcGetReg key el sys)
      (getReg env (.el1 world) key el sys).1
      (getReg env (.el1 world) key el sys).2 := by
  refine .call (el3Answer_getReg env _ _) ?_
  exact .done _ _

theorem local_smcSetReg (key : Word arch) (el : U32) (data : Word arch)
    (sys : Sys arch Paging) :
    Local (el3Answer env) (smcSetReg key el data sys) ()
      (setReg env (.el1 world) key el data sys) := by
  refine .call (el3Answer_setReg env _ _) ?_
  exact .done _ _

theorem local_handler_el1 (handler : Handler arch) (sys : Sys arch Paging) :
    Local (el3Answer env) (handler.el1 sys) ()
      (handler.run env (.el1 world) sys) := by
  induction handler generalizing sys with
  | done => exact .done _ _
  | getReg key el next induction =>
      exact (local_smcGetReg env world key el sys).bind (induction _ _)
  | setReg key el data next induction =>
      exact (local_smcSetReg env world key el data sys).bind (induction _)

theorem local_el1GetReg (desc : Desc arch) (sys : Sys arch Paging) :
    Local (el3Answer env) (el1GetReg env world desc sys)
      (svcGetResult env world desc sys).1 (svcGetResult env world desc sys).2 := by
  by_cases atEl1 : desc.data.el = 1
  · simp only [el1GetReg, svcGetResult, if_pos atEl1,
      Coroutine.Program.gets_apply]
    cases (RegKey.ofCode? desc.data.key).bind (el1ReadReg env world sys.regs) with
    | none => exact .done _ _
    | some data => exact .done _ _
  · by_cases atEl3 : desc.data.el = 3
    · simp only [el1GetReg, svcGetResult, if_neg atEl1, if_pos atEl3]
      refine .call (el3Answer_getReg env _ _) ?_
      exact .done _ _
    · simp only [el1GetReg, svcGetResult, if_neg atEl1, if_neg atEl3]
      exact .done _ _

theorem local_el1SetReg (desc : Desc arch) (sys : Sys arch Paging) :
    Local (el3Answer env) (el1SetReg world desc sys) ()
      (svcSetResult world desc sys) := by
  by_cases atEl1 : desc.data.el = 1
  · simp only [el1SetReg, svcSetResult, if_pos atEl1,
      Coroutine.Program.modify_apply]
    exact .done _ _
  · by_cases atEl3 : desc.data.el = 3
    · simp only [el1SetReg, svcSetResult, if_neg atEl1, if_pos atEl3]
      refine .call (el3Answer_setReg env _ _) ?_
      exact .done _ _
    · simp only [el1SetReg, svcSetResult, if_neg atEl1, if_neg atEl3]
      exact .done _ _

theorem local_svc_getReg (desc : Desc arch) (sys : Sys arch Paging) :
    Local (el3Answer env) (svc env world SvcOp.getReg.code desc sys)
      (0, (svcGetResult env world desc sys).1)
      (svcGetResult env world desc sys).2 := by
  simp only [svc, el1HandleSvc, SvcOp.ofCode?_code]
  exact (local_el1GetReg env world desc sys).bind (.done _ _)

theorem local_svc_setReg (desc : Desc arch) (sys : Sys arch Paging) :
    Local (el3Answer env) (svc env world SvcOp.setReg.code desc sys)
      (0, desc) (svcSetResult world desc sys) := by
  simp only [svc, el1HandleSvc, SvcOp.ofCode?_code]
  exact (local_el1SetReg env world desc sys).bind (.done _ _)

theorem local_svcGetReg (key : Word arch) (el : U32) (sys : Sys arch Paging) :
    Local (el3Answer env) (svcGetReg env world key el sys)
      (getReg env (.el0 world) key el sys).1
      (getReg env (.el0 world) key el sys).2 :=
  (local_svc_getReg env world (env.stack.setDataKey key el) sys).bind
    (.done _ _)

theorem local_svcSetReg (key : Word arch) (el : U32) (data : Word arch)
    (sys : Sys arch Paging) :
    Local (el3Answer env) (svcSetReg env world key el data sys) ()
      (setReg env (.el0 world) key el data sys) :=
  (local_svc_setReg env world
    ((env.stack.setDataKey key el).setDataData data) sys).bind (.done _ _)

theorem local_handler_el0 (handler : Handler arch) (sys : Sys arch Paging) :
    Local (el3Answer env) (handler.el0 env world sys) ()
      (handler.run env (.el0 world) sys) := by
  induction handler generalizing sys with
  | done => exact .done _ _
  | getReg key el next induction =>
      exact (local_svcGetReg env world key el sys).bind (induction _ _)
  | setReg key el data next induction =>
      exact (local_svcSetReg env world key el data sys).bind (induction _)

theorem handler_el3 (handler : Handler arch) (sys : Sys arch Paging) :
    handler.el3 sys = handler.run env .el3 sys := by
  induction handler generalizing sys with
  | done => rfl
  | getReg key el next induction =>
      simp only [Handler.el3, Handler.run, getReg]
      cases (RegKey.ofCode? key).bind (el3ReadReg sys.regs) with
      | none => exact induction 0 sys
      | some data => exact induction data sys
  | setReg key el data next induction =>
      simp only [Handler.el3, Handler.run, setReg]
      cases RegKey.ofCode? key with
      | none => exact induction sys
      | some key => exact induction _

end Code

end TzTest
