import TzTest.Protocol.Services

/-!
# Rounds of the secure world

A request that EL3 forwards is delivered to `el0_sec_loop`, which serves it and
yields.  Each round is described once, for any nonsecure caller: the state that
the caller resumes in, the value that its SMC returns, and where the secure
world is suspended by then.
-/

namespace TzTest

open Coroutine (Local Outcome Steps Suspended)

variable {arch : Arch} {Paging : Type}

theorem U32.word_inj {left right : U32} :
    U32.word arch left = U32.word arch right ↔ left = right := by
  constructor
  · intro equality
    have lows := congrArg Word.low equality
    simpa using lows
  · exact congrArg _

/-- What `run_test` does in the image that owns the test. -/
def runEntry (env : Env arch Paging) (image : Image) (fid arg : U32)
    (sys : Sys arch Paging) : Sys arch Paging :=
  match env.testFunc image fid with
  | some test => (test arg).run env image (sys.record ⟨image, fid, arg⟩)
  | none => sys

/-- The calls that `run_test` makes in the image that owns the test. -/
def entryCalls (env : Env arch Paging) (image : Image) (fid arg : U32) :
    List Executed :=
  match env.testFunc image fid with
  | some _ => [⟨image, fid, arg⟩]
  | none => []

/-- The test function of the entry keeps `SCR.NS` from every state that is in
step with the world. -/
def Env.KeepsNs (env : Env arch Paging) (image : Image) (fid arg : U32)
    (world : World) : Prop :=
  ∀ test ∈ env.testFunc image fid, ∀ sys : Sys arch Paging,
    sys.InStep world → (test arg).KeepsNs env image sys

section RunEntry

variable (env : Env arch Paging) (image : Image) (fid arg : U32)
variable (sys : Sys arch Paging)

theorem quiet_runEntry :
    ({ sys with executed := sys.executed ++ entryCalls env image fid arg } :
      Sys arch Paging).Quiet (runEntry env image fid arg sys) := by
  unfold runEntry entryCalls
  cases env.testFunc image fid with
  | none => constructor <;> simp
  | some test => exact Handler.quiet_run env image (test arg) _

theorem executed_runEntry :
    (runEntry env image fid arg sys).executed =
      sys.executed ++ entryCalls env image fid arg :=
  (quiet_runEntry env image fid arg sys).executed

theorem inStep_runEntry {world : World}
    (keeps : env.KeepsNs image fid arg world) (inStep : sys.InStep world) :
    (runEntry env image fid arg sys).InStep world := by
  unfold runEntry
  cases found : env.testFunc image fid with
  | none => exact inStep
  | some test =>
      have recorded : (sys.record ⟨image, fid, arg⟩).InStep world :=
        inStep.congr rfl rfl
      exact (keeps test found _ recorded).inStep_run recorded

theorem el3RunTest_owned {world : World} (inStep : sys.InStep world) :
    el3RunTest env fid 3 world.state arg sys = runEntry env .el3 fid arg sys := by
  unfold el3RunTest runEntry
  rw [if_pos ⟨rfl, inStep.secureState.symm⟩]
  cases env.testFunc .el3 fid with
  | none => rfl
  | some test => exact handler_el3 env (test arg) _

theorem local_el1RunTest (world : World) :
    Local (el3Answer env) (el1RunTest env world fid 1 world.state arg sys) ()
      (runEntry env (.el1 world) fid arg sys) := by
  unfold el1RunTest runEntry
  rw [if_pos ⟨rfl, rfl⟩]
  cases env.testFunc (.el1 world) fid with
  | none => exact .done _ _
  | some test => exact local_handler_el1 env world (test arg) _

theorem local_el0RunTest (world : World) :
    Local (el3Answer env) (el0RunTest env world fid 0 world.state arg sys) ()
      (runEntry env (.el0 world) fid arg sys) := by
  unfold el0RunTest runEntry
  rw [if_pos ⟨rfl, rfl⟩]
  cases env.testFunc (.el0 world) fid with
  | none => exact .done _ _
  | some test => exact local_handler_el0 env world (test arg) _

theorem el0RunTest_foreign (world : World) {el state : U32}
    (foreign : ¬(el = (Image.el0 world).exceptionLevel ∧ state = world.state)) :
    el0RunTest env world fid el state arg sys =
      (svc env world SvcOp.dispatch.code (dispatchDesc env fid el state arg)
        sys).bind fun _ sys => .done () sys := by
  unfold el0RunTest
  rw [if_neg foreign]
  rfl

end RunEntry

/-- The dispatches that the EL1 image of the world runs itself. -/
def El1Owns (desc : Desc arch) (world : World) : Prop :=
  desc.disp.el = 1 ∧ desc.disp.state = U32.word arch world.state

instance (desc : Desc arch) (world : World) : Decidable (El1Owns desc world) :=
  inferInstanceAs (Decidable (_ ∧ _))

/-- The image that runs a test once its dispatch has come to secure EL0. -/
def secureImage? (el state : U32) : Option Image :=
  if state = World.secure.state then
    if el = 0 then some (.el0 .secure)
    else if el = 1 then some (.el1 .secure)
    else if el = 3 then some .el3
    else none
  else
    none

theorem disp_dispatchDesc (env : Env arch Paging) (fid el state arg : U32) :
    (dispatchDesc env fid el state arg).disp =
      { fid := fid
        arg := U32.word arch arg
        state := U32.word arch state
        el := U32.word arch el
        ret := env.stack.disp.ret } :=
  Desc.disp_setDisp _ _

theorem el1Owns_dispatchDesc (env : Env arch Paging) (fid el state arg : U32)
    (world : World) :
    El1Owns (dispatchDesc env fid el state arg) world ↔
      el = 1 ∧ state = world.state := by
  have one : (1 : Word arch) = U32.word arch 1 := by cases arch <;> rfl
  simp only [El1Owns, disp_dispatchDesc, one, U32.word_inj]

theorem el3Owns_dispatchDesc (env : Env arch Paging) (fid el state arg : U32)
    (world : World) :
    El3Owns (dispatchDesc env fid el state arg) world ↔
      el = 3 ∧ state = world.state := by
  have three : (3 : Word arch) = U32.word arch 3 := by cases arch <;> rfl
  simp only [El3Owns, disp_dispatchDesc, three, U32.word_inj]

section Dispatch

variable (env : Env arch Paging) (world : World) (desc : Desc arch)
variable (sys : Sys arch Paging)

theorem el1Owns_test_iff :
    (desc.disp.el = U32.word arch (Image.el1 world).exceptionLevel ∧
        desc.disp.state = U32.word arch world.state) ↔ El1Owns desc world := by
  have one : (1 : Word arch) = U32.word arch 1 := by cases arch <;> rfl
  rw [El1Owns, one]
  rfl

theorem local_svc_dispatch (owned : El1Owns desc world) :
    Local (el3Answer env) (svc env world SvcOp.dispatch.code desc sys) (0, desc)
      (runEntry env (.el1 world) desc.disp.fid desc.disp.arg.low sys) := by
  have levels : desc.disp.el.low = 1 := by
    rw [owned.1]
    cases arch <;> rfl
  have states : desc.disp.state.low = world.state := by
    rw [owned.2, Word.low_word]
  have run := local_el1RunTest env desc.disp.fid desc.disp.arg.low sys world
  simp only [svc, el1HandleSvc, SvcOp.ofCode?_code, el1Dispatch,
    if_pos ((el1Owns_test_iff world desc).mpr owned), levels, states]
  exact (run.bind (.done desc _)).bind (.done (0, desc) _)

theorem svc_dispatch_forward (foreign : ¬El1Owns desc world) :
    svc env world SvcOp.dispatch.code desc sys =
      .call ⟨.svcOpDispatch, .dispatch⟩ (sys.setInterop desc)
        fun _ sys => .done (0, sys.interop) sys := by
  simp only [svc, el1HandleSvc, SvcOp.ofCode?_code, el1Dispatch,
    if_neg (mt (el1Owns_test_iff world desc).mp foreign)]
  rfl

end Dispatch

/-- One or more rounds of `el0_sec_loop`, begun with the operation and its
descriptor: the SMC of the nonsecure caller returns `reply` in the state
`after`, crossed, and the secure world is left at `secure`. -/
def Serves (env : Env arch Paging) (op : U32) (desc : Desc arch)
    (sys : Sys arch Paging) (reply : U32) (after : Sys arch Paging)
    (secure : SecureWorld arch Paging) : Prop :=
  ∀ (α : Type) (client : Suspended (Sys arch Paging) Smc U32 α),
    Reaches env (.server (el0SecLoop env (op, desc) sys) client)
      (.client (client.resume reply after.cross) secure)

/-- Secure EL1 is in the SMC of its `SVC_OP_DISPATCH` case, on behalf of
`run_test` in secure EL0.  Whatever the SMC returns, secure EL0 yields next. -/
def dispatching : SecureWorld arch Paging :=
  { request := ⟨.svcOpDispatch, .dispatch⟩
    resume := fun _ sys =>
      .call ⟨.svcOpYield, .yield⟩ sys (@waiting arch Paging).resume }

theorem dispatching_ne_waiting :
    (dispatching : SecureWorld arch Paging) ≠ waiting := by
  intro same
  have requests := congrArg (fun secure => secure.request.op) same
  simp [dispatching, waiting] at requests

section Rounds

variable (env : Env arch Paging) (desc : Desc arch) (sys : Sys arch Paging)

theorem el0SecLoop_apply {op : U32} (running : op ≠ SvcOp.exit.code) :
    el0SecLoop env (op, desc) sys =
      (el0SecSwitch env op desc sys).bind fun round sys =>
        el0SecCall env round.1 round.2 sys := by
  simp only [el0SecLoop, ne_eq, running, not_false_eq_true, if_true]
  rfl

theorem reaches_of_yield {α : Type}
    (client : Suspended (Sys arch Paging) Smc U32 α) :
    Reaches env
      (.server (.call ⟨.svcOpYield, .yield⟩ sys (@waiting arch Paging).resume)
        client)
      (.client (client.resume SvcOp.yield.code sys.cross) waiting) :=
  Steps.serverSwitch (el3Answer_yield env _ sys)

/-- A round that comes to its end without leaving the secure world, but for
the yield. -/
theorem serves_of_local {op : U32} {last : Desc arch} {after : Sys arch Paging}
    (running : op ≠ SvcOp.exit.code)
    (run : Local (el3Answer env) (el0SecSwitch env op desc sys)
      (SvcOp.yield.code, last) after) :
    Serves env op desc sys SvcOp.yield.code after waiting := by
  intro α client
  rw [el0SecLoop_apply env desc sys running]
  exact Steps.trans (run.server _ client) (reaches_of_yield env after client)

theorem serves_zero :
    Serves env 0 desc sys SvcOp.yield.code sys waiting :=
  serves_of_local env desc sys (SvcOp.code_ne_zero _).symm (.done _ _)

theorem serves_yield :
    Serves env SvcOp.yield.code desc sys SvcOp.yield.code sys waiting :=
  serves_of_local env desc sys (by decide) (.done _ _)

theorem serves_test :
    Serves env SvcOp.test.code desc sys SvcOp.yield.code sys waiting :=
  serves_of_local env desc sys (by decide) (.done _ _)

/-- Secure EL1 maps the page, and a second round yields. -/
theorem serves_map {paging : Paging}
    (masked : desc.map.type &&& opMapEl3 ≠ opMapEl3)
    (mapped : env.mmu.memMapPa (.el1 .secure) desc.map.va desc.map.pa 0
      (pteUserRw arch) sys.paging = some paging) :
    Serves env SvcOp.map.code desc sys SvcOp.yield.code
      { sys with paging := paging } waiting := by
  intro α client
  have round : el0SecLoop env (SvcOp.map.code, desc) sys =
      .done (0, desc) { sys with paging := paging } := by
    rw [el0SecLoop_apply env desc sys (by decide)]
    simp only [el0SecSwitch, SvcOp.ofCode?_code, Coroutine.Program.pure_apply,
      Outcome.done_bind, el0SecCall, svc, el1HandleSvc, el1MapSecure,
      if_neg masked, Coroutine.Program.bind_apply, Coroutine.Program.attempt,
      mapped, Option.map_some]
    rfl
  rw [round]
  exact Steps.serverDone.trans (serves_zero env desc _ α client)

/-- The state in which the secure image takes the test over. -/
def secureEntry (image : Image) (fid el state arg : U32)
    (sys : Sys arch Paging) : Sys arch Paging :=
  if image = .el3 then
    runEntry env image fid arg
      (sys.setInterop (dispatchDesc env fid el state arg))
  else
    runEntry env image fid arg sys

theorem local_el0RunTest_secure (fid el state arg : U32) {image : Image}
    (owner : secureImage? el state = some image)
    (inStep : sys.InStep .secure) :
    Local (el3Answer env) (el0RunTest env .secure fid el state arg sys) ()
      (secureEntry env image fid el state arg sys) := by
  unfold secureImage? at owner
  by_cases states : state = World.secure.state
  · rw [if_pos states] at owner
    subst states
    by_cases atEl0 : el = 0
    · rw [if_pos atEl0] at owner
      cases owner
      subst atEl0
      exact local_el0RunTest env fid arg sys .secure
    rw [if_neg atEl0] at owner
    rw [el0RunTest_foreign env fid arg sys .secure fun both => atEl0 both.1]
    by_cases atEl1 : el = 1
    · rw [if_pos atEl1] at owner
      cases owner
      have owned : El1Owns (dispatchDesc env fid el World.secure.state arg)
          .secure := (el1Owns_dispatchDesc ..).mpr ⟨atEl1, rfl⟩
      have run := local_svc_dispatch env .secure _ sys owned
      rw [disp_dispatchDesc] at run
      simp only [Word.low_word] at run
      exact run.bind (.done _ _)
    · rw [if_neg atEl1] at owner
      by_cases atEl3 : el = 3
      · rw [if_pos atEl3] at owner
        cases owner
        have foreign : ¬El1Owns (dispatchDesc env fid el World.secure.state arg)
            .secure := fun owned => atEl1 ((el1Owns_dispatchDesc ..).mp owned).1
        have owned : El3Owns (dispatchDesc env fid el World.secure.state arg)
            .secure := (el3Owns_dispatchDesc ..).mpr ⟨atEl3, rfl⟩
        have entered : (sys.setInterop
            (dispatchDesc env fid el World.secure.state arg)).InStep .secure :=
          inStep.congr rfl rfl
        have answer := el3Answer_dispatch_run env .svcOpDispatch _ entered owned
        rw [el3RunTest_owned env _ _ _ entered] at answer
        simp only [Sys.setInterop, disp_dispatchDesc, Word.low_word] at answer
        rw [svc_dispatch_forward env .secure _ sys foreign]
        exact .call answer (.done _ _)
      · rw [if_neg atEl3] at owner
        cases owner
  · rw [if_neg states] at owner
    cases owner

theorem serves_dispatch {image : Image}
    (owner : secureImage? desc.disp.el.low desc.disp.state.low = some image)
    (inStep : sys.InStep .secure) :
    Serves env SvcOp.dispatch.code desc sys SvcOp.yield.code
      (secureEntry env image desc.disp.fid desc.disp.el.low
        desc.disp.state.low desc.disp.arg.low sys) waiting := by
  refine @serves_of_local _ _ env desc sys _ desc _ (by decide) ?_
  simp only [el0SecSwitch, SvcOp.ofCode?_code]
  exact (local_el0RunTest_secure env sys _ _ _ _ owner inStep).bind (.done _ _)

/-- A dispatch that no secure image owns comes back from EL3 as a dispatch,
while secure EL1 is still in its own. -/
theorem serves_dispatch_unowned
    (unowned : secureImage? desc.disp.el.low desc.disp.state.low = none)
    (inStep : sys.InStep .secure) :
    Serves env SvcOp.dispatch.code desc sys SvcOp.dispatch.code
      (sys.setInterop (dispatchDesc env desc.disp.fid desc.disp.el.low
        desc.disp.state.low desc.disp.arg.low)) dispatching := by
  intro α client
  have foreign : ∀ el : U32, secureImage? el World.secure.state ≠ none →
      ¬(desc.disp.el.low = el ∧ desc.disp.state.low = World.secure.state) := by
    intro el found both
    rw [both.1, both.2] at unowned
    exact found unowned
  have notEl1 : ¬El1Owns (dispatchDesc env desc.disp.fid desc.disp.el.low
      desc.disp.state.low desc.disp.arg.low) .secure :=
    mt (el1Owns_dispatchDesc ..).mp (foreign 1 (by decide))
  have notEl3 : ¬El3Owns (dispatchDesc env desc.disp.fid desc.disp.el.low
      desc.disp.state.low desc.disp.arg.low) .secure :=
    mt (el3Owns_dispatchDesc ..).mp (foreign 3 (by decide))
  have forwarded := el3Answer_dispatch_forward env .svcOpDispatch
    (sys.setInterop (dispatchDesc env desc.disp.fid desc.disp.el.low
      desc.disp.state.low desc.disp.arg.low)) (inStep.congr rfl rfl) notEl3
  rw [el0SecLoop_apply env desc sys (by decide)]
  simp only [el0SecSwitch, SvcOp.ofCode?_code, Coroutine.Program.bind_apply]
  rw [el0RunTest_foreign env _ _ sys .secure (foreign 0 (by decide)),
    svc_dispatch_forward env .secure _ sys notEl1]
  exact Steps.serverSwitch forwarded

end Rounds

section Exchange

variable {env : Env arch Paging} {request : Smc}
variable {sys sent after : Sys arch Paging}
variable {resume : U32 → Sys arch Paging → Outcome (Sys arch Paging) Smc U32 α}
variable {ret reply : U32} {secure : SecureWorld arch Paging}

theorem exchange
    (answer : el3Answer env request sys = .switch ret sent)
    (serves : Serves env ret sent.interop (sent.deliver ret sent.interop)
      reply after secure) :
    Reaches env (.client (.call request sys resume) waiting)
      (.client (resume reply after.cross) secure) :=
  (Steps.clientSwitch answer).trans
    (Steps.serverDone.trans (serves α ⟨request, resume⟩))

/-- A forwarded SMC that finds secure EL1 in its dispatch is not delivered: it
lets secure EL0 finish the old round. -/
theorem exchange_dispatching
    (answer : el3Answer env request sys = .switch ret sent) :
    Reaches env (.client (.call request sys resume) dispatching)
      (.client (resume SvcOp.yield.code sent.cross) waiting) :=
  (Steps.clientSwitch answer).trans (reaches_of_yield env sent _)

end Exchange

end TzTest
