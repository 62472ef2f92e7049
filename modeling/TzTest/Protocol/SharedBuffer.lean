import TzTest.Protocol.BufferRequests

/-!
# Requests of the secure world in the caller's buffer

While the secure world serves a forwarded dispatch, its own register requests
and dispatches go through the same `smc_interop_buf`.  The dispatch is copied
back to its caller after them, so the caller finds what the last of them left.
-/

namespace TzTest

open Coroutine (Local Outcome Steps Suspended)

variable {arch : Arch} {Paging : Type}

/-- What secure EL0 does from its resumption to its yield: any such calls, each
chosen from the answers before it. -/
inductive Serving (arch : Arch) where
  | yield (desc : Desc arch)
  | call (op : BufferOp) (desc : Desc arch) (next : Desc arch → Serving arch)

def Serving.code (env : Env arch Paging) :
    Serving arch → Code arch Paging (U32 × Desc arch)
  | .yield desc => el0SecCall env SvcOp.yield.code desc
  | .call op desc next => do
      let (_, desc) ← svc env .secure op.svcOp.code desc
      (next desc).code env

/-- The dispatches that EL3 runs itself, as `el3_handle_smc` decides it. -/
def El3Keeps (desc : Desc arch) (sys : Sys arch Paging) : Prop :=
  desc.disp.el = U32.word arch Image.el3.exceptionLevel ∧
    desc.disp.state = (sys.regs.scr &&& scrNs arch)

instance (desc : Desc arch) (sys : Sys arch Paging) :
    Decidable (El3Keeps desc sys) :=
  inferInstanceAs (Decidable (_ ∧ _))

/-- The requests that a test function of an EL1 image comes to make. -/
def Handler.issued (env : Env arch Paging) (world : World) :
    Handler arch → Sys arch Paging → List (Issued arch)
  | .done, _ => []
  | .getReg key el next, sys =>
      let (data, after) := TzTest.getReg env (.el1 world) key el sys
      ⟨.smcGetReg key el, sys.regs⟩ :: (next data).issued env world after
  | .setReg key el data next, sys =>
      ⟨.smcSetReg key el data, sys.regs⟩ ::
        next.issued env world (TzTest.setReg env (.el1 world) key el data sys)

/-- How a call of the secure world ends, with the requests that it has made
through the buffer: back in the secure world, or in the other world. -/
inductive CallEnd (arch : Arch) (Paging : Type) where
  | back (desc : Desc arch) (issued : List (Issued arch)) (sys : Sys arch Paging)
  | crosses (issued : List (Issued arch)) (sys : Sys arch Paging)

namespace BufferOp

def serve (env : Env arch Paging) (op : BufferOp) (desc : Desc arch)
    (sys : Sys arch Paging) : CallEnd arch Paging :=
  let copied : List (Issued arch) := [⟨.svc op desc, sys.regs⟩]
  match op with
  | .getReg =>
      let (answer, after) := svcGetResult env .secure desc sys
      .back answer (if desc.data.el = 3 then copied else []) after
  | .setReg =>
      .back desc (if desc.data.el = 3 then copied else [])
        (svcSetResult .secure desc sys)
  | .dispatch =>
      if El1Owns desc .secure then
        .back desc
          (match env.testFunc (.el1 .secure) desc.disp.fid with
            | some test => (test desc.disp.arg.low).issued env .secure
                (sys.record ⟨.el1 .secure, desc.disp.fid, desc.disp.arg.low⟩)
            | none => [])
          (runEntry env (.el1 .secure) desc.disp.fid desc.disp.arg.low sys)
      else if El3Keeps desc sys then
        .back desc copied
          (el3RunTest env desc.disp.fid desc.disp.el.low desc.disp.state.low
            desc.disp.arg.low (sys.setInterop desc))
      else
        .crosses copied (sys.setInterop desc)

end BufferOp

/-- The requests that the service makes through the buffer, and the state in
which the caller's world takes over. -/
def Serving.run (env : Env arch Paging) :
    Serving arch → Sys arch Paging → List (Issued arch) × Sys arch Paging
  | .yield _, sys => ([], sys)
  | .call op desc next, sys =>
      match op.serve env desc sys with
      | .back answer issued after =>
          let (later, final) := (next answer).run env after
          (issued ++ later, final)
      | .crosses issued after => (issued, after)

section Code

variable (env : Env arch Paging)

theorem interop_handler_el3 (handler : Handler arch) (sys : Sys arch Paging) :
    (handler.el3 sys).interop = sys.interop := by
  induction handler generalizing sys with
  | done => rfl
  | getReg key el next induction =>
      simp only [Handler.el3]
      split
      · exact induction _ sys
      · exact induction 0 sys
  | setReg key el data next induction =>
      simp only [Handler.el3]
      split
      · exact induction _
      · exact induction sys

theorem interop_el3RunTest (fid el state arg : U32) (sys : Sys arch Paging) :
    (el3RunTest env fid el state arg sys).interop = sys.interop := by
  unfold el3RunTest
  split
  · split
    · exact interop_handler_el3 _ _
    · rfl
  · rfl

theorem el3Answer_dispatch_keeps (site : SmcSite) {sys : Sys arch Paging}
    (keeps : El3Keeps sys.interop sys) :
    el3Answer env ⟨site, .dispatch⟩ sys =
      .stay 0 (el3RunTest env sys.interop.disp.fid sys.interop.disp.el.low
        sys.interop.disp.state.low sys.interop.disp.arg.low sys) := by
  refine el3Answer_of_stay env site sys ?_
  have test : sys.interop.disp.el = U32.word arch Image.el3.exceptionLevel ∧
      sys.interop.disp.state = (sys.regs.scr &&& scrNs arch) := keeps
  simp only [el3Switch, SmcOp.ofCode?_code, el3Dispatch, if_pos test]

theorem el3Answer_dispatch_passes (site : SmcSite) {sys : Sys arch Paging}
    (passes : ¬El3Keeps sys.interop sys) :
    el3Answer env ⟨site, .dispatch⟩ sys =
      .switch SvcOp.dispatch.code sys.cross := by
  refine el3Answer_of_switch env site sys (SvcOp.code_ne_zero _) ?_
  have test : ¬(sys.interop.disp.el =
        U32.word arch Image.el3.exceptionLevel ∧
      sys.interop.disp.state = (sys.regs.scr &&& scrNs arch)) := passes
  simp only [el3Switch, SmcOp.ofCode?_code, el3Dispatch, if_neg test]

theorem interop_el3GetReg_eq (sys : Sys arch Paging) :
    (el3GetReg sys).interop = el3Answers sys.regs sys.interop := by
  unfold el3GetReg el3Answers el3Reads?
  dsimp only
  split
  · cases (RegKey.ofCode? sys.interop.data.key).bind (el3ReadReg sys.regs) <;> rfl
  · rfl

theorem interop_el3SetReg (sys : Sys arch Paging) :
    (el3SetReg sys).interop = sys.interop := by
  unfold el3SetReg
  dsimp only
  split
  · split <;> rfl
  · rfl

theorem interop_svcGetResult (desc : Desc arch) (sys : Sys arch Paging) :
    (svcGetResult env .secure desc sys).2.interop =
      storeAll (if desc.data.el = 3 then [⟨.svc .getReg desc, sys.regs⟩] else [])
        sys.interop := by
  unfold svcGetResult
  by_cases atEl1 : desc.data.el = 1
  · have notEl3 : desc.data.el ≠ 3 := by rw [atEl1]; decide
    rw [if_pos atEl1, if_neg notEl3]
    split <;> rfl
  · by_cases atEl3 : desc.data.el = 3
    · rw [if_neg atEl1, if_pos atEl3, if_pos atEl3]
      exact interop_el3GetReg_eq (sys.setInterop desc)
    · rw [if_neg atEl1, if_neg atEl3, if_neg atEl3]
      rfl

theorem interop_svcSetResult (desc : Desc arch) (sys : Sys arch Paging) :
    (svcSetResult .secure desc sys).interop =
      storeAll (if desc.data.el = 3 then [⟨.svc .setReg desc, sys.regs⟩] else [])
        sys.interop := by
  unfold svcSetResult
  by_cases atEl1 : desc.data.el = 1
  · have notEl3 : desc.data.el ≠ 3 := by rw [atEl1]; decide
    rw [if_pos atEl1, if_neg notEl3]
    split <;> rfl
  · by_cases atEl3 : desc.data.el = 3
    · rw [if_neg atEl1, if_pos atEl3, if_pos atEl3]
      exact interop_el3SetReg (sys.setInterop desc)
    · rw [if_neg atEl1, if_neg atEl3, if_neg atEl3]
      rfl

theorem interop_handler_el1 (world : World) (handler : Handler arch)
    (sys : Sys arch Paging) :
    (handler.run env (.el1 world) sys).interop =
      storeAll (handler.issued env world sys) sys.interop := by
  induction handler generalizing sys with
  | done => rfl
  | getReg key el next induction =>
      rw [Handler.run, Handler.issued, induction]
      exact congrArg (storeAll _) (interop_el3GetReg_eq _)
  | setReg key el data next induction =>
      rw [Handler.run, Handler.issued, induction]
      exact congrArg (storeAll _) (interop_el3SetReg _)

/-- EL3 runs the test while the dispatch waits in the buffer. -/
theorem local_dispatch_keeps (world : World) {desc : Desc arch}
    {sys : Sys arch Paging} (forwarded : ¬El1Owns desc world)
    (keeps : El3Keeps desc sys) :
    let after := el3RunTest env desc.disp.fid desc.disp.el.low
      desc.disp.state.low desc.disp.arg.low (sys.setInterop desc)
    Local (el3Answer env) (svc env world SvcOp.dispatch.code desc sys)
        (0, desc) after ∧
      after.interop = desc := by
  intro after
  have entered : El3Keeps (sys.setInterop desc).interop
      (sys.setInterop desc) := keeps
  have answer : el3Answer env ⟨.svcOpDispatch, .dispatch⟩
      (sys.setInterop desc) = .stay 0 after :=
    el3Answer_dispatch_keeps env .svcOpDispatch entered
  have left : after.interop = desc := interop_el3RunTest env _ _ _ _ _
  generalize after = after at answer left
  rw [svc_dispatch_forward env world desc sys forwarded]
  refine ⟨.call answer ?_, left⟩
  rw [left]
  exact .done _ _

/-- A call that comes back: secure EL1 and EL3 do what `serve` says, and the
buffer changes only by the requests that went through it. -/
theorem local_call {op : BufferOp} {desc answer : Desc arch}
    {issued : List (Issued arch)} {sys after : Sys arch Paging}
    (served : op.serve env desc sys = .back answer issued after) :
    (∃ ret, Local (el3Answer env) (svc env .secure op.svcOp.code desc sys)
        (ret, answer) after) ∧
      after.interop = storeAll issued sys.interop := by
  cases op with
  | getReg =>
      simp only [BufferOp.serve, CallEnd.back.injEq] at served
      obtain ⟨rfl, rfl, rfl⟩ := served
      exact ⟨⟨0, local_svc_getReg env .secure desc sys⟩,
        interop_svcGetResult env desc sys⟩
  | setReg =>
      simp only [BufferOp.serve, CallEnd.back.injEq] at served
      obtain ⟨rfl, rfl, rfl⟩ := served
      exact ⟨⟨0, local_svc_setReg env .secure desc sys⟩,
        interop_svcSetResult desc sys⟩
  | dispatch =>
      by_cases owned : El1Owns desc .secure
      · simp only [BufferOp.serve, if_pos owned, CallEnd.back.injEq] at served
        obtain ⟨rfl, rfl, rfl⟩ := served
        refine ⟨⟨0, local_svc_dispatch env .secure desc sys owned⟩, ?_⟩
        unfold runEntry
        cases env.testFunc (.el1 .secure) desc.disp.fid with
        | none => rfl
        | some test => exact interop_handler_el1 env .secure _ _
      · by_cases keeps : El3Keeps desc sys
        · simp only [BufferOp.serve, if_neg owned, if_pos keeps,
            CallEnd.back.injEq] at served
          obtain ⟨rfl, rfl, rfl⟩ := served
          obtain ⟨run, left⟩ := local_dispatch_keeps env .secure owned keeps
          exact ⟨⟨0, run⟩, left⟩
        · simp only [BufferOp.serve, if_neg owned, if_neg keeps] at served
          cases served

/-- A call that EL3 does not keep: the caller's world takes over while secure
EL1 is still in its SMC. -/
theorem steps_crosses {op : BufferOp} {desc : Desc arch}
    {issued : List (Issued arch)} {sys after : Sys arch Paging} {α : Type}
    (served : op.serve env desc sys = .crosses issued after)
    (next : U32 × Desc arch → Code arch Paging (U32 × Desc arch))
    (client : Suspended (Sys arch Paging) Smc U32 α) :
    (∃ rest, Reaches env
        (.server ((svc env .secure op.svcOp.code desc >>= next) sys) client)
        (.client (client.resume SvcOp.dispatch.code after.cross) rest)) ∧
      after.interop = storeAll issued sys.interop := by
  cases op with
  | getReg => simp [BufferOp.serve] at served
  | setReg => simp [BufferOp.serve] at served
  | dispatch =>
      by_cases owned : El1Owns desc .secure
      · simp [BufferOp.serve, if_pos owned] at served
      by_cases keeps : El3Keeps desc sys
      · simp [BufferOp.serve, if_neg owned, if_pos keeps] at served
      simp only [BufferOp.serve, if_neg owned, if_neg keeps,
        CallEnd.crosses.injEq] at served
      obtain ⟨rfl, rfl⟩ := served
      have passes : ¬El3Keeps (sys.setInterop desc).interop
          (sys.setInterop desc) := keeps
      have answer := el3Answer_dispatch_passes env .svcOpDispatch passes
      refine ⟨⟨⟨⟨.svcOpDispatch, .dispatch⟩, fun _ sys =>
        next (0, sys.interop) sys⟩, ?_⟩, rfl⟩
      rw [BufferOp.svcOp, Coroutine.Program.bind_apply,
        svc_dispatch_forward env .secure desc sys owned]
      exact Steps.serverSwitch answer

/-- A service ends in a switch to the caller's world, and the buffer then holds
what its requests have stored. -/
theorem Serving.reaches (serving : Serving arch) (sys : Sys arch Paging)
    {α : Type} (client : Suspended (Sys arch Paging) Smc U32 α) :
    (∃ reply rest, Reaches env (.server (serving.code env sys) client)
        (.client (client.resume reply (serving.run env sys).2.cross) rest)) ∧
      (serving.run env sys).2.interop =
        storeAll (serving.run env sys).1 sys.interop := by
  induction serving generalizing sys with
  | yield desc =>
      exact ⟨⟨_, _, reaches_of_yield env sys client⟩, rfl⟩
  | call op desc next induction =>
      cases served : op.serve env desc sys with
      | back answer issued after =>
          obtain ⟨⟨ret, run⟩, changed⟩ := local_call env served
          obtain ⟨⟨reply, rest, steps⟩, left⟩ := induction answer after
          simp only [Serving.run, served]
          refine ⟨⟨reply, rest, Steps.trans (run.server _ client) steps⟩, ?_⟩
          rw [left, changed, storeAll_append]
      | crosses issued after =>
          obtain ⟨⟨rest, steps⟩, left⟩ := steps_crosses env served
            (fun reply => (next reply.2).code env) client
          simp only [Serving.run, served]
          exact ⟨⟨_, rest, steps⟩, left⟩

end Code

/-- A suspended secure world that, when a dispatch resumes it, goes on to serve
it.  Up to its first call it changes nothing but the histories. -/
structure Server (env : Env arch Paging) (secure : SecureWorld arch Paging) where
  serving : Sys arch Paging → Serving arch
  ready : Sys arch Paging → Sys arch Paging
  interop : ∀ sys, (ready sys).interop = sys.interop
  reaches : ∀ sys (α : Type) (client : Suspended (Sys arch Paging) Smc U32 α),
    Reaches env (.server (secure.resume SvcOp.dispatch.code sys) client)
      (.server ((serving sys).code env (ready sys)) client)

section CopiedBack

variable {env : Env arch Paging} {secure : SecureWorld arch Paging}

/-- The requests that the secure world makes through the buffer while it serves
the dispatch. -/
def Server.issued (server : Server env secure) (desc : Desc arch)
    (sys : Sys arch Paging) : List (Issued arch) :=
  let sent := (sys.setInterop desc).cross
  ((server.serving sent).run env (server.ready sent)).1

/-- The descriptor that the dispatch leaves in the buffer. -/
def Server.left (server : Server env secure) (desc : Desc arch)
    (sys : Sys arch Paging) : Desc arch :=
  if El3Keeps desc sys then desc else storeAll (server.issued desc sys) desc

/-- A forwarded dispatch comes back with what is left in the buffer. -/
theorem returns_forwarded (server : Server env secure) (desc : Desc arch)
    (sys : Sys arch Paging) (forwarded : ¬El1Owns desc .nonsecure) :
    ∃ after rest,
      Returns env (svc env .nonsecure SvcOp.dispatch.code desc) sys secure
        (0, server.left desc sys) after rest := by
  by_cases keeps : El3Keeps desc sys
  · obtain ⟨run, left⟩ := local_dispatch_keeps env .nonsecure forwarded keeps
    rw [Server.left, if_pos keeps]
    exact ⟨_, secure, Returns.of_local secure run⟩
  · have passes : ¬El3Keeps (sys.setInterop desc).interop
        (sys.setInterop desc) := keeps
    have answer := el3Answer_dispatch_passes env .svcOpDispatch passes
    let sent := (sys.setInterop desc).cross
    let final := ((server.serving sent).run env (server.ready sent)).2
    obtain ⟨⟨reply, rest, served⟩, left⟩ :=
      (server.serving sent).reaches env (server.ready sent)
        ⟨⟨.svcOpDispatch, .dispatch⟩, fun _ sys =>
          .done ((0 : U32), sys.interop) sys⟩
    have held : (server.ready sent).interop = desc :=
      (server.interop sent).trans (Sys.cross_interop _)
    have copied : final.cross.interop = server.left desc sys := by
      rw [Sys.cross_interop, Server.left, if_neg keeps]
      exact left.trans (congrArg (storeAll (server.issued desc sys)) held)
    refine ⟨final.cross, rest, ?_⟩
    unfold Returns
    rw [svc_dispatch_forward env .nonsecure desc sys forwarded, ← copied]
    exact (Steps.clientSwitch answer).trans
      ((server.reaches sent _ _).trans served)

/-- The descriptor that nonsecure EL1 copies back from a dispatch that it
forwards has the caller's fields exactly when EL3 keeps the dispatch, or each
field is stored to by no request of the secure world or by the last one with the
caller's value. -/
theorem dispatch_copiedBack_iff (server : Server env secure)
    (desc : Desc arch) (sys : Sys arch Paging)
    (forwarded : ¬El1Owns desc .nonsecure) :
    ∃ back after rest,
      Returns env (svc env .nonsecure SvcOp.dispatch.code desc) sys secure
        (0, back) after rest ∧
      (SameCall back desc ↔
        El3Keeps desc sys ∨ StoresCall (server.issued desc sys) desc) := by
  obtain ⟨after, rest, returned⟩ := returns_forwarded server desc sys forwarded
  refine ⟨_, after, rest, returned, ?_⟩
  by_cases keeps : El3Keeps desc sys
  · have same : SameCall desc desc := ⟨rfl, rfl, rfl, rfl⟩
    simp [Server.left, keeps, same]
  · rw [Server.left, if_neg keeps, sameCall_storeAll_iff]
    simp [keeps]

end CopiedBack

section Servers

variable (env : Env arch Paging)

/-- The requests of a test function of secure EL0, and the yield after it. -/
def Handler.serving (env : Env arch Paging) (desc : Desc arch) :
    Handler arch → Serving arch
  | .done => .yield desc
  | .getReg key el next =>
      .call .getReg (env.stack.setDataKey key el) fun answer =>
        (next answer.data.data).serving env desc
  | .setReg key el data next =>
      .call .setReg ((env.stack.setDataKey key el).setDataData data) fun _ =>
        next.serving env desc

theorem Handler.code_serving (desc : Desc arch) (handler : Handler arch) :
    (handler.serving env desc).code env =
      (handler.el0 env .secure >>= fun _ =>
        el0SecCall env SvcOp.yield.code desc) := by
  induction handler with
  | done => rfl
  | getReg key el next induction =>
      rw [Handler.serving, Serving.code, Handler.el0, svcGetReg,
        Coroutine.Program.bind_assoc, Coroutine.Program.bind_assoc]
      simp only [induction]
      rfl
  | setReg key el data next induction =>
      rw [Handler.serving, Serving.code, Handler.el0, svcSetReg,
        Coroutine.Program.bind_assoc, Coroutine.Program.bind_assoc]
      simp only [induction]
      rfl

/-- What secure EL0 does with a dispatch, from what the yield delivered. -/
def dispatchServing (env : Env arch Paging) (desc : Desc arch) : Serving arch :=
  if desc.disp.el.low = 0 ∧ desc.disp.state.low = World.secure.state then
    match env.testFunc (.el0 .secure) desc.disp.fid with
    | some test => (test desc.disp.arg.low).serving env desc
    | none => .yield desc
  else
    .call .dispatch
      (dispatchDesc env desc.disp.fid desc.disp.el.low desc.disp.state.low
        desc.disp.arg.low)
      fun _ => .yield desc

/-- The histories of secure EL0 when it comes to its first call. -/
def dispatchReady (env : Env arch Paging) (sys : Sys arch Paging) :
    Sys arch Paging :=
  let desc := sys.interop
  let sys := sys.deliver SvcOp.dispatch.code desc
  if desc.disp.el.low = 0 ∧ desc.disp.state.low = World.secure.state then
    match env.testFunc (.el0 .secure) desc.disp.fid with
    | some _ => sys.record ⟨.el0 .secure, desc.disp.fid, desc.disp.arg.low⟩
    | none => sys
  else
    sys

theorem interop_dispatchReady (sys : Sys arch Paging) :
    (dispatchReady env sys).interop = sys.interop := by
  unfold dispatchReady
  dsimp only
  split
  · split <;> rfl
  · rfl

theorem code_dispatchServing (sys : Sys arch Paging) :
    el0SecLoop env (SvcOp.dispatch.code, sys.interop)
        (sys.deliver SvcOp.dispatch.code sys.interop) =
      (dispatchServing env sys.interop).code env (dispatchReady env sys) := by
  rw [el0SecLoop_apply env _ _ (by decide), dispatchServing, dispatchReady]
  simp only [el0SecSwitch, SvcOp.ofCode?_code, el0RunTest]
  generalize sys.interop = desc
  by_cases atEl0 : desc.disp.el.low = 0 ∧
      desc.disp.state.low = World.secure.state
  · have own : desc.disp.el.low = (Image.el0 .secure).exceptionLevel ∧
        desc.disp.state.low = World.secure.state := atEl0
    simp only [if_pos atEl0, if_pos own]
    cases env.testFunc (.el0 .secure) desc.disp.fid with
    | none => rfl
    | some test =>
        dsimp only
        rw [Handler.code_serving]
        exact Outcome.bind_assoc
          ((test desc.disp.arg.low).el0 env .secure _)
          (fun _ sys => .done (SvcOp.yield.code, desc) sys)
          (fun round sys => el0SecCall env round.1 round.2 sys)
  · have foreign : ¬(desc.disp.el.low = (Image.el0 .secure).exceptionLevel ∧
        desc.disp.state.low = World.secure.state) := atEl0
    simp only [if_neg atEl0, if_neg foreign]
    have round := Outcome.bind_assoc
      (svc env .secure SvcOp.dispatch.code
        (dispatchDesc env desc.disp.fid desc.disp.el.low desc.disp.state.low
          desc.disp.arg.low) (sys.deliver SvcOp.dispatch.code desc))
      (fun _ sys => .done () sys)
      (fun _ sys => .done (SvcOp.yield.code, desc) sys)
    exact (congrArg (fun round => round.bind fun round sys =>
        el0SecCall env round.1 round.2 sys) round).trans
      (Outcome.bind_assoc _ _ _)

/-- Secure EL0 in its yield serves a dispatch by its own loop. -/
def waitingServer : Server env waiting where
  serving := fun sys => dispatchServing env sys.interop
  ready := dispatchReady env
  interop := interop_dispatchReady env
  reaches := fun sys α client => by
    rw [← code_dispatchServing]
    exact Steps.serverDone

/-- Secure EL1 in a dispatch of its own only finishes the old round. -/
def dispatchingServer : Server env dispatching where
  serving := fun _ => .yield env.stack
  ready := id
  interop := fun _ => rfl
  reaches := fun _ _ _ => Steps.refl _

end Servers

section Example

/-- `CPTR_TCPAC`, an `int` with its sign bit set, as the macro's operand. -/
def cptrTcpac : BitVec 64 := 0xFFFFFFFF80000000

/-- The register requests of `el0_check_cpacr_trap`. -/
def el0CheckCpacrTrap (_ : U32) : Handler .aarch64 :=
  .getReg (2 : BitVec 64) 3 fun (cptrEl3 : BitVec 64) =>
    .setReg (2 : BitVec 64) 3 (cptrEl3 ||| cptrTcpac) <|
      .getReg (3 : BitVec 64) 1 fun cpacr =>
        .setReg (3 : BitVec 64) 1 cpacr <|
          .setReg (2 : BitVec 64) 3 cptrEl3 .done

/-- The secure EL0 image with this one test, `TZTEST_CPACR_TRAP`. -/
def cpacrTrapEnv : Env .aarch64 Unit :=
  { bareEnv .aarch64 with
    testFunc := fun image fid =>
      if image = .el0 .secure ∧ fid = 3 then some el0CheckCpacrTrap else none }

/-- The entry of the test table that dispatches it. -/
def cpacrTrapDesc : Desc .aarch64 :=
  dispatchDesc cpacrTrapEnv 3 0 0 0

theorem not_el1Owns_cpacrTrapDesc : ¬El1Owns cpacrTrapDesc .nonsecure := by
  decide

theorem dispatch_copiedBack_iff_cpacrTrap :
    ∃ back after rest,
      Returns cpacrTrapEnv
        (svc cpacrTrapEnv .nonsecure SvcOp.dispatch.code cpacrTrapDesc)
        (bareSys .aarch64) waiting (0, back) after rest ∧
      (SameCall back cpacrTrapDesc ↔
        El3Keeps cpacrTrapDesc (bareSys .aarch64) ∨
          StoresCall ((waitingServer cpacrTrapEnv).issued cpacrTrapDesc
            (bareSys .aarch64)) cpacrTrapDesc) :=
  dispatch_copiedBack_iff (waitingServer cpacrTrapEnv) cpacrTrapDesc
    (bareSys .aarch64) not_el1Owns_cpacrTrapDesc

/-- The caller's `TZTEST_CPACR_TRAP` comes back as the key of `CPTR_EL3`. -/
theorem cpacrTrap_copiedBack_mixed :
    ∃ back after rest,
      Returns cpacrTrapEnv
        (svc cpacrTrapEnv .nonsecure SvcOp.dispatch.code cpacrTrapDesc)
        (bareSys .aarch64) waiting (0, back) after rest ∧
      back.disp.fid = 2 ∧ ¬SameCall back cpacrTrapDesc := by
  obtain ⟨after, rest, returned⟩ := returns_forwarded
    (waitingServer cpacrTrapEnv) cpacrTrapDesc (bareSys .aarch64)
    not_el1Owns_cpacrTrapDesc
  have fid : ((waitingServer cpacrTrapEnv).left cpacrTrapDesc
      (bareSys .aarch64)).disp.fid = 2 := by
    rfl
  refine ⟨_, after, rest, returned, fid, ?_⟩
  intro same
  have caller : cpacrTrapDesc.disp.fid = 3 := rfl
  rw [SameCall, fid, caller] at same
  exact absurd same.1 (by decide)

end Example

end TzTest
