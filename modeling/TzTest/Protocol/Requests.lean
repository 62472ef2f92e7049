import TzTest.Protocol.Rounds

/-!
# Requests of nonsecure EL0

A supervisor call of nonsecure EL0 either stays in nonsecure EL1 and EL3 or is
forwarded to the secure world.  For each operation the result is computed from
the state in which secure EL0 is waiting.
-/

namespace TzTest

open Coroutine (Local Outcome Steps Suspended)

variable {arch : Arch} {Paging : Type}

/-- A supervisor call of nonsecure EL0. -/
structure Request (arch : Arch) where
  op : SvcOp
  desc : Desc arch

def Request.svc (env : Env arch Paging) (request : Request arch) :
    Code arch Paging (U32 × Desc arch) :=
  TzTest.svc env .nonsecure request.op.code request.desc

/-- The image that a dispatch of nonsecure EL0 comes to, if any does. -/
def dispatchImage? (desc : Desc arch) : Option Image :=
  if El1Owns desc .nonsecure then some (.el1 .nonsecure)
  else if El3Owns desc .nonsecure then some .el3
  else secureImage? desc.disp.el.low desc.disp.state.low

/-- A request to map at EL3 and at secure EL1. -/
def MapsSecure (desc : Desc arch) : Prop :=
  desc.map.type &&& opMapEl3 = opMapEl3 ∧
    desc.map.type &&& opMapSecEl1 = opMapSecEl1

instance (desc : Desc arch) : Decidable (MapsSecure desc) :=
  inferInstanceAs (Decidable (_ ∧ _))

namespace Request

/-- EL3 hands the request to the secure world. -/
def Crosses (request : Request arch) : Prop :=
  match request.op with
  | .yield => True
  | .test => True
  | .map => MapsSecure request.desc
  | .dispatch =>
      ¬El1Owns request.desc .nonsecure ∧ ¬El3Owns request.desc .nonsecure
  | _ => False

instance (request : Request arch) : Decidable request.Crosses := by
  unfold Crosses
  cases request.op <;> infer_instance

/-- The opcodes that the request should bring to secure EL0. -/
def opcodes (request : Request arch) : List U32 :=
  if request.Crosses then [request.op.code] else []

/-- The test functions that the request should run. -/
def calls (env : Env arch Paging) (request : Request arch) : List Executed :=
  match request.op with
  | .dispatch =>
      match dispatchImage? request.desc with
      | some image =>
          entryCalls env image request.desc.disp.fid request.desc.disp.arg.low
      | none => []
  | _ => []

end Request

namespace Sys

/-- The later state's histories are the earlier ones with these test calls and
these delivered opcodes added, and the machine was not shut down meanwhile. -/
structure Grows (before after : Sys arch Paging) (calls : List Executed)
    (ops : List U32) : Prop where
  executed : after.executed = before.executed ++ calls
  delivered :
    after.delivered.map Prod.fst = before.delivered.map Prod.fst ++ ops
  shutdown : after.shutdown = before.shutdown

theorem Grows.of_eq {before after : Sys arch Paging}
    (executed : after.executed = before.executed)
    (delivered : after.delivered = before.delivered)
    (shutdown : after.shutdown = before.shutdown) :
    before.Grows after [] [] := by
  constructor <;> simp [*]

theorem Grows.trans {before middle after : Sys arch Paging}
    {calls calls' : List Executed} {ops ops' : List U32}
    (first : before.Grows middle calls ops)
    (last : middle.Grows after calls' ops') :
    before.Grows after (calls ++ calls') (ops ++ ops') where
  executed := by rw [last.executed, first.executed, List.append_assoc]
  delivered := by rw [last.delivered, first.delivered, List.append_assoc]
  shutdown := last.shutdown.trans first.shutdown

theorem Quiet.grows {before after : Sys arch Paging}
    (quiet : before.Quiet after) : before.Grows after [] [] :=
  .of_eq quiet.executed quiet.delivered quiet.shutdown

theorem grows_cross (sys : Sys arch Paging) : sys.Grows sys.cross [] [] :=
  .of_eq sys.cross_executed sys.cross_delivered sys.cross_shutdown

theorem grows_deliver (sys : Sys arch Paging) (op : U32) (desc : Desc arch) :
    sys.Grows (sys.deliver op desc) [] [op] := by
  constructor <;> simp [deliver]

theorem grows_runEntry (env : Env arch Paging) (image : Image) (fid arg : U32)
    (sys : Sys arch Paging) :
    sys.Grows (runEntry env image fid arg sys) (entryCalls env image fid arg)
      [] := by
  have quiet := quiet_runEntry env image fid arg sys
  constructor
  · exact quiet.executed
  · simp [quiet.delivered]
  · exact quiet.shutdown

theorem grows_secureEntry (env : Env arch Paging) (image : Image)
    (fid el state arg : U32) (sys : Sys arch Paging) :
    sys.Grows (secureEntry env image fid el state arg sys)
      (entryCalls env image fid arg) [] := by
  unfold secureEntry
  split
  · exact (sys.quiet_setInterop _).grows.trans (grows_runEntry ..)
  · exact grows_runEntry ..

end Sys

theorem secureImage?_state {el state : U32} {image : Image}
    (owner : secureImage? el state = some image) :
    state = World.secure.state := by
  unfold secureImage? at owner
  split at owner
  · assumption
  · cases owner

/-- The test function that a dispatch comes to keeps `SCR.NS` in the world that
the dispatch names. -/
def Env.DispatchKeepsNs (env : Env arch Paging) (desc : Desc arch) : Prop :=
  ∀ image ∈ dispatchImage? desc, ∀ world : World,
    desc.disp.state.low = world.state →
    env.KeepsNs image desc.disp.fid desc.disp.arg.low world

theorem Sys.InStep.secureEntry {env : Env arch Paging} {sys : Sys arch Paging}
    {image : Image} {fid el state arg : U32}
    (keeps : env.KeepsNs image fid arg .secure) (inStep : sys.InStep .secure) :
    (TzTest.secureEntry env image fid el state arg sys).InStep .secure := by
  unfold TzTest.secureEntry
  split
  · exact inStep_runEntry _ _ _ _ _ keeps (inStep.congr rfl rfl)
  · exact inStep_runEntry _ _ _ _ _ keeps inStep

/-- The physical address that nonsecure EL1 sends with a map request. -/
def mapPa (env : Env arch Paging) (desc : Desc arch) (sys : Sys arch Paging) :
    Word arch :=
  if desc.map.pa ≠ 0 then
    env.mmu.memLookupPa (.el1 .nonsecure) desc.map.va sys.paging
  else
    desc.map.pa

/-- EL3 and then secure EL1 have mapped the page of a map request. -/
structure MapCalls (env : Env arch Paging) (desc : Desc arch)
    (sys : Sys arch Paging) (middle last : Paging) : Prop where
  atEl3 : env.mmu.memMapPa .el3 desc.map.va (mapPa env desc sys) 0
    (ptePrivRw arch) sys.paging = some middle
  atEl1 : env.mmu.memMapPa (.el1 .secure) desc.map.va (mapPa env desc sys) 0
    (pteUserRw arch) middle = some last

/-- What nonsecure EL0 finds when its request has been served once: the test
that it names was called, its opcode was delivered, its page was mapped. -/
structure Handled (env : Env arch Paging) (request : Request arch)
    (before after : Sys arch Paging) : Prop where
  inStep : after.InStep .nonsecure
  grows : before.Grows after (request.calls env) request.opcodes
  mapped : request.op = .map → MapsSecure request.desc →
    ∃ middle, MapCalls env request.desc before middle after.paging

section Forwarded

variable {env : Env arch Paging} {sys : Sys arch Paging}

theorem Sys.InStep.delivered {op : U32} {desc : Desc arch} {world : World}
    (inStep : sys.InStep world) : (sys.deliver op desc).InStep world :=
  inStep.congr rfl rfl

theorem Sys.InStep.setInterop {desc : Desc arch} {world : World}
    (inStep : sys.InStep world) : (sys.setInterop desc).InStep world :=
  inStep.congr rfl rfl

theorem svc_yield (desc : Desc arch) :
    svc env .nonsecure SvcOp.yield.code desc sys =
      .call ⟨.svcOpYield, .yield⟩ sys fun ret sys =>
        .done (ret, sys.interop) sys := by
  simp only [svc, el1HandleSvc, SvcOp.ofCode?_code]
  rfl

theorem returns_yield (desc : Desc arch) :
    Returns env (svc env .nonsecure SvcOp.yield.code desc) sys waiting
      (SvcOp.yield.code, sys.interop)
      (sys.cross.deliver SvcOp.yield.code sys.interop).cross waiting := by
  have serves := serves_yield env sys.cross.interop
    (sys.cross.deliver SvcOp.yield.code sys.cross.interop)
  have run := @exchange _ _ _ env _ sys _ _
    (fun ret sys => .done (ret, sys.interop) sys) _ _ _
    (el3Answer_yield env .svcOpYield sys) serves
  unfold Returns
  rw [svc_yield]
  simpa [Sys.deliver] using run

theorem svc_test (desc : Desc arch) :
    svc env .nonsecure SvcOp.test.code desc sys =
      .call ⟨.el1InteropTest, .test⟩
        (sys.setInterop (desc.setTest desc.test.hop)) fun _ sys =>
          .done (0, sys.interop.setTest sys.interop.test.hop)
            (sys.setInterop (sys.interop.setTest sys.interop.test.hop)) := by
  simp only [svc, el1HandleSvc, SvcOp.ofCode?_code]
  rfl

/-- The state that EL3 sends to the secure world for a test. -/
def testSent (desc : Desc arch) (sys : Sys arch Paging) : Sys arch Paging :=
  let desc := desc.setTest desc.test.hop
  el3GetReg (sys.setInterop (desc.setTest desc.test.hop))

/-- The state after an interop test, before the last hop. -/
def testServed (desc : Desc arch) (sys : Sys arch Paging) : Sys arch Paging :=
  let sent := testSent desc sys
  (sent.cross.deliver SvcOp.test.code sent.interop).cross

theorem interop_testServed (desc : Desc arch) (sys : Sys arch Paging) :
    (testServed desc sys).interop = (testSent desc sys).interop := by
  simp [testServed, Sys.deliver]

theorem returns_test (desc : Desc arch) :
    Returns env (svc env .nonsecure SvcOp.test.code desc) sys waiting
      (0, (testSent desc sys).interop.setTest (testSent desc sys).interop.test.hop)
      ((testServed desc sys).setInterop
        ((testSent desc sys).interop.setTest
          (testSent desc sys).interop.test.hop)) waiting := by
  have answer := el3Answer_test env .el1InteropTest
    (sys.setInterop (desc.setTest desc.test.hop))
  have serves := serves_test env (testSent desc sys).cross.interop
    ((testSent desc sys).cross.deliver SvcOp.test.code
      (testSent desc sys).cross.interop)
  unfold Returns
  rw [svc_test, ← interop_testServed, testServed]
  rw [Sys.cross_interop] at serves
  exact exchange answer (by rwa [Sys.cross_interop])

theorem inStep_testSent {desc : Desc arch} {world : World}
    (inStep : sys.InStep world) : (testSent desc sys).InStep world := by
  have quiet := (sys.quiet_setInterop ((desc.setTest desc.test.hop).setTest
    (desc.setTest desc.test.hop).test.hop)).trans (Sys.quiet_el3GetReg _)
  refine inStep.congr quiet.secureState ?_
  simp [testSent]

theorem handled_test (desc : Desc arch) (inStep : sys.InStep .nonsecure) :
    Handled env ⟨.test, desc⟩ sys
      ((testServed desc sys).setInterop
        ((testSent desc sys).interop.setTest
          (testSent desc sys).interop.test.hop)) where
  inStep := by
    have served : (testServed desc sys).InStep .nonsecure :=
      (inStep_testSent inStep).cross.delivered.cross
    exact served.congr rfl rfl
  grows := by
    have sent : sys.Grows (testSent desc sys) [] [] :=
      ((sys.quiet_setInterop _).trans (Sys.quiet_el3GetReg _)).grows
    have served := (sent.trans (Sys.grows_cross _)).trans
      ((Sys.grows_deliver _ SvcOp.test.code (testSent desc sys).interop).trans
        (Sys.grows_cross _))
    exact served.trans (Sys.quiet_setInterop _ _).grows
  mapped := nofun

theorem handled_yield (desc : Desc arch) (inStep : sys.InStep .nonsecure) :
    Handled env ⟨.yield, desc⟩ sys
      (sys.cross.deliver SvcOp.yield.code sys.interop).cross where
  inStep := inStep.cross.delivered.cross
  grows := (sys.grows_cross.trans (Sys.grows_deliver _ _ _)).trans
    (Sys.grows_cross _)
  mapped := nofun

theorem Returns.of_local {α : Type} {program : Code arch Paging α} {value : α}
    {after : Sys arch Paging} (secure : SecureWorld arch Paging)
    (run : Local (el3Answer env) (program sys) value after) :
    Returns env program sys secure value after secure := by
  have steps : Reaches env
      (.client ((program sys).bind fun value sys => .done value sys) secure) _ :=
    run.client (fun value sys => .done value sys) secure
  rwa [Outcome.bind_done] at steps

/-- Sequencing rule for nonsecure programs. -/
theorem Returns.bind {α β : Type} {program : Code arch Paging α}
    {next : α → Code arch Paging β} {value : α} {result : β}
    {middle after : Sys arch Paging} {secure rest last : SecureWorld arch Paging}
    (first : Returns env program sys secure value middle rest)
    (later : Returns env (next value) middle rest result after last) :
    Returns env (program >>= next) sys secure result after last :=
  Steps.bind first later

section Dispatch

variable (desc : Desc arch)

theorem local_svc_dispatch_el3 {world : World} (inStep : sys.InStep world)
    (foreign : ¬El1Owns desc world) (owned : El3Owns desc world) :
    ∃ reply,
      Local (el3Answer env) (svc env world SvcOp.dispatch.code desc sys) reply
        (runEntry env .el3 desc.disp.fid desc.disp.arg.low
          (sys.setInterop desc)) := by
  have entered : (sys.setInterop desc).InStep world := inStep.setInterop
  have answer := el3Answer_dispatch_run env .svcOpDispatch _ entered owned
  rw [el3RunTest_owned env _ _ _ entered] at answer
  rw [svc_dispatch_forward env world desc sys foreign]
  exact ⟨_, .call answer (.done _ _)⟩

/-- The state in which a dispatch that a secure image owns comes back. -/
def dispatchServed (env : Env arch Paging) (image : Image) (desc : Desc arch)
    (sys : Sys arch Paging) : Sys arch Paging :=
  (secureEntry env image desc.disp.fid desc.disp.el.low desc.disp.state.low
    desc.disp.arg.low
    ((sys.setInterop desc).cross.deliver SvcOp.dispatch.code desc)).cross

theorem returns_dispatch_secure {image : Image}
    (inStep : sys.InStep .nonsecure)
    (notEl1 : ¬El1Owns desc .nonsecure) (notEl3 : ¬El3Owns desc .nonsecure)
    (owner : secureImage? desc.disp.el.low desc.disp.state.low = some image) :
    Returns env (svc env .nonsecure SvcOp.dispatch.code desc) sys waiting
      (0, (dispatchServed env image desc sys).interop)
      (dispatchServed env image desc sys) waiting := by
  have sent : (sys.setInterop desc).InStep .nonsecure := inStep.setInterop
  have answer := el3Answer_dispatch_forward env .svcOpDispatch
    (sys.setInterop desc) sent notEl3
  have delivered : ((sys.setInterop desc).cross.deliver SvcOp.dispatch.code
      desc).InStep .secure := sent.cross.delivered
  have serves := serves_dispatch env desc _ owner delivered
  unfold Returns
  rw [svc_dispatch_forward env .nonsecure desc sys notEl1]
  exact exchange answer (by rwa [Sys.cross_interop])

/-- The state in which a dispatch without an owner comes back. -/
def dispatchReturned (env : Env arch Paging) (desc : Desc arch)
    (sys : Sys arch Paging) : Sys arch Paging :=
  (((sys.setInterop desc).cross.deliver SvcOp.dispatch.code desc).setInterop
    (dispatchDesc env desc.disp.fid desc.disp.el.low desc.disp.state.low
      desc.disp.arg.low)).cross

theorem returns_dispatch_unowned (inStep : sys.InStep .nonsecure)
    (notEl1 : ¬El1Owns desc .nonsecure) (notEl3 : ¬El3Owns desc .nonsecure)
    (unowned : secureImage? desc.disp.el.low desc.disp.state.low = none) :
    Returns env (svc env .nonsecure SvcOp.dispatch.code desc) sys waiting
      (0, (dispatchReturned env desc sys).interop)
      (dispatchReturned env desc sys) dispatching := by
  have sent : (sys.setInterop desc).InStep .nonsecure := inStep.setInterop
  have answer := el3Answer_dispatch_forward env .svcOpDispatch
    (sys.setInterop desc) sent notEl3
  have delivered : ((sys.setInterop desc).cross.deliver SvcOp.dispatch.code
      desc).InStep .secure := sent.cross.delivered
  have serves := serves_dispatch_unowned env desc _ unowned delivered
  unfold Returns
  rw [svc_dispatch_forward env .nonsecure desc sys notEl1]
  exact exchange answer (by rwa [Sys.cross_interop])

theorem grows_dispatchDelivered :
    sys.Grows ((sys.setInterop desc).cross.deliver SvcOp.dispatch.code desc) []
      [SvcOp.dispatch.code] :=
  ((sys.quiet_setInterop desc).grows.trans (Sys.grows_cross _)).trans
    (Sys.grows_deliver _ _ _)

theorem grows_dispatchServed (image : Image) :
    sys.Grows (dispatchServed env image desc sys)
      (entryCalls env image desc.disp.fid desc.disp.arg.low)
      [SvcOp.dispatch.code] := by
  have grown := (@grows_dispatchDelivered _ _ sys desc).trans
    ((Sys.grows_secureEntry env image desc.disp.fid desc.disp.el.low
      desc.disp.state.low desc.disp.arg.low _).trans (Sys.grows_cross _))
  simpa [dispatchServed] using grown

theorem grows_dispatchReturned :
    sys.Grows (dispatchReturned env desc sys) [] [SvcOp.dispatch.code] :=
  (grows_dispatchDelivered desc).trans
    ((Sys.quiet_setInterop _ _).grows.trans (Sys.grows_cross _))

theorem inStep_dispatchServed {image : Image}
    (inStep : sys.InStep .nonsecure)
    (keeps : env.KeepsNs image desc.disp.fid desc.disp.arg.low .secure) :
    (dispatchServed env image desc sys).InStep .nonsecure := by
  have crossed : (sys.setInterop desc).cross.InStep .secure :=
    inStep.setInterop.cross
  exact (crossed.delivered.secureEntry keeps).cross

theorem inStep_dispatchReturned (inStep : sys.InStep .nonsecure) :
    (dispatchReturned env desc sys).InStep .nonsecure := by
  have crossed : (sys.setInterop desc).cross.InStep .secure :=
    inStep.setInterop.cross
  exact crossed.delivered.setInterop.cross

/-- A dispatch comes back in every case, but only one that an image runs leaves
secure EL0 waiting. -/
theorem handled_dispatch (inStep : sys.InStep .nonsecure)
    (keeps : env.DispatchKeepsNs desc) :
    ∃ value after,
      Returns env (svc env .nonsecure SvcOp.dispatch.code desc) sys waiting
        value after
        (if dispatchImage? desc = none then dispatching else waiting) ∧
      Handled env ⟨.dispatch, desc⟩ sys after := by
  by_cases atEl1 : El1Owns desc .nonsecure
  · have owner : dispatchImage? desc = some (.el1 .nonsecure) := by
      rw [dispatchImage?, if_pos atEl1]
    have run := local_svc_dispatch env .nonsecure desc sys atEl1
    rw [if_neg (by simp [owner])]
    refine ⟨_, _, Returns.of_local waiting run, ?_, ?_, nofun⟩
    · refine inStep_runEntry _ _ _ _ _ (keeps _ owner _ ?_) inStep
      rw [atEl1.2, Word.low_word]
    · simpa [Request.calls, Request.opcodes, Request.Crosses, owner, atEl1]
        using Sys.grows_runEntry env _ _ _ sys
  by_cases atEl3 : El3Owns desc .nonsecure
  · have owner : dispatchImage? desc = some .el3 := by
      rw [dispatchImage?, if_neg atEl1, if_pos atEl3]
    obtain ⟨reply, run⟩ :=
      @local_svc_dispatch_el3 _ _ env sys desc _ inStep atEl1 atEl3
    rw [if_neg (by simp [owner])]
    refine ⟨_, _, Returns.of_local waiting run, ?_, ?_, nofun⟩
    · refine inStep_runEntry _ _ _ _ _ (keeps _ owner _ ?_) inStep.setInterop
      rw [atEl3.2, Word.low_word]
    · simpa [Request.calls, Request.opcodes, Request.Crosses, owner, atEl3]
        using (sys.quiet_setInterop desc).grows.trans
          (Sys.grows_runEntry env _ _ _ _)
  have owner : dispatchImage? desc =
      secureImage? desc.disp.el.low desc.disp.state.low := by
    rw [dispatchImage?, if_neg atEl1, if_neg atEl3]
  cases found : secureImage? desc.disp.el.low desc.disp.state.low with
  | none =>
      rw [if_pos (owner.trans found)]
      refine ⟨_, _, returns_dispatch_unowned desc inStep atEl1 atEl3 found,
        inStep_dispatchReturned desc inStep, ?_, nofun⟩
      simpa [Request.calls, Request.opcodes, Request.Crosses, owner, found,
        atEl1, atEl3] using grows_dispatchReturned desc
  | some image =>
      rw [if_neg (by simp [owner, found])]
      refine ⟨_, _, returns_dispatch_secure desc inStep atEl1 atEl3 found,
        inStep_dispatchServed desc inStep
          (keeps _ (owner.trans found) _ (secureImage?_state found)), ?_, nofun⟩
      simpa [Request.calls, Request.opcodes, Request.Crosses, owner, found,
        atEl1, atEl3] using grows_dispatchServed desc image

end Dispatch

end Forwarded

end TzTest
