import TzTest.Protocol.Memory

/-!
# Sessions of nonsecure EL0

Any sequence of supervisor calls.  As long as every dispatch comes to an image,
the secure world rests in its yield between two requests; a dispatch that comes
to none leaves it in its own dispatch, and swallows the next forwarded request.
-/

namespace TzTest

open Coroutine (Local Outcome Steps Suspended)

variable {arch : Arch} {Paging : Type}

/-- A register request that traps in nonsecure EL1.  On ARM there is no
`CPTR_EL3`, and its key does nothing. -/
def Traps (desc : Desc arch) : Prop :=
  desc.data.el = 1 ∧
    (RegKey.ofCode? desc.data.key = some .scr ∨
      arch = .aarch64 ∧ RegKey.ofCode? desc.data.key = some .cptrEl3)

/-- A request to write a secure configuration register without `SCR.NS`. -/
def ClearsNs (desc : Desc arch) : Prop :=
  desc.data.el = 3 ∧ RegKey.ofCode? desc.data.key = some .scr ∧
    desc.data.data.nsBit = false

namespace Request

/-- The calls that nonsecure EL0 may make: no exit, no register request that
traps, and nothing that turns `SCR.NS` off. -/
def Legal (env : Env arch Paging) (request : Request arch) : Prop :=
  match request.op with
  | .exit => False
  | .getReg => ¬Traps request.desc
  | .setReg => ¬Traps request.desc ∧ ¬ClearsNs request.desc
  | .dispatch => env.DispatchKeepsNs request.desc
  | _ => True

/-- A dispatch that comes to no image. -/
def Lost (request : Request arch) : Prop :=
  request.op = .dispatch ∧ dispatchImage? request.desc = none

instance (request : Request arch) : Decidable request.Lost :=
  inferInstanceAs (Decidable (_ ∧ _))

/-- Where the secure world is after the request found it waiting. -/
def leaves (request : Request arch) : SecureWorld arch Paging :=
  if request.Lost then dispatching else waiting

end Request

section One

variable {env : Env arch Paging} {sys : Sys arch Paging}

theorem inStep_el3SetReg (inStep : sys.InStep .nonsecure)
    (keeps : ¬ClearsNs sys.interop) : (el3SetReg sys).InStep .nonsecure := by
  unfold el3SetReg
  dsimp only
  split
  · rename_i atEl3
    cases named : RegKey.ofCode? sys.interop.data.key with
    | none => exact inStep
    | some key =>
        refine inStep.congr rfl ?_
        dsimp only
        rw [scr_el3WriteReg]
        split
        · rename_i scr
          subst scr
          cases bit : sys.interop.data.data.nsBit with
          | true => exact inStep.ns.symm
          | false => exact absurd ⟨atEl3, named, bit⟩ keeps
        · rfl
  · exact inStep

theorem inStep_svcSetResult {desc : Desc arch} (inStep : sys.InStep .nonsecure)
    (keeps : ¬ClearsNs desc) :
    (svcSetResult .nonsecure desc sys).InStep .nonsecure := by
  unfold svcSetResult
  split
  · cases RegKey.ofCode? desc.data.key with
    | none => exact inStep
    | some key =>
        refine inStep.congr rfl ?_
        have kept : (el1WriteReg .nonsecure sys.regs key desc.data.data).scr =
            sys.regs.scr := by
          cases arch <;> cases key <;> rfl
        exact congrArg Word.nsBit kept
  · split
    · exact inStep_el3SetReg inStep.setInterop keeps
    · exact inStep

theorem handled_quiet {request : Request arch} {after : Sys arch Paging}
    (noCalls : request.calls env = []) (stays : ¬request.Crosses)
    (notMap : request.op ≠ .map) (quiet : sys.Quiet after)
    (inStep : after.InStep .nonsecure) : Handled env request sys after := by
  refine ⟨inStep, ?_, fun isMap => absurd isMap notMap⟩
  rw [noCalls, Request.opcodes, if_neg stays]
  exact quiet.grows

theorem hangs_of_stuck {request : Request arch} {secure : SecureWorld arch Paging}
    {stopped : Sys arch Paging}
    (stuck : request.svc env sys = .stuck stopped) :
    Hangs env (request.svc env) sys secure := by
  refine ⟨.client (.stuck stopped) secure, ?_, rfl, by simp⟩
  rw [stuck]
  exact Steps.refl _

theorem handled_paging {request : Request arch} {paging : Paging}
    (noCalls : request.calls env = []) (stays : ¬request.Crosses)
    (inStep : sys.InStep .nonsecure) :
    Handled env request sys { sys with paging := paging } := by
  refine ⟨inStep.congr rfl rfl, ?_, ?_⟩
  · rw [noCalls, Request.opcodes, if_neg stays]
    exact .of_eq rfl rfl rfl
  · intro isMap maps
    exact absurd (by simpa [Request.Crosses, isMap] using maps) stays

theorem hangs_map_secure {desc : Desc arch} {middle : Paging}
    (maps : MapsSecure desc)
    (atEl3 : env.mmu.memMapPa .el3 desc.map.va (mapPa env desc sys) 0
      (ptePrivRw arch) sys.paging = some middle)
    (atEl1 : env.mmu.memMapPa (.el1 .secure) desc.map.va (mapPa env desc sys) 0
      (pteUserRw arch) middle = none) :
    Hangs env (svc env .nonsecure SvcOp.map.code desc) sys waiting := by
  have answer := el3Answer_map_requested desc maps atEl3
  have masked : ¬(mapSent env desc sys middle).interop.map.type &&& opMapEl3 =
      opMapEl3 := by
    rw [map_mapSent]
    exact masked_opMapEl3 _
  have unmapped : env.mmu.memMapPa (.el1 .secure)
      (mapSent env desc sys middle).interop.map.va
      (mapSent env desc sys middle).interop.map.pa 0 (pteUserRw arch)
      (mapDelivered env desc sys middle).paging = none := by
    rw [map_mapSent, paging_mapDelivered]
    exact atEl1
  have round : el0SecLoop env
      (SvcOp.map.code, (mapSent env desc sys middle).interop)
      (mapDelivered env desc sys middle) =
        .stuck (mapDelivered env desc sys middle) := by
    rw [el0SecLoop_apply env _ _ (by decide)]
    simp only [el0SecSwitch, SvcOp.ofCode?_code, Coroutine.Program.pure_apply,
      Outcome.done_bind, el0SecCall, Coroutine.Program.bind_apply]
    rw [svc_map_local env _ _ _ masked, unmapped]
    rfl
  refine ⟨.server (.stuck (mapDelivered env desc sys middle))
    ⟨⟨.el1MapSecure, .map⟩, fun _ sys => .done (0, desc) sys⟩, ?_, rfl, by simp⟩
  rw [svc_map_forward env desc sys maps.1, ← round, mapDelivered]
  have crossed := Sys.cross_interop (mapSent env desc sys middle)
  have entered : Reaches env
      (.client (.call ⟨.el1MapSecure, .map⟩ (mapRequested env desc sys)
        fun _ sys => .done ((0 : U32), desc) sys) waiting)
      (.server (el0SecLoop env (SvcOp.map.code,
          (mapSent env desc sys middle).cross.interop)
        ((mapSent env desc sys middle).cross.deliver SvcOp.map.code
          (mapSent env desc sys middle).cross.interop)) _) :=
    (Steps.clientSwitch answer).trans Steps.serverDone
  rwa [crossed] at entered

/-- The memory calls of the request, made in this state, come back. -/
def Request.MemoryReturns (env : Env arch Paging) (request : Request arch)
    (sys : Sys arch Paging) : Prop :=
  let map := request.desc.map
  match request.op with
  | .alloc =>
      (env.mmu.memHeapAllocate (.el1 .nonsecure) request.desc.alloc.len
        sys.paging).isSome
  | .map =>
      if map.type &&& opMapEl3 = opMapEl3 then
        ∃ middle,
          env.mmu.memMapPa .el3 map.va (mapPa env request.desc sys) 0
            (ptePrivRw arch) sys.paging = some middle ∧
          (map.type &&& opMapSecEl1 = opMapSecEl1 →
            (env.mmu.memMapPa (.el1 .secure) map.va (mapPa env request.desc sys)
              0 (pteUserRw arch) middle).isSome)
      else
        (env.mmu.memMapPa (.el1 .nonsecure) map.va map.pa 0 (pteUserRw arch)
          sys.paging).isSome
  | _ => True

/-- A request is served, or is stuck in one of its memory calls. -/
inductive Request.Outcome (env : Env arch Paging) (request : Request arch)
    (sys : Sys arch Paging) : Prop where
  | served {value : U32 × Desc arch} {after : Sys arch Paging} :
      Returns env (request.svc env) sys waiting value after request.leaves →
      Handled env request sys after →
      Outcome env request sys
  | hangs : Hangs env (request.svc env) sys waiting →
      ¬request.MemoryReturns env sys → Outcome env request sys

section MapReturns

variable {desc : Desc arch}

theorem memoryReturns_map_local
    (notEl3 : ¬desc.map.type &&& opMapEl3 = opMapEl3)
    (returns : (⟨.map, desc⟩ : Request arch).MemoryReturns env sys) :
    (env.mmu.memMapPa (.el1 .nonsecure) desc.map.va desc.map.pa 0
      (pteUserRw arch) sys.paging).isSome := by
  simpa [Request.MemoryReturns, notEl3] using returns

theorem memoryReturns_map_el3
    (toEl3 : desc.map.type &&& opMapEl3 = opMapEl3)
    (returns : (⟨.map, desc⟩ : Request arch).MemoryReturns env sys) :
    ∃ middle,
      env.mmu.memMapPa .el3 desc.map.va (mapPa env desc sys) 0 (ptePrivRw arch)
        sys.paging = some middle ∧
      (desc.map.type &&& opMapSecEl1 = opMapSecEl1 →
        (env.mmu.memMapPa (.el1 .secure) desc.map.va (mapPa env desc sys) 0
          (pteUserRw arch) middle).isSome) := by
  simpa [Request.MemoryReturns, toEl3] using returns

end MapReturns

theorem outcome_map (desc : Desc arch) (inStep : sys.InStep .nonsecure) :
    Request.Outcome env ⟨.map, desc⟩ sys := by
  by_cases toEl3 : desc.map.type &&& opMapEl3 = opMapEl3
  · cases atEl3 : env.mmu.memMapPa .el3 desc.map.va (mapPa env desc sys) 0
      (ptePrivRw arch) sys.paging with
    | none =>
        have request := map_mapRequested env desc sys
        have paging := (quiet_mapRequested env desc sys).paging
        have answer := el3Answer_map_stuck env .el1MapSecure
          (mapRequested env desc sys) (by simpa [request] using toEl3)
          (by simpa [request, paging] using atEl3)
        refine .hangs ⟨.client (.stuck (mapRequested env desc sys)) waiting,
          ?_, rfl, by simp⟩ ?_
        · unfold Request.svc
          rw [svc_map_forward env desc sys toEl3]
          exact Steps.head (by simp only [Coroutine.step, answer]) (Steps.refl _)
        · intro returns
          obtain ⟨middle, mapped, _⟩ := memoryReturns_map_el3 toEl3 returns
          rw [atEl3] at mapped
          cases mapped
    | some middle =>
        by_cases toEl1 : desc.map.type &&& opMapSecEl1 = opMapSecEl1
        · cases atEl1 : env.mmu.memMapPa (.el1 .secure) desc.map.va
            (mapPa env desc sys) 0 (pteUserRw arch) middle with
          | none =>
              refine .hangs (hangs_map_secure ⟨toEl3, toEl1⟩ atEl3 atEl1) ?_
              intro returns
              obtain ⟨found, mapped, atBoth⟩ :=
                memoryReturns_map_el3 toEl3 returns
              rw [atEl3] at mapped
              cases mapped
              have reached := atBoth toEl1
              rw [atEl1] at reached
              cases reached
          | some last =>
              exact .served
                (returns_map_secure desc ⟨toEl3, toEl1⟩ ⟨atEl3, atEl1⟩)
                (handled_map_secure desc ⟨toEl3, toEl1⟩ ⟨atEl3, atEl1⟩ inStep)
        · have request := map_mapRequested env desc sys
          have quiet := quiet_mapRequested env desc sys
          have answer := @el3Answer_map_stay _ _ env .el1MapSecure
            (mapRequested env desc sys) middle (by simpa [request] using toEl3)
            (by simpa [request] using toEl1)
            (by simpa [request, quiet.paging] using atEl3)
          have run : Local (el3Answer env)
              ((⟨.map, desc⟩ : Request arch).svc env sys) (0, desc)
              { mapRequested env desc sys with paging := middle } := by
            unfold Request.svc
            rw [svc_map_forward env desc sys toEl3]
            exact .call answer (.done _ _)
          refine .served (Returns.of_local waiting run)
            ⟨inStep.congr quiet.secureState ?_, ?_, ?_⟩
          · exact congrArg (fun regs => regs.scr.nsBit)
              (regs_mapRequested env desc sys)
          · have stays : ¬(⟨.map, desc⟩ : Request arch).Crosses :=
              fun maps => toEl1 maps.2
            rw [Request.opcodes, if_neg stays]
            exact .of_eq quiet.executed quiet.delivered quiet.shutdown
          · exact fun _ maps => absurd maps.2 toEl1
  · have stays : ¬(⟨.map, desc⟩ : Request arch).Crosses :=
      fun maps => toEl3 maps.1
    cases mapped : env.mmu.memMapPa (.el1 .nonsecure) desc.map.va desc.map.pa 0
      (pteUserRw arch) sys.paging with
    | none =>
        have stuck := svc_map_local env desc sys .nonsecure toEl3
        rw [mapped] at stuck
        refine .hangs (hangs_of_stuck stuck) fun returns => ?_
        have found := memoryReturns_map_local toEl3 returns
        rw [mapped] at found
        cases found
    | some paging =>
        have done := svc_map_local env desc sys .nonsecure toEl3
        rw [mapped] at done
        have run : Local (el3Answer env)
            ((⟨.map, desc⟩ : Request arch).svc env sys) (0, desc)
            { sys with paging := paging } := by
          unfold Request.svc
          rw [done]
          exact .done _ _
        exact .served (Returns.of_local waiting run)
          (handled_paging rfl stays inStep)

/-- Whatever nonsecure EL0 requests while secure EL0 waits. -/
theorem Request.outcome (request : Request arch) (legal : request.Legal env)
    (inStep : sys.InStep .nonsecure) : request.Outcome env sys := by
  obtain ⟨op, desc⟩ := request
  cases op with
  | yield =>
      exact .served (returns_yield desc) (handled_yield desc inStep)
  | exit => exact legal.elim
  | map => exact outcome_map desc inStep
  | getReg =>
      refine .served (Returns.of_local waiting
        (local_svc_getReg env .nonsecure desc sys))
        (handled_quiet rfl id nofun (quiet_svcGetResult env .nonsecure desc sys)
          (inStep.congr (quiet_svcGetResult env .nonsecure desc sys).secureState ?_))
      rw [regs_svcGetResult]
  | setReg =>
      exact .served (Returns.of_local waiting
        (local_svc_setReg env .nonsecure desc sys))
        (handled_quiet rfl id nofun (quiet_svcSetResult .nonsecure desc sys)
          (inStep_svcSetResult inStep legal.2))
  | test => exact .served (returns_test desc) (handled_test desc inStep)
  | dispatch =>
      obtain ⟨value, after, returned, handled⟩ :=
        handled_dispatch desc inStep legal
      have rest : ((⟨.dispatch, desc⟩ : Request arch).leaves :
          SecureWorld arch Paging) =
          if dispatchImage? desc = none then dispatching else waiting := by
        simp [Request.leaves, Request.Lost]
      rw [← rest] at returned
      exact .served returned handled
  | getSyscntl =>
      have run : Local (el3Answer env)
          ((⟨.getSyscntl, desc⟩ : Request arch).svc env sys)
          (0, desc.setDataData (env.syscntl .nonsecure)) sys := by
        exact .done _ _
      exact .served (Returns.of_local waiting run)
        (handled_quiet rfl id nofun (Sys.Quiet.refl sys) inStep)
  | alloc =>
      cases allocated : env.mmu.memHeapAllocate (.el1 .nonsecure)
        desc.alloc.len sys.paging with
      | none =>
          have stuck := svc_alloc env desc sys .nonsecure
          rw [allocated] at stuck
          refine .hangs (hangs_of_stuck stuck) fun returns => ?_
          have found : (env.mmu.memHeapAllocate (.el1 .nonsecure)
            desc.alloc.len sys.paging).isSome := returns
          rw [allocated] at found
          cases found
      | some result =>
          have done := svc_alloc env desc sys .nonsecure
          rw [allocated] at done
          have run : Local (el3Answer env)
              ((⟨.alloc, desc⟩ : Request arch).svc env sys)
              (0, desc.setAllocAddr result.1)
              { sys with paging := result.2 } := by
            unfold Request.svc
            rw [done]
            exact .done _ _
          exact .served (Returns.of_local waiting run)
            (handled_paging rfl id inStep)

end One

theorem Returns.unique {env : Env arch Paging} {α : Type}
    {program : Code arch Paging α} {sys left right : Sys arch Paging}
    {secure leftRest rightRest : SecureWorld arch Paging} {value value' : α}
    (first : Returns env program sys secure value left leftRest)
    (second : Returns env program sys secure value' right rightRest) :
    left = right ∧ leftRest = rightRest := by
  have same := Steps.final_unique first rfl second rfl
  simp only [Coroutine.Config.client.injEq, Outcome.done.injEq] at same
  exact ⟨same.1.2, same.2⟩

/-- Nonsecure EL0 makes the requests one after the other, each of which comes
back. -/
inductive Session (env : Env arch Paging) :
    List (Request arch) → Sys arch Paging → SecureWorld arch Paging →
      Sys arch Paging → SecureWorld arch Paging → Prop where
  | nil (sys : Sys arch Paging) (secure : SecureWorld arch Paging) :
      Session env [] sys secure sys secure
  | cons {request : Request arch} {requests : List (Request arch)}
      {value : U32 × Desc arch} {before middle after : Sys arch Paging}
      {start between last : SecureWorld arch Paging} :
      Returns env (request.svc env) before start value middle between →
      Session env requests middle between after last →
      Session env (request :: requests) before start after last

/-- What nonsecure EL0 may rely on whenever it has control again: secure EL1 is
in the SMC of its yield, EL3's variable says nonsecure, and every forwarded
request, and nothing else, was delivered to secure EL0, so that its loop did
not come to the exit. -/
structure AtRest (made : List (Request arch)) (start now : Sys arch Paging)
    (secure : SecureWorld arch Paging) : Prop where
  secure : secure = waiting
  secureState : now.secureState = World.nonsecure.state
  opcodes : now.delivered.map Prod.fst =
    start.delivered.map Prod.fst ++ made.flatMap Request.opcodes
  shutdown : now.shutdown = start.shutdown

section Session

variable {env : Env arch Paging}

theorem Request.Outcome.of_returns {request : Request arch}
    {before middle : Sys arch Paging} {between : SecureWorld arch Paging}
    {value : U32 × Desc arch} (outcome : request.Outcome env before)
    (returned : Returns env (request.svc env) before waiting value middle
      between) :
    between = request.leaves ∧ Handled env request before middle := by
  cases outcome with
  | served expected handled =>
      obtain ⟨same, rest⟩ := expected.unique returned
      subst same
      exact ⟨rest.symm, handled⟩
  | hangs hangs _ => exact (hangs.not_returns returned).elim

theorem Session.atRest {requests : List (Request arch)}
    {start final : Sys arch Paging} {last : SecureWorld arch Paging}
    (session : Session env requests start waiting final last)
    (legal : ∀ request ∈ requests, request.Legal env)
    (found : ∀ request ∈ requests, ¬request.Lost)
    (inStep : start.InStep .nonsecure) :
    AtRest requests start final last ∧ final.InStep .nonsecure := by
  induction requests generalizing start with
  | nil =>
      cases session
      exact ⟨⟨rfl, inStep.secureState, by simp, rfl⟩, inStep⟩
  | cons request requests induction =>
      cases session with
      | cons returned later =>
          obtain ⟨rest, handled⟩ := (request.outcome
            (legal request (by simp)) inStep).of_returns returned
          rw [Request.leaves, if_neg (found request (by simp))] at rest
          subst rest
          obtain ⟨atRest, finalStep⟩ := induction later
            (fun other member => legal other (by simp [member]))
            (fun other member => found other (by simp [member]))
            handled.inStep
          refine ⟨⟨atRest.secure, atRest.secureState, ?_, ?_⟩, finalStep⟩
          · rw [atRest.opcodes, handled.grows.delivered]
            simp
          · exact atRest.shutdown.trans handled.grows.shutdown

/-- In a session of legal requests nonsecure EL0 finds both worlds at rest
whenever it has control again, if and only if every dispatch of the session
comes to an image. -/
theorem session_atRest_iff {requests : List (Request arch)}
    {start final : Sys arch Paging} {last : SecureWorld arch Paging}
    (legal : ∀ request ∈ requests, request.Legal env)
    (inStep : start.InStep .nonsecure)
    (session : Session env requests start waiting final last) :
    (∀ made, made <+: requests → ∀ now secure,
        Session env made start waiting now secure →
        AtRest made start now secure) ↔
      ∀ request ∈ requests, ¬request.Lost := by
  constructor
  · intro atRest
    induction requests generalizing start with
    | nil => simp
    | cons request requests induction =>
        cases session with
        | cons returned later =>
            obtain ⟨rest, handled⟩ := (request.outcome
              (legal request (by simp)) inStep).of_returns returned
            have first := atRest [request] (by simp) _ _
              (.cons returned (.nil _ _))
            have found : ¬request.Lost := by
              intro lost
              rw [first.secure, Request.leaves, if_pos lost] at rest
              exact dispatching_ne_waiting rest.symm
            rw [first.secure] at returned later
            intro other member
            rcases List.mem_cons.mp member with here | there
            · exact here ▸ found
            · refine induction (fun other member => legal other (by simp [member]))
                handled.inStep later ?_ other there
              intro made prefixed now secure reached
              have whole := atRest (request :: made)
                (List.cons_prefix_cons.mpr ⟨rfl, prefixed⟩) now secure
                (.cons returned reached)
              refine ⟨whole.secure, whole.secureState, ?_, ?_⟩
              · rw [whole.opcodes, handled.grows.delivered]
                simp
              · exact whole.shutdown.trans handled.grows.shutdown.symm
  · intro found made prefixed now secure reached
    have members := prefixed.subset
    exact (reached.atRest (fun request member => legal request (members member))
      (fun request member => found request (members member)) inStep).1

/-- A session without a dispatch rests at each of its points. -/
theorem session_atRest_iff_yield :
    let requests : List (Request .aarch64) :=
      [⟨.yield, (bareEnv .aarch64).stack⟩]
    ((∀ made, made <+: requests → ∀ now secure,
        Session (bareEnv .aarch64) made (bareSys .aarch64) waiting now secure →
        AtRest made (bareSys .aarch64) now secure) ↔
      ∀ request ∈ requests, ¬request.Lost) :=
  session_atRest_iff (by simp [Request.Legal]) (inStep_bareSys .aarch64)
    (.cons (returns_yield _) (.nil _ _))

/-- A dispatch to nonsecure EL0 itself. -/
def dispatchNonsecureEl0 : Desc .aarch64 :=
  dispatchDesc (bareEnv .aarch64) 1 0 1 0

theorem dispatchImage?_nonsecureEl0 :
    dispatchImage? dispatchNonsecureEl0 = none := by
  simp only [dispatchNonsecureEl0, dispatchImage?, el1Owns_dispatchDesc,
    el3Owns_dispatchDesc, disp_dispatchDesc, Word.low_word]
  decide

/-- A legal dispatch to EL0 after which the secure world is not at rest. -/
theorem session_not_atRest :
    (⟨.dispatch, dispatchNonsecureEl0⟩ : Request .aarch64).Legal
        (bareEnv .aarch64) ∧
      ∃ now secure,
        Session (bareEnv .aarch64) [⟨.dispatch, dispatchNonsecureEl0⟩]
          (bareSys .aarch64) waiting now secure ∧
        ¬AtRest [⟨.dispatch, dispatchNonsecureEl0⟩] (bareSys .aarch64) now
          secure := by
  have legal : (bareEnv .aarch64).DispatchKeepsNs dispatchNonsecureEl0 := by
    intro image found
    rw [dispatchImage?_nonsecureEl0] at found
    cases found
  obtain ⟨value, after, returned, handled⟩ :=
    handled_dispatch dispatchNonsecureEl0 (inStep_bareSys .aarch64) legal
  rw [if_pos dispatchImage?_nonsecureEl0] at returned
  exact ⟨legal, after, dispatching, .cons returned (.nil _ _),
    fun atRest => dispatching_ne_waiting atRest.secure⟩

end Session

end TzTest
