import TzTest.Protocol.Requests

/-!
# Memory requests

`SVC_OP_ALLOC` and `SVC_OP_MAP` from nonsecure EL0.  They come back when the
page-table code that they run comes back, and are stuck in it otherwise.
-/

namespace TzTest

open Coroutine (Local Outcome Steps Suspended)

variable {arch : Arch} {Paging : Type}

section Map

variable (env : Env arch Paging) (desc : Desc arch) (sys : Sys arch Paging)

/-- The state in which nonsecure EL1 makes the SMC of a map request. -/
def mapRequested : Sys arch Paging :=
  let copy := sys.interop.copyMapMem desc
  if copy.map.pa ≠ 0 then
    let pa := env.mmu.memLookupPa (.el1 .nonsecure) copy.map.va sys.paging
    sys.setInterop (copy.setMap { copy.map with pa := pa })
  else
    sys.setInterop copy

theorem map_mapRequested :
    (mapRequested env desc sys).interop.map =
      { desc.map with pa := mapPa env desc sys } := by
  by_cases nonzero : desc.map.pa ≠ 0
  · have requested : mapRequested env desc sys = sys.setInterop _ :=
      if_pos nonzero
    rw [requested, mapPa, if_pos nonzero]
    exact Desc.map_setMap _ _
  · have requested : mapRequested env desc sys = sys.setInterop _ :=
      if_neg nonzero
    rw [requested, mapPa, if_neg nonzero]
    rfl

theorem quiet_mapRequested : sys.Quiet (mapRequested env desc sys) := by
  unfold mapRequested
  dsimp only
  split <;> exact sys.quiet_setInterop _

theorem regs_mapRequested : (mapRequested env desc sys).regs = sys.regs := by
  unfold mapRequested
  dsimp only
  split <;> rfl

theorem svc_map_forward
    (toEl3 : desc.map.type &&& opMapEl3 = opMapEl3) :
    svc env .nonsecure SvcOp.map.code desc sys =
      .call ⟨.el1MapSecure, .map⟩ (mapRequested env desc sys) fun _ sys =>
        .done (0, desc) sys := by
  simp only [svc, el1HandleSvc, SvcOp.ofCode?_code, el1MapSecure, if_pos toEl3]
  rfl

theorem svc_map_local (world : World)
    (notEl3 : ¬desc.map.type &&& opMapEl3 = opMapEl3) :
    svc env world SvcOp.map.code desc sys =
      match env.mmu.memMapPa (.el1 world) desc.map.va desc.map.pa 0
          (pteUserRw arch) sys.paging with
      | some paging => .done (0, desc) { sys with paging := paging }
      | none => .stuck sys := by
  simp only [svc, el1HandleSvc, SvcOp.ofCode?_code, el1MapSecure, if_neg notEl3,
    Coroutine.Program.bind_apply, Coroutine.Program.attempt]
  cases env.mmu.memMapPa (.el1 world) desc.map.va desc.map.pa 0
    (pteUserRw arch) sys.paging with
  | none => rfl
  | some paging => rfl

theorem svc_alloc (world : World) :
    svc env world SvcOp.alloc.code desc sys =
      match env.mmu.memHeapAllocate (.el1 world) desc.alloc.len sys.paging with
      | some (addr, paging) =>
          .done (0, desc.setAllocAddr addr) { sys with paging := paging }
      | none => .stuck sys := by
  simp only [svc, el1HandleSvc, SvcOp.ofCode?_code, el1AllocMem,
    Coroutine.Program.bind_apply, Coroutine.Program.attempt]
  cases env.mmu.memHeapAllocate (.el1 world) desc.alloc.len sys.paging with
  | none => rfl
  | some result => rfl

end Map

section El3

variable (env : Env arch Paging) (site : SmcSite) (sys : Sys arch Paging)

/-- What EL3 sends on: the request without the EL3 bit. -/
def mapMasked (sys : Sys arch Paging) (paging : Paging) : Sys arch Paging :=
  { sys with
    paging := paging
    interop := sys.interop.setMap
      { sys.interop.map with type := sys.interop.map.type &&& ~~~opMapEl3 } }

theorem el3MapMem_of_el3 (toEl3 : sys.interop.map.type &&& opMapEl3 = opMapEl3) :
    el3MapMem env sys =
      (env.mmu.memMapPa .el3 sys.interop.map.va sys.interop.map.pa 0
        (ptePrivRw arch) sys.paging).map fun paging =>
          if sys.interop.map.type &&& opMapSecEl1 = opMapSecEl1 then
            (SvcOp.map.code, mapMasked sys paging)
          else
            (0, { sys with paging := paging }) := by
  simp only [el3MapMem, if_pos toEl3]
  cases env.mmu.memMapPa .el3 sys.interop.map.va sys.interop.map.pa 0
    (ptePrivRw arch) sys.paging with
  | none => rfl
  | some paging =>
      simp only [Option.bind_eq_bind, Option.bind_some, Option.map_some]
      split <;> rfl

variable {paging : Paging}

theorem el3Answer_map_switch (maps : MapsSecure sys.interop)
    (mapped : env.mmu.memMapPa .el3 sys.interop.map.va sys.interop.map.pa 0
      (ptePrivRw arch) sys.paging = some paging) :
    el3Answer env ⟨site, .map⟩ sys =
      .switch SvcOp.map.code (mapMasked sys paging).cross := by
  refine el3Answer_of_switch env site sys (SvcOp.code_ne_zero _) ?_
  simp only [el3Switch, SmcOp.ofCode?_code]
  rw [el3MapMem_of_el3 env sys maps.1, mapped, Option.map_some, if_pos maps.2]

theorem el3Answer_map_stay
    (toEl3 : sys.interop.map.type &&& opMapEl3 = opMapEl3)
    (notEl1 : ¬sys.interop.map.type &&& opMapSecEl1 = opMapSecEl1)
    (mapped : env.mmu.memMapPa .el3 sys.interop.map.va sys.interop.map.pa 0
      (ptePrivRw arch) sys.paging = some paging) :
    el3Answer env ⟨site, .map⟩ sys = .stay 0 { sys with paging := paging } := by
  refine el3Answer_of_stay env site sys ?_
  simp only [el3Switch, SmcOp.ofCode?_code]
  rw [el3MapMem_of_el3 env sys toEl3, mapped, Option.map_some, if_neg notEl1]

theorem el3Answer_map_stuck
    (toEl3 : sys.interop.map.type &&& opMapEl3 = opMapEl3)
    (unmapped : env.mmu.memMapPa .el3 sys.interop.map.va sys.interop.map.pa 0
      (ptePrivRw arch) sys.paging = none) :
    el3Answer env ⟨site, .map⟩ sys = .stuck sys := by
  refine el3Answer_of_stuck env site sys ?_
  simp only [el3Switch, SmcOp.ofCode?_code]
  rw [el3MapMem_of_el3 env sys toEl3, unmapped, Option.map_none]

theorem masked_opMapEl3 (type : U32) :
    (type &&& ~~~opMapEl3) &&& opMapEl3 ≠ opMapEl3 := by
  rw [BitVec.and_assoc, show ~~~opMapEl3 &&& opMapEl3 = 0 from rfl]
  simp [opMapEl3]

theorem map_mapMasked :
    (mapMasked sys paging).interop.map =
      { sys.interop.map with type := sys.interop.map.type &&& ~~~opMapEl3 } :=
  Desc.map_setMap _ _

end El3

section Request

variable {env : Env arch Paging} (desc : Desc arch) {sys : Sys arch Paging}

/-- The program runs into a computation that does not return. -/
def Hangs (env : Env arch Paging) {α : Type} (program : Code arch Paging α)
    (sys : Sys arch Paging) (secure : SecureWorld arch Paging) : Prop :=
  ∃ (stop : Machine arch Paging α),
    Reaches env (.client (program sys) secure) stop ∧
      Coroutine.step (el3Answer env) (el0SecLoop env) stop = none ∧
      ∀ value final rest, stop ≠ .client (.done value final) rest

theorem Hangs.not_returns {α : Type} {program : Code arch Paging α}
    {secure : SecureWorld arch Paging} (hangs : Hangs env program sys secure)
    {value : α} {final : Sys arch Paging} {rest : SecureWorld arch Paging} :
    ¬Returns env program sys secure value final rest := by
  intro returned
  obtain ⟨stop, reached, final, unfinished⟩ := hangs
  exact unfinished _ _ _ (Steps.final_unique reached final returned rfl)

/-- The state that EL3 sends to the secure world for a map request. -/
def mapSent (env : Env arch Paging) (desc : Desc arch) (sys : Sys arch Paging)
    (middle : Paging) : Sys arch Paging :=
  mapMasked (mapRequested env desc sys) middle

/-- The state in which secure EL0 takes the map request over. -/
def mapDelivered (env : Env arch Paging) (desc : Desc arch)
    (sys : Sys arch Paging) (middle : Paging) : Sys arch Paging :=
  (mapSent env desc sys middle).cross.deliver SvcOp.map.code
    (mapSent env desc sys middle).interop

/-- The state in which a map request comes back. -/
def mapServed (env : Env arch Paging) (desc : Desc arch) (sys : Sys arch Paging)
    (middle last : Paging) : Sys arch Paging :=
  { mapDelivered env desc sys middle with paging := last }.cross

variable {middle last : Paging}

@[simp] theorem paging_mapServed :
    (mapServed env desc sys middle last).paging = last := by
  simp [mapServed]

theorem el3Answer_map_requested (maps : MapsSecure desc)
    (mapped : env.mmu.memMapPa .el3 desc.map.va (mapPa env desc sys) 0
      (ptePrivRw arch) sys.paging = some middle) :
    el3Answer env ⟨.el1MapSecure, .map⟩ (mapRequested env desc sys) =
      .switch SvcOp.map.code (mapSent env desc sys middle).cross := by
  have request := map_mapRequested env desc sys
  have paging := (quiet_mapRequested env desc sys).paging
  refine el3Answer_map_switch env _ _ ?_ ?_
  · simpa [MapsSecure, request] using maps
  · simpa [request, paging] using mapped

theorem map_mapSent :
    (mapSent env desc sys middle).interop.map =
      { desc.map with
        type := desc.map.type &&& ~~~opMapEl3
        pa := mapPa env desc sys } := by
  rw [mapSent, map_mapMasked, map_mapRequested]

theorem paging_mapDelivered :
    (mapDelivered env desc sys middle).paging = middle := by
  simp [mapDelivered, Sys.deliver, mapSent, mapMasked]

theorem returns_map_secure (maps : MapsSecure desc)
    (calls : MapCalls env desc sys middle last) :
    Returns env (svc env .nonsecure SvcOp.map.code desc) sys waiting (0, desc)
      (mapServed env desc sys middle last) waiting := by
  have answer := el3Answer_map_requested desc maps calls.atEl3
  have serves : Serves env SvcOp.map.code (mapSent env desc sys middle).interop
      (mapDelivered env desc sys middle) SvcOp.yield.code
      { mapDelivered env desc sys middle with paging := last } waiting := by
    refine serves_map env _ _ ?_ ?_
    · rw [map_mapSent]
      exact masked_opMapEl3 _
    · rw [map_mapSent, paging_mapDelivered]
      exact calls.atEl1
  unfold Returns
  rw [svc_map_forward env desc sys maps.1]
  exact exchange answer (by rwa [Sys.cross_interop])

theorem handled_map_secure (maps : MapsSecure desc)
    (calls : MapCalls env desc sys middle last)
    (inStep : sys.InStep .nonsecure) :
    Handled env ⟨.map, desc⟩ sys (mapServed env desc sys middle last) where
  inStep := by
    have requested : (mapRequested env desc sys).InStep .nonsecure :=
      inStep.congr (quiet_mapRequested env desc sys).secureState
        (by rw [regs_mapRequested])
    have sent : (mapSent env desc sys middle).InStep .nonsecure :=
      requested.congr rfl rfl
    have delivered : (mapDelivered env desc sys middle).InStep .secure :=
      sent.cross.delivered
    have served : ({ mapDelivered env desc sys middle with paging := last } :
        Sys arch Paging).InStep .secure := delivered.congr rfl rfl
    exact served.cross
  grows := by
    have sent : sys.Grows (mapSent env desc sys middle) [] [] :=
      (quiet_mapRequested env desc sys).grows.trans (.of_eq rfl rfl rfl)
    have delivered : sys.Grows (mapDelivered env desc sys middle) []
        [SvcOp.map.code] :=
      (sent.trans (Sys.grows_cross _)).trans (Sys.grows_deliver _ _ _)
    have served : (mapDelivered env desc sys middle).Grows
        { mapDelivered env desc sys middle with paging := last } [] [] :=
      .of_eq rfl rfl rfl
    simpa [Request.calls, Request.opcodes, Request.Crosses, maps, mapServed]
      using (delivered.trans served).trans (Sys.grows_cross _)
  mapped _ _ := ⟨middle, by simpa using calls⟩

end Request

end TzTest
