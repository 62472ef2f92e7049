import TzTest.Monitor.Boot
import TzTest.Monitor.Contexts
import TzTest.Library.Chain

/-!
# World switches on AArch64

Runs of SMCs.  EL3 is at rest between them: its stack pointer is where it was,
and both buffers select EL3's own stack pointer.  A switch brings back the
registers with which the resumed world last entered `monitor_switch`.
-/

namespace TzTest.Aarch64

variable {Paging : Type} {env : Env .aarch64 Paging} {buffers : Buffers}

/-- EL3 has left for a world, and its stack is empty. -/
structure Rests (buffers : Buffers) (sp : BitVec 64) (m : Monitor Paging) :
    Prop where
  sp : m.cpu.regs .spEl3 = sp
  selects : ∀ world, ∀ slot ∈ buffers.slots world,
    slot.1 = .spsel → m.cpu.mem slot.2 = 1

/-- The world whose `SCR.NS` is set. -/
def worldOf (scr : BitVec 64) : World :=
  if @Word.nsBit .aarch64 scr = true then .nonsecure else .secure

theorem ns_worldOf (scr : BitVec 64) :
    @Word.nsBit .aarch64 scr = (worldOf scr).ns := by
  unfold worldOf
  cases @Word.nsBit .aarch64 scr <;> rfl

section Step

variable {sp : BitVec 64} {step : SmcStep Paging}

/-- `monitor_switch`, called by an SMC of a run. -/
theorem SmcStep.Valid.switched (valid : step.Valid env buffers)
    (layout : Layout buffers sp) (rests : Rests buffers sp step.before)
    (switches : step.code ≠ 0) {world : World}
    (ns : @Word.nsBit .aarch64 (step.entered.cpu.regs .scrEl3) = world.ns) :
    Switched buffers world step.entered.cpu (step.after buffers).cpu := by
  have top : step.taken.cpu.regs .spEl3 = sp := valid.runs.sp.trans rests.sp
  have enters := valid.enters (top ▸ layout)
  rw [enters.after_of_ne_zero switches]
  apply monitorSwitch_switched
  · rw [enters.kept .spEl3 (by decide), top]
    exact layout
  · rw [enters.kept .spsel (by decide)]
    exact valid.runs.spsel
  · exact ns
  · intro slot member named
    rw [enters.buffers _ slot member]
    exact rests.selects _ slot member named

theorem SmcStep.Valid.rests (valid : step.Valid env buffers)
    (layout : Layout buffers sp) (rests : Rests buffers sp step.before) :
    Rests buffers sp (step.after buffers) := by
  have top : step.taken.cpu.regs .spEl3 = sp := valid.runs.sp.trans rests.sp
  have enters := valid.enters (top ▸ layout)
  have entered : step.entered.cpu.regs .spEl3 = sp :=
    (enters.kept .spEl3 (by decide)).trans top
  have selected : step.entered.cpu.regs .spsel = 1 :=
    (enters.kept .spsel (by decide)).trans valid.runs.spsel
  have kept (world : World) (slot) (member : slot ∈ buffers.slots world)
      (named : slot.1 = .spsel) : step.entered.cpu.mem slot.2 = 1 := by
    rw [enters.buffers world slot member]
    exact rests.selects world slot member named
  by_cases zero : step.code = 0
  · rw [enters.after_of_zero zero]
    exact ⟨entered, kept⟩
  · have switched := valid.switched layout rests zero (ns_worldOf _)
    constructor
    · rw [switched.others .spEl3 (by decide)]
      exact entered
    · intro world slot member named
      by_cases running : world = worldOf (step.entered.cpu.regs .scrEl3)
      · subst running
        rw [switched.saved slot member, named]
        exact selected
      · have other : world = (worldOf (step.entered.cpu.regs .scrEl3)).other := by
          cases world <;>
            cases side : worldOf (step.entered.cpu.regs .scrEl3) <;>
            simp_all [World.other]
        subst other
        rw [switched.kept slot member]
        exact kept _ slot member named

theorem SmcStep.Valid.onEl3_after (valid : step.Valid env buffers)
    (layout : Layout buffers sp) (rests : Rests buffers sp step.before) :
    (step.after buffers).cpu.regs .spsel = 1 := by
  have top : step.taken.cpu.regs .spEl3 = sp := valid.runs.sp.trans rests.sp
  have enters := valid.enters (top ▸ layout)
  by_cases zero : step.code = 0
  · rw [enters.after_of_zero zero, enters.kept .spsel (by decide)]
    exact valid.runs.spsel
  · have switched := valid.switched layout rests zero (ns_worldOf _)
    obtain ⟨slot, member, named⟩ :=
      List.mem_map.mp (mem_regs_slots.mpr spsel_mem_saveList)
    rw [← named, switched.restored slot member, enters.buffers _ slot member]
    exact rests.selects _ slot member named

/-- The SMC does not turn `SCR.NS` over. -/
def SmcStep.KeepsNs (env : Env .aarch64 Paging) (step : SmcStep Paging) : Prop :=
  TzTest.KeepsNs env (step.taken.cpu.regs (.x 0)) step.taken.view

/-- Up to the `cbz`, `SCR.NS` is that of the running world, and `secure_state`
has been toggled when the other one is to run. -/
theorem SmcStep.Valid.inStep_entered (valid : step.Valid env buffers)
    (keeps : step.KeepsNs env) {world : World}
    (view : step.entered.view = step.returned.view)
    (live : step.before.view.InStep world) :
    step.entered.view.secureState =
        (if step.code = 0 then world.state else world.other.state) ∧
      step.entered.view.regs.scr.nsBit = world.ns := by
  have handles := valid.handles
  have state : step.taken.view.secureState = world.state :=
    valid.runs.secureState.trans live.secureState
  have ns : step.taken.view.regs.scr.nsBit = world.ns :=
    (congrArg (@Word.nsBit .aarch64) valid.runs.scr).trans live.ns
  rw [view]
  refine ⟨?_, (handles.ns keeps).trans ns⟩
  rw [handles.secureState, state, World.state_xor_one]

end Step

/-- `contexts` tells which world runs and what the other one's buffer holds. -/
structure Follows (buffers : Buffers) (sp : BitVec 64)
    (contexts : Contexts Reg (BitVec 64)) (m : Monitor Paging) : Prop where
  rests : Rests buffers sp m
  live : m.view.InStep contexts.live
  parked : ∀ slot ∈ buffers.slots contexts.live.other,
    m.cpu.mem slot.2 = contexts.entered contexts.live.other slot.1

/-- The history after an SMC. -/
def record (contexts : Contexts Reg (BitVec 64)) (step : SmcStep Paging) :
    Contexts Reg (BitVec 64) :=
  contexts.serve step.code step.entered.cpu.regs

section Run

variable {sp : BitVec 64} {contexts : Contexts Reg (BitVec 64)}
  {step : SmcStep Paging}

/-- The registers of the resumed world, and that it is the right one. -/
theorem Follows.resumes (layout : Layout buffers sp)
    (valid : step.Valid env buffers) (keeps : step.KeepsNs env)
    (follows : Follows buffers sp contexts step.before)
    (switches : step.code ≠ 0) :
    Switched buffers contexts.live step.entered.cpu (step.after buffers).cpu ∧
      (∀ reg ∈ saveList.map Prod.fst,
        (step.after buffers).cpu.regs reg =
          contexts.entered contexts.live.other reg) ∧
      (step.after buffers).view.InStep contexts.live.other := by
  have top : step.taken.cpu.regs .spEl3 = sp :=
    valid.runs.sp.trans follows.rests.sp
  have enters := valid.enters (top ▸ layout)
  obtain ⟨state, ns⟩ := valid.inStep_entered keeps enters.view follows.live
  have switched := valid.switched layout follows.rests switches ns
  refine ⟨switched, ?_, ?_, ?_⟩
  · intro reg member
    obtain ⟨slot, inside, named⟩ := List.mem_map.mp (mem_regs_slots.mpr member)
    rw [← named, switched.restored slot inside,
      enters.buffers _ slot inside, follows.parked slot inside]
  · rw [if_neg switches] at state
    exact state
  · have toggled : (step.after buffers).view.regs.scr =
        Sys.switchScr step.entered.view.regs.scr := switched.scr
    rw [toggled, nsBit_switchScr, ns]
    cases contexts.live <;> rfl

theorem Follows.serves (layout : Layout buffers sp)
    (valid : step.Valid env buffers) (keeps : step.KeepsNs env)
    (follows : Follows buffers sp contexts step.before) :
    Follows buffers sp (record contexts step) (step.after buffers) := by
  have top : step.taken.cpu.regs .spEl3 = sp :=
    valid.runs.sp.trans follows.rests.sp
  have enters := valid.enters (top ▸ layout)
  have rests := valid.rests layout follows.rests
  unfold record
  by_cases zero : step.code = 0
  · obtain ⟨state, ns⟩ := valid.inStep_entered keeps enters.view follows.live
    rw [if_pos zero] at state
    rw [Contexts.serve_of_zero zero]
    refine ⟨rests, ?_, ?_⟩
    · rw [enters.after_of_zero zero]
      exact ⟨state, ns⟩
    · intro slot member
      rw [enters.after_of_zero zero, enters.buffers _ slot member]
      exact follows.parked slot member
  · obtain ⟨switched, _, inStep⟩ := follows.resumes layout valid keeps zero
    rw [Contexts.serve_of_ne_zero zero]
    refine ⟨rests, inStep, ?_⟩
    intro slot member
    dsimp only at member ⊢
    rw [World.other_other] at member ⊢
    rw [Function.update_self, switched.saved slot member]

/-- The state in which EL3 leaves for the secure world for the first time. -/
def monitorStart (buffers : Buffers) (syscntlPa : BitVec 64)
    (boot : Monitor Paging) : Monitor Paging :=
  { boot with cpu := el3Start buffers syscntlPa boot.cpu }

def contextsStart (syscntlPa : BitVec 64) : Contexts Reg (BitVec 64) :=
  { live := .secure, entered := initial syscntlPa }

theorem follows_start {boot : Monitor Paging}
    (layout : Layout buffers (boot.cpu.regs .spEl3))
    (onEl3 : boot.cpu.regs .spsel = 1) (secure : boot.view.InStep .secure)
    (syscntlPa : BitVec 64) :
    Follows buffers (boot.cpu.regs .spEl3) (contextsStart syscntlPa)
      (monitorStart buffers syscntlPa boot) := by
  have starts := el3Start_starts layout onEl3 syscntlPa
  unfold monitorStart
  generalize el3Start buffers syscntlPa boot.cpu = started at starts
  have sp := starts.kept .spEl3 (by simp)
  have scr := starts.kept .scrEl3 (by simp)
  refine ⟨⟨sp, ?_⟩, ⟨secure.secureState, ?_⟩, ?_⟩
  · intro world slot member named
    refine (starts.buffers world slot member).trans ?_
    rw [named]
    rfl
  · exact (congrArg (@Word.nsBit .aarch64) scr).trans secure.ns
  · intro slot member
    exact starts.buffers _ slot member

end Run

/-- The running world yields, and does nothing else. -/
def yieldStep (m : Monitor Paging) : SmcStep Paging :=
  let taken : Monitor Paging :=
    { m with cpu := (m.cpu.set (.x 0) 1).set .esrEl3 (ecSmc64 <<< 26) }
  let call := lower64Args (lower64Entry taken.cpu)
  { before := m
    taken := taken
    returned :=
      { cpu := (call.set (.x 0) 1).set .elrEl3 (call.regs (.x 3))
        sys := { m.sys with secureState := m.sys.secureState ^^^ 1 } }
    code := SvcOp.yield.code }

theorem x0_yieldStep (m : Monitor Paging) :
    (yieldStep m).taken.cpu.regs (.x 0) = U32.word .aarch64 SmcOp.yield.code := by
  simp only [yieldStep]
  rw [Cpu.regs_set_of_ne (by decide), Cpu.regs_set_self]
  rfl

theorem x0_lower64Entry {c : Cpu} (onEl3 : c.regs .spsel = 1) :
    (lower64Entry c).regs (.x 0) = c.regs .esrEl3 >>> 26 := by
  simp [lower64Entry, Cpu.strPush, Cpu.stpPush, Cpu.mov, Cpu.set, Cpu.store,
    Cpu.sp, onEl3]

theorem valid_yieldStep {m : Monitor Paging} (onEl3 : m.cpu.regs .spsel = 1) :
    (yieldStep m).Valid env buffers := by
  have selected : (yieldStep m).taken.cpu.regs .spsel = 1 := by
    simpa [yieldStep, Cpu.set] using onEl3
  have kept {reg : Reg} (result : reg ≠ .x 0) (resume : reg ≠ .elrEl3) :
      (yieldStep m).returned.cpu.regs reg = (yieldStep m).call.cpu.regs reg := by
    show ((((yieldStep m).call.cpu.set (.x 0) 1).set .elrEl3 _).regs reg) = _
    rw [Cpu.regs_set_of_ne resume, Cpu.regs_set_of_ne result]
  constructor
  · constructor
    · simp [yieldStep, Cpu.set]
    · simp [yieldStep, Cpu.set]
    · simp [yieldStep, Cpu.set]
    · exact selected
    · intro world slot _
      rfl
    · rfl
    · left
      rw [x0_lower64Entry selected]
      simp only [yieldStep, Cpu.regs_set_self]
      decide
  · constructor
    · have op : (yieldStep m).call.cpu.regs (.x 0) =
          U32.word .aarch64 SmcOp.yield.code :=
        (regs_call selected (by decide)).trans (x0_yieldStep m)
      have seen : (yieldStep m).returned.view =
          { (yieldStep m).call.view with
            secureState := (yieldStep m).call.view.secureState ^^^ 1 } := by
        simp only [Monitor.view]
        rw [kept (by decide) (by decide), kept (by decide) (by decide),
          kept (by decide) (by decide), kept (by decide) (by decide)]
        rfl
      rw [op, seen]
      simp only [el3HandleSmc, el3Switch, SmcOp.ofCode?_code, Option.map_some]
      rfl
    · show ((((yieldStep m).call.cpu.set (.x 0) 1).set .elrEl3 _).regs (.x 0)) = _
      rw [Cpu.regs_set_of_ne (by decide), Cpu.regs_set_self]
      rfl
    · exact Cpu.regs_set_self _ _ _
    · have others : ∀ reg ∈ calleeSaved ++ notInC, reg ≠ .x 0 ∧ reg ≠ .elrEl3 := by
        decide
      intro reg member
      exact kept (others reg member).1 (others reg member).2
    · intro depth _ _
      rfl
    · intro world slot _
      rfl

/-- The machine of the examples. -/
def smallBuffers : Buffers where
  secState := 0x1000
  nsecState := 0x2000

def smallBoot : Monitor Unit where
  cpu :=
    { regs := fun reg =>
        if reg = .spsel then 1 else if reg = .spEl3 then 0x8000 else 0
      mem := fun _ => 0 }
  sys := { bareSys .aarch64 with secureState := 0 }

theorem layout_smallBuffers : Layout smallBuffers 0x8000 where
  apart := by
    intro first firstBelow last lastBelow same
    unfold stateWords at firstBelow lastBelow
    simp only [smallBuffers] at same
    bv_omega
  stack := by
    intro world word below depth shallow same
    unfold stateWords at below
    rw [List.mem_range] at shallow
    cases world with
    | secure =>
        simp only [Buffers.state, smallBuffers] at same
        bv_omega
    | nonsecure =>
        simp only [Buffers.state, smallBuffers] at same
        bv_omega

end TzTest.Aarch64
