import TzTest.Monitor.ArmBoot
import TzTest.Monitor.Contexts
import TzTest.Library.Chain
import TzTest.El0

/-!
# World switches on ARM

Runs of SMCs.  A switch brings back the context with which the resumed world
last entered `monitor_switch`.
-/

namespace TzTest.Arm

open Cpu

variable {Paging : Type} {env : Env .arm Paging} {link : Link}

/-- The SMC does not turn `SCR.NS` over. -/
def SmcStep.KeepsNs (env : Env .arm Paging) (step : SmcStep Paging) : Prop :=
  TzTest.KeepsNs env (step.taken.cpu.regs (.r 0)) step.taken.view

/-- `contexts` tells which world runs and what the other one's buffer holds. -/
structure Follows (link : Link) (contexts : Contexts Reg (BitVec 32))
    (m : Monitor Paging) : Prop where
  live : m.view.InStep contexts.live
  parked : ∀ slot ∈ link.slots contexts.live.other,
    m.cpu.mem slot.2 = contexts.entered contexts.live.other slot.1

/-- The history after an SMC. -/
def record (contexts : Contexts Reg (BitVec 32)) (step : SmcStep Paging) :
    Contexts Reg (BitVec 32) :=
  contexts.serve step.code (context step.returned.cpu)

/-- The state in which monitor mode leaves for the secure world for the first
time. -/
def monitorStart (link : Link) (syscntlPa : BitVec 32) (boot : Monitor Paging) :
    Monitor Paging :=
  { boot with cpu := el3Start link syscntlPa boot.cpu }

def contextsStart (syscntlPa : BitVec 32) : Contexts Reg (BitVec 32) :=
  { live := .secure, entered := initial syscntlPa }

section Run

variable {contexts : Contexts Reg (BitVec 32)} {step : SmcStep Paging}

/-- Up to the comparison, `SCR.NS` is that of the running world, and
`secure_state` has been toggled when the other one is to run. -/
theorem SmcStep.Valid.inStep_returned (valid : step.Valid env link)
    (keeps : step.KeepsNs env) {world : World}
    (live : step.before.view.InStep world) :
    step.returned.view.secureState =
        (if step.code = 0 then world.state else world.other.state) ∧
      step.returned.view.regs.scr.nsBit = world.ns := by
  have handles := valid.handles
  have state : step.taken.view.secureState = world.state :=
    valid.runs.secureState.trans live.secureState
  have ns : step.taken.view.regs.scr.nsBit = world.ns :=
    (congrArg (@Word.nsBit .arm) valid.runs.scr).trans live.ns
  refine ⟨?_, (handles.ns keeps).trans ns⟩
  rw [handles.secureState, state, World.state_xor_one]

/-- The context of the resumed world, and that it is the right one. -/
theorem Follows.resumes
    (layout : Layout link (step.taken.cpu.regs (.sp .mon)))
    (valid : step.Valid env link) (keeps : step.KeepsNs env)
    (follows : Follows link contexts step.before) (switches : step.code ≠ 0) :
    Switched link contexts.live step.returned.cpu (step.after link).cpu ∧
      (∀ reg ∈ contextNames,
        (step.after link).cpu.regs reg =
          contexts.entered contexts.live.other reg) ∧
      (step.after link).view.InStep contexts.live.other := by
  have enters := valid.enters layout
  obtain ⟨state, ns⟩ := valid.inStep_returned keeps follows.live
  have switched := valid.switched layout switches ns
  refine ⟨switched, ?_, ?_, ?_⟩
  · intro reg member
    rw [← map_fst_wordsFrom (link.state contexts.live.other) contextNames] at member
    obtain ⟨slot, inside, named⟩ := List.mem_map.mp member
    rw [← named, switched.restored slot inside, enters.buffers _ slot inside,
      follows.parked slot inside]
  · rw [if_neg switches] at state
    exact state
  · have toggled : (step.after link).view.regs.scr =
        Sys.switchScr step.returned.view.regs.scr := switched.scr
    rw [toggled, nsBit_switchScr, ns]
    cases contexts.live <;> rfl

theorem Follows.serves (layout : Layout link (step.taken.cpu.regs (.sp .mon)))
    (valid : step.Valid env link) (keeps : step.KeepsNs env)
    (follows : Follows link contexts step.before) :
    Follows link (record contexts step) (step.after link) := by
  have enters := valid.enters layout
  unfold record
  by_cases zero : step.code = 0
  · obtain ⟨state, ns⟩ := valid.inStep_returned keeps follows.live
    have stays := valid.stays enters zero
    rw [if_pos zero] at state
    rw [Contexts.serve_of_zero zero]
    refine ⟨⟨state, ?_⟩, ?_⟩
    · exact (congrArg (@Word.nsBit .arm) stays.scr).trans ns
    · intro slot member
      rw [stays.mem, enters.buffers _ slot member]
      exact follows.parked slot member
  · obtain ⟨switched, _, inStep⟩ := follows.resumes layout valid keeps zero
    rw [Contexts.serve_of_ne_zero zero]
    refine ⟨inStep, ?_⟩
    intro slot member
    dsimp only at member ⊢
    rw [World.other_other] at member ⊢
    rw [Function.update_self, switched.saved slot member]

theorem follows_start {boot : Monitor Paging}
    (layout : Layout link (boot.cpu.regs (.sp .mon)))
    (mode : boot.cpu.mode = .mon) (secure : boot.view.InStep .secure)
    (syscntlPa : BitVec 32) :
    Follows link (contextsStart syscntlPa) (monitorStart link syscntlPa boot) := by
  have starts := el3Start_starts layout mode syscntlPa
  unfold monitorStart
  generalize el3Start link syscntlPa boot.cpu = started at starts
  refine ⟨⟨secure.secureState, ?_⟩, ?_⟩
  · exact (congrArg (@Word.nsBit .arm) starts.scr).trans secure.ns
  · intro slot member
    exact starts.buffers _ slot member

end Run

/-- The running world yields, and does nothing else. -/
def yieldStep (link : Link) (m : Monitor Paging) : SmcStep Paging :=
  let taken : Monitor Paging := { m with cpu := cps .mon (m.cpu.set (.r 0) 1) }
  { before := m
    taken := taken
    returned :=
      { cpu := (smcVect link taken.cpu).set (.r 0) 1
        sys := { m.sys with secureState := m.sys.secureState ^^^ 1 } }
    code := SvcOp.yield.code }

theorem r0_yieldStep (m : Monitor Paging) :
    (yieldStep link m).taken.cpu.regs (.r 0) =
      U32.word .arm SmcOp.yield.code := by
  simp only [yieldStep, cps]
  rw [regs_set_self]
  rfl

theorem valid_yieldStep (m : Monitor Paging) : (yieldStep link m).Valid env link := by
  have mode : (yieldStep link m).taken.cpu.mode = .mon := rfl
  have called := @smcVect_eq link _ mode _ rfl
  have inCall : ((yieldStep link m).call link).cpu =
      smcVect link (yieldStep link m).taken.cpu := rfl
  have kept {reg : Reg} (result : reg ≠ .r 0) :
      (yieldStep link m).returned.cpu.regs reg =
        ((yieldStep link m).call link).cpu.regs reg :=
    regs_set_of_ne result _ _
  constructor
  · constructor
    · simp [yieldStep, cps, Cpu.set]
    · simp [yieldStep, cps, Cpu.set]
    · rfl
    · intro world slot _
      rfl
    · rfl
  · constructor
    · have op : ((yieldStep link m).call link).cpu.regs (.r 0) =
          U32.word .arm SmcOp.yield.code := by
        rw [inCall, called, ← @r0_yieldStep _ link m]
        simp [Slots.updates_cons]
      have seen : (yieldStep link m).returned.view =
          { ((yieldStep link m).call link).view with
            secureState :=
              ((yieldStep link m).call link).view.secureState ^^^ 1 } := by
        simp only [Monitor.view]
        rw [kept (by decide)]
        rfl
      rw [op, seen]
      simp only [el3HandleSmc, el3Switch, SmcOp.ofCode?_code, Option.map_some]
      rfl
    · exact regs_set_self _ _ _
    · show (smcVect link (yieldStep link m).taken.cpu).mode = .mon
      rw [called]
      exact mode
    · have others : ∀ reg ∈ calleeSaved ++ notInC, reg ≠ .r 0 := by
        decide
      intro reg member
      exact kept (others reg member)
    · intro depth _ _
      rfl
    · intro world slot _
      rfl

/-- The machine of the example. -/
def smallLink : Link where
  secState := 0x1000
  nsecState := 0x2000
  handled := 0x100
  savedSec := 0x200
  savedNsec := 0x210
  restoredSec := 0x220
  restoredNsec := 0x230

def smallBoot : Monitor Unit where
  cpu :=
    { regs := fun reg => if reg = .sp .mon then 0x8000 else 0
      mode := .mon
      mem := fun _ => 0 }
  sys := { bareSys .arm with secureState := 0 }

theorem layout_smallLink {sp : BitVec 32} (low : 0x7000 ≤ sp.toNat)
    (high : sp.toNat ≤ 0x8000) : Layout smallLink sp where
  apart := by
    intro first firstBelow last lastBelow same
    unfold stateWords at firstBelow lastBelow
    simp only [smallLink] at same
    bv_omega
  stack := by
    intro world word below depth shallow same
    unfold stateWords at below
    unfold frame at same
    cases world with
    | secure =>
        simp only [Link.state, smallLink] at same
        bv_omega
    | nonsecure =>
        simp only [Link.state, smallLink] at same
        bv_omega

end TzTest.Arm
