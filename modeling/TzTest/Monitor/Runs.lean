import TzTest.Monitor.WorldSwitch
import TzTest.Monitor.ArmWorldSwitch

/-!
# What EL3 keeps for itself

The secure configuration register and the stack pointer of EL3, over runs of
SMCs from the first return to the secure world on.  The ARM code keeps the bits
of the register that are none of its business and loses eight bytes of stack
with every switch; with the AArch64 code it is the other way round.
-/

namespace TzTest

variable {Paging : Type}

/-- The bits of the secure configuration register other than `SCR_NS`. -/
def nonNs {arch : Arch} (scr : Word arch) : Word arch :=
  scr &&& ~~~scrNs arch

theorem nonNs_switchScr_aarch64 (scr : Word .aarch64) :
    nonNs (Sys.switchScr scr) = 0 := by
  unfold nonNs Sys.switchScr scrNs
  grind

theorem nonNs_switchScr_arm (scr : Word .arm) :
    nonNs (Sys.switchScr scr) = nonNs scr := by
  unfold nonNs scrNs
  by_cases clear : scr &&& 1 = 0
  · have set : Sys.switchScr scr = scr ||| 1 := if_pos clear
    rw [set]
    grind
  · have cleared : Sys.switchScr scr = scr &&& ~~~1 := if_neg clear
    rw [cleared]
    grind

namespace Aarch64

/-- The SMCs from the first return to the secure world on. -/
structure SmcRun (Paging : Type) where
  env : Env .aarch64 Paging
  buffers : Buffers
  boot : Monitor Paging
  syscntlPa : BitVec 64
  layout : Layout buffers (boot.cpu.regs .spEl3)
  onEl3 : boot.cpu.regs .spsel = 1
  steps : List (SmcStep Paging)
  linked : Chain.Linked SmcStep.before (SmcStep.after buffers)
    (monitorStart buffers syscntlPa boot) steps
  valid : ∀ step ∈ steps, step.Valid env buffers

/-- The operation in the first argument register. -/
def SmcStep.op (step : SmcStep Paging) : Word .aarch64 :=
  step.taken.cpu.regs (.x 0)

namespace SmcRun

def start (run : SmcRun Paging) : Monitor Paging :=
  monitorStart run.buffers run.syscntlPa run.boot

theorem rests (run : SmcRun Paging) :
    ∀ step ∈ run.steps,
      Rests run.buffers (run.boot.cpu.regs .spEl3) step.before ∧
        Rests run.buffers (run.boot.cpu.regs .spEl3) (step.after run.buffers) := by
  have starts := el3Start_starts run.layout run.onEl3 run.syscntlPa
  apply run.linked.invariant
  · intro step member
    exact (run.valid step member).rests run.layout
  · constructor
    · exact starts.kept .spEl3 (by simp)
    · intro world slot member named
      refine (starts.buffers world slot member).trans ?_
      rw [named]
      rfl

theorem scr_after (run : SmcRun Paging) {step : SmcStep Paging}
    (member : step ∈ run.steps) :
    (step.after run.buffers).view.regs.scr =
      if step.code = 0 then step.returned.view.regs.scr
      else Sys.switchScr step.returned.view.regs.scr := by
  have valid := run.valid step member
  have rests := (run.rests step member).1
  have top : step.taken.cpu.regs .spEl3 = run.boot.cpu.regs .spEl3 :=
    valid.runs.sp.trans rests.sp
  have enters := valid.enters (top ▸ run.layout)
  by_cases zero : step.code = 0
  · rw [if_pos zero, enters.after_of_zero zero, enters.view]
  · rw [if_neg zero, ← enters.view]
    exact (valid.switched run.layout rests zero (ns_worldOf _)).scr

theorem sp_kept (run : SmcRun Paging) {step : SmcStep Paging}
    (member : step ∈ run.steps) :
    (step.after run.buffers).cpu.regs .spEl3 = step.before.cpu.regs .spEl3 := by
  obtain ⟨before, after⟩ := run.rests step member
  rw [after.sp, before.sp]

/-- The bits stay in the runs in which there is none of them to lose. -/
theorem steady_iff (run : SmcRun Paging) :
    Chain.Steady (SmcStep.after run.buffers) (fun m => nonNs m.view.regs.scr)
        (fun step => ¬WritesScr run.env step.op step.taken.view) run.start run.steps ↔
      ∀ step ∈ run.steps, RequestsSwitch step.op step.taken.view →
        nonNs step.taken.view.regs.scr = 0 := by
  refine (Chain.Linked.steady_iff run.linked).trans (forall₂_congr ?_)
  intro step member
  have valid := run.valid step member
  have handles := valid.handles
  have sameBefore : step.taken.view.regs.scr = step.before.view.regs.scr :=
    valid.runs.scr
  rw [run.scr_after member]
  by_cases zero : step.code = 0
  · have stays : ¬RequestsSwitch step.op step.taken.view := fun requests =>
      absurd zero (handles.switches.mpr requests)
    rw [if_pos zero]
    refine iff_of_true ?_ fun requests => absurd requests stays
    intro quiet
    rw [handles.scr quiet, sameBefore]
  · have requests : RequestsSwitch step.op step.taken.view := handles.switches.mp zero
    have quiet : ¬WritesScr run.env step.op step.taken.view := requests.not_writesScr
    rw [if_neg zero, nonNs_switchScr_aarch64, sameBefore, forall_prop_of_true quiet,
      forall_prop_of_true requests]
    exact eq_comm

/-- One yield, right after the first return to the secure world. -/
def ofYield (boot : Monitor Unit)
    (layout : Layout smallBuffers (boot.cpu.regs .spEl3))
    (onEl3 : boot.cpu.regs .spsel = 1) : SmcRun Unit where
  env := bareEnv .aarch64
  buffers := smallBuffers
  boot := boot
  syscntlPa := 0x3000
  layout := layout
  onEl3 := onEl3
  steps := [yieldStep (monitorStart smallBuffers 0x3000 boot)]
  linked := ⟨rfl, trivial⟩
  valid := by
    have started : (monitorStart smallBuffers 0x3000 boot).cpu.regs .spsel = 1 :=
      (el3Start_starts layout onEl3 0x3000).selects
    intro step member
    rw [List.mem_singleton.mp member]
    exact valid_yieldStep started

end SmcRun

end Aarch64

namespace Arm

open Cpu

/-- The SMCs from the first return to the secure world on. -/
structure SmcRun (Paging : Type) where
  env : Env .arm Paging
  link : Link
  boot : Monitor Paging
  syscntlPa : BitVec 32
  steps : List (SmcStep Paging)
  linked : Chain.Linked SmcStep.before (SmcStep.after link)
    (monitorStart link syscntlPa boot) steps
  valid : ∀ step ∈ steps, step.Valid env link

section Switch

variable {c : Cpu} {link : Link}

theorem scr_monitorSaveState (c : Cpu) :
    (monitorSaveState c).regs .scr = c.regs .scr := by
  have kept := (saveBody_saves (push [.lr] c)).regs .scr (by decide)
  show (bx .lr (pop [.lr] (saveBody (push [.lr] c)))).regs .scr = _
  generalize saveBody (push [.lr] c) = d at kept
  simpa [bx, pop, push, loadMultiple, storeMultiple, wordsFrom, Slots.restored,
    Slots.updates_cons, Operand.reg, Cpu.set] using kept

theorem scr_monitorRestoreState (c : Cpu) :
    (monitorRestoreState c).regs .scr = c.regs .scr := by
  have kept := (restoreBody_restores (push [.lr] c)).regs_of_not_mem
    (by decide : Reg.scr ∉ scratch) (by decide)
  show (bx (.r 3) (push [.r 0, .r 1]
    (mov (.r 0) (.r 2) (pop [.r 3] (restoreBody (push [.lr] c)))))).regs .scr = _
  generalize restoreBody (push [.lr] c) = d at kept
  simpa [bx, mov, pop, push, loadMultiple, storeMultiple, wordsFrom, Slots.restored,
    Slots.updates_cons, Operand.reg, Cpu.set] using kept

theorem sp_monitorSaveState (mode : c.mode = .mon) :
    (monitorSaveState c).regs (.sp .mon) = c.regs (.sp .mon) := by
  have kept := (saveBody_saves (push [.lr] c)).regs (.sp .mon) (by decide)
  have inMonitor : (saveBody (push [.lr] c)).mode = .mon := mode_saveBody _
  show (bx .lr (pop [.lr] (saveBody (push [.lr] c)))).regs (.sp .mon) = _
  generalize saveBody (push [.lr] c) = d at kept inMonitor
  simp only [push, Cpu.set, mode, Function.update_self] at kept
  simp [bx, pop, Cpu.set, inMonitor, kept]

theorem sp_monitorRestoreState (mode : c.mode = .mon) :
    (monitorRestoreState c).regs (.sp .mon) = c.regs (.sp .mon) - 8 := by
  have kept := (restoreBody_restores (push [.lr] c)).regs_of_not_mem
    (by decide : Reg.sp .mon ∉ scratch) (by decide)
  have inMonitor : (restoreBody (push [.lr] c)).mode = .mon := mode_restoreBody _
  show (bx (.r 3) (push [.r 0, .r 1]
    (mov (.r 0) (.r 2) (pop [.r 3] (restoreBody (push [.lr] c)))))).regs
      (.sp .mon) = _
  generalize restoreBody (push [.lr] c) = d at kept inMonitor
  simp only [push, Cpu.set, mode, Function.update_self] at kept
  simp [bx, mov, pop, push, loadMultiple, storeMultiple, Cpu.set, Operand.reg,
    inMonitor, kept]

theorem mode_monitorSaveState (c : Cpu) : (monitorSaveState c).mode = .mon := by
  have inMonitor := mode_saveBody (push [.lr] c)
  unfold monitorSaveState
  generalize saveBody (push [.lr] c) = d at inMonitor
  exact inMonitor

theorem mode_monitorRestoreState (c : Cpu) :
    (monitorRestoreState c).mode = .mon := by
  have inMonitor := mode_restoreBody (push [.lr] c)
  unfold monitorRestoreState
  generalize restoreBody (push [.lr] c) = d at inMonitor
  exact inMonitor

theorem regs_bl {reg : Reg} (notLink : ∀ mode, reg ≠ .lr mode) (next : BitVec 32)
    (c : Cpu) : (bl next c).regs reg = c.regs reg :=
  regs_set_of_ne (notLink c.mode) _ _

theorem scr_exchange (source target saved restored : BitVec 32) (c : Cpu) :
    (exchange source target saved restored c).regs .scr = c.regs .scr := by
  unfold exchange
  rw [scr_monitorRestoreState, regs_bl (by simp), regs_set_of_ne (by decide),
    scr_monitorSaveState, regs_bl (by simp), regs_set_of_ne (by decide)]

theorem mode_exchange (source target saved restored : BitVec 32) (c : Cpu) :
    (exchange source target saved restored c).mode = .mon := by
  unfold exchange
  exact mode_monitorRestoreState _

theorem mode_setScr (value : BitVec 32 → BitVec 32) (c : Cpu) :
    (setScr value c).mode = c.mode :=
  rfl

theorem sp_exchange (source target saved restored : BitVec 32)
    (mode : c.mode = .mon) :
    (exchange source target saved restored c).regs (.sp .mon) =
      c.regs (.sp .mon) - 8 := by
  have calls : (bl saved (c.set (.r 0) source)).mode = .mon := mode
  have kept := sp_monitorSaveState calls
  have stays := mode_monitorSaveState (bl saved (c.set (.r 0) source))
  unfold exchange
  generalize monitorSaveState (bl saved (c.set (.r 0) source)) = d at kept stays
  have returns : (bl restored (d.set (.r 0) target)).mode = .mon := stays
  rw [sp_monitorRestoreState returns, regs_bl (by simp), regs_set_of_ne (by decide),
    kept, regs_bl (by simp), regs_set_of_ne (by decide)]

/-- Whatever is on the stack and in the buffers. -/
theorem scr_monitorSwitch (c : Cpu) :
    (monitorSwitch link c).regs .scr = @Sys.switchScr .arm (c.regs .scr) := by
  have head : (switchHead c).regs .scr = c.regs .scr := by
    simp [switchHead, mov, pop, push, loadMultiple, storeMultiple, wordsFrom,
      Slots.restored, Slots.updates_cons, Operand.reg, Cpu.set]
  have tested : (switchHead c).regs (.r 3) = c.regs .scr &&& 1 := by
    simp [switchHead, mov, pop, push, loadMultiple, storeMultiple, wordsFrom,
      Slots.restored, Slots.updates_cons, Operand.reg, Cpu.set]
  have tail (d : Cpu) : (switchTail d).regs .scr = d.regs .scr := by
    simp [switchTail, rfefd, pop, push, loadMultiple, storeMultiple, wordsFrom,
      Slots.restored, Slots.updates_cons, Operand.reg, Cpu.set]
  rw [monitorSwitch_parts, tail, tested]
  by_cases clear : c.regs .scr &&& 1 = 0
  · have set : @Sys.switchScr .arm (c.regs .scr) = c.regs .scr ||| scrNsWord :=
      if_pos clear
    rw [if_pos clear, set, switchMiddle, scr_setScr, scr_exchange, head]
  · have cleared : @Sys.switchScr .arm (c.regs .scr) = c.regs .scr &&& ~~~scrNsWord :=
      if_neg clear
    rw [if_neg clear, cleared, switchMiddle, scr_exchange, scr_setScr, head]

theorem sp_monitorSwitch (mode : c.mode = .mon) :
    (monitorSwitch link c).regs (.sp .mon) = c.regs (.sp .mon) := by
  have head : (switchHead c).regs (.sp .mon) = c.regs (.sp .mon) := by
    simp [switchHead, mov, pop, push, loadMultiple, storeMultiple, wordsFrom,
      Slots.restored, Slots.updates_cons, Operand.reg, Cpu.set, mode]
  have tail (d : Cpu) (inMonitor : d.mode = .mon) :
      (switchTail d).regs (.sp .mon) = d.regs (.sp .mon) + 8 := by
    simp [switchTail, rfefd, pop, push, loadMultiple, storeMultiple, wordsFrom,
      Slots.restored, Slots.updates_cons, Operand.reg, Cpu.set, inMonitor]
  have middle (world : World) :
      (switchMiddle link world (switchHead c)).mode = .mon ∧
        (switchMiddle link world (switchHead c)).regs (.sp .mon) =
          c.regs (.sp .mon) - 8 := by
    have entry : (switchHead c).mode = .mon := mode
    generalize switchHead c = d at head entry
    cases world with
    | secure =>
        rw [switchMiddle, mode_setScr, mode_exchange, regs_setScr _ (by decide),
          sp_exchange _ _ _ _ entry, head]
        exact ⟨rfl, rfl⟩
    | nonsecure =>
        have set : (setScr (· &&& ~~~scrNsWord) d).mode = .mon := entry
        rw [switchMiddle, mode_exchange, sp_exchange _ _ _ _ set,
          regs_setScr _ (by decide), head]
        exact ⟨rfl, rfl⟩
  have around (sp : BitVec 32) : sp - 8 + 8 = sp := by grind
  rw [monitorSwitch_parts]
  split
  · rw [tail _ (middle .secure).1, (middle .secure).2, around]
  · rw [tail _ (middle .nonsecure).1, (middle .nonsecure).2, around]

end Switch

/-- The operation in the first argument register. -/
def SmcStep.op (step : SmcStep Paging) : Word .arm :=
  step.taken.cpu.regs (.r 0)

namespace SmcRun

def start (run : SmcRun Paging) : Monitor Paging :=
  monitorStart run.link run.syscntlPa run.boot

variable {env : Env .arm Paging} {link : Link} {step : SmcStep Paging}

theorem scr_after (valid : step.Valid env link) :
    (step.after link).view.regs.scr =
      if step.code = 0 then step.returned.view.regs.scr
      else Sys.switchScr step.returned.view.regs.scr := by
  show (smcVectExit link step.returned.cpu).regs .scr = _
  unfold smcVectExit
  rw [valid.handled.result]
  by_cases zero : step.code = 0
  · rw [if_pos zero, if_pos zero]
    simp [rfefdWriteback, Cpu.set, Monitor.view]
  · rw [if_neg zero, if_neg zero]
    exact scr_monitorSwitch _

/-- Where an SMC leaves the stack of monitor mode. -/
theorem sp_after (valid : step.Valid env link) :
    (step.after link).cpu.regs (.sp .mon) =
      if step.code = 0 then step.before.cpu.regs (.sp .mon)
      else step.before.cpu.regs (.sp .mon) - 8 := by
  have result : step.returned.cpu.regs (.r 0) = step.code := valid.handled.result
  have called : step.returned.cpu.regs (.sp .mon) =
      step.before.cpu.regs (.sp .mon) - 8 := by
    rw [valid.handled.saved _ (by decide), ← valid.runs.sp]
    show (smcVect link step.taken.cpu).regs (.sp .mon) = _
    simp [smcVect, srsdb, bl, store, Cpu.set, valid.runs.mode]
  show (smcVectExit link step.returned.cpu).regs (.sp .mon) = _
  unfold smcVectExit
  rw [result]
  split
  · simp [rfefdWriteback, Cpu.set, valid.handled.mode, called]
  · exact (sp_monitorSwitch valid.handled.mode).trans called

theorem steady (run : SmcRun Paging) :
    Chain.Steady (SmcStep.after run.link) (fun m => nonNs m.view.regs.scr)
      (fun step => ¬WritesScr run.env step.op step.taken.view) run.start
      run.steps := by
  refine (Chain.Linked.steady_iff run.linked).mpr ?_
  intro step member quiet
  have valid := run.valid step member
  have same : step.returned.view.regs.scr = step.before.view.regs.scr :=
    (valid.handles.scr quiet).trans valid.runs.scr
  rw [scr_after valid]
  split
  · rw [same]
  · rw [nonNs_switchScr_arm, same]

theorem sp_kept_iff (valid : step.Valid env link) :
    (step.after link).cpu.regs (.sp .mon) = step.before.cpu.regs (.sp .mon) ↔
      ¬RequestsSwitch step.op step.taken.view := by
  have switches : step.code ≠ 0 ↔ RequestsSwitch step.op step.taken.view :=
    valid.handles.switches
  rw [sp_after valid, ← switches, not_not]
  split
  · exact iff_of_true rfl ‹_›
  · have moved : step.before.cpu.regs (.sp .mon) - 8 ≠
        step.before.cpu.regs (.sp .mon) := by
      bv_omega
    exact iff_of_false moved ‹_›

/-- One yield, right after the first return to the secure world. -/
def ofYield : SmcRun Unit where
  env := bareEnv .arm
  link := smallLink
  boot := smallBoot
  syscntlPa := 0x3000
  steps := [yieldStep smallLink (monitorStart smallLink 0x3000 smallBoot)]
  linked := ⟨rfl, trivial⟩
  valid := by
    intro step member
    rw [List.mem_singleton.mp member]
    exact valid_yieldStep _

end SmcRun

end Arm

/-- A sequence of SMCs on one of the architectures. -/
inductive SmcRun (Paging : Type) where
  | aarch64 (run : Aarch64.SmcRun Paging)
  | arm (run : Arm.SmcRun Paging)

namespace SmcRun

/-- Every bit other than `SCR_NS` keeps its value until the next write of the
register, over any number of switches. -/
def KeepsScr : SmcRun Paging → Prop
  | .aarch64 run =>
      Chain.Steady (Aarch64.SmcStep.after run.buffers)
        (fun m => nonNs m.view.regs.scr)
        (fun step => ¬WritesScr run.env step.op step.taken.view) run.start run.steps
  | .arm run =>
      Chain.Steady (Arm.SmcStep.after run.link) (fun m => nonNs m.view.regs.scr)
        (fun step => ¬WritesScr run.env step.op step.taken.view) run.start run.steps

/-- On AArch64, no bit other than `SCR_NS` is set when a world asks for a
switch. -/
def SwitchesWithNsOnly : SmcRun Paging → Prop
  | .aarch64 run =>
      ∀ step ∈ run.steps, RequestsSwitch step.op step.taken.view →
        nonNs step.taken.view.regs.scr = 0
  | .arm _ => True

theorem keepsScr_iff (run : SmcRun Paging) :
    run.KeepsScr ↔ run.SwitchesWithNsOnly := by
  cases run with
  | aarch64 run => exact run.steady_iff
  | arm run => exact iff_of_true run.steady trivial

/-- `SCR_RW` is lost with the first switch. -/
theorem scr_lost_aarch64 :
    ¬(SmcRun.aarch64 (.ofYield
      { Aarch64.smallBoot with cpu := Aarch64.smallBoot.cpu.set .scrEl3 0x400 }
      Aarch64.layout_smallBuffers rfl)).KeepsScr := by
  intro kept
  have clear := (Aarch64.SmcRun.steady_iff _).mp kept _ (List.mem_singleton.mpr rfl) (by
    unfold RequestsSwitch Aarch64.SmcStep.op
    rw [Aarch64.x0_yieldStep, SmcOp.ofCode?_code]
    trivial)
  exact absurd clear (by decide)

/-- Each SMC leaves the stack pointer of EL3 or of monitor mode where it was. -/
def KeepsSp : SmcRun Paging → Prop
  | .aarch64 run =>
      ∀ step ∈ run.steps,
        (step.after run.buffers).cpu.regs .spEl3 = step.before.cpu.regs .spEl3
  | .arm run =>
      ∀ step ∈ run.steps,
        (step.after run.link).cpu.regs (.sp .mon) = step.before.cpu.regs (.sp .mon)

/-- On ARM, no world asks for a switch. -/
def StaysOnArm : SmcRun Paging → Prop
  | .aarch64 _ => True
  | .arm run => ∀ step ∈ run.steps, ¬RequestsSwitch step.op step.taken.view

theorem keepsSp_iff (run : SmcRun Paging) : run.KeepsSp ↔ run.StaysOnArm := by
  cases run with
  | aarch64 run => exact iff_of_true (fun _ member => run.sp_kept member) trivial
  | arm run =>
      apply forall₂_congr
      intro step member
      exact Arm.SmcRun.sp_kept_iff (run.valid step member)

/-- `monitor_switch` ends with `rfefd sp`, without writeback. -/
theorem sp_lost_arm : ¬(SmcRun.arm .ofYield).KeepsSp := by
  intro kept
  have stays := kept _ (List.mem_singleton.mpr rfl)
  apply (Arm.SmcRun.sp_kept_iff (@Arm.valid_yieldStep _ (bareEnv .arm) _ _)).mp stays
  unfold RequestsSwitch Arm.SmcStep.op
  rw [Arm.r0_yieldStep, SmcOp.ofCode?_code]
  trivial

end SmcRun

end TzTest
