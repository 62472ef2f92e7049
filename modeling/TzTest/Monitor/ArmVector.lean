import TzTest.Monitor.ArmSwitch
import TzTest.Monitor.Requests

/-!
# The vector of an SMC on ARM

One SMC: the exception leaves the return address and status in monitor mode,
the vector stacks them and calls `el3_handle_smc`, and then returns with them
or goes on into `monitor_switch`.
-/

namespace TzTest.Arm

open Cpu Slots

variable {Paging : Type}

/-- EL3 and the registers of the running world.  The secure configuration
register that the handler reads is that of the processor. -/
structure Monitor (Paging : Type) where
  cpu : Cpu
  sys : Sys .arm Paging

/-- What the C code sees. -/
def Monitor.view (m : Monitor Paging) : Sys .arm Paging :=
  { m.sys with regs := { m.sys.regs with scr := m.cpu.regs .scr } }

/-- The registers that a C function gives back as it found them. -/
def calleeSaved : List Reg :=
  [.r 4, .r 5, .r 6, .r 7, .r 8, .r 9, .r 10, .r 11, .sp .mon]

/-- The banked registers of the other modes, which C code in monitor mode has
no means to write. -/
def notInC : List Reg :=
  [.sp .sys, .lr .sys] ++
    bankedModes.flatMap fun mode => [.spsr mode, .sp mode, .lr mode]

/-- One SMC. -/
structure SmcStep (Paging : Type) where
  /-- Monitor mode has left for the world. -/
  before : Monitor Paging
  /-- The world has executed `smc`. -/
  taken : Monitor Paging
  /-- `el3_handle_smc` has returned. -/
  returned : Monitor Paging
  code : U32

namespace SmcStep

/-- The call of `el3_handle_smc`. -/
def call (link : Link) (step : SmcStep Paging) : Monitor Paging :=
  { step.taken with cpu := smcVect link step.taken.cpu }

/-- Monitor mode leaves for the same or for the other world. -/
def after (link : Link) (step : SmcStep Paging) : Monitor Paging :=
  { step.returned with cpu := smcVectExit link step.returned.cpu }

end SmcStep

/-- What a world can do: it has no access to the registers of monitor mode and
to EL3's data.  The exception enters monitor mode. -/
structure Runs (link : Link) (before taken : Monitor Paging) : Prop where
  scr : taken.cpu.regs .scr = before.cpu.regs .scr
  sp : taken.cpu.regs (.sp .mon) = before.cpu.regs (.sp .mon)
  mode : taken.cpu.mode = .mon
  buffers : ∀ world, ∀ slot ∈ link.slots world,
    taken.cpu.mem slot.2 = before.cpu.mem slot.2
  secureState : taken.sys.secureState = before.sys.secureState

/-- The call of `el3_handle_smc` and its return, with the calling convention.
The handler does not write over the buffers or over its caller's frame. -/
structure Handled (env : Env .arm Paging) (link : Link) (top : BitVec 32)
    (call returned : Monitor Paging) (code : U32) : Prop where
  answer :
    el3HandleSmc env (call.cpu.regs (.r 0)) call.view = some (code, returned.view)
  result : returned.cpu.regs (.r 0) = code
  mode : returned.cpu.mode = .mon
  saved : ∀ reg ∈ calleeSaved ++ notInC,
    returned.cpu.regs reg = call.cpu.regs reg
  frame : ∀ depth < 3, 0 < depth →
    returned.cpu.mem (frame top depth) = call.cpu.mem (frame top depth)
  buffers : ∀ world, ∀ slot ∈ link.slots world,
    returned.cpu.mem slot.2 = call.cpu.mem slot.2

structure SmcStep.Valid (env : Env .arm Paging) (link : Link)
    (step : SmcStep Paging) : Prop where
  runs : Runs link step.before step.taken
  handled : Handled env link (step.taken.cpu.regs (.sp .mon)) (step.call link)
    step.returned step.code

section Step

variable {env : Env .arm Paging} {link : Link} {step : SmcStep Paging}

theorem smcVect_eq {c : Cpu} (mode : c.mode = .mon) {top : BitVec 32}
    (sp : c.regs (.sp .mon) = top) :
    smcVect link c =
      { c with
        regs := updates c.regs
          [(.sp .mon, frame top 2), (.r 2, 0),
            (.r 3, (updates c.mem
              [(frame top 2, c.regs (.lr .mon)), (frame top 1, c.regs (.spsr .mon))])
                (frame top 2 + 16)),
            (.lr .mon, link.handled)]
        mem := updates c.mem
          [(frame top 2, c.regs (.lr .mon)), (frame top 1, c.regs (.spsr .mon))] } := by
  have second : top - BitVec.ofNat 32 8 = frame top 2 := rfl
  have first : frame top 2 + BitVec.ofNat 32 4 = frame top 1 := frame_succ top 1
  simp [smcVect, srsdb, bl, store, Cpu.set, updates_cons, mode, sp, second, first]

/-- At the comparison, the frame is as the vector has left it. -/
structure Enters (link : Link) (step : SmcStep Paging) : Prop where
  sp : step.returned.cpu.regs (.sp .mon) =
    frame (step.taken.cpu.regs (.sp .mon)) 2
  address : step.returned.cpu.mem (frame (step.taken.cpu.regs (.sp .mon)) 2) =
    step.taken.cpu.regs (.lr .mon)
  status : step.returned.cpu.mem (frame (step.taken.cpu.regs (.sp .mon)) 1) =
    step.taken.cpu.regs (.spsr .mon)
  buffers : ∀ world, ∀ slot ∈ link.slots world,
    step.returned.cpu.mem slot.2 = step.before.cpu.mem slot.2

theorem SmcStep.Valid.enters (valid : step.Valid env link)
    (layout : Layout link (step.taken.cpu.regs (.sp .mon))) : Enters link step := by
  have called := @smcVect_eq link _ valid.runs.mode _ rfl
  have memory := congrArg Cpu.mem called
  have apart : frame (step.taken.cpu.regs (.sp .mon)) 2 ≠
      frame (step.taken.cpu.regs (.sp .mon)) 1 := fun same =>
    absurd (frame_inj (by decide) (by decide) same) (by decide)
  constructor
  · rw [valid.handled.saved _ (by decide)]
    show (smcVect link step.taken.cpu).regs (.sp .mon) = _
    rw [called]
    simp [updates_cons]
  · rw [valid.handled.frame 2 (by decide) (by decide)]
    refine (congrFun memory _).trans ?_
    simp [updates_cons, apart]
  · rw [valid.handled.frame 1 (by decide) (by decide)]
    refine (congrFun memory _).trans ?_
    simp [updates_cons]
  · intro world slot member
    rw [valid.handled.buffers world slot member,
      ← valid.runs.buffers world slot member]
    refine (congrFun memory _).trans ?_
    apply updates_of_not_mem
    have second := layout.stack_slots member (by decide : 2 < 7)
    have first := layout.stack_slots member (by decide : 1 < 7)
    simp [second, first]

theorem SmcStep.Valid.handles (valid : step.Valid env link) :
    Handles env (step.taken.cpu.regs (.r 0)) step.taken.view step.code
      step.returned.view := by
  have called := @smcVect_eq link _ valid.runs.mode _ rfl
  have argument : (step.call link).cpu.regs (.r 0) = step.taken.cpu.regs (.r 0) := by
    show (smcVect link step.taken.cpu).regs (.r 0) = _
    rw [called]
    simp [updates_cons]
  have seen : (step.call link).view = step.taken.view := by
    have scr : (step.call link).cpu.regs .scr = step.taken.cpu.regs .scr := by
      show (smcVect link step.taken.cpu).regs .scr = _
      rw [called]
      simp [updates_cons]
    simp only [Monitor.view]
    rw [scr]
    rfl
  have answer := valid.handled.answer
  rw [argument, seen] at answer
  exact el3HandleSmc_handles answer

/-- The SMC returns to the world that made it, with the stack as it was. -/
structure Stays (step : SmcStep Paging) (after : Cpu) : Prop where
  sp : after.regs (.sp .mon) = step.taken.cpu.regs (.sp .mon)
  address : after.regs .pc = step.taken.cpu.regs (.lr .mon)
  status : after.regs .cpsr = step.taken.cpu.regs (.spsr .mon)
  scr : after.regs .scr = step.returned.cpu.regs .scr
  mem : after.mem = step.returned.cpu.mem

theorem SmcStep.Valid.stays (valid : step.Valid env link)
    (enters : Enters link step) (zero : step.code = 0) :
    Stays step (step.after link).cpu := by
  have result : step.returned.cpu.regs (.r 0) = 0 :=
    valid.handled.result.trans zero
  have left : (step.after link).cpu = rfefdWriteback step.returned.cpu :=
    if_pos result
  have mode := valid.handled.mode
  have up : frame (step.taken.cpu.regs (.sp .mon)) 2 + BitVec.ofNat 32 8 =
      step.taken.cpu.regs (.sp .mon) := by
    unfold frame
    grind
  have next : frame (step.taken.cpu.regs (.sp .mon)) 2 + BitVec.ofNat 32 4 =
      frame (step.taken.cpu.regs (.sp .mon)) 1 := frame_succ _ 1
  rw [left]
  constructor
  · simp [rfefdWriteback, Cpu.set, mode, enters.sp, up]
  · simp [rfefdWriteback, Cpu.set, mode, enters.sp, enters.address]
  · simp [rfefdWriteback, Cpu.set, mode, enters.sp, next, enters.status]
  · simp [rfefdWriteback, Cpu.set, mode]
  · rfl

theorem SmcStep.Valid.switched (valid : step.Valid env link)
    (layout : Layout link (step.taken.cpu.regs (.sp .mon)))
    (switches : step.code ≠ 0) {world : World}
    (ns : @Word.nsBit .arm (step.returned.cpu.regs .scr) = world.ns) :
    Switched link world step.returned.cpu (step.after link).cpu := by
  have result : ¬step.returned.cpu.regs (.r 0) = 0 := by
    rw [valid.handled.result]
    exact switches
  have left : (step.after link).cpu = monitorSwitch link step.returned.cpu :=
    if_neg result
  rw [left]
  exact monitorSwitch_switched layout valid.handled.mode (valid.enters layout).sp ns

end Step

end TzTest.Arm
