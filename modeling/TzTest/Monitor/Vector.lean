import TzTest.Monitor.Switch
import TzTest.Monitor.Requests

/-!
# The vector of an SMC on AArch64

One SMC: the world runs up to it, the vector saves the argument registers and
calls `el3_handle_smc`, and then returns to the world or switches to the other
one.
-/

namespace TzTest.Aarch64

open Cpu Slots

variable {Paging : Type}

/-- EL3 and the registers of the running world.  The registers that the handler
reads are those of the processor. -/
structure Monitor (Paging : Type) where
  cpu : Cpu
  sys : Sys .aarch64 Paging

namespace Monitor

/-- What the C code sees. -/
def view (m : Monitor Paging) : Sys .aarch64 Paging :=
  { m.sys with
    regs := { m.sys.regs with
      scr := m.cpu.regs .scrEl3
      cptrEl3 := m.cpu.regs .cptrEl3
      cpacr := m.cpu.regs .cpacrEl1
      sctlr := m.cpu.regs .sctlrEl1 } }

end Monitor

/-- The registers that a C function gives back as it found them. -/
def calleeSaved : List Reg :=
  [.x 19, .x 20, .x 21, .x 22, .x 23, .x 24, .x 25, .x 26, .x 27, .x 28, .x 29,
    .spEl3, .spsel]

/-- The registers that `el3_handle_smc` has no means to write. -/
def notInC : List Reg :=
  [.elrEl1, .spsrEl1, .esrEl1, .spEl1, .spEl0, .actlrEl1, .csselrEl1, .ttbr0El1,
    .ttbr1El1, .tcrEl1, .vbarEl1, .mairEl1, .amairEl1, .tpidrEl0, .tpidrEl1,
    .tpidrroEl0, .contextidrEl1]

/-- One SMC. -/
structure SmcStep (Paging : Type) where
  /-- EL3 has left for the world. -/
  before : Monitor Paging
  /-- The world has executed `smc`. -/
  taken : Monitor Paging
  /-- `el3_handle_smc` has returned. -/
  returned : Monitor Paging
  code : U32

namespace SmcStep

/-- The call of `el3_handle_smc`. -/
def call (step : SmcStep Paging) : Monitor Paging :=
  { step.taken with cpu := lower64Args (lower64Entry step.taken.cpu) }

/-- At the `cbz`. -/
def entered (step : SmcStep Paging) : Monitor Paging :=
  { step.returned with cpu := lower64Return step.returned.cpu }

/-- EL3 leaves for the same or for the other world. -/
def after (buffers : Buffers) (step : SmcStep Paging) : Monitor Paging :=
  { step.entered with cpu := lower64Exit buffers step.entered.cpu }

end SmcStep

/-- What a world can do: it has no access to the registers and to the data of
EL3.  The exception selects EL3's stack pointer. -/
structure Runs (buffers : Buffers) (before taken : Monitor Paging) : Prop where
  scr : taken.cpu.regs .scrEl3 = before.cpu.regs .scrEl3
  cptr : taken.cpu.regs .cptrEl3 = before.cpu.regs .cptrEl3
  sp : taken.cpu.regs .spEl3 = before.cpu.regs .spEl3
  spsel : taken.cpu.regs .spsel = 1
  buffers : ∀ world, ∀ slot ∈ buffers.slots world,
    taken.cpu.mem slot.2 = before.cpu.mem slot.2
  secureState : taken.sys.secureState = before.sys.secureState
  smc : IsSmc (lower64Entry taken.cpu)

/-- The call of `el3_handle_smc` and its return, with the calling convention.
The handler does not write over the buffers or over its caller's frame. -/
structure Handled (env : Env .aarch64 Paging) (buffers : Buffers)
    (sp : BitVec 64) (call returned : Monitor Paging) (code : U32) : Prop where
  answer :
    el3HandleSmc env (call.cpu.regs (.x 0)) call.view = some (code, returned.view)
  result : returned.cpu.regs (.x 0) = code.setWidth 64
  /-- `__set_exception_return(elr)` -/
  resume : returned.cpu.regs .elrEl3 = call.cpu.regs (.x 3)
  saved : ∀ reg ∈ calleeSaved ++ notInC,
    returned.cpu.regs reg = call.cpu.regs reg
  frame : ∀ depth < 7, 0 < depth →
    returned.cpu.mem (frame sp depth) = call.cpu.mem (frame sp depth)
  buffers : ∀ world, ∀ slot ∈ buffers.slots world,
    returned.cpu.mem slot.2 = call.cpu.mem slot.2

structure SmcStep.Valid (env : Env .aarch64 Paging) (buffers : Buffers)
    (step : SmcStep Paging) : Prop where
  runs : Runs buffers step.before step.taken
  handled : Handled env buffers (step.taken.cpu.regs .spEl3) step.call
    step.returned step.code

section Frame

variable {c : Cpu}

private theorem frame_pushes (sp : BitVec 64) :
    frame sp 1 = sp - 8 ∧ frame sp 3 = sp - 8 - 16 ∧
      frame sp 2 = sp - 8 - 16 + 8 ∧ frame sp 4 = sp - 8 - 16 - 8 ∧
      frame sp 6 = sp - 8 - 16 - 8 - 16 ∧
      frame sp 5 = sp - 8 - 16 - 8 - 16 + 8 := by
  unfold frame
  refine ⟨rfl, ?_, ?_, ?_, ?_, ?_⟩ <;> grind

/-- The call of the handler has six words of frame below the stack pointer of
the exception. -/
theorem lower64_call (onEl3 : c.regs .spsel = 1) :
    lower64Args (lower64Entry c) =
      { regs :=
          updates c.regs
            [(.x 2, c.regs .farEl3), (.x 3, c.regs .elrEl3),
              (.spEl3, frame (c.regs .spEl3) 6)]
        mem :=
          updates c.mem
            [(frame (c.regs .spEl3) 1, c.regs (.x 30)),
              (frame (c.regs .spEl3) 3, c.regs (.x 2)),
              (frame (c.regs .spEl3) 2, c.regs (.x 3)),
              (frame (c.regs .spEl3) 4, c.regs .spsrEl3),
              (frame (c.regs .spEl3) 6, c.regs (.x 0)),
              (frame (c.regs .spEl3) 5, c.regs (.x 1))] } := by
  obtain ⟨first, third, second, fourth, sixth, fifth⟩ :=
    frame_pushes (c.regs .spEl3)
  have apart : frame (c.regs .spEl3) 5 ≠ frame (c.regs .spEl3) 6 :=
    fun same => absurd (frame_inj (by decide) (by decide) same) (by decide)
  rw [first, third, second, fourth, sixth, fifth]
  rw [fifth, sixth] at apart
  simp [lower64Args, lower64Entry, strPush, stpPush, ldp, mov, Cpu.set, store,
    Cpu.sp, onEl3, updates_cons]
  funext reg
  simp only [Function.update_apply]
  split_ifs <;> simp_all

/-- The vector takes its frame down again, apart from `x0`. -/
theorem lower64Return_eq {top : BitVec 64} (onEl3 : c.regs .spsel = 1)
    (sp : c.regs .spEl3 = frame top 6) :
    lower64Return c =
      { c with
        regs :=
          updates c.regs
            [(.x 1, c.mem (frame top 5)), (.spsrEl3, c.mem (frame top 4)),
              (.x 2, c.mem (frame top 3)), (.x 3, c.mem (frame top 2)),
              (.x 30, c.mem (frame top 1)), (.spEl3, top)] } := by
  have fifth : frame top 6 + 8 = frame top 5 := frame_succ top 5
  have fourth : frame top 6 + 16 = frame top 4 := frame_add_two top 4
  have third : frame top 4 + 8 = frame top 3 := frame_succ top 3
  have second : frame top 3 + 8 = frame top 2 := frame_succ top 2
  have first : frame top 3 + 16 = frame top 1 := frame_add_two top 1
  have zero : frame top 1 + 8 = top := (frame_succ top 0).trans (frame_zero top)
  simp [lower64Return, ldpPop, ldrPop, mov, Cpu.set, Cpu.sp, onEl3, sp,
    updates_cons]
  funext reg
  simp only [Function.update_apply]
  split_ifs <;> simp_all

theorem regs_call (onEl3 : c.regs .spsel = 1) {reg : Reg}
    (outside : reg ∉ [Reg.x 2, .x 3, .spEl3]) :
    (lower64Args (lower64Entry c)).regs reg = c.regs reg := by
  rw [lower64_call onEl3]
  apply updates_of_not_mem
  exact outside

theorem mem_call (onEl3 : c.regs .spsel = 1) {addr : BitVec 64}
    (outside : ∀ depth ∈ List.range 7, addr ≠ frame (c.regs .spEl3) depth) :
    (lower64Args (lower64Entry c)).mem addr = c.mem addr := by
  rw [lower64_call onEl3]
  apply updates_of_not_mem
  have apart (depth : Nat) (shallow : depth < 7) :
      addr ≠ frame (c.regs .spEl3) depth :=
    outside depth (List.mem_range.mpr shallow)
  simp [apart 1, apart 2, apart 3, apart 4, apart 5, apart 6]

/-- The saved registers, by depth. -/
theorem frame_call (onEl3 : c.regs .spsel = 1) :
    ∀ word ∈ [(1, Reg.x 30), (3, .x 2), (2, .x 3), (4, .spsrEl3), (6, .x 0),
        (5, .x 1)],
      (lower64Args (lower64Entry c)).mem (frame (c.regs .spEl3) word.1) =
        c.regs word.2 := by
  have distinct :
      ([1, 3, 2, 4, 6, 5].map (frame (c.regs .spEl3))).Nodup := by
    apply List.Nodup.map_on _ (by decide)
    intro left leftMember right rightMember same
    have below : ∀ depth ∈ [1, 3, 2, 4, 6, 5], depth < 7 := by decide
    exact frame_inj (below left leftMember) (below right rightMember) same
  intro word member
  rw [lower64_call onEl3]
  apply updates_of_mem
  · exact distinct
  · simp only [List.mem_cons, List.not_mem_nil, or_false] at member
    rcases member with rfl | rfl | rfl | rfl | rfl | rfl <;> simp

end Frame

/-- At the `cbz`, the world's registers are back where the handler has not
changed them on purpose. -/
structure Enters (buffers : Buffers) (step : SmcStep Paging) : Prop where
  code : step.entered.cpu.regs (.x 0) = step.code.setWidth 64
  kept : ∀ reg ∈ [Reg.x 1, .x 2, .x 3, .x 30, .elrEl3, .spsrEl3, .spEl3, .spsel],
    step.entered.cpu.regs reg = step.taken.cpu.regs reg
  view : step.entered.view = step.returned.view
  buffers : ∀ world, ∀ slot ∈ buffers.slots world,
    step.entered.cpu.mem slot.2 = step.before.cpu.mem slot.2

section Step

variable {env : Env .aarch64 Paging} {buffers : Buffers} {step : SmcStep Paging}

theorem SmcStep.Valid.enters (valid : step.Valid env buffers)
    (layout : Layout buffers (step.taken.cpu.regs .spEl3)) :
    Enters buffers step := by
  have onEl3 := valid.runs.spsel
  have handled := valid.handled
  have stillEl3 : step.returned.cpu.regs .spsel = 1 := by
    rw [handled.saved _ (by decide)]
    exact (regs_call onEl3 (by decide)).trans onEl3
  have sp : step.returned.cpu.regs .spEl3 =
      frame (step.taken.cpu.regs .spEl3) 6 := by
    rw [handled.saved _ (by decide)]
    show (lower64Args (lower64Entry step.taken.cpu)).regs .spEl3 = _
    rw [lower64_call onEl3]
    simp [updates_cons]
  have returned := lower64Return_eq stillEl3 sp
  have words : ∀ word ∈ [(1, Reg.x 30), (3, .x 2), (2, .x 3), (4, .spsrEl3),
      (6, .x 0), (5, .x 1)],
      step.returned.cpu.mem (frame (step.taken.cpu.regs .spEl3) word.1) =
        step.taken.cpu.regs word.2 := by
    intro word member
    have shallow : ∀ word ∈ [(1, Reg.x 30), (3, .x 2), (2, .x 3),
        (4, .spsrEl3), (6, .x 0), (5, .x 1)], word.1 < 7 ∧ 0 < word.1 := by
      decide
    rw [handled.frame word.1 (shallow word member).1 (shallow word member).2]
    exact frame_call onEl3 word member
  have untouched {reg : Reg} (outside : reg ∉
      [Reg.x 1, .spsrEl3, .x 2, .x 3, .x 30, .spEl3]) :
      step.entered.cpu.regs reg = step.returned.cpu.regs reg := by
    show (lower64Return step.returned.cpu).regs reg = _
    rw [returned]
    apply updates_of_not_mem
    exact outside
  constructor
  · rw [untouched (by decide), handled.result]
  · have resumed : step.entered.cpu.regs .elrEl3 = step.taken.cpu.regs .elrEl3 := by
      rw [untouched (by decide), handled.resume]
      show (lower64Args (lower64Entry step.taken.cpu)).regs (.x 3) = _
      rw [lower64_call onEl3]
      simp [updates_cons]
    have selected : step.entered.cpu.regs .spsel = step.taken.cpu.regs .spsel := by
      rw [untouched (by decide), stillEl3, onEl3]
    have first := words (5, .x 1) (by simp)
    have second := words (3, .x 2) (by simp)
    have third := words (2, .x 3) (by simp)
    have link := words (1, .x 30) (by simp)
    have spsr := words (4, .spsrEl3) (by simp)
    have popped : step.entered.cpu.regs =
        updates step.returned.cpu.regs
          [(.x 1, step.taken.cpu.regs (.x 1)),
            (.spsrEl3, step.taken.cpu.regs .spsrEl3),
            (.x 2, step.taken.cpu.regs (.x 2)),
            (.x 3, step.taken.cpu.regs (.x 3)),
            (.x 30, step.taken.cpu.regs (.x 30)),
            (.spEl3, step.taken.cpu.regs .spEl3)] := by
      rw [← first, ← second, ← third, ← link, ← spsr]
      exact congrArg Cpu.regs returned
    intro reg member
    simp only [List.mem_cons, List.not_mem_nil, or_false] at member
    rcases member with rfl | rfl | rfl | rfl | rfl | rfl | rfl | rfl
    · rw [popped]; simp [updates_cons]
    · rw [popped]; simp [updates_cons]
    · rw [popped]; simp [updates_cons]
    · rw [popped]; simp [updates_cons]
    · exact resumed
    · rw [popped]; simp [updates_cons]
    · rw [popped]; simp [updates_cons]
    · exact selected
  · simp only [Monitor.view]
    rw [untouched (by decide), untouched (by decide), untouched (by decide),
      untouched (by decide)]
    rfl
  · intro world slot member
    show (lower64Return step.returned.cpu).mem slot.2 = _
    rw [returned]
    show step.returned.cpu.mem slot.2 = _
    rw [handled.buffers world slot member, ← valid.runs.buffers world slot member]
    exact mem_call onEl3 fun depth shallow => layout.stack_slots member shallow

theorem setWidth_eq_zero_iff (code : U32) :
    code.setWidth 64 = (0 : BitVec 64) ↔ code = 0 := by
  constructor
  · intro zero
    have low := congrArg (BitVec.setWidth 32) zero
    simpa using low
  · rintro rfl
    rfl

theorem SmcStep.Valid.handles (valid : step.Valid env buffers) :
    Handles env (step.taken.cpu.regs (.x 0)) step.taken.view step.code
      step.returned.view := by
  have onEl3 := valid.runs.spsel
  have argument : step.call.cpu.regs (.x 0) = step.taken.cpu.regs (.x 0) :=
    regs_call onEl3 (by decide)
  have seen : step.call.view = step.taken.view := by
    have kept {reg : Reg} (outside : reg ∉ [Reg.x 2, .x 3, .spEl3]) :
        step.call.cpu.regs reg = step.taken.cpu.regs reg :=
      regs_call onEl3 outside
    simp only [Monitor.view]
    rw [kept (by decide), kept (by decide), kept (by decide), kept (by decide)]
    rfl
  have answer := valid.handled.answer
  rw [argument, seen] at answer
  exact el3HandleSmc_handles answer

theorem Enters.after_of_zero (enters : Enters buffers step)
    (zero : step.code = 0) : step.after buffers = step.entered := by
  have result : step.entered.cpu.regs (.x 0) = 0 := by
    rw [enters.code, zero]
    rfl
  rw [SmcStep.after, lower64Exit, if_pos result]

theorem Enters.after_of_ne_zero (enters : Enters buffers step)
    (nonzero : step.code ≠ 0) :
    (step.after buffers).cpu = monitorSwitch buffers step.entered.cpu := by
  have result : ¬step.entered.cpu.regs (.x 0) = 0 := by
    rw [enters.code]
    exact mt (setWidth_eq_zero_iff step.code).mp nonzero
  exact if_neg result

end Step

end TzTest.Aarch64
