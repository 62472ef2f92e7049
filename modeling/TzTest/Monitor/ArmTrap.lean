import TzTest.Exceptions
import TzTest.Library.Nesting
import TzTest.Monitor.ArmSwitch

/-!
# Undefined instructions on ARM

`el1_undef_vect`, from the interrupted code to the `rfefd` that resumes it.  It
is the only vector on ARM whose handler comes back.  In undefined mode, the
handler may meet undefined instructions of its own.
-/

namespace TzTest.Arm

open Cpu Slots Nesting

/-- `__set_exception_return` -/
def setExceptionReturn (c : Cpu) : Cpu :=
  bx .lr c

/-- `srsdb sp!, #CPSR_M_UND` -/
def srsdbUnd (c : Cpu) : Cpu :=
  let addr := c.regs (.sp .und) - 8
  ((c.store addr (c.regs (.lr c.mode))).store (addr + 4)
    (c.regs (.spsr c.mode))).set (.sp .und) addr

/-- `EC_UNKNOWN` -/
def ecUnknown : BitVec 32 := 0

/-- `el1_undef_vect`, up to and with its call of `el1_handle_exception`; `dfsr`
and `dfar` are in the registers of the system control coprocessor. -/
def undefVect (dfsr dfar link : BitVec 32) (c : Cpu) : Cpu :=
  let c := srsdbUnd c
  let c := push [.r 0, .r 1, .r 2, .r 3] c
  let c := c.set (.r 0) ecUnknown
  let c := c.set (.r 1) dfsr
  let c := c.set (.r 2) dfar
  let c := c.set (.r 3) (c.mem (c.regs (.sp c.mode) + 16))
  bl link c

/-- What follows the call. -/
def undefReturn (c : Cpu) : Cpu :=
  rfefdWriteback (pop [.r 0, .r 1, .r 2, .r 3] c)

/-- The processor, the memory and `syncntl->excp`. -/
structure Machine where
  cpu : Cpu
  excp : SysException

/-- An undefined instruction of four bytes at `pc`, and what the linker and the
compiler have decided for its handler. -/
structure Exception where
  interrupted : Machine
  world : World
  pc : BitVec 32
  cpsr : BitVec 32
  dfsr : BitVec 32
  dfar : BitVec 32
  link : BitVec 32
  /-- The size of the handler's frame. -/
  size : Nat

namespace Exception

variable (e : Exception)

/-- The processor has taken the exception; the link register is already past
the instruction. -/
def taken : Cpu :=
  { (e.interrupted.cpu.set (.lr .und) (e.pc + 4)).set (.spsr .und) e.cpsr with
    mode := .und }

/-- The call of the handler. -/
def call : Cpu :=
  undefVect e.dfsr e.dfar e.link e.taken

def top : BitVec 32 :=
  e.interrupted.cpu.regs (.sp .und)

/-- The words that the vector pushes. -/
def pushed : Set (BitVec 32) :=
  { addr | ∃ depth, 0 < depth ∧ depth ≤ 6 ∧ addr = frame e.top depth }

/-- What `el1_handle_exception` does with the record and with its variable
`elr`. -/
def handle (excp : SysException) : SysException × Option (BitVec 32) :=
  let ec : Word .arm := e.call.regs (.r 0)
  let iss : Word .arm := e.call.regs (.r 1)
  let far : Word .arm := e.call.regs (.r 2)
  let elr : Word .arm := e.call.regs (.r 3)
  el1HandleException e.world ec iss far elr excp

end Exception

/-- The handler has made its frame and written the record. -/
structure Entry (kept : Set (BitVec 32)) (e : Exception) (entered : Machine) :
    Prop where
  room : 4 * 6 + e.size ≤ e.top.toNat
  record : entered.excp = (e.handle e.interrupted.excp).1
  mode : entered.cpu.mode = .und
  sp : entered.cpu.regs (.sp .und) =
    e.call.regs (.sp .und) - BitVec.ofNat 32 e.size
  kept : ∀ addr ∈ e.pushed ∪ kept, entered.cpu.mem addr = e.call.mem addr

/-- `__set_exception_return(resume)` at the end of the handler. -/
def resumeAt (resume : BitVec 32) (c : Cpu) : Cpu :=
  setExceptionReturn (c.set (.r 0) resume)

/-- The handler calls `__set_exception_return`, takes its frame down and
returns. -/
structure Exit (kept : Set (BitVec 32)) (e : Exception) (leaving : Machine)
    (resume : BitVec 32) (back : Cpu) : Prop where
  address : (e.handle leaving.excp).2 = some resume
  mode : back.mode = (resumeAt resume leaving.cpu).mode
  sp : back.regs (.sp .und) =
    (resumeAt resume leaving.cpu).regs (.sp .und) + BitVec.ofNat 32 e.size
  kept : ∀ addr ∈ e.pushed ∪ kept,
    back.mem addr = (resumeAt resume leaving.cpu).mem addr

/-- C code in undefined mode, called from the handler. -/
structure Code (kept : Set (BitVec 32)) (before after : Machine) : Prop where
  mode : after.cpu.mode = before.cpu.mode
  kept : ∀ addr ∈ kept, after.cpu.mem addr = before.cpu.mem addr
  action : after.excp.action = before.excp.action

/-- The stack of undefined mode. -/
def undefStack : Stack Machine (BitVec 32) 32 where
  sp m := m.cpu.regs (.sp .und)
  mem m := m.cpu.mem

/-- How undefined instructions are served. -/
def undefService : Service Machine Exception 32 where
  Code := Code
  words := Exception.pushed
  Enters kept e m entered := e.interrupted = m ∧ Entry kept e entered
  Leaves kept e leaving after :=
    ∃ resume back, Exit kept e leaving resume back ∧
      after = { leaving with cpu := undefReturn back }

/-- An undefined instruction, up to the `rfefd` that resumes the code. -/
structure Trap where
  exception : Exception
  entered : Machine
  /-- The undefined instructions that the handler meets. -/
  nested : List Exception
  leaving : Machine
  resume : BitVec 32
  /-- The handler has returned. -/
  back : Cpu
  entry : Entry ∅ exception entered
  body : Nesting.Serves undefStack undefService exception.pushed
    (frame exception.top 6 - BitVec.ofNat 32 exception.size) nested entered leaving
  exit : Exit ∅ exception leaving resume back

/-- The code is resumed. -/
def Trap.final (trap : Trap) : Cpu :=
  undefReturn trap.back

section Frame

variable {e : Exception} {kept : Set (BitVec 32)}

/-- The call of the handler. -/
structure Pushed (e : Exception) : Prop where
  mem : e.call.mem =
    updates e.interrupted.cpu.mem
      [(frame e.top 2, e.pc + 4), (frame e.top 1, e.cpsr),
        (frame e.top 6, e.interrupted.cpu.regs (.r 0)),
        (frame e.top 5, e.interrupted.cpu.regs (.r 1)),
        (frame e.top 4, e.interrupted.cpu.regs (.r 2)),
        (frame e.top 3, e.interrupted.cpu.regs (.r 3))]
  sp : e.call.regs (.sp .und) = frame e.top 6
  ec : e.call.regs (.r 0) = ecUnknown

theorem Exception.pushes (e : Exception) : Pushed e := by
  have top : e.interrupted.cpu.regs (.sp .und) = e.top := rfl
  have second : e.top - 8#32 = frame e.top 2 := rfl
  have sixth : frame e.top 2 - 16#32 = frame e.top 6 := by
    unfold frame
    grind
  have first : frame e.top 2 + 4#32 = frame e.top 1 := frame_succ e.top 1
  have fifth : frame e.top 6 + 4#32 = frame e.top 5 := frame_succ e.top 5
  have fourth : frame e.top 5 + 4#32 = frame e.top 4 := frame_succ e.top 4
  have third : frame e.top 4 + 4#32 = frame e.top 3 := frame_succ e.top 3
  constructor
  · simp [Exception.call, undefVect, srsdbUnd, push, storeMultiple, wordsFrom,
      saved, Exception.taken, bl, Cpu.set, store, Operand.reg, updates_cons, top,
      second, sixth, first, fifth, fourth, third]
  · simp [Exception.call, undefVect, srsdbUnd, push, storeMultiple,
      Exception.taken, bl, Cpu.set, store, Operand.reg, top, second, sixth]
  · simp [Exception.call, undefVect, bl, Cpu.set]

/-- The vector takes its frame down. -/
structure Popped (top : BitVec 32) (back final : Cpu) : Prop where
  mem : final.mem = back.mem
  sp : final.regs (.sp .und) = top
  mode : final.mode = back.mode
  pc : final.regs .pc = back.mem (frame top 2)
  cpsr : final.regs .cpsr = back.mem (frame top 1)

theorem undefReturn_popped {back : Cpu} {top : BitVec 32}
    (mode : back.mode = .und) (sp : back.regs (.sp .und) = frame top 6) :
    Popped top back (undefReturn back) := by
  have second : frame top 6 + 16#32 = frame top 2 := by
    unfold frame
    grind
  have first : frame top 2 + 4#32 = frame top 1 := frame_succ top 1
  have up : frame top 2 + 8#32 = top := by
    unfold frame
    grind
  constructor <;>
    simp [undefReturn, rfefdWriteback, pop, loadMultiple, restored, wordsFrom,
      updates_cons, Cpu.set, Operand.reg, mode, sp, second, first, up]

end Frame

section Handler

variable {kept : Set (BitVec 32)} {e : Exception} {entered leaving : Machine}
  {resume : BitVec 32} {back : Cpu}

theorem frame_toNat {top : BitVec 32} {depth : Nat}
    (room : 4 * depth ≤ top.toNat) :
    (frame top depth).toNat = top.toNat - 4 * depth := by
  have wide := top.isLt
  have small : 4 * depth % 2 ^ 32 = 4 * depth := Nat.mod_eq_of_lt (by omega)
  rw [frame, BitVec.toNat_sub_of_le, BitVec.toNat_ofNat, small]
  rw [BitVec.le_def, BitVec.toNat_ofNat, small]
  exact room

/-- The bottom of the handler's frame. -/
def Exception.bottom (e : Exception) : BitVec 32 :=
  frame e.top 6 - BitVec.ofNat 32 e.size

theorem Entry.sp_eq (entry : Entry kept e entered) :
    entered.cpu.regs (.sp .und) = e.bottom := by
  rw [entry.sp, e.pushes.sp]
  rfl

theorem Entry.bottom_toNat (entry : Entry kept e entered) :
    e.bottom.toNat = e.top.toNat - 24 - e.size := by
  have room := entry.room
  have wide := e.top.isLt
  have pushes := @frame_toNat e.top 6 (by omega)
  have small : e.size % 2 ^ 32 = e.size := Nat.mod_eq_of_lt (by omega)
  rw [Exception.bottom, BitVec.toNat_sub_of_le, BitVec.toNat_ofNat, small, pushes]
  rw [BitVec.le_def, BitVec.toNat_ofNat, small, pushes]
  omega

theorem Entry.pushed_toNat (entry : Entry kept e entered) {addr : BitVec 32}
    (member : addr ∈ e.pushed) :
    e.bottom.toNat ≤ addr.toNat ∧ addr.toNat < e.top.toNat := by
  obtain ⟨depth, deep, shallow, rfl⟩ := member
  have room := entry.room
  have pushes := @frame_toNat e.top depth (by omega)
  have bottom := entry.bottom_toNat
  omega

theorem Exception.mem_call (entry : Entry kept e entered) {addr : BitVec 32}
    (above : e.top.toNat ≤ addr.toNat) :
    e.call.mem addr = e.interrupted.cpu.mem addr := by
  have outside {depth : Nat} (deep : 0 < depth) (shallow : depth ≤ 6) :
      addr ≠ frame e.top depth := by
    rintro rfl
    have := (entry.pushed_toNat ⟨depth, deep, shallow, rfl⟩).2
    omega
  rw [e.pushes.mem]
  apply updates_of_not_mem
  simp [outside]

/-- The handler is back in its vector. -/
structure Returned (kept : Set (BitVec 32)) (e : Exception) (back : Cpu) :
    Prop where
  mode : back.mode = .und
  sp : back.regs (.sp .und) = frame e.top 6
  kept : ∀ addr ∈ e.pushed ∪ kept, back.mem addr = e.call.mem addr

/-- The handler's return address has no part in this. -/
theorem Exit.returned (exit : Exit kept e leaving resume back)
    (entry : Entry kept e entered)
    (sameSp : leaving.cpu.regs (.sp .und) = entered.cpu.regs (.sp .und))
    (sameMem : ∀ addr ∈ e.pushed ∪ kept,
      leaving.cpu.mem addr = entered.cpu.mem addr)
    (mode : leaving.cpu.mode = .und) : Returned kept e back := by
  constructor
  · exact exit.mode.trans mode
  · have sp : (resumeAt resume leaving.cpu).regs (.sp .und) = e.bottom := by
      simp [resumeAt, setExceptionReturn, bx, Cpu.set, sameSp, entry.sp_eq]
    rw [exit.sp, sp]
    exact BitVec.sub_add_cancel ..
  · intro addr member
    calc
      back.mem addr = leaving.cpu.mem addr := exit.kept addr member
      _ = entered.cpu.mem addr := sameMem addr member
      _ = e.call.mem addr := entry.kept addr member

theorem undefService_lawful :
    undefService.Lawful undefStack (fun m => m.cpu.mode = .und) where
  stays step mode := step.mode.trans mode
  begins enters _ := enters.2.mode
  ends := by
    rintro kept e leaving after ⟨resume, back, exit, rfl⟩ mode
    exact exit.mode.trans mode
  code step := step.kept
  frame := by
    rintro kept e before entered ⟨rfl, entry⟩
    have bottom : undefStack.sp entered = e.bottom := entry.sp_eq
    rw [bottom]
    refine ⟨fun addr member => (entry.pushed_toNat member).1, ?_⟩
    have lower := entry.bottom_toNat
    change _ ≤ e.top.toNat
    omega
  enters := by
    rintro kept e before entered ⟨rfl, entry⟩ above addr member
    exact (entry.kept addr (Set.mem_union_right _ member)).trans
      (e.mem_call entry (above addr member))
  leaves := by
    rintro kept e before entered leaving after ⟨rfl, entry⟩ above sameSp sameMem
      mode ⟨resume, back, exit, rfl⟩
    have returned := exit.returned entry sameSp sameMem mode
    have popped := undefReturn_popped returned.mode returned.sp
    refine ⟨popped.sp, ?_⟩
    intro addr member
    have inFrames : addr ∈ e.pushed ∪ kept := Set.mem_union_right _ member
    calc
      (undefReturn back).mem addr = back.mem addr := congrFun popped.mem addr
      _ = e.call.mem addr := returned.kept addr inFrames
      _ = entered.cpu.mem addr := (entry.kept addr inFrames).symm
      _ = leaving.cpu.mem addr := (sameMem addr inFrames).symm

end Handler

section Trapped

variable (trap : Trap)

theorem Trap.returned : Returned ∅ trap.exception trap.back := by
  have entry := trap.entry
  have lawful := undefService_lawful
  have bottom : undefStack.sp trap.entered = trap.exception.bottom := entry.sp_eq
  obtain ⟨sp, words⟩ := trap.body.keeps lawful
    (fun addr member => (entry.pushed_toNat member).1)
    (Nat.le_of_eq (congrArg BitVec.toNat bottom)) entry.mode
  have ends :=
    trap.body.invariant lawful.stays lawful.begins lawful.ends entry.mode
  refine trap.exit.returned entry (sp.trans entry.sp_eq.symm) ?_ ends
  rw [Set.union_empty]
  exact words

theorem Trap.final_pc : trap.final.regs .pc = trap.exception.pc + 4 := by
  have returned := trap.returned
  have popped := undefReturn_popped returned.mode returned.sp
  have pushed : frame trap.exception.top 2 ∈ trap.exception.pushed ∪ ∅ :=
    Or.inl ⟨2, by decide, by decide, rfl⟩
  have apart {depth : Nat} (shallow : depth < 7) (other : depth ≠ 2) :
      frame trap.exception.top 2 ≠ frame trap.exception.top depth :=
    fun same => other (frame_inj (by decide) shallow same).symm
  refine (popped.pc.trans (returned.kept _ pushed)).trans ?_
  rw [trap.exception.pushes.mem]
  simp [updates_cons, apart]

end Trapped

section Plain

variable (e : Exception)

/-- A handler that only makes its frame. -/
def Exception.enter : Machine where
  cpu := e.call.set (.sp .und) (e.call.regs (.sp .und) - BitVec.ofNat 32 e.size)
  excp := (e.handle e.interrupted.excp).1

def Exception.leave (resume : BitVec 32) : Cpu :=
  let resumed := resumeAt resume e.enter.cpu
  resumed.set (.sp .und) (resumed.regs (.sp .und) + BitVec.ofNat 32 e.size)

variable {e}

theorem entry_enter (room : 4 * 6 + e.size ≤ e.top.toNat) :
    Entry ∅ e e.enter :=
  ⟨room, rfl, rfl, regs_set_self _ _ _, fun _ _ => rfl⟩

/-- The instruction is served without another one. -/
def Exception.trap (room : 4 * 6 + e.size ≤ e.top.toNat) {resume : BitVec 32}
    (resumes : (e.handle e.enter.excp).2 = some resume) : Trap where
  exception := e
  entered := e.enter
  nested := []
  leaving := e.enter
  resume := resume
  back := e.leave resume
  entry := entry_enter room
  body := .done (entry_enter room).sp_eq
  exit := ⟨resumes, rfl, regs_set_self _ _ _, fun _ _ => rfl⟩

end Plain

/-- An undefined instruction at `0x8000`, with no action asked for. -/
def undefined : Exception where
  interrupted :=
    { cpu :=
        { regs := Function.update (fun _ => 0) (.sp .und) 0x9000
          mode := .svc
          mem := fun _ => 0 }
      excp := SysException.zeroed }
  world := .nonsecure
  pc := 0x8000
  cpsr := 0x13
  dfsr := 0
  dfar := 0
  link := 0
  size := 16

def undefTrap : Trap :=
  @Exception.trap undefined (by decide) 0x8008 (by decide)

end TzTest.Arm
