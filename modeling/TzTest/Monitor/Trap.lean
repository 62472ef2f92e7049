import TzTest.Library.Nesting
import TzTest.Monitor.ExceptionRecord

/-!
# Trapped instructions on AArch64

A synchronous exception that is no system call, on any of the four vectors of
EL1 and EL3, from the interrupted code to the `eret` that resumes it.  The
handler may take exceptions of its own, which end in the vector of the current
level.
-/

namespace TzTest.Aarch64

open Cpu Slots Nesting

/-- What follows the call in `el3_sync_exception_current`, up to the `eret`. -/
def currentReturn (c : Cpu) : Cpu :=
  let c := ldpPop (.x 0) (.x 1) c
  let c := ldpPop (.x 2) (.x 3) c
  ldrPop (.x 30) c

/-- What follows the call of `el3_handle_exception` in
`el3_sync_exception_lower64`, up to the `eret`. -/
def lower64Resume (c : Cpu) : Cpu :=
  let c := ldpPop (.x 0) (.x 1) c
  let c := ldrPop (.x 2) c
  let c := mov .spsrEl3 (.x 2) c
  let c := ldpPop (.x 2) (.x 3) c
  ldrPop (.x 30) c

/-- `__set_exception_return`; `currentel` reads as EL3, and no comparison leads
away from `__set_exception_return_el3`. -/
def setExceptionReturn (c : Cpu) : Cpu :=
  let c := strPush (.x 30) c
  let c := c.set (.x 7) 0xc
  let c := mov .elrEl3 (.x 0) c
  ldrPop (.x 30) c

namespace SyncVector

/-- The stack pointer of the vector's level. -/
def sp : SyncVector → Reg
  | el1Current _ => .spEl1
  | el1Lower64 _ => .spEl1
  | el3Current => .spEl3
  | el3Lower64 => .spEl3

def elr : SyncVector → Reg
  | el1Current _ => .elrEl1
  | el1Lower64 _ => .elrEl1
  | el3Current => .elrEl3
  | el3Lower64 => .elrEl3

def spsr : SyncVector → Reg
  | el1Current _ => .spsrEl1
  | el1Lower64 _ => .spsrEl1
  | el3Current => .spsrEl3
  | el3Lower64 => .spsrEl3

/-- The vector of the exceptions that the handler takes itself. -/
def current : SyncVector → SyncVector
  | el1Current world => el1Current world
  | el1Lower64 world => el1Current world
  | el3Current => el3Current
  | el3Lower64 => el3Current

/-- Which stack pointer is selected, and those of the other levels. -/
def others : SyncVector → List Reg
  | el1Current _ => [.spsel, .spEl0, .spEl3]
  | el1Lower64 _ => [.spsel, .spEl0, .spEl3]
  | el3Current => [.spsel, .spEl0, .spEl1]
  | el3Lower64 => [.spsel, .spEl0, .spEl1]

/-- The registers that C code of the level does not write. -/
def notInC (vector : SyncVector) : List Reg :=
  vector.spsr :: vector.others

/-- The processor takes an exception; at EL3, it selects the stack pointer. -/
def raise (vector : SyncVector) (pc pstate : BitVec 64) (c : Cpu) : Cpu :=
  match vector with
  | el1Current _ => (c.set .elrEl1 pc).set .spsrEl1 pstate
  | el1Lower64 _ => (c.set .elrEl1 pc).set .spsrEl1 pstate
  | el3Current => ((c.set .elrEl3 pc).set .spsrEl3 pstate).set .spsel 1
  | el3Lower64 => ((c.set .elrEl3 pc).set .spsrEl3 pstate).set .spsel 1

/-- What follows the call, up to the `eret`. -/
def exit (vector : SyncVector) (c : Cpu) : Cpu :=
  match vector with
  | el1Current _ => El1.currentReturn c
  | el1Lower64 _ => El1.lower64Done c
  | el3Current => currentReturn c
  | el3Lower64 => lower64Resume c

/-- `__set_exception_return(resume)` at the end of the handler. -/
def resumeAt (vector : SyncVector) (resume : BitVec 64) (c : Cpu) : Cpu :=
  match vector with
  | el1Current _ => El1.setExceptionReturn (c.set (.x 0) resume)
  | el1Lower64 _ => El1.setExceptionReturn (c.set (.x 0) resume)
  | el3Current => setExceptionReturn (c.set (.x 0) resume)
  | el3Lower64 => setExceptionReturn (c.set (.x 0) resume)

/-- What the handler makes of its variable `elr`; there is nothing to resume
where it shuts down. -/
def returnAddress (vector : SyncVector) (call : Cpu) (elr : BitVec 64)
    (excp : SysException) : Option (BitVec 64) :=
  let ec : Word .aarch64 := call.regs (.x 0)
  let iss : Word .aarch64 := call.regs (.x 1)
  let far : Word .aarch64 := call.regs (.x 2)
  match vector with
  | el1Current world => (el1HandleException world ec iss far elr excp).2
  | el1Lower64 world => (el1HandleException world ec iss far elr excp).2
  | el3Current => (el3HandleException ec iss far elr excp).2
  | el3Lower64 => (el3HandleException ec iss far elr excp).2

/-- The words that the vector pushes, by depth. -/
def layout : SyncVector → List (Nat × Reg)
  | el1Current _ => [(1, .x 30), (3, .x 2), (2, .x 3), (5, .x 0), (4, .x 1)]
  | el1Lower64 _ =>
      [(1, .x 30), (3, .x 2), (2, .x 3), (4, .spsrEl1), (6, .x 0), (5, .x 1)]
  | el3Current => [(1, .x 30), (3, .x 2), (2, .x 3), (5, .x 0), (4, .x 1)]
  | el3Lower64 =>
      [(1, .x 30), (3, .x 2), (2, .x 3), (4, .spsrEl3), (6, .x 0), (5, .x 1)]

/-- How many they are. -/
def depth (vector : SyncVector) : Nat :=
  vector.layout.length

/-- The level's own stack pointer is selected. -/
def Selected : SyncVector → Cpu → Prop
  | el1Current _, _ => True
  | el1Lower64 _, _ => True
  | el3Current, c => c.regs .spsel = 1
  | el3Lower64, c => c.regs .spsel = 1

/-- The vector pops `x0`.  The tail that `el1_sync_exception_lower64` shares
with the SVC does not. -/
def RestoresX0 : SyncVector → Prop
  | el1Current _ => True
  | el1Lower64 _ => False
  | el3Current => True
  | el3Lower64 => True

/-- The vector saves `SPSR` and restores it. -/
def RestoresPstate : SyncVector → Prop
  | el1Current _ => False
  | el1Lower64 _ => True
  | el3Current => False
  | el3Lower64 => True

end SyncVector

/-- The processor, the memory and `syncntl->excp`. -/
structure Machine where
  cpu : Cpu
  excp : SysException

/-- An exception, and what the linker and the compiler have decided for its
handler. -/
structure Exception where
  interrupted : Machine
  esr : U32
  far : BitVec 64
  /-- The preferred return address. -/
  pc : BitVec 64
  pstate : BitVec 64
  link : BitVec 64
  locals : El1.Locals

namespace Exception

variable (vector : SyncVector) (e : Exception)

/-- The exception has been taken. -/
def taken : Cpu :=
  vector.raise e.pc e.pstate e.interrupted.cpu

/-- The call of the handler. -/
def call : Cpu :=
  El1.bl e.link (vector.entry e.esr e.far (e.taken vector))

def top : BitVec 64 :=
  e.interrupted.cpu.regs vector.sp

/-- The bottom of the handler's frame. -/
def bottom : BitVec 64 :=
  frame (e.top vector) vector.depth - BitVec.ofNat 64 e.locals.size

/-- The frame of the vector. -/
def pushed : Set (BitVec 64) :=
  { addr | ∃ word ∈ vector.layout, addr = frame (e.top vector) word.1 }

/-- The address of the handler's variable `elr` while the stack pointer is at the
bottom of its frame. -/
def slot (c : Cpu) : BitVec 64 :=
  c.regs vector.sp + BitVec.ofNat 64 e.locals.elr

/-- What the return from the exception needs. -/
def words : Set (BitVec 64) :=
  insert (e.bottom vector + BitVec.ofNat 64 e.locals.elr) (e.pushed vector)

end Exception

/-- The handler has made its frame, stored its arguments there and written the
record. -/
structure Entry (vector : SyncVector) (kept : Set (BitVec 64)) (e : Exception)
    (entered : Machine) : Prop where
  room : 8 * (vector.depth + 1) + e.locals.size ≤ (e.top vector).toNat
  record : entered.excp = vector.handle (e.call vector) e.interrupted.excp
  sp : entered.cpu.regs vector.sp =
    (e.call vector).regs vector.sp - BitVec.ofNat 64 e.locals.size
  elr : entered.cpu.mem (e.slot vector entered.cpu) = (e.call vector).regs (.x 3)
  kept : ∀ addr ∈ e.pushed vector ∪ kept,
    entered.cpu.mem addr = (e.call vector).mem addr
  notInC : ∀ reg ∈ vector.notInC,
    entered.cpu.regs reg = (e.call vector).regs reg

/-- The handler sets the return address, takes its frame down and returns. -/
structure Exit (vector : SyncVector) (kept : Set (BitVec 64)) (e : Exception)
    (leaving : Machine) (resume : BitVec 64) (back : Cpu) : Prop where
  address : vector.returnAddress (e.call vector)
    (leaving.cpu.mem (e.slot vector leaving.cpu)) leaving.excp = some resume
  sp : back.regs vector.sp =
    (vector.resumeAt resume leaving.cpu).regs vector.sp +
      BitVec.ofNat 64 e.locals.size
  elr : back.regs vector.elr =
    (vector.resumeAt resume leaving.cpu).regs vector.elr
  kept : ∀ addr ∈ e.pushed vector ∪ kept,
    back.mem addr = (vector.resumeAt resume leaving.cpu).mem addr
  notInC : ∀ reg ∈ vector.notInC,
    back.regs reg = (vector.resumeAt resume leaving.cpu).regs reg

/-- C code of the vector's level, called from the handler. -/
structure Code (vector : SyncVector) (kept : Set (BitVec 64))
    (before after : Machine) : Prop where
  kept : ∀ addr ∈ kept, after.cpu.mem addr = before.cpu.mem addr
  notInC : ∀ reg ∈ vector.notInC, after.cpu.regs reg = before.cpu.regs reg
  action : after.excp.action = before.excp.action

namespace SyncVector

/-- The stack of the vector's level. -/
def stack (vector : SyncVector) : Stack Machine (BitVec 64) 64 where
  sp m := m.cpu.regs vector.sp
  mem m := m.cpu.mem

/-- How exceptions to the vector are served. -/
def service (vector : SyncVector) : Service Machine Exception 64 where
  Code := Code vector
  words := Exception.words vector
  Enters kept e m entered := e.interrupted = m ∧ Entry vector kept e entered
  Leaves kept e leaving after :=
    ∃ resume back, Exit vector kept e leaving resume back ∧
      after = { leaving with cpu := vector.exit back }

end SyncVector

/-- An exception that is no system call, up to the `eret`. -/
structure Trap (vector : SyncVector) where
  exception : Exception
  entered : Machine
  /-- The exceptions that the handler takes. -/
  nested : List Exception
  leaving : Machine
  resume : BitVec 64
  /-- The handler has returned. -/
  back : Cpu
  noCall : ¬vector.SystemCall exception.esr
  entry : Entry vector ∅ exception entered
  body : Nesting.Serves vector.current.stack vector.current.service
    (exception.words vector) (exception.bottom vector) nested entered leaving
  exit : Exit vector ∅ exception leaving resume back

namespace Trap

variable {vector : SyncVector}

/-- At the `eret`. -/
def final (trap : Trap vector) : Cpu :=
  vector.exit trap.back

/-- What the interrupted code can see of its registers. -/
structure Transparent (trap : Trap vector) : Prop where
  regs : ∀ reg ∈ [Reg.x 0, .x 1, .x 2, .x 3, .x 30, .spEl0, .spEl1, .spEl3],
    trap.final.regs reg = trap.exception.interrupted.cpu.regs reg
  pstate : trap.final.regs vector.spsr = trap.exception.pstate

end Trap

section Frame

/-- The call of the handler. -/
structure Pushed (vector : SyncVector) (e : Exception) : Prop where
  mem : (e.call vector).mem =
    updates e.interrupted.cpu.mem (vector.layout.map fun word =>
      (frame (e.top vector) word.1, (e.taken vector).regs word.2))
  sp : (e.call vector).regs vector.sp = frame (e.top vector) vector.depth
  elr : (e.call vector).regs (.x 3) = e.pc
  notInC : ∀ reg ∈ vector.notInC,
    (e.call vector).regs reg = (e.taken vector).regs reg

theorem Exception.pushes (vector : SyncVector) (e : Exception) :
    Pushed vector e := by
  obtain ⟨first, third, second, fourth, fifth, fourth', sixth, fifth'⟩ :=
    El1.frame_words (e.top vector)
  cases vector with
  | el1Current world =>
      constructor
      · simp only [SyncVector.layout, List.map_cons, List.map_nil]
        rw [first, third, second, fifth, fourth']
        simp [Exception.call, Exception.taken, Exception.top, SyncVector.raise,
          SyncVector.sp, SyncVector.entry, El1.bl, El1.currentEntry,
          El1.syndrome, El1.strPush, El1.stpPush, mov, Cpu.set, store,
          updates_cons]
      · simp [SyncVector.depth, SyncVector.layout, fifth]
        simp [Exception.call, Exception.taken, Exception.top, SyncVector.raise,
          SyncVector.sp, SyncVector.entry, El1.bl, El1.currentEntry,
          El1.syndrome, El1.strPush, El1.stpPush, mov, Cpu.set, store]
      · simp [Exception.call, Exception.taken, SyncVector.raise,
          SyncVector.entry, El1.bl, El1.currentEntry, mov, Cpu.set, store,
          El1.syndrome, El1.strPush, El1.stpPush]
      · simp [SyncVector.notInC, SyncVector.spsr, SyncVector.others, Exception.call, SyncVector.entry, El1.bl,
          El1.currentEntry, El1.syndrome, El1.strPush, El1.stpPush, mov, Cpu.set,
          store]
  | el1Lower64 world =>
      constructor
      · simp only [SyncVector.layout, List.map_cons, List.map_nil]
        rw [first, third, second, fourth, sixth, fifth']
        simp [Exception.call, Exception.taken, Exception.top, SyncVector.raise,
          SyncVector.sp, SyncVector.entry, El1.bl, El1.lower64Entry,
          El1.syndrome, El1.strPush, El1.stpPush, mov, Cpu.set, store,
          updates_cons]
      · simp [SyncVector.depth, SyncVector.layout, sixth]
        simp [Exception.call, Exception.taken, Exception.top, SyncVector.raise,
          SyncVector.sp, SyncVector.entry, El1.bl, El1.lower64Entry,
          El1.syndrome, El1.strPush, El1.stpPush, mov, Cpu.set, store]
      · simp [Exception.call, Exception.taken, SyncVector.raise,
          SyncVector.entry, El1.bl, El1.lower64Entry, mov, Cpu.set, store,
          El1.syndrome, El1.strPush, El1.stpPush]
      · simp [SyncVector.notInC, SyncVector.spsr, SyncVector.others, Exception.call, SyncVector.entry, El1.bl,
          El1.lower64Entry, El1.syndrome, El1.strPush, El1.stpPush, mov, Cpu.set,
          store]
  | el3Current =>
      constructor
      · simp only [SyncVector.layout, List.map_cons, List.map_nil]
        rw [first, third, second, fifth, fourth']
        simp [Exception.call, Exception.taken, Exception.top, SyncVector.raise,
          SyncVector.sp, SyncVector.entry, El1.bl, currentEntry, strPush,
          stpPush, mov, Cpu.set, store, Cpu.sp, updates_cons]
      · simp [SyncVector.depth, SyncVector.layout, fifth]
        simp [Exception.call, Exception.taken, Exception.top, SyncVector.raise,
          SyncVector.sp, SyncVector.entry, El1.bl, currentEntry, strPush,
          stpPush, mov, Cpu.set, store, Cpu.sp]
      · simp [Exception.call, Exception.taken, SyncVector.raise,
          SyncVector.entry, El1.bl, currentEntry, strPush, stpPush, mov, Cpu.set,
          store, Cpu.sp]
      · simp [SyncVector.notInC, SyncVector.spsr, SyncVector.others, Exception.call, Exception.taken,
          SyncVector.raise, SyncVector.entry, El1.bl, currentEntry, strPush,
          stpPush, mov, Cpu.set, store, Cpu.sp]
  | el3Lower64 =>
      constructor
      · simp only [SyncVector.layout, List.map_cons, List.map_nil]
        rw [first, third, second, fourth, sixth, fifth']
        simp [Exception.call, Exception.taken, Exception.top, SyncVector.raise,
          SyncVector.sp, SyncVector.entry, El1.bl, lower64Entry, strPush,
          stpPush, mov, Cpu.set, store, Cpu.sp, updates_cons]
      · simp [SyncVector.depth, SyncVector.layout, sixth]
        simp [Exception.call, Exception.taken, Exception.top, SyncVector.raise,
          SyncVector.sp, SyncVector.entry, El1.bl, lower64Entry, strPush,
          stpPush, mov, Cpu.set, store, Cpu.sp]
      · simp [Exception.call, Exception.taken, SyncVector.raise,
          SyncVector.entry, El1.bl, lower64Entry, strPush, stpPush, mov, Cpu.set,
          store, Cpu.sp]
      · simp [SyncVector.notInC, SyncVector.spsr, SyncVector.others, Exception.call, Exception.taken,
          SyncVector.raise, SyncVector.entry, El1.bl, lower64Entry, strPush,
          stpPush, mov, Cpu.set, store, Cpu.sp]

theorem currentReturn_eq {c : Cpu} {top : BitVec 64} (onEl3 : c.regs .spsel = 1)
    (sp : c.regs .spEl3 = frame top 5) :
    currentReturn c =
      { c with
        regs := updates c.regs
          [(.x 0, c.mem (frame top 5)), (.x 1, c.mem (frame top 4)),
            (.x 2, c.mem (frame top 3)), (.x 3, c.mem (frame top 2)),
            (.x 30, c.mem (frame top 1)), (.spEl3, top)] } := by
  obtain ⟨_, _, fourth, third, _, second, first, zero⟩ := El1.frame_pops top
  simp [currentReturn, ldpPop, ldrPop, Cpu.set, Cpu.sp, onEl3, sp, updates_cons]
  funext reg
  simp only [Function.update_apply]
  split_ifs <;> simp_all

theorem lower64Resume_eq {c : Cpu} {top : BitVec 64} (onEl3 : c.regs .spsel = 1)
    (sp : c.regs .spEl3 = frame top 6) :
    lower64Resume c =
      { c with
        regs := updates c.regs
          [(.x 0, c.mem (frame top 6)), (.x 1, c.mem (frame top 5)),
            (.spsrEl3, c.mem (frame top 4)), (.x 2, c.mem (frame top 3)),
            (.x 3, c.mem (frame top 2)), (.x 30, c.mem (frame top 1)),
            (.spEl3, top)] } := by
  obtain ⟨fifth, fourth, _, _, third, second, first, zero⟩ := El1.frame_pops top
  simp [lower64Resume, ldpPop, ldrPop, mov, Cpu.set, Cpu.sp, onEl3, sp,
    updates_cons]
  funext reg
  simp only [Function.update_apply]
  split_ifs <;> simp_all

/-- The vector takes its frame down. -/
structure Popped (vector : SyncVector) (top : BitVec 64) (back final : Cpu) :
    Prop where
  mem : final.mem = back.mem
  sp : final.regs vector.sp = top
  elr : final.regs vector.elr = back.regs vector.elr
  words : ∀ word ∈ vector.layout, vector.RestoresX0 ∨ word.2 ≠ .x 0 →
    final.regs word.2 = back.mem (frame top word.1)
  x0 : vector.RestoresX0 ∨ final.regs (.x 0) = back.regs (.x 0)
  spsr : vector.RestoresPstate ∨ final.regs vector.spsr = back.regs vector.spsr

theorem exit_popped (vector : SyncVector) {back : Cpu} {top : BitVec 64}
    (sp : back.regs vector.sp = frame top vector.depth)
    (selected : vector.Selected back) :
    Popped vector top back (vector.exit back) := by
  cases vector with
  | el1Current world =>
      have popped := El1.currentReturn_eq sp
      change Popped _ _ _ (El1.currentReturn back)
      rw [popped]
      constructor <;>
        simp [SyncVector.layout, SyncVector.sp, SyncVector.elr, SyncVector.spsr,
          SyncVector.RestoresX0, SyncVector.RestoresPstate, updates_cons]
  | el1Lower64 world =>
      have popped := El1.lower64Done_eq sp
      change Popped _ _ _ (El1.lower64Done back)
      rw [popped]
      constructor <;>
        simp [SyncVector.layout, SyncVector.sp, SyncVector.elr, SyncVector.spsr,
          SyncVector.RestoresX0, SyncVector.RestoresPstate, updates_cons]
  | el3Current =>
      have popped := currentReturn_eq selected sp
      change Popped _ _ _ (currentReturn back)
      rw [popped]
      constructor <;>
        simp [SyncVector.layout, SyncVector.sp, SyncVector.elr, SyncVector.spsr,
          SyncVector.RestoresX0, SyncVector.RestoresPstate, updates_cons]
  | el3Lower64 =>
      have popped := lower64Resume_eq selected sp
      change Popped _ _ _ (lower64Resume back)
      rw [popped]
      constructor <;>
        simp [SyncVector.layout, SyncVector.sp, SyncVector.elr, SyncVector.spsr,
          SyncVector.RestoresX0, SyncVector.RestoresPstate, updates_cons]

/-- `__set_exception_return` uses one word below the stack pointer. -/
structure Resumes (vector : SyncVector) (resume : BitVec 64) (c resumed : Cpu) :
    Prop where
  elr : resumed.regs vector.elr = resume
  sp : resumed.regs vector.sp = c.regs vector.sp
  mem : resumed.mem =
    Function.update c.mem (c.regs vector.sp - 8) (c.regs (.x 30))
  notInC : ∀ reg ∈ vector.notInC, resumed.regs reg = c.regs reg

theorem resumeAt_resumes (vector : SyncVector) (resume : BitVec 64) {c : Cpu}
    (selected : vector.Selected c) :
    Resumes vector resume c (vector.resumeAt resume c) := by
  cases vector with
  | el1Current world =>
      constructor <;>
        simp [SyncVector.resumeAt, SyncVector.elr, SyncVector.sp,
          SyncVector.notInC, SyncVector.spsr, SyncVector.others, El1.setExceptionReturn, El1.strPush, El1.ldrPop,
          mov, Cpu.set, store]
  | el1Lower64 world =>
      constructor <;>
        simp [SyncVector.resumeAt, SyncVector.elr, SyncVector.sp,
          SyncVector.notInC, SyncVector.spsr, SyncVector.others, El1.setExceptionReturn, El1.strPush, El1.ldrPop,
          mov, Cpu.set, store]
  | el3Current =>
      have onEl3 : c.regs .spsel = 1 := selected
      constructor <;>
        simp [SyncVector.resumeAt, SyncVector.elr, SyncVector.sp,
          SyncVector.notInC, SyncVector.spsr, SyncVector.others, setExceptionReturn, strPush, ldrPop, Cpu.sp, onEl3,
          mov, Cpu.set, store]
  | el3Lower64 =>
      have onEl3 : c.regs .spsel = 1 := selected
      constructor <;>
        simp [SyncVector.resumeAt, SyncVector.elr, SyncVector.sp,
          SyncVector.notInC, SyncVector.spsr, SyncVector.others, setExceptionReturn, strPush, ldrPop, Cpu.sp, onEl3,
          mov, Cpu.set, store]

end Frame

end TzTest.Aarch64
