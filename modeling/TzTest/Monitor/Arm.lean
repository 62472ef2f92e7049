import TzTest.El3
import TzTest.Library.Slots

/-!
# The ARM monitor

`el3_smc_vect`, `monitor_save_state`, `monitor_restore_state` and
`monitor_switch`, instruction by instruction.  The processor modes have their
own stack pointer and link register; memory is a function on the addresses of
words, which all accesses are to.
-/

namespace TzTest.Arm

instance registersNonzero : NeZero 13 := ⟨by decide⟩

/-- The processor modes that the monitor code visits. -/
inductive Mode where
  | sys
  | irq
  | svc
  | abt
  | und
  | mon
  deriving DecidableEq, Repr

/-- The registers, banked ones with their mode.  User mode has the stack
pointer and the link register of system mode. -/
inductive Reg where
  | r (number : Fin 13)
  | sp (mode : Mode)
  | lr (mode : Mode)
  | spsr (mode : Mode)
  | pc
  | cpsr
  | scr
  deriving DecidableEq, Repr

structure Cpu where
  regs : Reg → BitVec 32
  mode : Mode
  mem : BitVec 32 → BitVec 32

/-- A register as an instruction names it. -/
inductive Operand where
  | r (number : Fin 13)
  | sp
  | lr
  | spsr
  deriving DecidableEq, Repr

/-- The register that a mode has under the name. -/
def Operand.reg (mode : Mode) : Operand → Reg
  | .r number => .r number
  | .sp => .sp mode
  | .lr => .lr mode
  | .spsr => .spsr mode

/-- Consecutive words, one for each register. -/
def wordsFrom (addr : BitVec 32) : List Reg → List (Reg × BitVec 32)
  | [] => []
  | reg :: rest => (reg, addr) :: wordsFrom (addr + 4) rest

namespace Cpu

open Slots

def set (c : Cpu) (reg : Reg) (value : BitVec 32) : Cpu :=
  { c with regs := Function.update c.regs reg value }

def store (c : Cpu) (addr value : BitVec 32) : Cpu :=
  { c with mem := Function.update c.mem addr value }

@[simp] theorem regs_set_self (c : Cpu) (reg : Reg) (value : BitVec 32) :
    (c.set reg value).regs reg = value := by
  simp [Cpu.set]

theorem regs_set_of_ne {reg other : Reg} (different : other ≠ reg) (c : Cpu)
    (value : BitVec 32) : (c.set reg value).regs other = c.regs other := by
  simp [Cpu.set, different]

/-- `mov`; also `mrs` and `msr`, with the status register of the mode. -/
def mov (target source : Operand) (c : Cpu) : Cpu :=
  c.set (target.reg c.mode) (c.regs (source.reg c.mode))

def cps (mode : Mode) (c : Cpu) : Cpu :=
  { c with mode := mode }

/-- The registers are stored from `addr` on. -/
def storeMultiple (addr : BitVec 32) (list : List Operand) (c : Cpu) : Cpu :=
  { c with
    mem := updates c.mem
      (saved (wordsFrom addr (list.map (Operand.reg c.mode))) c.regs) }

/-- The registers are loaded from `addr` on. -/
def loadMultiple (addr : BitVec 32) (list : List Operand) (c : Cpu) : Cpu :=
  { c with
    regs := updates c.regs
      (restored (wordsFrom addr (list.map (Operand.reg c.mode))) c.mem) }

/-- `stmia r0!, {list}` -/
def stmia (list : List Operand) (c : Cpu) : Cpu :=
  (storeMultiple (c.regs (.r 0)) list c).set (.r 0)
    (c.regs (.r 0) + BitVec.ofNat 32 (4 * list.length))

/-- `ldmia r0!, {list}` -/
def ldmia (list : List Operand) (c : Cpu) : Cpu :=
  (loadMultiple (c.regs (.r 0)) list c).set (.r 0)
    (c.regs (.r 0) + BitVec.ofNat 32 (4 * list.length))

def push (list : List Operand) (c : Cpu) : Cpu :=
  let addr := c.regs (.sp c.mode) - BitVec.ofNat 32 (4 * list.length)
  (storeMultiple addr list c).set (.sp c.mode) addr

def pop (list : List Operand) (c : Cpu) : Cpu :=
  let addr := c.regs (.sp c.mode)
  (loadMultiple addr list c).set (.sp c.mode)
    (addr + BitVec.ofNat 32 (4 * list.length))

/-- `bl`, with the address of the instruction after it. -/
def bl (next : BitVec 32) (c : Cpu) : Cpu :=
  c.set (.lr c.mode) next

def bx (target : Operand) (c : Cpu) : Cpu :=
  c.set .pc (c.regs (target.reg c.mode))

/-- `srsdb sp!, #CPSR_M_MON` -/
def srsdb (c : Cpu) : Cpu :=
  let addr := c.regs (.sp .mon) - 8
  ((c.store addr (c.regs (.lr c.mode))).store (addr + 4)
    (c.regs (.spsr c.mode))).set (.sp .mon) addr

/-- `rfefd sp` -/
def rfefd (c : Cpu) : Cpu :=
  let addr := c.regs (.sp c.mode)
  (c.set .pc (c.mem addr)).set .cpsr (c.mem (addr + 4))

/-- `rfefd sp!` -/
def rfefdWriteback (c : Cpu) : Cpu :=
  let addr := c.regs (.sp c.mode)
  ((c.set .pc (c.mem addr)).set .cpsr (c.mem (addr + 4))).set (.sp c.mode)
    (addr + 8)

end Cpu

open Cpu

/-- The modes with a saved program status register that the save and restore
functions visit after system mode. -/
def bankedModes : List Mode := [.irq, .svc, .abt, .und]

/-- `cps`, `mrs r3, spsr` and `stmia r0!, {r3, sp, lr}` -/
def saveMode (c : Cpu) (mode : Mode) : Cpu :=
  stmia [.r 3, .sp, .lr] (mov (.r 3) .spsr (cps mode c))

/-- `cps`, `ldmia r0!, {r3, sp, lr}` and `msr spsr, r3` -/
def restoreMode (c : Cpu) (mode : Mode) : Cpu :=
  mov .spsr (.r 3) (ldmia [.r 3, .sp, .lr] (cps mode c))

/-- `{r4-r12}` -/
def highRegs : List Operand :=
  [.r 4, .r 5, .r 6, .r 7, .r 8, .r 9, .r 10, .r 11, .r 12]

/-- The stores of `monitor_save_state`. -/
def saveBody (c : Cpu) : Cpu :=
  let c := stmia [.sp, .lr] (cps .sys c)
  let c := bankedModes.foldl saveMode c
  let c := stmia [.r 1, .r 2] (cps .mon c)
  stmia highRegs c

def monitorSaveState (c : Cpu) : Cpu :=
  bx .lr (pop [.lr] (saveBody (push [.lr] c)))

/-- The loads of `monitor_restore_state`. -/
def restoreBody (c : Cpu) : Cpu :=
  let c := ldmia [.sp, .lr] (cps .sys c)
  let c := bankedModes.foldl restoreMode c
  let c := ldmia [.r 1, .r 2] (cps .mon c)
  ldmia highRegs c

def monitorRestoreState (c : Cpu) : Cpu :=
  let c := restoreBody (push [.lr] c)
  let c := mov (.r 0) (.r 2) (pop [.r 3] c)
  bx (.r 3) (push [.r 0, .r 1] c)

/-- What the linker decides: the addresses of the buffers, and those after the
calls of `el3_handle_smc`, and of `monitor_save_state` and
`monitor_restore_state` in the two halves of `monitor_switch`. -/
structure Link where
  secState : BitVec 32
  nsecState : BitVec 32
  handled : BitVec 32
  savedSec : BitVec 32
  savedNsec : BitVec 32
  restoredSec : BitVec 32
  restoredNsec : BitVec 32

/-- `SCR_NS` -/
def scrNsWord : BitVec 32 := scrNs .arm

/-- `monitor_switch`, up to and with its `rfefd sp`. -/
def monitorSwitch (link : Link) (c : Cpu) : Cpu :=
  let c := mov (.r 1) (.r 3) (push [.r 0, .r 1] (pop [.r 2, .r 3] c))
  let c := c.set (.r 3) (c.regs .scr)
  let c := c.set (.r 3) (c.regs (.r 3) &&& 0x1)
  let c :=
    if c.regs (.r 3) = 0 then
      let c := monitorSaveState (bl link.savedSec (c.set (.r 0) link.secState))
      let c := monitorRestoreState
        (bl link.restoredNsec (c.set (.r 0) link.nsecState))
      let c := c.set (.r 3) (c.regs .scr)
      let c := c.set (.r 3) (c.regs (.r 3) ||| scrNsWord)
      c.set .scr (c.regs (.r 3))
    else
      let c := c.set (.r 3) (c.regs .scr)
      let c := c.set (.r 3) (c.regs (.r 3) &&& ~~~scrNsWord)
      let c := c.set .scr (c.regs (.r 3))
      let c := monitorSaveState (bl link.savedNsec (c.set (.r 0) link.nsecState))
      monitorRestoreState (bl link.restoredSec (c.set (.r 0) link.secState))
  rfefd (push [.r 2, .r 3] (pop [.r 0, .r 1] (pop [.r 2, .r 3] c)))

/-- `el3_smc_vect`, up to its call of `el3_handle_smc`. -/
def smcVect (link : Link) (c : Cpu) : Cpu :=
  let c := srsdb c
  let c := c.set (.r 2) 0
  bl link.handled (c.set (.r 3) (c.mem (c.regs (.sp c.mode) + 16)))

/-- What follows the call. -/
def smcVectExit (link : Link) (c : Cpu) : Cpu :=
  if c.regs (.r 0) = 0 then rfefdWriteback c else monitorSwitch link c

end TzTest.Arm
