import TzTest.El3
import TzTest.Library.Slots

/-!
# The AArch64 monitor

`el3_sync_exception_lower64` and `monitor_switch`, instruction by instruction.
Memory is a function on the addresses of double words, which all accesses are
to.
-/

namespace TzTest.Aarch64

instance registersNonzero : NeZero 31 := ⟨by decide⟩

/-- The registers that the monitor code names, and the stack pointers. -/
inductive Reg where
  | x (number : Fin 31)
  | elrEl3
  | spsrEl3
  | elrEl1
  | spsrEl1
  | esrEl1
  | spEl1
  | spsel
  | spEl0
  | sctlrEl1
  | actlrEl1
  | cpacrEl1
  | csselrEl1
  | ttbr0El1
  | ttbr1El1
  | tcrEl1
  | vbarEl1
  | mairEl1
  | amairEl1
  | tpidrEl0
  | tpidrEl1
  | tpidrroEl0
  | contextidrEl1
  | scrEl3
  | cptrEl3
  | esrEl3
  | farEl3
  | spEl3
  deriving DecidableEq, Repr

structure Cpu where
  regs : Reg → BitVec 64
  mem : BitVec 64 → BitVec 64

namespace Cpu

def set (c : Cpu) (reg : Reg) (value : BitVec 64) : Cpu :=
  { c with regs := Function.update c.regs reg value }

@[simp] theorem regs_set_self (c : Cpu) (reg : Reg) (value : BitVec 64) :
    (c.set reg value).regs reg = value := by
  simp [Cpu.set]

theorem regs_set_of_ne {reg other : Reg} (different : other ≠ reg) (c : Cpu)
    (value : BitVec 64) : (c.set reg value).regs other = c.regs other := by
  simp [Cpu.set, different]

def store (c : Cpu) (addr value : BitVec 64) : Cpu :=
  { c with mem := Function.update c.mem addr value }

/-- The stack pointer that `sp` names at EL3. -/
def sp (c : Cpu) : Reg :=
  if c.regs .spsel &&& 1 = 0 then .spEl0 else .spEl3

/-- `mrs` and `mov`, and `msr` with the operands exchanged. -/
def mov (target source : Reg) (c : Cpu) : Cpu :=
  c.set target (c.regs source)

/-- `str first, [sp, #-8]!` -/
def strPush (first : Reg) (c : Cpu) : Cpu :=
  let addr := c.regs c.sp - 8
  (c.store addr (c.regs first)).set c.sp addr

/-- `stp first, second, [sp, #-16]!` -/
def stpPush (first second : Reg) (c : Cpu) : Cpu :=
  let addr := c.regs c.sp - 16
  ((c.store addr (c.regs first)).store (addr + 8) (c.regs second)).set c.sp addr

/-- `ldr first, [sp], #8` -/
def ldrPop (first : Reg) (c : Cpu) : Cpu :=
  let addr := c.regs c.sp
  (c.set first (c.mem addr)).set c.sp (addr + 8)

/-- `ldp first, second, [sp], #16` -/
def ldpPop (first second : Reg) (c : Cpu) : Cpu :=
  let addr := c.regs c.sp
  ((c.set first (c.mem addr)).set second (c.mem (addr + 8))).set c.sp (addr + 16)

/-- `stp first, second, [base, #idx]` -/
def stp (first second base : Reg) (idx : Nat) (c : Cpu) : Cpu :=
  let addr := c.regs base + BitVec.ofNat 64 idx
  (c.store addr (c.regs first)).store (addr + 8) (c.regs second)

/-- `ldp first, second, [base, #idx]` -/
def ldp (first second base : Reg) (idx : Nat) (c : Cpu) : Cpu :=
  let addr := c.regs base + BitVec.ofNat 64 idx
  (c.set first (c.mem addr)).set second (c.mem (addr + 8))

/-- `str first, [base, #idx]` -/
def str (first base : Reg) (idx : Nat) (c : Cpu) : Cpu :=
  c.store (c.regs base + BitVec.ofNat 64 idx) (c.regs first)

/-- `ldr first, [base, #idx]` -/
def ldr (first base : Reg) (idx : Nat) (c : Cpu) : Cpu :=
  c.set first (c.mem (c.regs base + BitVec.ofNat 64 idx))

end Cpu

open Cpu

/-- The register pairs of `MONITOR_SAVE_STATE` and `MONITOR_RESTORE_STATE`. -/
def sysPairs : List (Reg × Reg × Nat) :=
  [(.elrEl3, .spsrEl3, 0 * 16),
   (.elrEl1, .spsrEl1, 1 * 16),
   (.esrEl1, .spEl1, 2 * 16),
   (.spsel, .spEl0, 3 * 16),
   (.sctlrEl1, .actlrEl1, 6 * 16),
   (.cpacrEl1, .csselrEl1, 7 * 16),
   (.ttbr0El1, .ttbr1El1, 8 * 16),
   (.tcrEl1, .vbarEl1, 9 * 16),
   (.mairEl1, .amairEl1, 10 * 16),
   (.tpidrEl0, .tpidrEl1, 11 * 16),
   (.tpidrroEl0, .contextidrEl1, 12 * 16)]

def generalPairs : List (Reg × Reg × Nat) :=
  [(.x 4, .x 5, 15 * 16),
   (.x 6, .x 7, 16 * 16),
   (.x 8, .x 9, 17 * 16),
   (.x 10, .x 11, 18 * 16),
   (.x 12, .x 13, 19 * 16),
   (.x 14, .x 15, 20 * 16),
   (.x 16, .x 17, 21 * 16),
   (.x 18, .x 19, 22 * 16),
   (.x 20, .x 21, 23 * 16),
   (.x 22, .x 23, 24 * 16),
   (.x 24, .x 25, 25 * 16),
   (.x 26, .x 27, 26 * 16),
   (.x 28, .x 29, 27 * 16)]

/-- `SAVE_SYS_PAIR` -/
def saveSysPair (c : Cpu) (pair : Reg × Reg × Nat) : Cpu :=
  stp (.x 1) (.x 2) (.x 0) pair.2.2
    (mov (.x 2) pair.2.1 (mov (.x 1) pair.1 c))

/-- `RESTORE_SYS_PAIR` -/
def restoreSysPair (c : Cpu) (pair : Reg × Reg × Nat) : Cpu :=
  mov pair.2.1 (.x 2) (mov pair.1 (.x 1)
    (ldp (.x 1) (.x 2) (.x 0) pair.2.2 c))

/-- `MONITOR_SAVE_STATE` -/
def monitorSaveState (c : Cpu) : Cpu :=
  let c := sysPairs.foldl saveSysPair c
  let c := generalPairs.foldl
    (fun c pair => stp pair.1 pair.2.1 (.x 0) pair.2.2 c) c
  str (.x 30) (.x 0) (28 * 16) c

/-- `MONITOR_RESTORE_STATE` -/
def monitorRestoreState (c : Cpu) : Cpu :=
  let c := sysPairs.foldl restoreSysPair c
  let c := generalPairs.foldl
    (fun c pair => ldp pair.1 pair.2.1 (.x 0) pair.2.2 c) c
  ldr (.x 30) (.x 0) (28 * 16) c

/-- Where the linker has put the two buffers. -/
structure Buffers where
  secState : BitVec 64
  nsecState : BitVec 64

/-- `monitor_switch`, up to its `eret`. -/
def monitorSwitch (buffers : Buffers) (c : Cpu) : Cpu :=
  let c := stpPush (.x 0) (.x 1) c
  let c := stpPush (.x 2) (.x 3) c
  let c := mov (.x 3) .scrEl3 c
  let c := c.set (.x 3) (c.regs (.x 3) &&& 0x1)
  let c :=
    if c.regs (.x 3) = 0 then
      let c := monitorSaveState (c.set (.x 0) buffers.secState)
      monitorRestoreState (c.set (.x 0) buffers.nsecState)
    else
      let c := monitorSaveState (c.set (.x 0) buffers.nsecState)
      monitorRestoreState (c.set (.x 0) buffers.secState)
  let c := c.set (.x 3) (c.regs (.x 3) ^^^ 0x1)
  let c := mov .scrEl3 (.x 3) c
  let c := ldpPop (.x 2) (.x 3) c
  ldpPop (.x 0) (.x 1) c

def ecSmc32 : BitVec 64 := 0x13
def ecSmc64 : BitVec 64 := 0x17

/-- `el3_sync_exception_lower64`, up to its comparisons. -/
def lower64Entry (c : Cpu) : Cpu :=
  let c := strPush (.x 30) c
  let c := stpPush (.x 2) (.x 3) c
  let c := mov (.x 2) .spsrEl3 c
  let c := strPush (.x 2) c
  let c := stpPush (.x 0) (.x 1) c
  let c := mov (.x 2) .farEl3 c
  let c := mov (.x 3) .elrEl3 c
  let c := mov (.x 0) .esrEl3 c
  let c := c.set (.x 1) 0xffffff
  let c := c.set (.x 1) (c.regs (.x 1) &&& c.regs (.x 0))
  c.set (.x 0) (c.regs (.x 0) >>> 26)

/-- The comparisons lead to `el3_sync_exception_lower64_smc`. -/
def IsSmc (c : Cpu) : Prop :=
  c.regs (.x 0) = ecSmc64 ∨ c.regs (.x 0) = ecSmc32

/-- `ldp x0, x1, [sp]` before the call of `el3_handle_smc`. -/
def lower64Args (c : Cpu) : Cpu :=
  ldp (.x 0) (.x 1) c.sp 0 c

/-- What follows the call, up to the `cbz`. -/
def lower64Return (c : Cpu) : Cpu :=
  let c := ldpPop (.x 2) (.x 1) c
  let c := ldrPop (.x 2) c
  let c := mov .spsrEl3 (.x 2) c
  let c := ldpPop (.x 2) (.x 3) c
  ldrPop (.x 30) c

/-- The `cbz`, up to the `eret` of the vector or of `monitor_switch`. -/
def lower64Exit (buffers : Buffers) (c : Cpu) : Cpu :=
  if c.regs (.x 0) = 0 then c else monitorSwitch buffers c

end TzTest.Aarch64
