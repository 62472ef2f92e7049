import TzTest.Interop
import TzTest.Library.Coroutine

/-!
# The shared state of the exception levels

`Sys` holds what the handlers of the five images read and write: the interop
buffer, EL3's `secure_state`, the system registers, the page tables and the
test counters.  Two histories are recorded beside them: the test functions
that were called, and the requests that a yield delivered to secure EL0.
-/

namespace TzTest

/-- The system registers that the register services name, as they are live for
the running world. -/
structure Regs (arch : Arch) where
  scr : Word arch
  cptrEl3 : Word arch
  cpacr : Word arch
  sctlr : Word arch
  cpsr : Word arch

/-- The EL1 registers of the world that is not running. -/
structure ParkedRegs (arch : Arch) where
  cpacr : Word arch
  sctlr : Word arch

/-- A test function, as far as it is made of register requests: `SVC_GET_REG`
and `SVC_SET_REG` at EL0, `SMC_GET_REG` and `SMC_SET_REG` at EL1. -/
inductive Handler (arch : Arch) where
  | done
  | getReg (key : Word arch) (el : U32) (next : Word arch → Handler arch)
  | setReg (key : Word arch) (el : U32) (data : Word arch)
      (next : Handler arch)

/-- The three address spaces that `mem_util.c` is linked into. -/
inductive Space where
  | el3
  | el1 (world : World)
  deriving DecidableEq, Repr

/-- The operations of `mem_util.c`.  A call that does not return has no
result. -/
structure Mmu (arch : Arch) (Paging : Type) where
  memMapPa : Space → (vaddr paddr tblattr pgattr : Word arch) →
    Paging → Option Paging
  memHeapAllocate : Space → (len : Word arch) →
    Paging → Option (Word arch × Paging)
  memLookupPa : Space → (va : Word arch) → Paging → Word arch

/-- What the handlers are linked with. -/
structure Env (arch : Arch) (Paging : Type) where
  mmu : Mmu arch Paging
  /-- The image's `test_func` table, null entries included. -/
  testFunc : Image → U32 → Option (U32 → Handler arch)
  /-- The value of the `syscntl` pointer in each EL1 image. -/
  syscntl : World → Word arch
  /-- What an EL0 function finds in an uninitialised descriptor. -/
  stack : Desc arch
  /-- What a read leaves behind that trapped and was skipped. -/
  skipped : RegKey → Regs arch → Word arch

/-- A call of an entry of `test_func`. -/
structure Executed where
  image : Image
  fid : U32
  arg : U32
  deriving DecidableEq, Repr

/-- `test_control_t` -/
structure TestControl where
  failCount : U32
  testCount : U32

structure Sys (arch : Arch) (Paging : Type) where
  /-- The page behind every image's `smc_interop_buf`. -/
  interop : Desc arch
  /-- The `secure_state` variable of the EL3 image. -/
  secureState : U32
  regs : Regs arch
  parked : ParkedRegs arch
  paging : Paging
  testCntl : TestControl
  /-- The shutdown register was written.  Not every machine obeys it. -/
  shutdown : Bool
  executed : List Executed
  delivered : List (U32 × Desc arch)

namespace Sys

variable {arch : Arch} {Paging : Type}

def setInterop (sys : Sys arch Paging) (desc : Desc arch) : Sys arch Paging :=
  { sys with interop := desc }

def record (sys : Sys arch Paging) (call : Executed) : Sys arch Paging :=
  { sys with executed := sys.executed ++ [call] }

def deliver (sys : Sys arch Paging) (op : U32) (desc : Desc arch) :
    Sys arch Paging :=
  { sys with delivered := sys.delivered ++ [(op, desc)] }

/-- EL3's `secure_state`, `SCR.NS` and the running world agree. -/
structure InStep (sys : Sys arch Paging) (world : World) : Prop where
  secureState : sys.secureState = world.state
  ns : sys.regs.scr.nsBit = world.ns

/-- What `monitor_switch` leaves in the secure configuration register.  The
AArch64 code writes back nothing but the toggled bit; the ARM code keeps the
other bits. -/
def switchScr : {arch : Arch} → Word arch → Word arch
  | .aarch64, scr => (scr &&& 1) ^^^ 1
  | .arm, scr => if scr &&& 1 = 0 then scr ||| scrNs .arm else scr &&& ~~~scrNs .arm

/-- The register effect of a world switch: AArch64 saves and restores both EL1
registers, ARM banks only the system control register. -/
def worldSwitch (sys : Sys arch Paging) : Sys arch Paging :=
  match arch with
  | .aarch64 =>
      { sys with
        regs := { sys.regs with
          scr := switchScr sys.regs.scr
          cpacr := sys.parked.cpacr
          sctlr := sys.parked.sctlr }
        parked := { cpacr := sys.regs.cpacr, sctlr := sys.regs.sctlr } }
  | .arm =>
      { sys with
        regs := { sys.regs with
          scr := switchScr sys.regs.scr
          sctlr := sys.parked.sctlr }
        parked := { sys.parked with sctlr := sys.regs.sctlr } }

end Sys

/-- The places in the EL1 images that execute `smc`. -/
inductive SmcSite where
  | svcOpExit
  | svcOpYield
  | el1MapSecure
  | el1InteropTest
  | svcOpGetReg
  | svcOpSetReg
  | svcOpDispatch
  | testFunction
  | el1HandleException
  deriving DecidableEq, Repr

structure Smc where
  site : SmcSite
  op : SmcOp
  deriving DecidableEq, Repr

/-- Code of one world, up to its next SMC. -/
abbrev Code (arch : Arch) (Paging : Type) :=
  Coroutine.Program (Sys arch Paging) Smc U32

/-- `__smc`; every caller passes `smc_interop_buf` or a null pointer to an
operation that does not read it. -/
def smc {arch : Arch} {Paging : Type} (site : SmcSite) (op : SmcOp) :
    Code arch Paging U32 :=
  Coroutine.Program.request ⟨site, op⟩

end TzTest
