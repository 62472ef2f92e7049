import TzTest.State

/-!
# The exception log and the exception handlers

`el1_handle_exception` and `el3_handle_exception` share the record
`syscntl->excp`.  The tests arm it; the handlers fill it in and choose where
the exception returns to.
-/

namespace TzTest

variable {arch : Arch}

/-- The `EC_*` codes of `exception.h` that have a `case` label. -/
inductive ExceptionClass where
  | unknown
  | wfiWfe
  | simd
  | smc32
  | smc64
  | sysinsn
  | iabortLower
  | iabort
  | dabortLower
  | dabort
  deriving DecidableEq, Repr

namespace ExceptionClass

def code : ExceptionClass → Nat
  | .unknown => 0x00
  | .wfiWfe => 0x01
  | .simd => 0x07
  | .smc32 => 0x13
  | .smc64 => 0x17
  | .sysinsn => 0x18
  | .iabortLower => 0x20
  | .iabort => 0x21
  | .dabortLower => 0x24
  | .dabort => 0x25

/-- The `case` label that the handler's `ec` argument selects. -/
def ofCode? (ec : Word arch) : Option ExceptionClass :=
  [unknown, wfiWfe, simd, smc32, smc64, sysinsn, iabortLower, iabort,
    dabortLower, dabort].find? fun candidate =>
      BitVec.ofNat arch.width candidate.code == ec

end ExceptionClass

/-- `sys_exception_t` -/
@[ext] structure SysException where
  ec : U32
  iss : U32
  far : U32
  log : Bool
  action : U32
  taken : Bool
  el : U32
  state : U32
  deriving DecidableEq

namespace SysException

/-- `EXCP_ACTION_SKIP` -/
def skip : U32 := 1

/-- The record as `TEST_EXCP_RESET` leaves it. -/
def zeroed : SysException :=
  { ec := 0, iss := 0, far := 0, log := false, action := 0, taken := false,
    el := 0, state := 0 }

/-- The first statement of both handlers. -/
def record (excp : SysException) (ec iss far : Word arch) (el state : U32) :
    SysException :=
  if excp.log then
    { excp with
      taken := true
      ec := ec.low
      iss := iss.low
      far := far.low
      el := el
      state := state }
  else
    excp

end SysException

/-- The return address of an exception whose preferred return is the offending
instruction. -/
def skipReturn (excp : SysException) (elr : Word arch) : Word arch :=
  if excp.action = SysException.skip then elr + 4 else elr

/-- `el1_handle_exception`: the record as it is left and the return address.
There is none where the handler asks EL3 for a shutdown. -/
def el1HandleException (world : World) (ec iss far elr : Word arch)
    (excp : SysException) : SysException × Option (Word arch) :=
  let excp := excp.record ec iss far 1 world.state
  (excp,
    match ExceptionClass.ofCode? ec with
    | some .unknown =>
        match arch with
        | .aarch64 => some (skipReturn excp elr)
        -- The ARM program counter is already past the instruction.
        | .arm =>
            some (if excp.action ≠ SysException.skip then elr + 4 else elr)
    | some .wfiWfe => some (skipReturn excp elr)
    | some .simd => some (skipReturn excp elr)
    | _ => none)

/-- `el3_handle_exception`, likewise. -/
def el3HandleException (ec iss far elr : Word arch) (excp : SysException) :
    SysException × Option (Word arch) :=
  let excp := excp.record ec iss far 3 0
  (excp,
    match ExceptionClass.ofCode? ec with
    | some .smc64 => some elr
    | some .smc32 => some elr
    | some .sysinsn => some (skipReturn excp elr)
    | some .wfiWfe => some (skipReturn excp elr)
    | some .simd => some (skipReturn excp elr)
    | _ => none)

end TzTest
