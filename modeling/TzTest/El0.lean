import TzTest.El1

/-!
# The EL0 images

Secure EL0 serves requests in `el0_sec_loop`; nonsecure EL0 drives the test
table from `tztest_start`.  A supervisor call enters `el1_handle_svc` of the
caller's world.
-/

namespace TzTest

open Coroutine (Outcome Suspended Config)
open Coroutine.Program (gets modify attempt)

variable {arch : Arch} {Paging : Type}

/-- `__svc` -/
def svc (env : Env arch Paging) (world : World) (op : U32) (desc : Desc arch) :
    Code arch Paging (U32 × Desc arch) :=
  el1HandleSvc env world op desc

/-- `SVC_GET_REG`; the descriptor's other fields are uninitialised. -/
def svcGetReg (env : Env arch Paging) (world : World) (key : Word arch)
    (el : U32) : Code arch Paging (Word arch) := do
  let (_, desc) ← svc env world SvcOp.getReg.code (env.stack.setDataKey key el)
  return desc.data.data

/-- `SVC_SET_REG` -/
def svcSetReg (env : Env arch Paging) (world : World) (key : Word arch)
    (el : U32) (data : Word arch) : Code arch Paging Unit := do
  let _ ← svc env world SvcOp.setReg.code
    ((env.stack.setDataKey key el).setDataData data)

/-- A test function of an EL0 image. -/
def Handler.el0 (env : Env arch Paging) (world : World) :
    Handler arch → Code arch Paging Unit
  | .done => pure ()
  | .getReg key el next => do
      let data ← svcGetReg env world key el
      (next data).el0 env world
  | .setReg key el data next => do
      svcSetReg env world key el data
      next.el0 env world

/-- The dispatch descriptor that `run_test` builds on its stack. -/
def dispatchDesc (env : Env arch Paging) (fid el state arg : U32) : Desc arch :=
  env.stack.setDisp
    { fid := fid
      arg := U32.word arch arg
      state := U32.word arch state
      el := U32.word arch el
      ret := env.stack.disp.ret }

/-- `run_test` in an EL0 image. -/
def el0RunTest (env : Env arch Paging) (world : World)
    (fid el state arg : U32) : Code arch Paging Unit := do
  if el = (Image.el0 world).exceptionLevel ∧ state = world.state then
    match env.testFunc (.el0 world) fid with
    | some test => do
        modify fun sys => sys.record ⟨.el0 world, fid, arg⟩
        (test arg).el0 env world
    | none => return ()
  else
    let _ ← svc env world SvcOp.dispatch.code (dispatchDesc env fid el state arg)

/-- The `switch` statement of `el0_sec_loop`: the operation to issue next and
the loop's descriptor. -/
def el0SecSwitch (env : Env arch Paging) (op : U32) (desc : Desc arch) :
    Code arch Paging (U32 × Desc arch) :=
  match SvcOp.ofCode? op with
  | some .map => return (SvcOp.map.code, desc)
  | some .yield => return (op, desc)
  | some .test =>
      return (SvcOp.yield.code, desc.setTest desc.test.hop)
  | some .dispatch => do
      el0RunTest env .secure desc.disp.fid desc.disp.el.low desc.disp.state.low
        desc.disp.arg.low
      return (SvcOp.yield.code, desc)
  | _ =>
      if op = 0 then
        return (SvcOp.yield.code, desc)
      else
        return (SvcOp.exit.code, desc)

/-- The supervisor call at the end of the loop body, with what a yield
delivers put on record. -/
def el0SecCall (env : Env arch Paging) (op : U32) (desc : Desc arch) :
    Code arch Paging (U32 × Desc arch) := do
  let (ret, desc) ← svc env .secure op desc
  if op = SvcOp.yield.code then
    modify fun sys => sys.deliver ret desc
  return (ret, desc)

/-- One test of the loop condition of `el0_sec_loop` and, while it holds, one
pass through its body.  After the loop there is only the exit call. -/
def el0SecLoop (env : Env arch Paging) (round : U32 × Desc arch) :
    Code arch Paging (U32 × Desc arch) := do
  if round.1 ≠ SvcOp.exit.code then
    let (op, desc) ← el0SecSwitch env round.1 round.2
    el0SecCall env op desc
  else
    let _ ← svc env .secure SvcOp.exit.code round.2
    attempt fun _ => none

/-- `TEST_CONDITION` -/
def testCondition (cond : Prop) [Decidable cond] : Code arch Paging Unit :=
  modify fun sys =>
    { sys with
      testCntl :=
        { failCount :=
            if cond then sys.testCntl.failCount else sys.testCntl.failCount + 1
          testCount := sys.testCntl.testCount + 1 } }

/-- The descriptor of `interop_test`. -/
def interopTestDesc (env : Env arch Paging) : Desc arch :=
  env.stack.setTest { orig := 1024, val := 1024, count := 0, fail := 0 }

def interopTest (env : Env arch Paging) : Code arch Paging Unit := do
  let (_, desc) ← svc env .nonsecure SvcOp.test.code (interopTestDesc env)
  let test := desc.test
  testCondition (test.fail = 0 ∧ test.val = test.orig >>> test.count.toNat)

/-- `tztest_case_t` -/
structure TztestCase where
  fid : U32
  el : U32
  state : U32
  arg : U32
  deriving DecidableEq, Repr

/-- The `while` loop of `tztest_start`.  The table ends at its first entry with
a zero `fid`, at the latest where the array does. -/
def tztestLoop (env : Env arch Paging) :
    List TztestCase → Code arch Paging Unit
  | [] => pure ()
  | entry :: table => do
      if entry.fid ≠ 0 then
        el0RunTest env .nonsecure entry.fid entry.el entry.state entry.arg
        tztestLoop env table
      else
        return ()

def tztestStart (env : Env arch Paging) (table : List TztestCase) :
    Code arch Paging Unit := do
  interopTest env
  tztestLoop env table

/-- A point of the run: nonsecure EL0 is the client, secure EL0 the server. -/
abbrev Machine (arch : Arch) (Paging : Type) (α : Type) :=
  Config (Sys arch Paging) Smc U32 α (U32 × Desc arch)

/-- The secure world between two requests. -/
abbrev SecureWorld (arch : Arch) (Paging : Type) :=
  Suspended (Sys arch Paging) Smc U32 (U32 × Desc arch)

def Reaches (env : Env arch Paging) {α : Type}
    (start finish : Machine arch Paging α) : Prop :=
  Coroutine.Steps (el3Answer env) (el0SecLoop env) start finish

/-- Run a nonsecure program to its end against the secure world. -/
def Returns (env : Env arch Paging) {α : Type} (program : Code arch Paging α)
    (sys : Sys arch Paging) (secure : SecureWorld arch Paging)
    (value : α) (final : Sys arch Paging) (rest : SecureWorld arch Paging) :
    Prop :=
  Reaches env (.client (program sys) secure) (.client (.done value final) rest)

/-- Secure EL1 is in the SMC of its `SVC_OP_YIELD` case, on behalf of a yield
from `el0_sec_loop`. -/
def waiting : SecureWorld arch Paging :=
  { request := ⟨.svcOpYield, .yield⟩
    resume := fun ret sys =>
      .done (ret, sys.interop) (sys.deliver ret sys.interop) }

/-- An environment without test functions, over page tables that never
change. -/
def bareEnv (arch : Arch) : Env arch Unit where
  mmu :=
    { memMapPa := fun _ _ _ _ _ paging => some paging
      memHeapAllocate := fun _ _ paging => some (0, paging)
      memLookupPa := fun _ va _ => va }
  testFunc := fun _ _ => none
  syscntl := fun _ => 0
  stack := { word0 := 0, word1 := 0, word2 := 0, word3 := 0, word4 := 0 }
  skipped := fun _ _ => 0

/-- A state in which nonsecure EL0 may run. -/
def bareSys (arch : Arch) : Sys arch Unit where
  interop := (bareEnv arch).stack
  secureState := 1
  regs :=
    { scr := U32.word arch 1, cptrEl3 := 0, cpacr := 0, sctlr := 0, cpsr := 0 }
  parked := { cpacr := 0, sctlr := 0 }
  paging := ()
  testCntl := { failCount := 0, testCount := 0 }
  shutdown := false
  executed := []
  delivered := []

theorem inStep_bareSys (arch : Arch) :
    (bareSys arch).InStep .nonsecure := by
  cases arch <;> exact ⟨rfl, rfl⟩

end TzTest
