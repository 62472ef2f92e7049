import TzTest.State

/-!
# The EL3 image

`el3_handle_smc` and the functions it calls, from `el3/el3.c`.  The descriptor
argument is the interop buffer.
-/

namespace TzTest

variable {arch : Arch} {Paging : Type}

/-- The write to the shutdown register may be without effect. -/
def el3Shutdown (sys : Sys arch Paging) : Sys arch Paging :=
  { sys with shutdown := true }

def el3MapMem (env : Env arch Paging) (sys : Sys arch Paging) :
    Option (U32 × Sys arch Paging) := do
  let map := sys.interop.map
  let paging ←
    if map.type &&& opMapEl3 = opMapEl3 then
      env.mmu.memMapPa .el3 map.va map.pa 0 (ptePrivRw arch) sys.paging
    else
      some sys.paging
  if map.type &&& opMapSecEl1 = opMapSecEl1 then
    let interop := sys.interop.setMap { map with type := map.type &&& ~~~opMapEl3 }
    return (SvcOp.map.code, { sys with paging := paging, interop := interop })
  else
    return (0, { sys with paging := paging })

/-- The register that a `READ_*` macro of the EL3 build names, for the keys
with a `case` label. -/
def el3ReadReg : {arch : Arch} → Regs arch → RegKey → Option (Word arch)
  | .aarch64, _, .currentel => some (0xC : BitVec 64)
  | .aarch64, regs, .cptrEl3 => some regs.cptrEl3
  | .aarch64, _, .cpsr => none
  | .arm, _, .currentel => none
  | .arm, _, .cptrEl3 => none
  | .arm, regs, .cpsr => some regs.cpsr
  | _, regs, .cpacr => some regs.cpacr
  | _, regs, .scr => some regs.scr
  | _, regs, .sctlr => some regs.sctlr

/-- The effect of the `WRITE_*` macro; `WRITE_CURRENTEL` only reads. -/
def el3WriteReg :
    {arch : Arch} → Regs arch → RegKey → Word arch → Regs arch
  | .aarch64, regs, .currentel, _ => regs
  | .aarch64, regs, .cptrEl3, data => { regs with cptrEl3 := data }
  | .aarch64, regs, .cpsr, _ => regs
  | .arm, regs, .currentel, _ => regs
  | .arm, regs, .cptrEl3, _ => regs
  | .arm, regs, .cpsr, data => { regs with cpsr := data }
  | _, regs, .cpacr, data => { regs with cpacr := data }
  | _, regs, .scr, data => { regs with scr := data }
  | _, regs, .sctlr, data => { regs with sctlr := data }

theorem scr_el3WriteReg (regs : Regs arch) (key : RegKey) (data : Word arch) :
    (el3WriteReg regs key data).scr = if key = .scr then data else regs.scr := by
  cases arch <;> cases key <;> rfl

/-- The `SMC_OP_GET_REG` case. -/
def el3GetReg (sys : Sys arch Paging) : Sys arch Paging :=
  let get := sys.interop.data
  if get.el = 3 then
    match (RegKey.ofCode? get.key).bind (el3ReadReg sys.regs) with
    | some data => sys.setInterop (sys.interop.setDataData data)
    | none => sys
  else
    sys

/-- The `SMC_OP_SET_REG` case. -/
def el3SetReg (sys : Sys arch Paging) : Sys arch Paging :=
  let set := sys.interop.data
  if set.el = 3 then
    match RegKey.ofCode? set.key with
    | some key => { sys with regs := el3WriteReg sys.regs key set.data }
    | none => sys
  else
    sys

/-- A test function at EL3 uses the register macros directly. -/
def Handler.el3 : Handler arch → Sys arch Paging → Sys arch Paging
  | .done, sys => sys
  | .getReg key _ next, sys =>
      match (RegKey.ofCode? key).bind (el3ReadReg sys.regs) with
      | some data => (next data).el3 sys
      | none => (next 0).el3 sys
  | .setReg key _ data next, sys =>
      match RegKey.ofCode? key with
      | some key => next.el3 { sys with regs := el3WriteReg sys.regs key data }
      | none => next.el3 sys

/-- `run_test` in the EL3 image.  The other branch is a supervisor call at EL3,
which `el3_handle_exception` answers with a shutdown. -/
def el3RunTest (env : Env arch Paging) (fid el state arg : U32)
    (sys : Sys arch Paging) : Sys arch Paging :=
  if el = Image.el3.exceptionLevel ∧ state = sys.secureState then
    match env.testFunc .el3 fid with
    | some test => (test arg).el3 (sys.record ⟨.el3, fid, arg⟩)
    | none => sys
  else
    el3Shutdown sys

/-- The `SMC_OP_DISPATCH` case. -/
def el3Dispatch (env : Env arch Paging) (sys : Sys arch Paging) :
    U32 × Sys arch Paging :=
  let disp := sys.interop.disp
  if disp.el = U32.word arch Image.el3.exceptionLevel ∧
      disp.state = (sys.regs.scr &&& scrNs arch) then
    (0, el3RunTest env disp.fid disp.el.low disp.state.low disp.arg.low sys)
  else
    (SvcOp.dispatch.code, sys)

/-- The `switch` statement of `el3_handle_smc`. -/
def el3Switch (env : Env arch Paging) (op : Word arch) (sys : Sys arch Paging) :
    Option (U32 × Sys arch Paging) :=
  match SmcOp.ofCode? op with
  | some .yield => some (SvcOp.yield.code, sys)
  | some .map => el3MapMem env sys
  | some .noop => some (0, sys)
  | some .exit => some (0, el3Shutdown sys)
  | some .dispatch => some (el3Dispatch env sys)
  | some .test =>
      let interop := sys.interop.setTest sys.interop.test.hop
      -- No `break` ends this case: control goes on into `SMC_OP_GET_REG`.
      some (SvcOp.test.code, el3GetReg (sys.setInterop interop))
  | some .getReg => some (0, el3GetReg sys)
  | some .setReg => some (0, el3SetReg sys)
  | none => some (0, el3Shutdown sys)

def el3HandleSmc (env : Env arch Paging) (op : Word arch)
    (sys : Sys arch Paging) : Option (U32 × Sys arch Paging) :=
  (el3Switch env op sys).map fun (ret, sys) =>
    if ret ≠ 0 then
      (ret, { sys with secureState := sys.secureState ^^^ 1 })
    else
      (ret, sys)

/-- EL3's answer to an SMC: the vector returns to the caller when the handler
returned zero and switches worlds otherwise. -/
def el3Answer (env : Env arch Paging) (request : Smc) (sys : Sys arch Paging) :
    Coroutine.Verdict (Sys arch Paging) U32 :=
  match el3HandleSmc env (U32.word arch request.op.code) sys with
  | none => .stuck sys
  | some (ret, sys) =>
      if ret = 0 then .stay ret sys else .switch ret sys.worldSwitch

end TzTest
