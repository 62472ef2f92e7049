import TzTest.El3

/-!
# The EL1 images

`el1_handle_svc` and the functions it calls, from `el1/el1.c`, together with
`run_test` as linked into the EL1 images.  Both images are the same code but
for the constants of their world.
-/

namespace TzTest

open Coroutine.Program (gets modify attempt)

variable {arch : Arch} {Paging : Type}

def el1AllocMem (env : Env arch Paging) (world : World) (alloc : Desc arch) :
    Code arch Paging (Desc arch) :=
  attempt fun sys =>
    (env.mmu.memHeapAllocate (.el1 world) alloc.alloc.len sys.paging).map
      fun (addr, paging) =>
        (alloc.setAllocAddr addr, { sys with paging := paging })

def el1MapSecure (env : Env arch Paging) (world : World) (map : Desc arch) :
    Code arch Paging Unit := do
  if map.map.type &&& opMapEl3 = opMapEl3 then
    modify fun sys =>
      let desc := sys.interop.copyMapMem map
      if desc.map.pa ≠ 0 then
        let pa := env.mmu.memLookupPa (.el1 world) desc.map.va sys.paging
        sys.setInterop (desc.setMap { desc.map with pa := pa })
      else
        sys.setInterop desc
    let _ ← smc .el1MapSecure .map
  else
    attempt fun sys =>
      (env.mmu.memMapPa (.el1 world) map.map.va map.map.pa 0 (pteUserRw arch)
        sys.paging).map fun paging => ((), { sys with paging := paging })

/-- One hop on the descriptor in the interop buffer. -/
def interopHop : Code arch Paging Unit :=
  modify fun sys => sys.setInterop (sys.interop.setTest sys.interop.test.hop)

/-- `memcpy(smc_interop_buf, desc, sizeof(smc_op_desc_t))` -/
def copyIn (desc : Desc arch) : Code arch Paging Unit :=
  modify fun sys => sys.setInterop desc

/-- `memcpy(desc, smc_interop_buf, sizeof(smc_op_desc_t))` -/
def copyOut : Code arch Paging (Desc arch) :=
  gets fun sys => sys.interop

def el1InteropTest (desc : Desc arch) : Code arch Paging (Desc arch) := do
  copyIn desc
  interopHop
  let _ ← smc .el1InteropTest .test
  interopHop
  copyOut

/-- The register that a `READ_*` macro of the EL1 build names.  `SCR` and
`CPTR_EL3` trap, except that secure ARM code may read `SCR`. -/
def el1ReadReg (env : Env arch Paging) (world : World) (regs : Regs arch)
    (key : RegKey) : Option (Word arch) :=
  match arch, key with
  | .aarch64, .currentel => some (0x4 : BitVec 64)
  | .aarch64, .cptrEl3 => some (env.skipped .cptrEl3 regs)
  | .aarch64, .scr => some (env.skipped .scr regs)
  | .arm, .scr =>
      if world = .secure then some regs.scr else some (env.skipped .scr regs)
  | .arm, .currentel => none
  | .arm, .cptrEl3 => none
  | _, .cpsr => none
  | _, .cpacr => some regs.cpacr
  | _, .sctlr => some regs.sctlr

/-- The effect of the `WRITE_*` macro; a write that traps has none. -/
def el1WriteReg (world : World) (regs : Regs arch) (key : RegKey)
    (data : Word arch) : Regs arch :=
  match arch, key with
  | .arm, .scr => if world = .secure then { regs with scr := data } else regs
  | .aarch64, .scr => regs
  | _, .currentel => regs
  | _, .cptrEl3 => regs
  | _, .cpsr => regs
  | _, .cpacr => { regs with cpacr := data }
  | _, .sctlr => { regs with sctlr := data }

/-- The `SVC_OP_GET_REG` case. -/
def el1GetReg (env : Env arch Paging) (world : World) (desc : Desc arch) :
    Code arch Paging (Desc arch) := do
  let get := desc.data
  if get.el = 1 then
    gets fun sys =>
      match (RegKey.ofCode? get.key).bind (el1ReadReg env world sys.regs) with
      | some data => desc.setDataData data
      | none => desc
  else if get.el = 3 then do
    copyIn desc
    let _ ← smc .svcOpGetReg .getReg
    copyOut
  else
    return desc

/-- The `SVC_OP_SET_REG` case. -/
def el1SetReg (world : World) (desc : Desc arch) : Code arch Paging Unit := do
  let set := desc.data
  if set.el = 1 then
    modify fun sys =>
      match RegKey.ofCode? set.key with
      | some key => { sys with regs := el1WriteReg world sys.regs key set.data }
      | none => sys
  else if set.el = 3 then do
    copyIn desc
    let _ ← smc .svcOpSetReg .setReg
  else
    return ()

/-- `SMC_GET_REG` builds its request in the interop buffer. -/
def smcGetReg (key : Word arch) (el : U32) : Code arch Paging (Word arch) := do
  modify fun sys => sys.setInterop (sys.interop.setDataKey key el)
  let _ ← smc .testFunction .getReg
  gets fun sys => sys.interop.data.data

/-- `SMC_SET_REG` builds its request in the interop buffer. -/
def smcSetReg (key : Word arch) (el : U32) (data : Word arch) :
    Code arch Paging Unit := do
  modify fun sys =>
    sys.setInterop ((sys.interop.setDataKey key el).setDataData data)
  let _ ← smc .testFunction .setReg

/-- A test function of an EL1 image. -/
def Handler.el1 : Handler arch → Code arch Paging Unit
  | .done => pure ()
  | .getReg key el next => do
      let data ← smcGetReg key el
      (next data).el1
  | .setReg key el data next => do
      smcSetReg key el data
      next.el1

/-- `run_test` in an EL1 image.  The other branch is a supervisor call at EL1,
which `el1_handle_exception` answers with `SMC_EXIT`. -/
def el1RunTest (env : Env arch Paging) (world : World)
    (fid el state arg : U32) : Code arch Paging Unit := do
  if el = (Image.el1 world).exceptionLevel ∧ state = world.state then
    match env.testFunc (.el1 world) fid with
    | some test => do
        modify fun sys => sys.record ⟨.el1 world, fid, arg⟩
        (test arg).el1
    | none => return ()
  else
    let _ ← smc .el1HandleException .exit

/-- The `SVC_OP_DISPATCH` case. -/
def el1Dispatch (env : Env arch Paging) (world : World) (desc : Desc arch) :
    Code arch Paging (Desc arch) := do
  let disp := desc.disp
  if disp.el = U32.word arch (Image.el1 world).exceptionLevel ∧
      disp.state = U32.word arch world.state then
    el1RunTest env world disp.fid disp.el.low disp.state.low disp.arg.low
    return desc
  else
    copyIn desc
    let _ ← smc .svcOpDispatch .dispatch
    copyOut

/-- The `SVC_OP_YIELD` case. -/
def el1Yield : Code arch Paging (U32 × Desc arch) := do
  let ret ← smc .svcOpYield .yield
  let desc ← copyOut
  return (ret, desc)

/-- `el1_handle_svc`: the result and the caller's descriptor as it is left. -/
def el1HandleSvc (env : Env arch Paging) (world : World) (op : U32)
    (desc : Desc arch) : Code arch Paging (U32 × Desc arch) :=
  match SvcOp.ofCode? op with
  | some .exit => do
      let _ ← smc .svcOpExit .exit
      return (0, desc)
  | some .yield => el1Yield
  | some .alloc => do
      let desc ← el1AllocMem env world desc
      return (0, desc)
  | some .map => do
      el1MapSecure env world desc
      return (0, desc)
  | some .getSyscntl =>
      return (0, desc.setDataData (env.syscntl world))
  | some .getReg => do
      let desc ← el1GetReg env world desc
      return (0, desc)
  | some .setReg => do
      el1SetReg world desc
      return (0, desc)
  | some .test => do
      let desc ← el1InteropTest desc
      return (0, desc)
  | some .dispatch => do
      let desc ← el1Dispatch env world desc
      return (0, desc)
  | none => return (0, desc)

end TzTest
