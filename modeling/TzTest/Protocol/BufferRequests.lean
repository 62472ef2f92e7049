import TzTest.Protocol.Session

/-!
# Requests in the interop buffer

Every request of the secure world that EL3 is to see is built in
`smc_interop_buf`.  A request stores to some fields of the descriptor there and
leaves the others to what the requests before it have stored.
-/

namespace TzTest

variable {arch : Arch} {Paging : Type}

/-- The supervisor calls whose EL1 cases copy the descriptor to the buffer. -/
inductive BufferOp where
  | getReg
  | setReg
  | dispatch
  deriving DecidableEq, Repr

def BufferOp.svcOp : BufferOp → SvcOp
  | .getReg => .getReg
  | .setReg => .setReg
  | .dispatch => .dispatch

/-- A descriptor that EL1 copies to the buffer for EL0, or a register request
that a test function of EL1 builds there with `SMC_GET_REG` or `SMC_SET_REG`. -/
inductive BufferRequest (arch : Arch) where
  | svc (op : BufferOp) (desc : Desc arch)
  | smcGetReg (key : Word arch) (el : U32)
  | smcSetReg (key : Word arch) (el : U32) (data : Word arch)

/-- A request and the registers in the state in which it is made. -/
structure Issued (arch : Arch) where
  request : BufferRequest arch
  regs : Regs arch

/-- The register that EL3 reads for a request, if it reads one. -/
def el3Reads? (regs : Regs arch) (key : Word arch) (el : U32) :
    Option (Word arch) :=
  if el = 3 then (RegKey.ofCode? key).bind (el3ReadReg regs) else none

namespace Issued

def fid? (issued : Issued arch) : Option U32 :=
  match issued.request with
  | .svc _ desc => some desc.disp.fid
  | .smcGetReg key _ => some key.low
  | .smcSetReg key _ _ => some key.low

/-- The `el` of a dispatch lies behind a register request. -/
def el? (issued : Issued arch) : Option (Word arch) :=
  match issued.request with
  | .svc _ desc => some desc.disp.el
  | _ => none

/-- The `el` of a register request lies over the low half of the `state` of a
dispatch. -/
def stateLow? (issued : Issued arch) : Option U32 :=
  match issued.request with
  | .svc _ desc => some desc.disp.state.low
  | .smcGetReg _ el => some el
  | .smcSetReg _ el _ => some el

def stateHigh? (issued : Issued arch) : Option (Word arch) :=
  match issued.request with
  | .svc _ desc => some (desc.disp.state >>> 32)
  | _ => none

/-- The `data` of a register request lies over the `arg` of a dispatch. -/
def arg? (issued : Issued arch) : Option (Word arch) :=
  match issued.request with
  | .svc .getReg desc =>
      some ((el3Reads? issued.regs desc.data.key desc.data.el).getD
        desc.disp.arg)
  | .svc _ desc => some desc.disp.arg
  | .smcGetReg key el => el3Reads? issued.regs key el
  | .smcSetReg _ _ data => some data

end Issued

/-- No request stores to the field, or the last one that does stores this
value. -/
def LastStores {α : Type} (field? : Issued arch → Option α)
    (issued : List (Issued arch)) (value : α) : Prop :=
  ∀ last ∈ (issued.filterMap field?).getLast?, last = value

/-- Each field of the call is what the last request that stores to it stores. -/
structure StoresCall (issued : List (Issued arch)) (desc : Desc arch) : Prop where
  fid : LastStores Issued.fid? issued desc.disp.fid
  el : LastStores Issued.el? issued desc.disp.el
  stateLow : LastStores Issued.stateLow? issued desc.disp.state.low
  stateHigh : LastStores Issued.stateHigh? issued (desc.disp.state >>> 32)
  arg : LastStores Issued.arg? issued desc.disp.arg

/-- A register request that is the last to store to the `state` of a call puts
the number of its exception level there. -/
theorem StoresCall.stateLow_eq {issued : List (Issued arch)} {last : Issued arch}
    {desc : Desc arch} {el : U32} (stores : StoresCall (issued ++ [last]) desc)
    (level : last.stateLow? = some el) : desc.disp.state.low = el := by
  refine (stores.stateLow el ?_).symm
  simp [List.filterMap_append, level]

/-- The fields of a dispatch that its caller sends. -/
def SameCall (left right : Desc arch) : Prop :=
  left.disp.fid = right.disp.fid ∧ left.disp.el = right.disp.el ∧
    left.disp.state = right.disp.state ∧ left.disp.arg = right.disp.arg

/-- EL3's answer to a register request. -/
def el3Answers (regs : Regs arch) (desc : Desc arch) : Desc arch :=
  match el3Reads? regs desc.data.key desc.data.el with
  | some data => desc.setDataData data
  | none => desc

/-- The buffer after a request, from what it held. -/
def Issued.store (issued : Issued arch) (held : Desc arch) : Desc arch :=
  match issued.request with
  | .svc .getReg desc => el3Answers issued.regs desc
  | .svc _ desc => desc
  | .smcGetReg key el => el3Answers issued.regs (held.setDataKey key el)
  | .smcSetReg key el data => (held.setDataKey key el).setDataData data

/-- The buffer after the requests. -/
def storeAll (issued : List (Issued arch)) (held : Desc arch) : Desc arch :=
  issued.foldl (fun held request => request.store held) held

@[simp] theorem storeAll_nil (held : Desc arch) : storeAll [] held = held :=
  rfl

@[simp] theorem storeAll_cons (request : Issued arch)
    (issued : List (Issued arch)) (held : Desc arch) :
    storeAll (request :: issued) held = storeAll issued (request.store held) :=
  rfl

theorem storeAll_append (first later : List (Issued arch)) (held : Desc arch) :
    storeAll (first ++ later) held = storeAll later (storeAll first held) :=
  List.foldl_append

/-- What is found in a field after the requests, when each of them stores to it
as `field?` says. -/
theorem read_storeAll {α : Type} (read : Desc arch → α)
    {field? : Issued arch → Option α}
    (step : ∀ request held,
      read (Issued.store request held) = (field? request).getD (read held))
    (issued : List (Issued arch)) (held : Desc arch) :
    read (storeAll issued held) =
      (issued.filterMap field?).getLast?.getD (read held) := by
  induction issued generalizing held with
  | nil => rfl
  | cons request issued induction =>
      rw [storeAll_cons, induction, step]
      cases stored : field? request with
      | none => simp [stored]
      | some value =>
          rw [List.filterMap_cons_some stored, List.getLast?_cons]
          rfl

theorem read_storeAll_iff {α : Type} (read : Desc arch → α)
    {field? : Issued arch → Option α}
    (step : ∀ request held,
      read (Issued.store request held) = (field? request).getD (read held))
    (issued : List (Issued arch)) (held : Desc arch) :
    read (storeAll issued held) = read held ↔
      LastStores field? issued (read held) := by
  rw [read_storeAll read step, LastStores]
  cases (issued.filterMap field?).getLast? with
  | none => simp
  | some value => simp

section Fields

variable (request : Issued arch) (held : Desc arch)

@[simp] theorem disp_el3Answers (regs : Regs arch) (desc : Desc arch) :
    (el3Answers regs desc).disp =
      { desc.disp with
        arg := (el3Reads? regs desc.data.key desc.data.el).getD
          desc.disp.arg } := by
  unfold el3Answers
  cases el3Reads? regs desc.data.key desc.data.el <;> rfl

@[simp] theorem disp_setDataKey (key : Word arch) (el : U32) :
    (held.setDataKey key el).disp =
      { held.disp with
        fid := key.low
        state := held.disp.state.setLow el } :=
  rfl

@[simp] theorem disp_setDataData (data : Word arch) :
    (held.setDataData data).disp = { held.disp with arg := data } :=
  rfl

theorem fid_store :
    (request.store held).disp.fid = request.fid?.getD held.disp.fid := by
  obtain ⟨request, regs⟩ := request
  cases request with
  | svc op desc => cases op <;> simp [Issued.store, Issued.fid?]
  | smcGetReg key el => simp [Issued.store, Issued.fid?]
  | smcSetReg key el data => simp [Issued.store, Issued.fid?]

theorem el_store :
    (request.store held).disp.el = request.el?.getD held.disp.el := by
  obtain ⟨request, regs⟩ := request
  cases request with
  | svc op desc => cases op <;> simp [Issued.store, Issued.el?]
  | smcGetReg key el => simp [Issued.store, Issued.el?]
  | smcSetReg key el data => simp [Issued.store, Issued.el?]

theorem stateLow_store :
    (request.store held).disp.state.low =
      request.stateLow?.getD held.disp.state.low := by
  obtain ⟨request, regs⟩ := request
  cases request with
  | svc op desc => cases op <;> simp [Issued.store, Issued.stateLow?]
  | smcGetReg key el => simp [Issued.store, Issued.stateLow?]
  | smcSetReg key el data => simp [Issued.store, Issued.stateLow?]

theorem stateHigh_store :
    (request.store held).disp.state >>> 32 =
      request.stateHigh?.getD (held.disp.state >>> 32) := by
  obtain ⟨request, regs⟩ := request
  cases request with
  | svc op desc => cases op <;> simp [Issued.store, Issued.stateHigh?]
  | smcGetReg key el =>
      simp [Issued.store, Issued.stateHigh?, Word.high_setLow]
  | smcSetReg key el data =>
      simp [Issued.store, Issued.stateHigh?, Word.high_setLow]

theorem arg_store :
    (request.store held).disp.arg = request.arg?.getD held.disp.arg := by
  obtain ⟨request, regs⟩ := request
  cases request with
  | svc op desc => cases op <;> simp [Issued.store, Issued.arg?]
  | smcGetReg key el => simp [Issued.store, Issued.arg?]
  | smcSetReg key el data => simp [Issued.store, Issued.arg?]

end Fields

/-- The requests leave the call as it was exactly when the last ones to store to
its fields store what it holds. -/
theorem sameCall_storeAll_iff (issued : List (Issued arch)) (desc : Desc arch) :
    SameCall (storeAll issued desc) desc ↔ StoresCall issued desc := by
  have fid := read_storeAll_iff (fun held => held.disp.fid) fid_store issued desc
  have el := read_storeAll_iff (fun held => held.disp.el) el_store issued desc
  have low := read_storeAll_iff (fun held => held.disp.state.low)
    stateLow_store issued desc
  have high := read_storeAll_iff (fun held => held.disp.state >>> 32)
    stateHigh_store issued desc
  have arg := read_storeAll_iff (fun held => held.disp.arg) arg_store issued desc
  constructor
  · rintro ⟨sameFid, sameEl, sameState, sameArg⟩
    exact ⟨fid.mp sameFid, el.mp sameEl, low.mp (congrArg Word.low sameState),
      high.mp (congrArg (fun word : Word arch => word >>> 32)
        sameState), arg.mp sameArg⟩
  · intro stores
    refine ⟨fid.mpr stores.fid, el.mpr stores.el, ?_, arg.mpr stores.arg⟩
    exact Word.ext_halves (low.mpr stores.stateLow) (high.mpr stores.stateHigh)

end TzTest
