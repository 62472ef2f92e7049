import TzTest.Monitor.WorldSwitch
import TzTest.Monitor.Descriptors

/-!
# Resumed worlds on AArch64

Runs of SMCs with any pointer in `x1`.  As long as no SMC makes the handler
overwrite EL3's own memory, each world is resumed as it was left; one that
leads it to the buffer of the other world changes the registers parked there.
-/

namespace TzTest.Aarch64

open Cpu Slots

variable {Paging : Type} {env : Env .aarch64 Paging}
  {image : El3Image .aarch64 Paging} {buffers : Buffers}

/-- The words that the monitor keeps over a call of the handler: both buffers
and the frame of the vector. -/
def monitorWords (buffers : Buffers) (sp : BitVec 64) : Set (BitVec 64) :=
  { addr | (∃ world, ∃ slot ∈ buffers.slots world, slot.2 = addr) ∨
      ∃ depth < 7, 0 < depth ∧ frame sp depth = addr }

/-- The call that `el3_handle_smc` sees. -/
def Monitor.smc (m : Monitor Paging) : SmcCall .aarch64 Paging :=
  { op := m.cpu.regs (.x 0)
    desc := m.cpu.regs (.x 1)
    sys := m.view }

/-- The return of `el3_handle_smc`, with the calling convention.  Of the words of
the monitor it changes those that the descriptor lies over. -/
structure SmcReturns (env : Env .aarch64 Paging) (image : El3Image .aarch64 Paging)
    (words : Set (BitVec 64)) (call returned : Monitor Paging) (code : U32) :
    Prop where
  answer : ∃ state,
    el3HandleSmc env call.smc.op call.smc.sys =
        some (code, { returned.view with secureState := state }) ∧
      (call.smc.SparesSecureState image → returned.sys.secureState = state)
  result : returned.cpu.regs (.x 0) = code.setWidth 64
  /-- `__set_exception_return(elr)` -/
  resume : returned.cpu.regs .elrEl3 = call.cpu.regs (.x 3)
  saved : ∀ reg ∈ calleeSaved ++ notInC,
    returned.cpu.regs reg = call.cpu.regs reg
  leaves : call.smc.Leaves image words call.cpu.mem returned.cpu.mem
    returned.sys.interop

namespace SmcStep

variable (env image buffers) (step : SmcStep Paging)

def words : Set (BitVec 64) :=
  monitorWords buffers (step.taken.cpu.regs .spEl3)

/-- An SMC of the running world, with any registers.  Nothing is known of a
handler that has lost its own memory or registers. -/
structure Issued : Prop where
  runs : Runs buffers step.before step.taken
  loads : step.call.smc.Loads image (step.words buffers) step.call.cpu.mem
  returns : step.call.smc.SparesHandler env image →
    SmcReturns env image (step.words buffers) step.call step.returned step.code

/-- The SMC has nothing of EL3 overwritten. -/
def SparesEl3 : Prop :=
  step.call.smc.SparesEl3 env image (step.words buffers)

end SmcStep

/-- The running world is resumed as it was left, with the answer in `x0`, and
`secure_state` and `SCR.NS` are its own. -/
structure ResumedAsLeft (contexts : Contexts Reg (BitVec 64)) (code : U32)
    (after : Monitor Paging) : Prop where
  registers : ∀ reg ∈ saveList.map Prod.fst,
    after.cpu.regs reg = contexts.entered contexts.live.other reg
  result : after.cpu.regs (.x 0) = code.setWidth 64
  inStep : after.view.InStep contexts.live.other

theorem SmcStep.Issued.valid {step : SmcStep Paging}
    (issued : step.Issued env image buffers)
    (spares : step.SparesEl3 env image buffers) : step.Valid env buffers := by
  have returns := issued.returns spares.handler
  have same := returns.leaves.same spares.words
  obtain ⟨state, answer, kept⟩ := returns.answer
  refine ⟨issued.runs, ?_, returns.result, returns.resume, returns.saved, ?_, ?_⟩
  · rw [← kept spares.secureState] at answer
    exact answer
  · intro depth shallow positive
    exact same _ (.inr ⟨depth, shallow, positive, rfl⟩)
  · intro world slot member
    exact same _ (.inl ⟨world, slot, member, rfl⟩)

/-- Whenever `monitor_switch` resumes a world, the world finds the registers of
the save list as it last entered `monitor_switch`, and the answer in `x0`. -/
theorem monitorSwitch_resumes_aarch64 {boot : Monitor Paging}
    {syscntlPa : BitVec 64} (layout : Layout buffers (boot.cpu.regs .spEl3))
    (onEl3 : boot.cpu.regs .spsel = 1) (secure : boot.view.InStep .secure)
    {run : List (SmcStep Paging)} {last : SmcStep Paging}
    (linked : Chain.Linked SmcStep.before (SmcStep.after buffers)
      (monitorStart buffers syscntlPa boot) (run ++ [last]))
    (issued : ∀ step ∈ run ++ [last], step.Issued env image buffers)
    (spares : ∀ step ∈ run ++ [last], step.SparesEl3 env image buffers)
    (keeps : ∀ step ∈ run ++ [last], step.KeepsNs env)
    (switches : last.code ≠ 0) :
    ResumedAsLeft (run.foldl record (contextsStart syscntlPa)) last.code
      (last.after buffers) := by
  obtain ⟨earlier, begins⟩ := linked.before_last
  have valid (step : SmcStep Paging) (member : step ∈ run ++ [last]) :
      step.Valid env buffers :=
    (issued step member).valid (spares step member)
  have inRun (step : SmcStep Paging) (member : step ∈ run) :
      step ∈ run ++ [last] := List.mem_append_left _ member
  have follows : Follows buffers (boot.cpu.regs .spEl3)
      (run.foldl record (contextsStart syscntlPa)) last.before := by
    rw [begins]
    apply earlier.replayed _ (follows_start layout onEl3 secure syscntlPa)
    intro history step member
    exact Follows.serves layout (valid step (inRun step member))
      (keeps step (inRun step member))
  have lastValid := valid last List.mem_concat_self
  have top : last.taken.cpu.regs .spEl3 = boot.cpu.regs .spEl3 :=
    lastValid.runs.sp.trans follows.rests.sp
  have enters := lastValid.enters (top ▸ layout)
  obtain ⟨switched, resumed, inStep⟩ := follows.resumes layout lastValid
    (keeps last List.mem_concat_self) switches
  refine ⟨resumed, ?_, inStep⟩
  rw [switched.args _ (by decide), enters.code]

section Calls

variable {m : Monitor Paging}

/-- The running world sets `x0`, `x1` and `x19` and executes `smc`, with `loaded`
at `x1`; the handler answers with `code`, leaves `stored` there and writes no
register. -/
def smcStep (m : Monitor Paging) (op desc x19 : BitVec 64) (loaded : Desc .aarch64)
    (code : U32) (stored : Desc .aarch64) : SmcStep Paging :=
  let taken : Monitor Paging :=
    { cpu :=
        (((m.cpu.set (.x 0) op).set (.x 1) desc).set (.x 19) x19).set .esrEl3
          (ecSmc64 <<< 26)
      sys := m.sys.setInterop loaded }
  let call : Monitor Paging :=
    { taken with cpu := lower64Args (lower64Entry taken.cpu) }
  let stores : Cpu := { call.cpu with mem := call.smc.writeBack stored call.cpu.mem }
  { before := m
    taken := taken
    returned :=
      { cpu := (stores.set (.x 0) (code.setWidth 64)).set .elrEl3 (call.cpu.regs (.x 3))
        sys := { m.sys with
          interop := stored
          secureState :=
            if code = 0 then m.sys.secureState else m.sys.secureState ^^^ 1 } }
    code := code }

variable {op desc x19 : BitVec 64} {loaded stored : Desc .aarch64} {code : U32}

/-- The state in which the handler finds the descriptor. -/
def Monitor.finds (m : Monitor Paging) (loaded : Desc .aarch64) :
    Sys .aarch64 Paging :=
  m.view.setInterop loaded

theorem spsel_smcStep (onEl3 : m.cpu.regs .spsel = 1) :
    (smcStep m op desc x19 loaded code stored).taken.cpu.regs .spsel = 1 := by
  simpa [smcStep, Cpu.set] using onEl3

theorem x0_smcStep :
    (smcStep m op desc x19 loaded code stored).taken.cpu.regs (.x 0) = op := by
  simp [smcStep, Cpu.set]

theorem sp_smcStep :
    (smcStep m op desc x19 loaded code stored).taken.cpu.regs .spEl3 =
      m.cpu.regs .spEl3 := by
  simp [smcStep, Cpu.set]

theorem words_smcStep :
    (smcStep m op desc x19 loaded code stored).words buffers =
      monitorWords buffers (m.cpu.regs .spEl3) :=
  congrArg (monitorWords buffers) sp_smcStep

theorem regs_smcStep :
    (smcStep m op desc x19 loaded code stored).returned.cpu.regs =
      Function.update
        (Function.update (smcStep m op desc x19 loaded code stored).call.cpu.regs (.x 0)
          (code.setWidth 64)) .elrEl3
        ((smcStep m op desc x19 loaded code stored).call.cpu.regs (.x 3)) :=
  rfl

theorem mem_smcStep :
    (smcStep m op desc x19 loaded code stored).returned.cpu.mem =
      (smcStep m op desc x19 loaded code stored).call.smc.writeBack stored
        (smcStep m op desc x19 loaded code stored).call.cpu.mem :=
  rfl

theorem kept_smcStep {reg : Reg} (outside : reg ∉ [Reg.x 0, .elrEl3]) :
    (smcStep m op desc x19 loaded code stored).returned.cpu.regs reg =
      (smcStep m op desc x19 loaded code stored).call.cpu.regs reg := by
  simp only [List.mem_cons, List.not_mem_nil, or_false, not_or] at outside
  rw [regs_smcStep, Function.update_of_ne outside.2, Function.update_of_ne outside.1]

theorem smc_smcStep (onEl3 : m.cpu.regs .spsel = 1) :
    (smcStep m op desc x19 loaded code stored).call.smc =
      { op := op, desc := desc, sys := m.finds loaded } := by
  have selected := @spsel_smcStep _ m op desc x19 loaded stored code onEl3
  have kept {reg : Reg} (outside : reg ∉ [Reg.x 2, .x 3, .spEl3]) :
      (smcStep m op desc x19 loaded code stored).call.cpu.regs reg =
        (smcStep m op desc x19 loaded code stored).taken.cpu.regs reg :=
    regs_call selected outside
  unfold Monitor.smc Monitor.finds Monitor.view
  rw [kept (by decide), kept (by decide), kept (by decide), kept (by decide),
    kept (by decide), kept (by decide)]
  simp [smcStep, Cpu.set, SmcStep.call, Sys.setInterop]

theorem view_smcStep (onEl3 : m.cpu.regs .spsel = 1) :
    (smcStep m op desc x19 loaded code stored).returned.view = (m.finds loaded).answered code stored := by
  have seen := @smc_smcStep _ m op desc x19 loaded stored code onEl3
  have called : (smcStep m op desc x19 loaded code stored).call.view.regs =
      m.view.regs :=
    congrArg (fun call => call.sys.regs) seen
  have same : (smcStep m op desc x19 loaded code stored).returned.view.regs =
      (smcStep m op desc x19 loaded code stored).call.view.regs := by
    simp only [Monitor.view]
    rw [kept_smcStep (by decide), kept_smcStep (by decide), kept_smcStep (by decide),
      kept_smcStep (by decide)]
    rfl
  unfold Sys.answered Monitor.finds Sys.setInterop
  rw [← called, ← same]
  rfl

theorem issued_smcStep (onEl3 : m.cpu.regs .spsel = 1)
    (plain : ∀ addr, image.translate m.sys.paging addr = addr)
    (aligned : ∀ addr ∈ monitorWords buffers (m.cpu.regs .spEl3),
      (addr - desc).toNat % 8 = 0)
    (loads : (smcStep m op desc x19 loaded code stored).call.smc.Loads image
      (monitorWords buffers (m.cpu.regs .spEl3))
      (smcStep m op desc x19 loaded code stored).call.cpu.mem)
    (answered : el3HandleSmc env op (m.finds loaded) =
      some (code, (m.finds loaded).answered code stored)) :
    (smcStep m op desc x19 loaded code stored).Issued env image buffers := by
  have selected := @spsel_smcStep _ m op desc x19 loaded stored code onEl3
  have seen := @smc_smcStep _ m op desc x19 loaded stored code onEl3
  constructor
  · constructor
    · simp [smcStep, Cpu.set]
    · simp [smcStep, Cpu.set]
    · simp [smcStep, Cpu.set]
    · exact selected
    · intro world slot _
      rfl
    · rfl
    · left
      rw [x0_lower64Entry selected]
      simp only [smcStep, Cpu.regs_set_self]
      decide
  · rw [words_smcStep]
    exact loads
  · intro _
    constructor
    · refine ⟨_, ?_, fun _ => rfl⟩
      rw [seen, answered, ← @view_smcStep _ m op desc x19 loaded stored code onEl3]
      rfl
    · rw [regs_smcStep, Function.update_of_ne (by decide), Function.update_self]
      rfl
    · rw [regs_smcStep, Function.update_self]
    · have others : ∀ reg ∈ calleeSaved ++ notInC, reg ∉ [Reg.x 0, .elrEl3] := by
        decide
      intro reg member
      exact kept_smcStep (others reg member)
    · rw [words_smcStep]
      exact SmcCall.leaves_writeBack (by rw [seen]; exact plain)
        (by rw [seen]; exact aligned) loads (by rw [seen]; exact answered)

/-- The frame of the vector is taken down. -/
theorem entered_smcStep (onEl3 : m.cpu.regs .spsel = 1) :
    let step := smcStep m op desc x19 loaded code stored
    (∀ reg ∉ [Reg.x 0, .x 1, .x 2, .x 3, .x 30, .spsrEl3, .elrEl3, .esrEl3, .x 19],
      step.entered.cpu.regs reg = m.cpu.regs reg) ∧
    step.entered.cpu.regs (.x 0) = code.setWidth 64 ∧
    step.entered.cpu.regs (.x 19) = x19 ∧
    step.entered.cpu.mem = step.call.smc.writeBack stored step.call.cpu.mem := by
  intro step
  have selected : step.taken.cpu.regs .spsel = 1 := spsel_smcStep onEl3
  have top : step.taken.cpu.regs .spEl3 = m.cpu.regs .spEl3 := sp_smcStep
  have stillEl3 : step.returned.cpu.regs .spsel = 1 := by
    rw [kept_smcStep (by decide)]
    exact (regs_call selected (by decide)).trans selected
  have sp : step.returned.cpu.regs .spEl3 = frame (m.cpu.regs .spEl3) 6 := by
    rw [kept_smcStep (by decide)]
    show (lower64Args (lower64Entry step.taken.cpu)).regs .spEl3 = _
    rw [lower64_call selected, top]
    simp [updates_cons]
  have entered : step.entered.cpu = _ := lower64Return_eq stillEl3 sp
  have untouched {reg : Reg}
      (outside : reg ∉ [Reg.x 1, .spsrEl3, .x 2, .x 3, .x 30, .spEl3]) :
      step.entered.cpu.regs reg = step.returned.cpu.regs reg := by
    rw [entered]
    apply updates_of_not_mem
    exact outside
  refine ⟨?_, ?_, ?_, ?_⟩
  · intro reg outside
    simp only [List.mem_cons, List.not_mem_nil, or_false, not_or] at outside
    by_cases pointer : reg = .spEl3
    · rw [pointer, entered]
      simp [updates_cons]
    · rw [untouched (by simp [outside, pointer]), kept_smcStep (by simp [outside])]
      show (lower64Args (lower64Entry step.taken.cpu)).regs reg = _
      rw [regs_call selected (by simp [outside, pointer])]
      simp [step, smcStep, Cpu.set, outside]
  · rw [untouched (by decide), regs_smcStep, Function.update_of_ne (by decide),
      Function.update_self]
  · rw [untouched (by decide), kept_smcStep (by decide)]
    show (lower64Args (lower64Entry step.taken.cpu)).regs (.x 19) = _
    rw [regs_call selected (by decide)]
    simp [step, smcStep, Cpu.set]
  · rw [entered]
    exact mem_smcStep

theorem cpu_after_of_ne_zero {step : SmcStep Paging}
    (nonzero : step.entered.cpu.regs (.x 0) ≠ 0) :
    (step.after buffers).cpu = monitorSwitch buffers step.entered.cpu :=
  if_neg nonzero

end Calls

/-- Where the machine of the examples has the rest of EL3. -/
def monitorImage : El3Image .aarch64 Unit where
  translate := fun _ addr => addr
  secureState := 0x3800
  working := { addr | 0x4000 ≤ addr.toNat ∧ addr.toNat < 0x7FD0 }

theorem monitorWords_small {addr : BitVec 64}
    (member : addr ∈ monitorWords smallBuffers 0x8000) :
    addr.toNat % 8 = 0 ∧ addr.toNat + 8 ≤ 0x8000 := by
  rcases member with ⟨world, slot, inside, rfl⟩ | ⟨depth, shallow, positive, rfl⟩
  · obtain ⟨word, below, place⟩ := exists_word inside
    rw [place]
    unfold stateWords at below
    cases world with
    | secure =>
        simp only [Buffers.state, smallBuffers]
        bv_omega
    | nonsecure =>
        simp only [Buffers.state, smallBuffers]
        bv_omega
  · unfold frame
    bv_omega

def smallStart : Monitor Unit :=
  monitorStart smallBuffers 0x3000 smallBoot

theorem starts_smallStart :
    Starts smallBuffers 0x3000 smallBoot.cpu smallStart.cpu :=
  el3Start_starts layout_smallBuffers rfl 0x3000

theorem sp_smallStart : smallStart.cpu.regs .spEl3 = 0x8000 :=
  starts_smallStart.kept .spEl3 (by decide)

/-- The first five words of `nsec_state`. -/
def parkedDesc : Desc .aarch64 where
  word0 := el1NsFlashBase
  word1 := spsrEl1
  word2 := 0
  word3 := 0
  word4 := 0

theorem parkedDesc_word : ∀ slot ∈ saveList, slot.2 / 8 < 5 →
    (parkedDesc.word (slot.2 / 8) : BitVec 64) = initial 0x3000 .nonsecure slot.1 := by
  intro slot member
  have all : ∀ slot ∈ saveList, slot.2 / 8 < 5 →
      slot = (.elrEl3, 0) ∨ slot = (.spsrEl3, 8) ∨ slot = (.elrEl1, 16) ∨
        slot = (.spsrEl1, 24) ∨ slot = (.esrEl1, 32) := by
    decide
  intro early
  rcases all slot member early with rfl | rfl | rfl | rfl | rfl <;> rfl

/-- The secure world makes an `SMC_OP_TEST` with `&nsec_state` in `x1`. -/
def overwritingStep : SmcStep Unit :=
  smcStep smallStart 6 smallBuffers.nsecState 0 parkedDesc SvcOp.test.code
    (testStored (smallStart.finds parkedDesc))

theorem smc_overwritingStep : overwritingStep.call.smc =
    { op := U32.word .aarch64 SmcOp.test.code
      desc := smallBuffers.nsecState
      sys := smallStart.finds parkedDesc } :=
  smc_smcStep starts_smallStart.selects

theorem mem_overwritingStep {addr : BitVec 64}
    (outside : ∀ depth ∈ List.range 7, addr ≠ frame 0x8000 depth) :
    overwritingStep.call.cpu.mem addr = smallStart.cpu.mem addr := by
  have top : overwritingStep.taken.cpu.regs .spEl3 = 0x8000 :=
    sp_smcStep.trans sp_smallStart
  apply mem_call (c := overwritingStep.taken.cpu) (spsel_smcStep starts_smallStart.selects)
  rw [top]
  exact outside

/-- The slots that the descriptor lies over. -/
theorem held_overwritingStep : ∀ addr ∈ monitorWords smallBuffers 0x8000,
    (addr - 0x2000).toNat < 40 →
    (parkedDesc.word ((addr - 0x2000).toNat / 8) : BitVec 64) =
      overwritingStep.call.cpu.mem addr := by
  rintro addr (⟨world, slot, inside, rfl⟩ | ⟨depth, shallow, positive, rfl⟩) below
  · rw [mem_overwritingStep fun depth shallow =>
      layout_smallBuffers.stack_slots inside shallow,
      starts_smallStart.buffers world slot inside]
    obtain ⟨source, listed, rfl⟩ := List.mem_map.mp inside
    have bound := (saveList_words source listed).2
    unfold stateWords at bound
    cases world with
    | secure =>
        simp only [Buffers.state, smallBuffers] at below
        bv_omega
    | nonsecure =>
        simp only [Buffers.state, smallBuffers] at below ⊢
        have place : ((0x2000 : BitVec 64) + BitVec.ofNat 64 source.2 - 0x2000).toNat =
            source.2 := by
          bv_omega
        rw [place] at below ⊢
        exact parkedDesc_word source listed (by omega)
  · unfold frame at below
    bv_omega

theorem reaches_overwritingStep (offset : Nat) (addr : BitVec 64) :
    overwritingStep.call.smc.Reaches monitorImage offset addr ↔
      0x2000 + BitVec.ofNat 64 offset = addr := by
  unfold SmcCall.Reaches
  rw [smc_overwritingStep]
  exact Iff.rfl

theorem issued_overwritingStep :
    overwritingStep.Issued (bareEnv .aarch64) monitorImage smallBuffers := by
  have aligned : ∀ addr ∈ monitorWords smallBuffers 0x8000,
      (addr - 0x2000).toNat % 8 = 0 := by
    intro addr member
    have small := monitorWords_small member
    bv_omega
  have desc : overwritingStep.call.smc.desc = smallBuffers.nsecState :=
    congrArg SmcCall.desc smc_overwritingStep
  have loaded : overwritingStep.call.smc.sys.interop = parkedDesc :=
    congrArg (fun call => call.sys.interop) smc_overwritingStep
  apply issued_smcStep starts_smallStart.selects
  · exact fun _ => rfl
  · rw [sp_smallStart]
    exact aligned
  · rw [sp_smallStart]
    apply SmcCall.loads_of_words
    · exact fun _ => rfl
    · intro addr member
      change (addr - overwritingStep.call.smc.desc).toNat % 8 = 0
      rw [desc]
      exact aligned addr member
    · intro addr member below
      change (addr - overwritingStep.call.smc.desc).toNat < 40 at below
      change overwritingStep.call.smc.sys.interop.word
        ((addr - overwritingStep.call.smc.desc).toNat / 8) = _
      rw [desc] at below ⊢
      rw [loaded]
      exact held_overwritingStep addr member below
    · intro index inWord offset inDesc reaches
      have same : (0x2000 : BitVec 64) + BitVec.ofNat 64 offset =
          0x3800 + BitVec.ofNat 64 index :=
        (reaches_overwritingStep offset _).mp reaches
      have short : offset < 40 := inDesc
      bv_omega
  · exact el3HandleSmc_test

theorem sparesHandler_overwritingStep :
    overwritingStep.call.smc.SparesHandler (bareEnv .aarch64) monitorImage := by
  apply SmcCall.InDescriptor.sparesHandler
  · exact SmcCall.inDescriptor_of_op (congrArg SmcCall.op smc_overwritingStep) (by decide)
  · intro offset inDesc addr member reaches
    have short : offset < 40 := inDesc
    have same := (reaches_overwritingStep offset addr).mp reaches
    have low : 0x4000 ≤ ((0x2000 : BitVec 64) + BitVec.ofNat 64 offset).toNat :=
      same ▸ member.1
    bv_omega

theorem keepsNs_overwritingStep : overwritingStep.KeepsNs (bareEnv .aarch64) := by
  have op : overwritingStep.taken.cpu.regs (.x 0) =
      U32.word .aarch64 SmcOp.test.code := x0_smcStep
  unfold SmcStep.KeepsNs
  rw [op]
  exact keepsNs_inDescriptor (by decide)

theorem spsel_offset : ∀ source ∈ saveList, source.1 = .spsel → source.2 = 48 := by
  decide

theorem slot_nsecState {reg : Reg} {offset : Nat} {addr : BitVec 64}
    (listed : reg ∈ saveList.map Prod.fst)
    (only : ∀ source ∈ saveList, source.1 = reg → source.2 = offset)
    (place : smallBuffers.nsecState + BitVec.ofNat 64 offset = addr) :
    (reg, addr) ∈ smallBuffers.slots .nonsecure := by
  obtain ⟨source, member, named⟩ := List.mem_map.mp listed
  refine List.mem_map.mpr ⟨source, member, ?_⟩
  rw [only source member named, named, ← place]
  rfl

theorem spsel_nsecState : ∀ slot ∈ smallBuffers.slots .nonsecure,
    slot.1 = .spsel → slot.2 = 0x2030 := by
  intro slot member named
  obtain ⟨source, listed, same⟩ := List.mem_map.mp member
  subst same
  have offset : source.2 = 48 := spsel_offset source listed named
  dsimp only
  rw [offset]
  rfl

/-- What the handler leaves of `nsec_state`: half of `spsr_el3`, and the first slots
behind the descriptor as they were. -/
theorem mem_entered_overwritingStep :
    overwritingStep.entered.cpu.mem 0x2008 = spsrEl1 >>> 1 ∧
      overwritingStep.entered.cpu.mem 0x2030 = 1 := by
  obtain ⟨_, _, _, memory⟩ :=
    @entered_smcStep _ smallStart 6 smallBuffers.nsecState 0 parkedDesc
      (testStored (smallStart.finds parkedDesc)) SvcOp.test.code
      starts_smallStart.selects
  have written : overwritingStep.entered.cpu.mem =
      overwritingStep.call.smc.writeBack (testStored (smallStart.finds parkedDesc))
        overwritingStep.call.cpu.mem := memory
  have selects : (Reg.spsel, (0x2030 : BitVec 64)) ∈ smallBuffers.slots .nonsecure :=
    slot_nsecState spsel_mem_saveList spsel_offset (by decide)
  rw [written, smc_overwritingStep]
  constructor
  · rfl
  · refine Eq.trans ?_ (starts_smallStart.buffers .nonsecure _ selects)
    exact mem_overwritingStep fun depth shallow =>
      layout_smallBuffers.stack_slots selects shallow

theorem switched_overwritingStep :
    Switched smallBuffers .secure overwritingStep.entered.cpu
      (overwritingStep.after smallBuffers).cpu := by
  obtain ⟨kept, result, _, _⟩ :=
    @entered_smcStep _ smallStart 6 smallBuffers.nsecState 0 parkedDesc
      (testStored (smallStart.finds parkedDesc)) SvcOp.test.code
      starts_smallStart.selects
  have sp : overwritingStep.entered.cpu.regs .spEl3 = 0x8000 :=
    (kept .spEl3 (by decide)).trans sp_smallStart
  have onEl3 : overwritingStep.entered.cpu.regs .spsel = 1 :=
    (kept .spsel (by decide)).trans starts_smallStart.selects
  have scr : overwritingStep.entered.cpu.regs .scrEl3 = 0 :=
    (kept .scrEl3 (by decide)).trans (starts_smallStart.kept .scrEl3 (by decide))
  have answer : overwritingStep.entered.cpu.regs (.x 0) ≠ 0 := by
    have code : overwritingStep.entered.cpu.regs (.x 0) = 6 := result
    rw [code]
    decide
  rw [cpu_after_of_ne_zero answer]
  apply monitorSwitch_switched
  · rw [sp]
    exact layout_smallBuffers
  · exact onEl3
  · rw [scr]
    rfl
  · intro slot member named
    rw [spsel_nsecState slot member named]
    exact mem_entered_overwritingStep.2

/-- The nonsecure world starts with another `spsr_el3` than `el3_monitor_init` has
set up for it. -/
theorem monitorSwitch_overwritten_aarch64 :
    overwritingStep.before = monitorStart smallBuffers 0x3000 smallBoot ∧
      overwritingStep.Issued (bareEnv .aarch64) monitorImage smallBuffers ∧
      overwritingStep.call.smc.SparesHandler (bareEnv .aarch64) monitorImage ∧
      overwritingStep.KeepsNs (bareEnv .aarch64) ∧ overwritingStep.code ≠ 0 ∧
      ¬ResumedAsLeft (contextsStart 0x3000) overwritingStep.code
        (overwritingStep.after smallBuffers) := by
  refine ⟨rfl, issued_overwritingStep, sparesHandler_overwritingStep,
    keepsNs_overwritingStep, SvcOp.code_ne_zero .test, ?_⟩
  intro resumed
  have parked : (Reg.spsrEl3, (0x2008 : BitVec 64)) ∈ smallBuffers.slots .nonsecure :=
    @slot_nsecState .spsrEl3 8 _ (by decide) (by decide) (by decide)
  have restored := switched_overwritingStep.restored (.spsrEl3, 0x2008) parked
  dsimp only at restored
  have found : (overwritingStep.after smallBuffers).cpu.regs .spsrEl3 =
      spsrEl1 >>> 1 := restored.trans mem_entered_overwritingStep.1
  have left : (overwritingStep.after smallBuffers).cpu.regs .spsrEl3 = spsrEl1 :=
    resumed.registers .spsrEl3 (by decide)
  exact absurd (left.symm.trans found) (by decide)

/-- An SMC whose descriptor is outside of EL3. -/
def request (m : Monitor Unit) (op : SmcOp) (x19 : BitVec 64) (loaded : Desc .aarch64) :
    SmcStep Unit :=
  let answer := inDescriptorAnswer op (m.finds loaded)
  smcStep m (U32.word .aarch64 op.code) 0x9000 x19 loaded answer.1 answer.2

/-- EL3 is at rest with the stack of the examples. -/
structure AtRest (m : Monitor Unit) : Prop where
  rests : Rests smallBuffers 0x8000 m
  onEl3 : m.cpu.regs .spsel = 1

theorem atRest_smallStart : AtRest smallStart where
  rests := (@follows_start _ smallBuffers smallBoot layout_smallBuffers rfl
    ⟨rfl, rfl⟩ 0x3000).rests
  onEl3 := starts_smallStart.selects

section Request

variable {m : Monitor Unit} {op : SmcOp} {x19 : BitVec 64} {loaded : Desc .aarch64}

theorem smc_request (atRest : AtRest m) :
    (request m op x19 loaded).call.smc =
      { op := U32.word .aarch64 op.code, desc := 0x9000, sys := m.finds loaded } :=
  smc_smcStep atRest.onEl3

theorem code_request : (request m op x19 loaded).code =
    (inDescriptorAnswer op (m.finds loaded)).1 :=
  rfl

theorem apart_request (atRest : AtRest m) {addresses : Set (BitVec 64)}
    (low : ∀ addr ∈ addresses, addr.toNat < 0x9000) :
    (request m op x19 loaded).call.smc.Apart monitorImage addresses := by
  intro offset inDesc addr member reaches
  rw [smc_request atRest] at reaches
  have same : (0x9000 : BitVec 64) + BitVec.ofNat 64 offset = addr := reaches
  have short : offset < 40 := inDesc
  have below : ((0x9000 : BitVec 64) + BitVec.ofNat 64 offset).toNat < 0x9000 :=
    same ▸ low addr member
  bv_omega

theorem apart_monitorBytes (atRest : AtRest m) :
    (request m op x19 loaded).call.smc.Apart monitorImage
      (SmcCall.monitorBytes monitorImage (monitorWords smallBuffers 0x8000)) := by
  apply apart_request atRest
  rintro place (⟨addr, member, index, inWord, rfl⟩ | ⟨index, inWord, rfl⟩)
  · have small := (monitorWords_small member).2
    have short : index < 8 := inWord
    have bytes (word : BitVec 64) (inside : word.toNat + 8 ≤ 0x8000) :
        (word + BitVec.ofNat 64 index).toNat < 0x9000 := by
      bv_omega
    exact bytes addr small
  · show ((0x3800 : BitVec 64) + BitVec.ofNat 64 index).toNat < 0x9000
    bv_omega

theorem words_request (atRest : AtRest m) :
    (request m op x19 loaded).words smallBuffers = monitorWords smallBuffers 0x8000 := by
  rw [← atRest.rests.sp]
  exact words_smcStep

theorem issued_request (atRest : AtRest m) (member : op ∈ [.yield, .test, .getReg]) :
    (request m op x19 loaded).Issued (bareEnv .aarch64) monitorImage smallBuffers := by
  apply issued_smcStep atRest.onEl3
  · exact fun _ => rfl
  · intro addr inside
    rw [atRest.rests.sp] at inside
    have small := monitorWords_small inside
    bv_omega
  · rw [atRest.rests.sp]
    exact (apart_monitorBytes atRest).loads
  · exact el3HandleSmc_inDescriptor member

theorem sparesEl3_request (atRest : AtRest m) (member : op ∈ [.yield, .test, .getReg]) :
    (request m op x19 loaded).SparesEl3 (bareEnv .aarch64) monitorImage smallBuffers := by
  unfold SmcStep.SparesEl3
  rw [words_request atRest]
  apply SmcCall.InDescriptor.sparesEl3
  · exact SmcCall.inDescriptor_of_op (congrArg SmcCall.op (smc_request atRest)) member
  · apply apart_request atRest
    intro addr inside
    exact Nat.lt_trans inside.2 (by decide)
  · exact apart_monitorBytes atRest

theorem keepsNs_request (member : op ∈ [.yield, .test, .getReg]) :
    (request m op x19 loaded).KeepsNs (bareEnv .aarch64) := by
  have named : (request m op x19 loaded).taken.cpu.regs (.x 0) =
      U32.word .aarch64 op.code := x0_smcStep
  unfold SmcStep.KeepsNs
  rw [named]
  exact keepsNs_inDescriptor member

theorem atRest_after (atRest : AtRest m) (member : op ∈ [.yield, .test, .getReg]) :
    AtRest ((request m op x19 loaded).after smallBuffers) := by
  have valid := (@issued_request _ _ x19 loaded atRest member).valid
    (sparesEl3_request atRest member)
  exact ⟨valid.rests layout_smallBuffers atRest.rests,
    valid.onEl3_after layout_smallBuffers atRest.rests⟩

theorem x19_request (atRest : AtRest m) :
    (request m op x19 loaded).entered.cpu.regs (.x 19) = x19 :=
  (entered_smcStep atRest.onEl3).2.2.1

end Request

/-- Requests one after the other. -/
def requests : Monitor Unit → List (SmcOp × BitVec 64 × Desc .aarch64) →
    List (SmcStep Unit)
  | _, [] => []
  | m, (op, x19, loaded) :: rest =>
      request m op x19 loaded ::
        requests ((request m op x19 loaded).after smallBuffers) rest

theorem linked_requests (m : Monitor Unit)
    (list : List (SmcOp × BitVec 64 × Desc .aarch64)) :
    Chain.Linked SmcStep.before (SmcStep.after smallBuffers) m (requests m list) := by
  induction list generalizing m with
  | nil => trivial
  | cons first rest induction => exact ⟨rfl, induction _⟩

theorem served_requests {m : Monitor Unit} (atRest : AtRest m)
    {list : List (SmcOp × BitVec 64 × Desc .aarch64)}
    (allowed : ∀ entry ∈ list, entry.1 ∈ [SmcOp.yield, .test, .getReg]) :
    ∀ step ∈ requests m list,
      step.Issued (bareEnv .aarch64) monitorImage smallBuffers ∧
        step.SparesEl3 (bareEnv .aarch64) monitorImage smallBuffers ∧
        step.KeepsNs (bareEnv .aarch64) := by
  induction list generalizing m with
  | nil =>
      intro step member
      cases member
  | cons first rest induction =>
      have here := allowed first List.mem_cons_self
      intro step member
      rcases List.mem_cons.mp member with rfl | later
      · exact ⟨issued_request atRest here, sparesEl3_request atRest here,
          keepsNs_request here⟩
      · apply induction (atRest_after atRest here) _ step later
        intro entry inRest
        exact allowed entry (List.mem_cons_of_mem _ inRest)

/-- The secure world yields, the nonsecure world makes a test with `x19 = 0x77`, and
the secure world reads `SCR`. -/
def roundTrip : List (SmcOp × BitVec 64 × Desc .aarch64) :=
  [(.yield, 0, ⟨0, 0, 0, 0, 0⟩), (.test, 0x77, ⟨8, 8, 0, 0, 0⟩),
    (.getReg, 0x55, ⟨4, 0, 3, 0, 0⟩)]

/-- The secure world yields again. -/
def yields : SmcOp × BitVec 64 × Desc .aarch64 :=
  (.yield, 0, ⟨0, 0, 0, 0, 0⟩)

def lastYield : SmcStep Unit :=
  request
    (Chain.finish (SmcStep.after smallBuffers) smallStart (requests smallStart roundTrip))
    yields.1 yields.2.1 yields.2.2

/-- The nonsecure world finds its `x19` again. -/
theorem monitorSwitch_resumes_aarch64_roundTrip :
    (lastYield.after smallBuffers).cpu.regs (.x 19) = 0x77 ∧
      (lastYield.after smallBuffers).cpu.regs (.x 0) = 1 ∧
      (lastYield.after smallBuffers).view.InStep .nonsecure := by
  have whole : requests smallStart (roundTrip ++ [yields]) =
      requests smallStart roundTrip ++ [lastYield] := rfl
  have served := @served_requests _ atRest_smallStart
    (roundTrip ++ [yields]) (by decide)
  have linked := linked_requests smallStart
    (roundTrip ++ [yields])
  rw [whole] at served linked
  have resumed := @monitorSwitch_resumes_aarch64 _ (bareEnv .aarch64) monitorImage _
    smallBoot 0x3000 layout_smallBuffers rfl ⟨rfl, rfl⟩ _ _ linked
    (fun step member => (served step member).1)
    (fun step member => (served step member).2.1)
    (fun step member => (served step member).2.2) (SvcOp.code_ne_zero .yield)
  have x19 : ((requests smallStart roundTrip).foldl record
      (contextsStart 0x3000)).entered .nonsecure (.x 19) = 0x77 := by
    have atRest := @atRest_after _ .yield 0 ⟨0, 0, 0, 0, 0⟩ atRest_smallStart (by decide)
    simp only [roundTrip, requests, List.foldl_cons, List.foldl_nil, record,
      code_request, inDescriptorAnswer]
    rw [Contexts.serve_of_zero rfl, Contexts.serve_of_ne_zero (SvcOp.code_ne_zero .test),
      Contexts.serve_of_ne_zero (SvcOp.code_ne_zero .yield)]
    dsimp only [contextsStart, World.other]
    rw [Function.update_self]
    exact @x19_request _ .test 0x77 _ atRest
  exact ⟨(resumed.registers (.x 19) (by decide)).trans x19, resumed.result,
    resumed.inStep⟩

end TzTest.Aarch64
