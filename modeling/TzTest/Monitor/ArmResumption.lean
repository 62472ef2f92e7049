import TzTest.Monitor.Runs
import TzTest.Monitor.Descriptors

/-!
# Resumed worlds on ARM

Runs of SMCs with any pointer in `r1`.  As long as no SMC makes the handler
overwrite EL3's own memory or the registers that it runs with, each world is
resumed as it was left.
-/

namespace TzTest.Arm

open Cpu Slots

variable {Paging : Type} {env : Env .arm Paging} {image : El3Image .arm Paging}
  {link : Link}

/-- The words that the monitor keeps over a call of the handler: both buffers
and the frame of the vector. -/
def monitorWords (link : Link) (sp : BitVec 32) : Set (BitVec 32) :=
  { addr | (∃ world, ∃ slot ∈ link.slots world, slot.2 = addr) ∨
      ∃ depth < 3, 0 < depth ∧ frame sp depth = addr }

/-- The call that `el3_handle_smc` sees. -/
def Monitor.smc (m : Monitor Paging) : SmcCall .arm Paging :=
  { op := m.cpu.regs (.r 0)
    desc := m.cpu.regs (.r 1)
    sys := m.view }

/-- The return of `el3_handle_smc`, with the calling convention.  Of the words of
the monitor it changes those that the descriptor lies over. -/
structure SmcReturns (env : Env .arm Paging) (image : El3Image .arm Paging)
    (words : Set (BitVec 32)) (call returned : Monitor Paging) (code : U32) :
    Prop where
  answer : ∃ state,
    el3HandleSmc env call.smc.op call.smc.sys =
        some (code, { returned.view with secureState := state }) ∧
      (call.smc.SparesSecureState image → returned.sys.secureState = state)
  result : returned.cpu.regs (.r 0) = code
  mode : returned.cpu.mode = .mon
  saved : ∀ reg ∈ calleeSaved ++ notInC,
    returned.cpu.regs reg = call.cpu.regs reg
  leaves : call.smc.Leaves image words call.cpu.mem returned.cpu.mem
    returned.sys.interop

namespace SmcStep

variable (env image link) (step : SmcStep Paging)

def words : Set (BitVec 32) :=
  monitorWords link (step.taken.cpu.regs (.sp .mon))

/-- An SMC of the running world, with any registers.  Nothing is known of a
handler that has lost its own memory or registers. -/
structure Issued : Prop where
  runs : Runs link step.before step.taken
  loads : (step.call link).smc.Loads image (step.words link) (step.call link).cpu.mem
  returns : (step.call link).smc.SparesHandler env image →
    SmcReturns env image (step.words link) (step.call link) step.returned step.code

/-- The SMC has nothing of EL3 overwritten. -/
def SparesEl3 : Prop :=
  (step.call link).smc.SparesEl3 env image (step.words link)

end SmcStep

/-- The running world is resumed as it was left, with the answer in `r0`, and
`secure_state` and `SCR.NS` are its own. -/
structure ResumedAsLeft (contexts : Contexts Reg (BitVec 32)) (code : U32)
    (after : Monitor Paging) : Prop where
  registers : ∀ reg ∈ contextNames,
    after.cpu.regs reg = contexts.entered contexts.live.other reg
  result : after.cpu.regs (.r 0) = code
  inStep : after.view.InStep contexts.live.other

theorem SmcStep.Issued.valid {step : SmcStep Paging}
    (issued : step.Issued env image link)
    (spares : step.SparesEl3 env image link) : step.Valid env link := by
  have returns := issued.returns spares.handler
  have same := returns.leaves.same spares.words
  obtain ⟨state, answer, kept⟩ := returns.answer
  refine ⟨issued.runs, ?_, returns.result, returns.mode, returns.saved, ?_, ?_⟩
  · rw [← kept spares.secureState] at answer
    exact answer
  · intro depth shallow positive
    exact same _ (.inr ⟨depth, shallow, positive, rfl⟩)
  · intro world slot member
    exact same _ (.inl ⟨world, slot, member, rfl⟩)

/-- Whenever `monitor_switch` resumes a world, the world finds the banked
registers, `r4` to `r12` and its place and status as it last entered
`monitor_switch`, and the answer in `r0`. -/
theorem monitorSwitch_resumes_arm {boot : Monitor Paging} {syscntlPa : BitVec 32}
    (layout : Layout link (boot.cpu.regs (.sp .mon)))
    (mode : boot.cpu.mode = .mon) (secure : boot.view.InStep .secure)
    {run : List (SmcStep Paging)} {last : SmcStep Paging}
    (linked : Chain.Linked SmcStep.before (SmcStep.after link)
      (monitorStart link syscntlPa boot) (run ++ [last]))
    (issued : ∀ step ∈ run ++ [last], step.Issued env image link)
    (spares : ∀ step ∈ run ++ [last], step.SparesEl3 env image link)
    (keeps : ∀ step ∈ run ++ [last], step.KeepsNs env)
    (apart : ∀ step ∈ run ++ [last],
      Layout link (step.before.cpu.regs (.sp .mon)))
    (switches : last.code ≠ 0) :
    ResumedAsLeft (run.foldl record (contextsStart syscntlPa)) last.code
      (last.after link) := by
  obtain ⟨earlier, begins⟩ := linked.before_last
  have valid (step : SmcStep Paging) (member : step ∈ run ++ [last]) :
      step.Valid env link :=
    (issued step member).valid (spares step member)
  have taken (step : SmcStep Paging) (member : step ∈ run ++ [last]) :
      Layout link (step.taken.cpu.regs (.sp .mon)) := by
    rw [(valid step member).runs.sp]
    exact apart step member
  have inRun (step : SmcStep Paging) (member : step ∈ run) :
      step ∈ run ++ [last] := List.mem_append_left _ member
  have follows : Follows link (run.foldl record (contextsStart syscntlPa))
      last.before := by
    rw [begins]
    apply earlier.replayed _ (follows_start layout mode secure syscntlPa)
    intro history step member
    exact Follows.serves (taken step (inRun step member))
      (valid step (inRun step member)) (keeps step (inRun step member))
  have lastValid := valid last List.mem_concat_self
  obtain ⟨switched, resumed, inStep⟩ := follows.resumes
    (taken last List.mem_concat_self) lastValid
    (keeps last List.mem_concat_self) switches
  refine ⟨resumed, ?_, inStep⟩
  rw [switched.result, lastValid.handled.result]

section Calls

variable {m : Monitor Paging}

/-- The running world sets `r0`, `r1` and `r7` and executes `smc`, with `loaded`
at `r1`; the handler answers with `code`, leaves `stored` there and writes no
register. -/
def smcStep (link : Link) (m : Monitor Paging) (op desc r7 : BitVec 32)
    (loaded : Desc .arm) (code : U32) (stored : Desc .arm) : SmcStep Paging :=
  let taken : Monitor Paging :=
    { cpu := cps .mon (((m.cpu.set (.r 0) op).set (.r 1) desc).set (.r 7) r7)
      sys := m.sys.setInterop loaded }
  let call : Monitor Paging := { taken with cpu := smcVect link taken.cpu }
  let stores : Cpu := { call.cpu with mem := call.smc.writeBack stored call.cpu.mem }
  { before := m
    taken := taken
    returned :=
      { cpu := stores.set (.r 0) code
        sys := { m.sys with
          interop := stored
          secureState :=
            if code = 0 then m.sys.secureState else m.sys.secureState ^^^ 1 } }
    code := code }

variable {op desc r7 : BitVec 32} {loaded stored : Desc .arm} {code : U32}

/-- The state in which the handler finds the descriptor. -/
def Monitor.finds (m : Monitor Paging) (loaded : Desc .arm) : Sys .arm Paging :=
  m.view.setInterop loaded

theorem regs_taken_smcStep {reg : Reg} (outside : reg ∉ [Reg.r 0, .r 1, .r 7]) :
    (smcStep link m op desc r7 loaded code stored).taken.cpu.regs reg =
      m.cpu.regs reg := by
  simp only [List.mem_cons, List.not_mem_nil, or_false, not_or] at outside
  simp [smcStep, cps, Cpu.set, outside]

theorem r0_smcStep :
    (smcStep link m op desc r7 loaded code stored).taken.cpu.regs (.r 0) = op := by
  simp [smcStep, cps, Cpu.set]

theorem r7_smcStep :
    (smcStep link m op desc r7 loaded code stored).taken.cpu.regs (.r 7) = r7 := by
  simp [smcStep, cps, Cpu.set]

theorem regs_call_smcStep {reg : Reg}
    (outside : reg ∉ [Reg.sp .mon, .r 2, .r 3, .lr .mon]) :
    ((smcStep link m op desc r7 loaded code stored).call link).cpu.regs reg =
      (smcStep link m op desc r7 loaded code stored).taken.cpu.regs reg := by
  have called := @smcVect_eq link
    (smcStep link m op desc r7 loaded code stored).taken.cpu rfl _ rfl
  refine (congrArg (fun cpu : Cpu => cpu.regs reg) called).trans ?_
  apply updates_of_not_mem
  exact outside

theorem mem_call_smcStep {addr : BitVec 32}
    (outside : ∀ depth < 7, addr ≠ frame (m.cpu.regs (.sp .mon)) depth) :
    ((smcStep link m op desc r7 loaded code stored).call link).cpu.mem addr =
      m.cpu.mem addr := by
  have called := @smcVect_eq link
    (smcStep link m op desc r7 loaded code stored).taken.cpu rfl _
    (regs_taken_smcStep (by decide))
  refine (congrArg (fun cpu : Cpu => cpu.mem addr) called).trans ?_
  apply updates_of_not_mem
  have second := outside 2 (by decide)
  have first := outside 1 (by decide)
  simp [second, first]

theorem kept_smcStep {reg : Reg} (other : reg ≠ .r 0) :
    (smcStep link m op desc r7 loaded code stored).returned.cpu.regs reg =
      ((smcStep link m op desc r7 loaded code stored).call link).cpu.regs reg :=
  regs_set_of_ne other _ _

theorem mem_smcStep :
    (smcStep link m op desc r7 loaded code stored).returned.cpu.mem =
      ((smcStep link m op desc r7 loaded code stored).call link).smc.writeBack stored
        ((smcStep link m op desc r7 loaded code stored).call link).cpu.mem :=
  rfl

theorem smc_smcStep :
    ((smcStep link m op desc r7 loaded code stored).call link).smc =
      { op := op, desc := desc, sys := m.finds loaded } := by
  unfold Monitor.smc Monitor.finds Monitor.view
  rw [regs_call_smcStep (by decide), regs_call_smcStep (by decide),
    regs_call_smcStep (by decide)]
  simp [smcStep, cps, Cpu.set, SmcStep.call, Sys.setInterop]

theorem view_smcStep :
    (smcStep link m op desc r7 loaded code stored).returned.view =
      (m.finds loaded).answered code stored := by
  have scr : (smcStep link m op desc r7 loaded code stored).returned.cpu.regs .scr =
      m.cpu.regs .scr := by
    rw [kept_smcStep (by decide), regs_call_smcStep (by decide),
      regs_taken_smcStep (by decide)]
  unfold Monitor.view Sys.answered Monitor.finds Sys.setInterop Monitor.view
  rw [scr]
  rfl

theorem issued_smcStep
    (plain : ∀ addr, image.translate m.sys.paging addr = addr)
    (aligned : ∀ addr ∈ monitorWords link (m.cpu.regs (.sp .mon)),
      (addr - desc).toNat % 4 = 0)
    (loads : ((smcStep link m op desc r7 loaded code stored).call link).smc.Loads image
      (monitorWords link (m.cpu.regs (.sp .mon)))
      ((smcStep link m op desc r7 loaded code stored).call link).cpu.mem)
    (answered : el3HandleSmc env op (m.finds loaded) =
      some (code, (m.finds loaded).answered code stored)) :
    (smcStep link m op desc r7 loaded code stored).Issued env image link := by
  have seen := @smc_smcStep _ link m op desc r7 loaded stored code
  have words : (smcStep link m op desc r7 loaded code stored).words link =
      monitorWords link (m.cpu.regs (.sp .mon)) :=
    congrArg (monitorWords link) (regs_taken_smcStep (by decide))
  constructor
  · constructor
    · exact regs_taken_smcStep (by decide)
    · exact regs_taken_smcStep (by decide)
    · rfl
    · intro world slot _
      rfl
    · rfl
  · rw [words]
    exact loads
  · intro _
    constructor
    · refine ⟨_, ?_, fun _ => rfl⟩
      rw [seen, answered, ← @view_smcStep _ link m op desc r7 loaded stored code]
      rfl
    · exact regs_set_self _ _ _
    · have called := @smcVect_eq link
        (smcStep link m op desc r7 loaded code stored).taken.cpu rfl _ rfl
      exact congrArg Cpu.mode called
    · have others : ∀ reg ∈ calleeSaved ++ notInC, reg ≠ .r 0 := by
        decide
      intro reg member
      exact kept_smcStep (others reg member)
    · rw [words]
      exact SmcCall.leaves_writeBack (by rw [seen]; exact plain)
        (by rw [seen]; exact aligned) loads (by rw [seen]; exact answered)

theorem cpu_after_of_ne_zero {step : SmcStep Paging}
    (nonzero : step.returned.cpu.regs (.r 0) ≠ 0) :
    (step.after link).cpu = monitorSwitch link step.returned.cpu :=
  if_neg nonzero

end Calls

/-- Where the machine of the examples has the rest of EL3. -/
def monitorImage : El3Image .arm Unit where
  translate := fun _ addr => addr
  secureState := 0x3800
  working := { addr | 0x4000 ≤ addr.toNat ∧ addr.toNat < 0x6000 }

theorem monitorWords_small {sp addr : BitVec 32} (low : 0x7000 ≤ sp.toNat)
    (high : sp.toNat ≤ 0x8000) (aligned : sp.toNat % 4 = 0)
    (member : addr ∈ monitorWords smallLink sp) :
    addr.toNat % 4 = 0 ∧ addr.toNat + 4 ≤ 0x8000 := by
  rcases member with ⟨world, slot, inside, rfl⟩ | ⟨depth, shallow, positive, rfl⟩
  · obtain ⟨word, below, place⟩ := exists_word inside
    rw [length_contextNames] at below
    rw [place]
    unfold stateWords at below
    cases world with
    | secure =>
        simp only [Link.state, smallLink]
        bv_omega
    | nonsecure =>
        simp only [Link.state, smallLink]
        bv_omega
  · unfold frame
    bv_omega

def smallStart : Monitor Unit :=
  monitorStart smallLink 0x3000 smallBoot

theorem starts_smallStart :
    Starts smallLink 0x3000 smallBoot.cpu smallStart.cpu :=
  el3Start_starts (layout_smallLink (by decide) (by decide)) rfl 0x3000

theorem sp_smallStart : smallStart.cpu.regs (.sp .mon) = 0x7FF8 :=
  starts_smallStart.sp

/-- The first five words of `nsec_state`. -/
def parkedDesc : Desc .arm where
  word0 := 0
  word1 := 0
  word2 := 0
  word3 := 0
  word4 := 0

theorem word_parkedDesc (index : Nat) : parkedDesc.word index = 0 := by
  match index with
  | 0 => rfl
  | 1 => rfl
  | 2 => rfl
  | 3 => rfl
  | _ + 4 => rfl

/-- The secure world makes an `SMC_OP_TEST` with `&nsec_state` in `r1`. -/
def overwritingStep : SmcStep Unit :=
  smcStep smallLink smallStart 6 smallLink.nsecState 0 parkedDesc SvcOp.test.code
    (testStored (smallStart.finds parkedDesc))

theorem smc_overwritingStep : (overwritingStep.call smallLink).smc =
    { op := U32.word .arm SmcOp.test.code
      desc := smallLink.nsecState
      sys := smallStart.finds parkedDesc } :=
  smc_smcStep

theorem mem_overwritingStep {addr : BitVec 32}
    (outside : ∀ depth < 7, addr ≠ frame 0x7FF8 depth) :
    (overwritingStep.call smallLink).cpu.mem addr = smallStart.cpu.mem addr := by
  apply mem_call_smcStep
  rw [sp_smallStart]
  exact outside

theorem early_initial : ∀ word < 5, ∀ reg, contextNames[word]? = some reg →
    initial 0x3000 .nonsecure reg = 0 := by
  intro word early reg named
  have listed : reg ∈ contextNames.take 5 := by
    apply List.mem_of_getElem? (i := word)
    rw [List.getElem?_take_of_lt early, named]
  have all : ∀ reg ∈ contextNames.take 5, initial 0x3000 .nonsecure reg = 0 := by
    decide
  exact all reg listed

/-- The slots that the descriptor lies over. -/
theorem held_overwritingStep : ∀ addr ∈ monitorWords smallLink 0x7FF8,
    (addr - 0x2000).toNat < 20 →
    (overwritingStep.call smallLink).cpu.mem addr = 0 := by
  rintro addr (⟨world, slot, inside, rfl⟩ | ⟨depth, shallow, positive, rfl⟩) below
  · have layout : Layout smallLink 0x7FF8 := layout_smallLink (by decide) (by decide)
    rw [mem_overwritingStep fun depth shallow => layout.stack_slots inside shallow,
      starts_smallStart.buffers world slot inside]
    obtain ⟨word, named, place⟩ := exists_index inside
    have bound : word < stateWords := by
      rw [← length_contextNames]
      exact (List.getElem?_eq_some_iff.mp named).1
    unfold stateWords at bound
    rw [place] at below
    cases world with
    | secure =>
        simp only [Link.state, smallLink] at below
        bv_omega
    | nonsecure =>
        simp only [Link.state, smallLink] at below
        exact early_initial word (by bv_omega) slot.1 named
  · unfold frame at below
    bv_omega

theorem reaches_overwritingStep (offset : Nat) (addr : BitVec 32) :
    (overwritingStep.call smallLink).smc.Reaches monitorImage offset addr ↔
      0x2000 + BitVec.ofNat 32 offset = addr := by
  unfold SmcCall.Reaches
  rw [smc_overwritingStep]
  exact Iff.rfl

theorem issued_overwritingStep :
    overwritingStep.Issued (bareEnv .arm) monitorImage smallLink := by
  have aligned : ∀ addr ∈ monitorWords smallLink 0x7FF8,
      (addr - 0x2000).toNat % 4 = 0 := by
    intro addr member
    have small := monitorWords_small (by decide) (by decide) (by decide) member
    bv_omega
  have desc : (overwritingStep.call smallLink).smc.desc = smallLink.nsecState :=
    congrArg SmcCall.desc smc_overwritingStep
  have loaded : (overwritingStep.call smallLink).smc.sys.interop = parkedDesc :=
    congrArg (fun call => call.sys.interop) smc_overwritingStep
  apply issued_smcStep
  · exact fun _ => rfl
  · rw [sp_smallStart]
    exact aligned
  · rw [sp_smallStart]
    apply SmcCall.loads_of_words
    · exact fun _ => rfl
    · intro addr member
      change (addr - (overwritingStep.call smallLink).smc.desc).toNat % 4 = 0
      rw [desc]
      exact aligned addr member
    · intro addr member below
      change (addr - (overwritingStep.call smallLink).smc.desc).toNat < 20 at below
      change (overwritingStep.call smallLink).smc.sys.interop.word _ = _
      rw [desc] at below
      refine Eq.trans ?_ (held_overwritingStep addr member below).symm
      rw [loaded]
      exact word_parkedDesc _
    · intro index inWord offset inDesc reaches
      have same : (0x2000 : BitVec 32) + BitVec.ofNat 32 offset =
          0x3800 + BitVec.ofNat 32 index :=
        (reaches_overwritingStep offset _).mp reaches
      have short : offset < 20 := inDesc
      bv_omega
  · exact el3HandleSmc_test

theorem sparesHandler_overwritingStep :
    (overwritingStep.call smallLink).smc.SparesHandler (bareEnv .arm) monitorImage := by
  apply SmcCall.InDescriptor.sparesHandler
  · exact SmcCall.inDescriptor_of_op (congrArg SmcCall.op smc_overwritingStep) (by decide)
  · intro offset inDesc addr member reaches
    have short : offset < 20 := inDesc
    have same := (reaches_overwritingStep offset addr).mp reaches
    have low : 0x4000 ≤ ((0x2000 : BitVec 32) + BitVec.ofNat 32 offset).toNat :=
      same ▸ member.1
    bv_omega

theorem keepsNs_overwritingStep : overwritingStep.KeepsNs (bareEnv .arm) := by
  have op : overwritingStep.taken.cpu.regs (.r 0) = U32.word .arm SmcOp.test.code :=
    r0_smcStep
  unfold SmcStep.KeepsNs
  rw [op]
  exact keepsNs_inDescriptor (by decide)

/-- What the handler leaves of `nsec_state`: the incremented `count` in the place of
`spsr_irq`. -/
theorem mem_returned_overwritingStep : overwritingStep.returned.cpu.mem 0x2008 = 1 := by
  have written : overwritingStep.returned.cpu.mem =
      (overwritingStep.call smallLink).smc.writeBack
        (testStored (smallStart.finds parkedDesc))
        (overwritingStep.call smallLink).cpu.mem := mem_smcStep
  rw [written, smc_overwritingStep]
  rfl

theorem switched_overwritingStep :
    Switched smallLink .secure overwritingStep.returned.cpu
      (overwritingStep.after smallLink).cpu := by
  have top : overwritingStep.taken.cpu.regs (.sp .mon) = 0x7FF8 :=
    (regs_taken_smcStep (by decide)).trans sp_smallStart
  have called := @smcVect_eq smallLink overwritingStep.taken.cpu rfl _ top
  have mode : overwritingStep.returned.cpu.mode = .mon := congrArg Cpu.mode called
  have sp : overwritingStep.returned.cpu.regs (.sp .mon) = frame 0x7FF8 2 := by
    refine (kept_smcStep (by decide)).trans ?_
    refine (congrArg (fun cpu : Cpu => cpu.regs (.sp .mon)) called).trans ?_
    simp [updates_cons]
  have scr : overwritingStep.returned.cpu.regs .scr = 0 := by
    refine (kept_smcStep (by decide)).trans ?_
    refine (regs_call_smcStep (by decide)).trans ?_
    exact (regs_taken_smcStep (by decide)).trans starts_smallStart.scr
  have result : overwritingStep.returned.cpu.regs (.r 0) = SvcOp.test.code :=
    regs_set_self _ _ _
  have answer : overwritingStep.returned.cpu.regs (.r 0) ≠ 0 := by
    rw [result]
    exact SvcOp.code_ne_zero .test
  rw [cpu_after_of_ne_zero answer]
  exact monitorSwitch_switched (layout_smallLink (by decide) (by decide)) mode sp
    (by rw [scr]; rfl)

/-- The nonsecure world starts with another `spsr_irq` than `el3_monitor_init` has
set up for it. -/
theorem monitorSwitch_overwritten_arm :
    overwritingStep.before = monitorStart smallLink 0x3000 smallBoot ∧
      overwritingStep.Issued (bareEnv .arm) monitorImage smallLink ∧
      (overwritingStep.call smallLink).smc.SparesHandler (bareEnv .arm) monitorImage ∧
      overwritingStep.KeepsNs (bareEnv .arm) ∧
      Layout smallLink (overwritingStep.before.cpu.regs (.sp .mon)) ∧
      overwritingStep.code ≠ 0 ∧
      ¬ResumedAsLeft (contextsStart 0x3000) overwritingStep.code
        (overwritingStep.after smallLink) := by
  refine ⟨rfl, issued_overwritingStep, sparesHandler_overwritingStep,
    keepsNs_overwritingStep, ?_, SvcOp.code_ne_zero .test, ?_⟩
  · show Layout smallLink (smallStart.cpu.regs (.sp .mon))
    rw [sp_smallStart]
    exact layout_smallLink (by decide) (by decide)
  intro resumed
  have parked : (Reg.spsr .irq, (0x2008 : BitVec 32)) ∈ smallLink.slots .nonsecure := by
    decide
  have restored := switched_overwritingStep.restored (.spsr .irq, 0x2008) parked
  dsimp only at restored
  have found : (overwritingStep.after smallLink).cpu.regs (.spsr .irq) = 1 :=
    restored.trans mem_returned_overwritingStep
  have left : (overwritingStep.after smallLink).cpu.regs (.spsr .irq) = 0 :=
    resumed.registers (.spsr .irq) (by decide)
  exact absurd (left.symm.trans found) (by decide)

/-- An SMC whose descriptor is outside of EL3. -/
def request (m : Monitor Unit) (op : SmcOp) (r7 : BitVec 32) (loaded : Desc .arm) :
    SmcStep Unit :=
  let answer := inDescriptorAnswer op (m.finds loaded)
  smcStep smallLink m (U32.word .arm op.code) 0x9000 r7 loaded answer.1 answer.2

/-- The stack has room for the eight bytes that each of `switches` switches takes. -/
structure Room (switches : Nat) (m : Monitor Unit) : Prop where
  low : 0x7000 + 8 * switches ≤ (m.cpu.regs (.sp .mon)).toNat
  high : (m.cpu.regs (.sp .mon)).toNat ≤ 0x8000
  aligned : (m.cpu.regs (.sp .mon)).toNat % 4 = 0

theorem room_smallStart : Room 4 smallStart := by
  constructor <;> rw [sp_smallStart] <;> decide

section Request

variable {m : Monitor Unit} {op : SmcOp} {r7 : BitVec 32} {loaded : Desc .arm}
  {switches : Nat}

theorem smc_request : ((request m op r7 loaded).call smallLink).smc =
    { op := U32.word .arm op.code, desc := 0x9000, sys := m.finds loaded } :=
  smc_smcStep

theorem code_request : (request m op r7 loaded).code =
    (inDescriptorAnswer op (m.finds loaded)).1 :=
  rfl

theorem apart_request {addresses : Set (BitVec 32)}
    (low : ∀ addr ∈ addresses, addr.toNat < 0x9000) :
    ((request m op r7 loaded).call smallLink).smc.Apart monitorImage addresses := by
  intro offset inDesc addr member reaches
  rw [smc_request] at reaches
  have same : (0x9000 : BitVec 32) + BitVec.ofNat 32 offset = addr := reaches
  have short : offset < 20 := inDesc
  have below : ((0x9000 : BitVec 32) + BitVec.ofNat 32 offset).toNat < 0x9000 :=
    same ▸ low addr member
  bv_omega

theorem Room.words (room : Room switches m) {addr : BitVec 32}
    (member : addr ∈ monitorWords smallLink (m.cpu.regs (.sp .mon))) :
    addr.toNat % 4 = 0 ∧ addr.toNat + 4 ≤ 0x8000 :=
  monitorWords_small (Nat.le_trans (Nat.le_add_right _ _) room.low) room.high
    room.aligned member

theorem Room.layout (room : Room switches m) :
    Layout smallLink (m.cpu.regs (.sp .mon)) :=
  layout_smallLink (Nat.le_trans (Nat.le_add_right _ _) room.low) room.high

theorem apart_monitorBytes (room : Room switches m) :
    ((request m op r7 loaded).call smallLink).smc.Apart monitorImage
      (SmcCall.monitorBytes monitorImage
        (monitorWords smallLink (m.cpu.regs (.sp .mon)))) := by
  apply apart_request
  rintro place (⟨addr, member, index, inWord, rfl⟩ | ⟨index, inWord, rfl⟩)
  · have short : index < 4 := inWord
    have bytes (word : BitVec 32) (inside : word.toNat + 4 ≤ 0x8000) :
        (word + BitVec.ofNat 32 index).toNat < 0x9000 := by
      bv_omega
    exact bytes addr (room.words member).2
  · show ((0x3800 : BitVec 32) + BitVec.ofNat 32 index).toNat < 0x9000
    bv_omega

theorem issued_request (room : Room switches m) (member : op ∈ [.yield, .test, .getReg]) :
    (request m op r7 loaded).Issued (bareEnv .arm) monitorImage smallLink := by
  apply issued_smcStep
  · exact fun _ => rfl
  · intro addr inside
    have small := room.words inside
    bv_omega
  · exact (apart_monitorBytes room).loads
  · exact el3HandleSmc_inDescriptor member

theorem sparesEl3_request (room : Room switches m)
    (member : op ∈ [.yield, .test, .getReg]) :
    (request m op r7 loaded).SparesEl3 (bareEnv .arm) monitorImage smallLink := by
  have words : (request m op r7 loaded).words smallLink =
      monitorWords smallLink (m.cpu.regs (.sp .mon)) :=
    congrArg (monitorWords smallLink) (regs_taken_smcStep (by decide))
  unfold SmcStep.SparesEl3
  rw [words]
  apply SmcCall.InDescriptor.sparesEl3
  · exact SmcCall.inDescriptor_of_op (congrArg SmcCall.op smc_request) member
  · apply apart_request
    intro addr inside
    exact Nat.lt_trans inside.2 (by decide)
  · exact apart_monitorBytes room

theorem keepsNs_request (member : op ∈ [.yield, .test, .getReg]) :
    (request m op r7 loaded).KeepsNs (bareEnv .arm) := by
  have named : (request m op r7 loaded).taken.cpu.regs (.r 0) =
      U32.word .arm op.code := r0_smcStep
  unfold SmcStep.KeepsNs
  rw [named]
  exact keepsNs_inDescriptor member

theorem room_after (room : Room (switches + 1) m)
    (member : op ∈ [.yield, .test, .getReg]) :
    Room switches ((request m op r7 loaded).after smallLink) := by
  have valid := (@issued_request _ _ r7 loaded _ room member).valid
    (sparesEl3_request room member)
  have moved := SmcRun.sp_after valid
  change _ = if _ then m.cpu.regs (.sp .mon) else m.cpu.regs (.sp .mon) - 8 at moved
  obtain ⟨low, high, aligned⟩ := room
  generalize m.cpu.regs (.sp .mon) = sp at low high aligned moved
  constructor <;> rw [moved] <;> split <;> bv_omega

theorem r7_request :
    context (request m op r7 loaded).returned.cpu (.r 7) = r7 := by
  show (request m op r7 loaded).returned.cpu.regs (.r 7) = r7
  refine (kept_smcStep (by decide)).trans ?_
  exact (regs_call_smcStep (by decide)).trans r7_smcStep

end Request

/-- Requests one after the other. -/
def requests : Monitor Unit → List (SmcOp × BitVec 32 × Desc .arm) →
    List (SmcStep Unit)
  | _, [] => []
  | m, (op, r7, loaded) :: rest =>
      request m op r7 loaded ::
        requests ((request m op r7 loaded).after smallLink) rest

theorem linked_requests (m : Monitor Unit)
    (list : List (SmcOp × BitVec 32 × Desc .arm)) :
    Chain.Linked SmcStep.before (SmcStep.after smallLink) m (requests m list) := by
  induction list generalizing m with
  | nil => trivial
  | cons first rest induction => exact ⟨rfl, induction _⟩

theorem served_requests {m : Monitor Unit}
    {list : List (SmcOp × BitVec 32 × Desc .arm)} (room : Room list.length m)
    (allowed : ∀ entry ∈ list, entry.1 ∈ [SmcOp.yield, .test, .getReg]) :
    ∀ step ∈ requests m list,
      step.Issued (bareEnv .arm) monitorImage smallLink ∧
        step.SparesEl3 (bareEnv .arm) monitorImage smallLink ∧
        step.KeepsNs (bareEnv .arm) ∧
        Layout smallLink (step.before.cpu.regs (.sp .mon)) := by
  induction list generalizing m with
  | nil =>
      intro step member
      cases member
  | cons first rest induction =>
      have here := allowed first List.mem_cons_self
      intro step member
      rcases List.mem_cons.mp member with rfl | later
      · exact ⟨issued_request room here, sparesEl3_request room here,
          keepsNs_request here, room.layout⟩
      · apply induction (room_after room here) _ step later
        intro entry inRest
        exact allowed entry (List.mem_cons_of_mem _ inRest)

/-- The secure world yields, the nonsecure world makes a test with `r7 = 0x77`, and
the secure world reads `SCR`. -/
def roundTrip : List (SmcOp × BitVec 32 × Desc .arm) :=
  [(.yield, 0, ⟨0, 0, 0, 0, 0⟩), (.test, 0x77, ⟨8, 8, 0, 0, 0⟩),
    (.getReg, 0x55, ⟨4, 0, 3, 0, 0⟩)]

/-- The secure world yields again. -/
def yields : SmcOp × BitVec 32 × Desc .arm :=
  (.yield, 0, ⟨0, 0, 0, 0, 0⟩)

def lastYield : SmcStep Unit :=
  request
    (Chain.finish (SmcStep.after smallLink) smallStart (requests smallStart roundTrip))
    yields.1 yields.2.1 yields.2.2

/-- The nonsecure world finds its `r7` again. -/
theorem monitorSwitch_resumes_arm_roundTrip :
    (lastYield.after smallLink).cpu.regs (.r 7) = 0x77 ∧
      (lastYield.after smallLink).cpu.regs (.r 0) = 1 ∧
      (lastYield.after smallLink).view.InStep .nonsecure := by
  have whole : requests smallStart (roundTrip ++ [yields]) =
      requests smallStart roundTrip ++ [lastYield] := rfl
  have room : Room (roundTrip ++ [yields]).length smallStart :=
    room_smallStart
  have served := served_requests room (by decide)
  have linked := linked_requests smallStart
    (roundTrip ++ [yields])
  rw [whole] at served linked
  have resumed := @monitorSwitch_resumes_arm _ (bareEnv .arm) monitorImage _
    smallBoot 0x3000 (layout_smallLink (by decide) (by decide)) rfl ⟨rfl, rfl⟩ _ _ linked
    (fun step member => (served step member).1)
    (fun step member => (served step member).2.1)
    (fun step member => (served step member).2.2.1)
    (fun step member => (served step member).2.2.2) (SvcOp.code_ne_zero .yield)
  have r7 : ((requests smallStart roundTrip).foldl record
      (contextsStart 0x3000)).entered .nonsecure (.r 7) = 0x77 := by
    simp only [roundTrip, requests, List.foldl_cons, List.foldl_nil, record,
      code_request, inDescriptorAnswer]
    rw [Contexts.serve_of_zero rfl, Contexts.serve_of_ne_zero (SvcOp.code_ne_zero .test),
      Contexts.serve_of_ne_zero (SvcOp.code_ne_zero .yield)]
    dsimp only [contextsStart, World.other]
    rw [Function.update_self]
    exact @r7_request _ .test 0x77 _
  exact ⟨(resumed.registers (.r 7) (by decide)).trans r7, resumed.result,
    resumed.inStep⟩

end TzTest.Arm
