import TzTest.Monitor.El1Vector
import TzTest.Monitor.Resumption

/-!
# The return from an SVC on AArch64

Exceptions at EL1 overwrite `ELR_EL1` and `SPSR_EL1`, and world switches
exchange them.  The frame of the vector and the handler's own copy of the
return address outlast both, so the last `eret` returns as the SVC was taken.
-/

namespace TzTest.Aarch64.El1

variable {Paging : Type} {env : Env .aarch64 Paging} {buffers : Buffers}

section World

variable {sp : BitVec 64} {contexts : Contexts Reg (BitVec 64)}
  {m after : Monitor Paging}

theorem Confined.follows (confined : Confined buffers m after)
    (follows : Follows buffers sp contexts m) :
    Follows buffers sp contexts after := by
  refine ⟨⟨?_, ?_⟩, ⟨?_, ?_⟩, ?_⟩
  · exact (confined.regs .spEl3 (by decide)).trans follows.rests.sp
  · intro world slot member named
    exact (confined.buffers world slot member).trans
      (follows.rests.selects world slot member named)
  · exact confined.secureState.trans follows.live.secureState
  · have scr := confined.regs .scrEl3 (by decide)
    exact (congrArg (@Word.nsBit .aarch64) scr).trans follows.live.ns
  · intro slot member
    exact (confined.buffers _ slot member).trans (follows.parked slot member)

/-- The other world's SMCs that do not switch leave the parked context. -/
theorem Follows.stays (layout : Layout buffers sp) {run : List (SmcStep Paging)}
    (linked : Chain.Linked SmcStep.before (SmcStep.after buffers) m run)
    (valid : ∀ step ∈ run, step.Valid env buffers)
    (keeps : ∀ step ∈ run, step.KeepsNs env)
    (there : ∀ step ∈ run, step.code = 0)
    (follows : Follows buffers sp contexts m) :
    Follows buffers sp contexts (Chain.finish (SmcStep.after buffers) m run) := by
  induction run generalizing m with
  | nil => exact follows
  | cons step rest induction =>
      obtain ⟨begins, later⟩ := linked
      have member : step ∈ step :: rest := List.mem_cons_self ..
      have inRest : ∀ other ∈ rest, other ∈ step :: rest :=
        fun other inside => List.mem_cons_of_mem _ inside
      have served := Follows.serves layout (valid step member)
        (keeps step member) (begins ▸ follows)
      rw [record, Contexts.serve_of_zero (there step member)] at served
      exact induction later (fun other inside => valid other (inRest other inside))
        (fun other inside => keeps other (inRest other inside))
        (fun other inside => there other (inRest other inside)) served

/-- The stack pointer of EL1 at the `cbz` is that of the SMC. -/
theorem Issues.entered {step : SmcStep Paging} (issues : Issues m step)
    (valid : step.Valid env buffers) :
    step.entered.cpu.regs .spEl1 = m.cpu.regs .spEl1 := by
  have onEl3 := valid.runs.spsel
  have stillEl3 : step.returned.cpu.regs .spsel = 1 := by
    rw [valid.handled.saved _ (by decide)]
    exact (regs_call onEl3 (by decide)).trans onEl3
  have top : step.returned.cpu.regs .spEl3 =
      frame (step.taken.cpu.regs .spEl3) 6 := by
    rw [valid.handled.saved _ (by decide)]
    change (Aarch64.lower64Args (Aarch64.lower64Entry step.taken.cpu)).regs
      .spEl3 = _
    rw [lower64_call onEl3]
    simp [Slots.updates_cons]
  calc
    step.entered.cpu.regs .spEl1 = step.returned.cpu.regs .spEl1 := by
      change (lower64Return step.returned.cpu).regs .spEl1 = _
      rw [lower64Return_eq stillEl3 top]
      exact Slots.updates_of_not_mem (by simp) _
    _ = step.call.cpu.regs .spEl1 := valid.handled.saved _ (by decide)
    _ = step.taken.cpu.regs .spEl1 := regs_call onEl3 (by decide)
    _ = m.cpu.regs .spEl1 := issues.taken _ (by decide)

/-- When the world runs again after an SMC, it has its stack pointer back. -/
theorem Excursion.returns (layout : Layout buffers sp)
    (excursion : Excursion env buffers m after)
    (follows : Follows buffers sp contexts m) :
    after.cpu.regs .spEl1 = m.cpu.regs .spEl1 ∧
      ∃ later, later.live = contexts.live ∧ Follows buffers sp later after := by
  cases excursion with
  | @stays step issues valid keeps zero =>
      have began : Follows buffers sp contexts step.before :=
        issues.before.symm ▸ follows
      have served := Follows.serves layout valid keeps began
      rw [record, Contexts.serve_of_zero zero] at served
      have top : step.taken.cpu.regs .spEl3 = sp :=
        valid.runs.sp.trans began.rests.sp
      have enters := valid.enters (top ▸ layout)
      have stays := enters.after_of_zero zero
      refine ⟨?_, contexts, rfl, served⟩
      rw [stays]
      exact issues.entered valid
  | @switches first last middle issues linked valid keeps away there back =>
      obtain ⟨begins, restLinked⟩ := linked
      have inRun {step : SmcStep Paging} (inside : step ∈ middle ++ [last]) :
          step ∈ first :: (middle ++ [last]) := List.mem_cons_of_mem _ inside
      have began : Follows buffers sp contexts first.before := begins ▸ follows
      have firstValid := valid first (List.mem_cons_self ..)
      have served := Follows.serves layout firstValid
        (keeps first (List.mem_cons_self ..)) began
      -- The switch parks the world with the stack pointer of its SMC.
      rw [record, Contexts.serve_of_ne_zero away] at served
      obtain ⟨middleLinked, lastBegins⟩ := restLinked.before_last
      have there := Follows.stays layout middleLinked
        (fun step inside => valid step
          (inRun (List.mem_append_left _ inside)))
        (fun step inside => keeps step
          (inRun (List.mem_append_left _ inside))) there served
      rw [← lastBegins] at there
      have lastIn : last ∈ first :: (middle ++ [last]) :=
        inRun (List.mem_append_right _ (List.mem_singleton_self last))
      obtain ⟨_, restored, _⟩ := there.resumes layout (valid last lastIn)
        (keeps last lastIn) back
      have again := there.serves layout (valid last lastIn) (keeps last lastIn)
      rw [record, Contexts.serve_of_ne_zero back] at again
      refine ⟨?_, _, ?_, again⟩
      · rw [restored .spEl1 (by decide)]
        simp only [World.other_other, Function.update_self]
        exact issues.entered firstValid
      · exact World.other_other _

end World

/-- The words are not below the stack pointer. -/
def Above (kept : List (BitVec 64)) (sp : BitVec 64) : Prop :=
  ∀ addr ∈ kept, sp.toNat ≤ addr.toNat

theorem toNat_sub_ofNat {s : BitVec 64} {b : Nat} (room : b ≤ s.toNat) :
    (s - BitVec.ofNat 64 b).toNat = s.toNat - b := by
  have small : b % 2 ^ 64 = b :=
    Nat.mod_eq_of_lt (Nat.lt_of_le_of_lt room s.isLt)
  rw [BitVec.toNat_sub_of_le, BitVec.toNat_ofNat, small]
  rw [BitVec.le_def, BitVec.toNat_ofNat, small]
  exact room

/-- A handler returns with the stack pointer of its call and with the return
address that its copy of `elr` gives, if neither the copy nor the stack pointer
has changed on the way. -/
theorem handler_returns {kept : List (BitVec 64)} {locals : Locals}
    {call entered leaving back : Cpu} {advance : BitVec 64}
    (prologue : Prologue kept locals call entered)
    (room : 8 + locals.size ≤ (call.regs .spEl1).toNat)
    (above : Above kept (call.regs .spEl1))
    (sameSp : leaving.regs .spEl1 = entered.regs .spEl1)
    (sameMem : ∀ addr ∈ locals.slot entered :: kept,
      leaving.mem addr = entered.mem addr)
    (epilogue : Epilogue kept locals
      (resumeAt (leaving.mem (locals.slot leaving) + advance) leaving) back) :
    back.regs .spEl1 = call.regs .spEl1 ∧
      back.regs .elrEl1 = call.regs (.x 3) + advance ∧
      ∀ addr ∈ kept, back.mem addr = call.mem addr := by
  obtain ⟨resumed, sp, mem, _⟩ :=
    @resumeAt_eq leaving (leaving.mem (locals.slot leaving) + advance)
  refine ⟨?_, ?_, ?_⟩
  · rw [epilogue.sp, sp, sameSp, prologue.sp]
    grind
  · have slot : locals.slot leaving = locals.slot entered := by
      rw [Locals.slot, Locals.slot, sameSp]
    rw [epilogue.elr, resumed, slot, sameMem _ (List.mem_cons_self ..),
      prologue.elr]
  · intro addr member
    have bottom : (entered.regs .spEl1 - 8).toNat =
        (call.regs .spEl1).toNat - (locals.size + 8) := by
      rw [prologue.sp]
      have frame := toNat_sub_ofNat
        (s := call.regs .spEl1) (b := locals.size) (by omega)
      have word := toNat_sub_ofNat
        (s := call.regs .spEl1 - BitVec.ofNat 64 locals.size) (b := 8)
        (by omega)
      calc
        _ = _ := word
        _ = _ := by omega
    have outside : addr ≠ entered.regs .spEl1 - 8 := by
      rintro rfl
      have := above _ member
      omega
    rw [epilogue.kept addr member, mem, sameSp,
      Function.update_of_ne outside, sameMem addr (List.mem_cons_of_mem _ member),
      prologue.kept addr member]

theorem mem_frame_toNat {sp addr : BitVec 64} {depths : List Nat} {deepest : Nat}
    (within : ∀ depth ∈ depths, depth ≤ deepest) (room : 8 * deepest ≤ sp.toNat)
    (member : addr ∈ depths.map (frame sp)) :
    (frame sp deepest).toNat ≤ addr.toNat := by
  obtain ⟨depth, inside, rfl⟩ := List.mem_map.mp member
  have shallow := within depth inside
  rw [frame, frame, toNat_sub_ofNat (by omega), toNat_sub_ofNat (by omega)]
  omega

/-- The words of a vector's frame and those above its stack pointer are not
below the frame. -/
theorem above_frame {kept : List (BitVec 64)} {sp : BitVec 64}
    {depths : List Nat} {deepest : Nat}
    (within : ∀ depth ∈ depths, depth ≤ deepest) (room : 8 * deepest ≤ sp.toNat)
    (above : Above kept sp) :
    Above (depths.map (frame sp) ++ kept) (frame sp deepest) := by
  intro addr member
  rcases List.mem_append.mp member with inFrame | inKept
  · exact mem_frame_toNat within room inFrame
  · have := above addr inKept
    rw [frame, toNat_sub_ofNat room]
    omega

/-- The words that a handler needs are not below its frame. -/
theorem above_entered {kept : List (BitVec 64)} {locals : Locals}
    {call entered : Cpu} (prologue : Prologue kept locals call entered)
    (room : locals.size ≤ (call.regs .spEl1).toNat)
    (above : Above kept (call.regs .spEl1)) :
    Above (locals.slot entered :: kept) (entered.regs .spEl1) := by
  have bottom : (entered.regs .spEl1).toNat =
      (call.regs .spEl1).toNat - locals.size := by
    rw [prologue.sp, toNat_sub_ofNat room]
  have top := (call.regs .spEl1).isLt
  intro addr member
  rcases List.mem_cons.mp member with rfl | inKept
  · have inside := locals.inside
    rw [Locals.slot, BitVec.toNat_add, BitVec.toNat_ofNat,
      Nat.mod_eq_of_lt (by omega), Nat.mod_eq_of_lt (by omega)]
    omega
  · have := above addr inKept
    omega

section Vectors

variable {kept : List (BitVec 64)} {sp : BitVec 64} {locals : Locals}
  {c call entered leaving back : Cpu} {advance : BitVec 64}

theorem not_mem_frame {depths : List Nat} {deepest : Nat} {addr : BitVec 64}
    (within : ∀ depth ∈ depths, 0 < depth ∧ depth ≤ deepest)
    (room : 8 * deepest ≤ sp.toNat) (high : sp.toNat ≤ addr.toNat) :
    addr ∉ depths.map (frame sp) := by
  intro member
  obtain ⟨depth, inside, rfl⟩ := List.mem_map.mp member
  obtain ⟨positive, shallow⟩ := within depth inside
  rw [frame, toNat_sub_ofNat (by omega)] at high
  omega

/-- A vector's call of a handler, from the exception to the handler's return:
the frame of the vector is found as it was pushed. -/
theorem vector_returns {words : (Reg → BitVec 64) → List (Nat × BitVec 64)}
    (depths : List Nat) {deepest : Nat}
    (depth : ∀ regs, (words regs).map Prod.fst = depths)
    (distinct : depths.Nodup) (deep : deepest < 7)
    (within : ∀ depth ∈ depths, 0 < depth ∧ depth ≤ deepest)
    (calls : Entered words deepest c call)
    (room : 8 * deepest + (8 + locals.size) ≤ (c.regs .spEl1).toNat)
    (above : Above kept (c.regs .spEl1))
    (prologue : Prologue (depths.map (frame (c.regs .spEl1)) ++ kept) locals
      call entered)
    (sameSp : leaving.regs .spEl1 = entered.regs .spEl1)
    (sameMem : ∀ addr ∈
      locals.slot entered :: (depths.map (frame (c.regs .spEl1)) ++ kept),
      leaving.mem addr = entered.mem addr)
    (epilogue : Epilogue (depths.map (frame (c.regs .spEl1)) ++ kept) locals
      (resumeAt (leaving.mem (locals.slot leaving) + advance) leaving) back) :
    back.regs .spEl1 = frame (c.regs .spEl1) deepest ∧
      back.regs .elrEl1 = c.regs .elrEl1 + advance ∧
      (∀ word ∈ words c.regs,
        back.mem (frame (c.regs .spEl1) word.1) = word.2) ∧
      ∀ addr ∈ kept, back.mem addr = c.mem addr := by
  have bottom : (call.regs .spEl1).toNat =
      (c.regs .spEl1).toNat - 8 * deepest := by
    rw [calls.sp, frame, toNat_sub_ofNat (by omega)]
  have aboveFrame : Above (depths.map (frame (c.regs .spEl1)) ++ kept)
      (call.regs .spEl1) := by
    rw [calls.sp]
    exact above_frame (fun depth inside => (within depth inside).2) (by omega)
      above
  obtain ⟨stack, elr, mem⟩ := handler_returns prologue (by omega) aboveFrame
    sameSp sameMem epilogue
  have named : ∀ word ∈ words c.regs, word.1 ∈ depths := by
    intro word member
    rw [← depth c.regs]
    exact List.mem_map.mpr ⟨word, member, rfl⟩
  refine ⟨stack.trans calls.sp, ?_, ?_, ?_⟩
  · rw [elr, calls.elr]
  · intro word member
    have inFrame : frame (c.regs .spEl1) word.1 ∈
        depths.map (frame (c.regs .spEl1)) :=
      List.mem_map.mpr ⟨word.1, named word member, rfl⟩
    rw [mem _ (List.mem_append_left _ inFrame), calls.mem]
    apply pushed_word _ _ member
    · intro other inside
      have := (within other.1 (named other inside)).2
      omega
    · rw [depth]
      exact distinct
  · intro addr member
    have outside := not_mem_frame within (by omega) (above addr member)
    rw [mem addr (List.mem_append_right _ member), calls.mem]
    exact pushed_other outside named

/-- The handler may begin: what it needs is not below its frame, and EL3 is as
it was. -/
theorem vector_ready {words : (Reg → BitVec 64) → List (Nat × BitVec 64)}
    (depths : List Nat) {deepest : Nat} {m : Machine Paging}
    {contexts : Contexts Reg (BitVec 64)} {el3Sp : BitVec 64}
    (within : ∀ depth ∈ depths, depth ≤ deepest)
    (calls : Entered words deepest c call)
    (el3 : ∀ reg ∈ el3Regs, c.regs reg = m.cpu.regs reg)
    (room : 8 * deepest + (8 + locals.size) ≤ (c.regs .spEl1).toNat)
    (above : Above kept (c.regs .spEl1))
    (prologue : Prologue (depths.map (frame (c.regs .spEl1)) ++ kept) locals
      call entered)
    (follows : Follows buffers el3Sp contexts m.monitor) :
    Above (locals.slot entered :: (depths.map (frame (c.regs .spEl1)) ++ kept))
        (entered.regs .spEl1) ∧
      Follows buffers el3Sp contexts (m.setCpu entered).monitor := by
  have confined : Confined buffers m.monitor (m.setCpu entered).monitor := by
    refine ⟨?_, fun _ _ _ => rfl, rfl⟩
    intro reg member
    exact (prologue.el3 reg member).trans
      ((calls.el3 reg member).trans (el3 reg member))
  refine ⟨?_, confined.follows follows⟩
  · apply above_entered prologue
    · rw [calls.sp, frame, toNat_sub_ofNat (by omega)]
      omega
    · rw [calls.sp]
      exact above_frame within (by omega) above

end Vectors

theorem el3_raise (esr elr spsr : BitVec 64) (c : Cpu) {reg : Reg}
    (member : reg ∈ el3Regs) : (raise esr elr spsr c).regs reg = c.regs reg := by
  have outside : ∀ reg ∈ el3Regs,
      reg ≠ .esrEl1 ∧ reg ≠ .elrEl1 ∧ reg ≠ .spsrEl1 := by decide
  obtain ⟨esrNe, elrNe, spsrNe⟩ := outside reg member
  rw [raise, Cpu.regs_set_of_ne spsrNe, Cpu.regs_set_of_ne elrNe,
    Cpu.regs_set_of_ne esrNe]

/-- What a handler can rely on while it is running. -/
structure Stable (buffers : Buffers) (sp : BitVec 64) (world : World)
    (kept : List (BitVec 64)) (bottom : BitVec 64) (before after : Machine Paging) :
    Prop where
  stack : after.cpu.regs .spEl1 = bottom
  kept : ∀ addr ∈ kept, after.cpu.mem addr = before.cpu.mem addr
  el3 : ∃ contexts : Contexts Reg (BitVec 64), contexts.live = world ∧
    Follows buffers sp contexts after.monitor

theorem Serves.stable {sp : BitVec 64} {world : World}
    (layout : Layout buffers sp) {kept : List (BitVec 64)} {bottom : BitVec 64}
    {depth : Nat} {m final : Machine Paging}
    (serves : Serves env buffers kept bottom depth m final)
    (above : Above kept bottom) (within : depth ≤ bottom.toNat)
    (stack : m.cpu.regs .spEl1 = bottom - BitVec.ofNat 64 depth)
    (el3 : ∃ contexts : Contexts Reg (BitVec 64), contexts.live = world ∧
      Follows buffers sp contexts m.monitor) :
    Stable buffers sp world kept bottom m final := by
  induction serves with
  | done kept bottom m =>
      refine ⟨?_, fun _ _ => rfl, el3⟩
      rw [stack]
      exact BitVec.sub_zero bottom
  | @code kept bottom depth later m middle final runs rest ih =>
      obtain ⟨contexts, live, follows⟩ := el3
      have moved : middle.cpu.regs .spEl1 = bottom - BitVec.ofNat 64 later := by
        rw [runs.sp, stack]
        grind
      have stable := ih above runs.room moved
        ⟨contexts, live, runs.confined.follows follows⟩
      refine ⟨stable.stack, ?_, stable.el3⟩
      intro addr member
      exact (stable.kept addr member).trans (runs.kept addr member)
  | @smc kept bottom depth m middle final excursion frames rest ih =>
      obtain ⟨contexts, live, follows⟩ := el3
      obtain ⟨same, later, laterLive, laterFollows⟩ :=
        excursion.returns layout follows
      have stable := ih above within (Eq.trans same stack)
        ⟨later, laterLive.trans live, laterFollows⟩
      refine ⟨stable.stack, ?_, stable.el3⟩
      intro addr member
      exact (stable.kept addr member).trans (frames addr member)
  | @exception kept bottom depth m leaving final entered back esr elr spsr far
      link locals room prologue body epilogue rest bodyIh restIh =>
      obtain ⟨contexts, live, follows⟩ := el3
      have high : Above kept (m.cpu.regs .spEl1) := by
        intro addr member
        have := above addr member
        rw [stack, toNat_sub_ofNat within]
        omega
      have calls := @currentEntry_entered (raise esr elr spsr m.cpu) far link
      have el3 : ∀ reg ∈ el3Regs,
          (raise esr elr spsr m.cpu).regs reg = m.cpu.regs reg :=
        fun reg => el3_raise esr elr spsr m.cpu
      have sameSp : (raise esr elr spsr m.cpu).regs .spEl1 =
          m.cpu.regs .spEl1 := rfl
      have sameMem : (raise esr elr spsr m.cpu).mem = m.cpu.mem := rfl
      rw [← sameSp] at room prologue epilogue bodyIh high
      generalize raise esr elr spsr m.cpu = raised at *
      obtain ⟨low, ready⟩ := vector_ready [1, 3, 2, 5, 4] (by decide) calls el3
        (by omega) high prologue follows
      have bodyStable := bodyIh low (Nat.zero_le _) (BitVec.sub_zero _).symm
        ⟨contexts, live, ready⟩
      obtain ⟨backSp, _, _, backKept⟩ := vector_returns [1, 3, 2, 5, 4]
        (fun _ => rfl) (by decide) (by decide) (by decide) calls (by omega) high
        prologue bodyStable.stack bodyStable.kept epilogue
      have popped := currentReturn_eq backSp
      have poppedSp : (currentReturn back).regs .spEl1 = raised.regs .spEl1 := by
        simp [popped, Slots.updates_cons]
      have poppedMem : (currentReturn back).mem = back.mem := by rw [popped]
      have confined : Confined buffers leaving.monitor
          (leaving.setCpu (currentReturn back)).monitor := by
        refine ⟨?_, fun _ _ _ => rfl, rfl⟩
        intro reg member
        have outside : ∀ reg ∈ el3Regs,
            reg ∉ [Reg.x 0, .x 1, .x 2, .x 3, .x 30, .spEl1] := by decide
        calc
          (currentReturn back).regs reg = back.regs reg := by
            rw [popped]
            exact Slots.updates_of_not_mem (outside reg member) _
          _ = (resumeAt _ leaving.cpu).regs reg := epilogue.el3 reg member
          _ = leaving.cpu.regs reg :=
            (resumeAt_eq _).2.2.2 reg member
      obtain ⟨later, laterLive, laterFollows⟩ := bodyStable.el3
      have stable := restIh above within (poppedSp.trans (sameSp.trans stack))
        ⟨later, laterLive, confined.follows laterFollows⟩
      refine ⟨stable.stack, ?_, stable.el3⟩
      intro addr member
      calc
        final.cpu.mem addr = (currentReturn back).mem addr :=
          stable.kept addr member
        _ = back.mem addr := congrFun poppedMem addr
        _ = raised.mem addr := backKept addr member
        _ = m.cpu.mem addr := congrFun sameMem addr

/-- A handler that only keeps its return address. -/
def Locals.enter (locals : Locals) (call : Cpu) : Cpu :=
  let bottom := call.regs .spEl1 - BitVec.ofNat 64 locals.size
  (call.store (bottom + BitVec.ofNat 64 locals.elr) (call.regs (.x 3))).set
    .spEl1 bottom

def Locals.leave (locals : Locals) (resumed : Cpu) : Cpu :=
  resumed.set .spEl1 (resumed.regs .spEl1 + BitVec.ofNat 64 locals.size)

theorem el3Regs_ne_spEl1 : ∀ reg ∈ el3Regs, reg ≠ .spEl1 := by
  decide

theorem prologue_enter {kept : List (BitVec 64)} (locals : Locals) (call : Cpu)
    (room : locals.size ≤ (call.regs .spEl1).toNat)
    (above : Above kept (call.regs .spEl1)) :
    Prologue kept locals call (locals.enter call) := by
  have sp : (locals.enter call).regs .spEl1 =
      call.regs .spEl1 - BitVec.ofNat 64 locals.size :=
    Cpu.regs_set_self _ _ _
  refine ⟨sp, ?_, ?_, ?_⟩
  · rw [Locals.slot, sp]
    exact Function.update_self ..
  · intro addr member
    apply Function.update_of_ne
    rintro rfl
    have high := above _ member
    have inside := locals.inside
    have top := (call.regs .spEl1).isLt
    rw [BitVec.toNat_add, toNat_sub_ofNat room, BitVec.toNat_ofNat,
      Nat.mod_eq_of_lt (by omega), Nat.mod_eq_of_lt (by omega)] at high
    omega
  · intro reg member
    exact Cpu.regs_set_of_ne (el3Regs_ne_spEl1 reg member) _ _

theorem epilogue_leave (kept : List (BitVec 64)) (locals : Locals)
    (resumed : Cpu) : Epilogue kept locals resumed (locals.leave resumed) := by
  refine ⟨Cpu.regs_set_self _ _ _, Cpu.regs_set_of_ne (by decide) _ _,
    fun _ _ => rfl, ?_⟩
  intro reg member
  exact Cpu.regs_set_of_ne (el3Regs_ne_spEl1 reg member) _ _

/-- A frame of four words, with `elr` in the second one. -/
def smallLocals : Locals where
  size := 32
  elr := 8
  inside := by decide

/-- EL0 of the secure world has made an SVC. -/
def smallTaken : Machine Unit where
  cpu :=
    { regs := (((monitorStart smallBuffers 0x3000 smallBoot).cpu.set .spEl1
        0x9000).set .esrEl1 (ecSvc64 <<< 26)).set .elrEl1 0x4004 |>.regs
      mem := fun _ => 0 }
  el3Mem := (monitorStart smallBuffers 0x3000 smallBoot).cpu.mem
  sys := (monitorStart smallBuffers 0x3000 smallBoot).sys

/-- The handler of the SVC. -/
def smallEntered : Cpu :=
  smallLocals.enter (bl 0 (lower64Args (lower64Entry 0 smallTaken.cpu)))

/-- The call of the handler of an undefined instruction within it. -/
def smallRaised : Cpu :=
  bl 0 (currentEntry 0 (raise 0 0x7000 5 smallEntered))

/-- That handler is running. -/
def smallInner : Cpu :=
  smallLocals.enter smallRaised

/-- The undefined instruction has been skipped. -/
def smallSkipped : Cpu :=
  currentReturn (smallLocals.leave
    (resumeAt (smallInner.mem (smallLocals.slot smallInner) + 4) smallInner))

def smallLeaving : Machine Unit :=
  ((smallTaken.setCpu smallEntered).setCpu smallInner).setCpu smallSkipped

theorem sp_smallTaken : smallTaken.cpu.regs .spEl1 = 0x9000 :=
  rfl

theorem sp_smallCall :
    (bl 0 (lower64Args (lower64Entry 0 smallTaken.cpu))).regs .spEl1 = 0x8fd0 := by
  rw [(lower64Entry_entered 0 0).sp, sp_smallTaken]
  rfl

theorem sp_smallEntered : smallEntered.regs .spEl1 = 0x8fb0 := by
  refine (Cpu.regs_set_self _ _ _).trans ?_
  rw [sp_smallCall]
  rfl

theorem sp_smallRaised : smallRaised.regs .spEl1 = 0x8f88 := by
  refine (currentEntry_entered 0 0).sp.trans ?_
  change frame (smallEntered.regs .spEl1) 5 = _
  rw [sp_smallEntered]
  rfl

theorem above_smallCall : Above (lower64Frame 0x9000) 0x8fd0 := by
  have above := @above_frame [] 0x9000 [1, 3, 2, 4, 6, 5] 6 (by decide)
    (by decide) nofun
  rwa [List.append_nil] at above

theorem above_smallEntered :
    Above (0x8fb8 :: lower64Frame 0x9000) 0x8fb0 := by
  intro addr member
  rcases List.mem_cons.mp member with rfl | inFrame
  · decide
  · have := above_smallCall addr inFrame
    exact Nat.le_trans (by decide) this

theorem prologue_smallEntered :
    Prologue (lower64Frame 0x9000) smallLocals
      (bl 0 (lower64Args (lower64Entry 0 smallTaken.cpu))) smallEntered := by
  apply prologue_enter
  · rw [sp_smallCall]
    decide
  · rw [sp_smallCall]
    exact above_smallCall

theorem prologue_smallRaised :
    Prologue (currentFrame (smallEntered.regs .spEl1) ++
      smallLocals.slot smallEntered :: lower64Frame 0x9000) smallLocals
      smallRaised smallInner := by
  apply prologue_enter
  · rw [sp_smallRaised]
    decide
  · rw [sp_smallRaised, Locals.slot, sp_smallEntered]
    exact @above_frame _ 0x8fb0 [1, 3, 2, 5, 4] 5 (by decide) (by decide)
      above_smallEntered

/-- The handler goes on, and is about to make an SMC. -/
def smallAsking : Machine Unit :=
  smallLeaving.setCpu
    ((((smallLeaving.cpu.set (.x 0) 1).set (.x 1) 0x9000).set (.x 19) 0).set .spsel 1)

/-- The SMCs until the world runs again: it yields, and the nonsecure world reads `SCR`
and makes a test. -/
def awayRun : List (SmcOp × BitVec 64 × Desc .aarch64) :=
  [(.yield, 0, ⟨0, 0, 0, 0, 0⟩), (.getReg, 0x55, ⟨4, 0, 3, 0, 0⟩),
    (.test, 0x77, ⟨8, 8, 0, 0, 0⟩)]

def yieldStep : SmcStep Unit :=
  request smallAsking.monitor .yield 0 ⟨0, 0, 0, 0, 0⟩

def getRegStep : SmcStep Unit :=
  request (yieldStep.after smallBuffers) .getReg 0x55 ⟨4, 0, 3, 0, 0⟩

def testStep : SmcStep Unit :=
  request (getRegStep.after smallBuffers) .test 0x77 ⟨8, 8, 0, 0, 0⟩

theorem requests_awayRun : requests smallAsking.monitor awayRun =
    yieldStep :: ([getRegStep] ++ [testStep]) :=
  rfl

theorem Machine.regs_monitor (m : Machine Paging) : m.monitor.cpu.regs = m.cpu.regs :=
  rfl

/-- The machine when a world runs again. -/
def Machine.resumed (m : Machine Paging) (back : Monitor Paging) : Machine Paging where
  cpu := { regs := back.cpu.regs, mem := m.cpu.mem }
  el3Mem := back.cpu.mem
  sys := back.sys

theorem Machine.monitor_resumed (m : Machine Paging) (back : Monitor Paging) :
    (m.resumed back).monitor = back :=
  rfl

/-- The handler runs again. -/
def smallResumed : Machine Unit :=
  smallAsking.resumed (testStep.after smallBuffers)

theorem issues_request {m : Monitor Unit} {op : SmcOp} {x19 : BitVec 64}
    {loaded : Desc .aarch64} (x0 : m.cpu.regs (.x 0) = U32.word .aarch64 op.code)
    (x1 : m.cpu.regs (.x 1) = 0x9000) (same : m.cpu.regs (.x 19) = x19) :
    Issues m (request m op x19 loaded) where
  before := rfl
  taken reg outside := by
    have syndrome : reg ≠ .esrEl3 := by
      rintro rfl
      exact outside (by decide)
    refine (Cpu.regs_set_of_ne syndrome _ _).trans ?_
    rw [← x0, ← x1, ← same]
    simp [Cpu.set]

theorem el3_smallTaken : ∀ reg ∈ el3Regs,
    smallTaken.cpu.regs reg = smallStart.cpu.regs reg := by
  intro reg member
  have elr : ∀ reg ∈ el3Regs, reg ≠ .elrEl1 := by decide
  have esr : ∀ reg ∈ el3Regs, reg ≠ .esrEl1 := by decide
  calc
    smallTaken.cpu.regs reg = _ := Cpu.regs_set_of_ne (elr reg member) _ _
    _ = _ := Cpu.regs_set_of_ne (esr reg member) _ _
    _ = _ := Cpu.regs_set_of_ne (el3Regs_ne_spEl1 reg member) _ _

theorem el3_currentReturn (c : Cpu) : ∀ reg ∈ el3Regs,
    (currentReturn c).regs reg = c.regs reg := by
  simp [el3Regs, currentReturn, ldpPop, ldrPop, Cpu.set]

theorem el3_smallSkipped : ∀ reg ∈ el3Regs,
    smallSkipped.regs reg = smallStart.cpu.regs reg := by
  intro reg member
  have inner : smallInner.regs reg = smallEntered.regs reg := by
    calc
      smallInner.regs reg = smallRaised.regs reg := prologue_smallRaised.el3 reg member
      _ = (raise 0 0x7000 5 smallEntered).regs reg :=
        (currentEntry_entered 0 0).el3 reg member
      _ = smallEntered.regs reg := el3_raise 0 0x7000 5 smallEntered member
  have entered : smallEntered.regs reg = smallTaken.cpu.regs reg :=
    (prologue_smallEntered.el3 reg member).trans
      ((lower64Entry_entered 0 0).el3 reg member)
  refine (el3_currentReturn _ reg member).trans ?_
  refine (Cpu.regs_set_of_ne (el3Regs_ne_spEl1 reg member) _ _).trans ?_
  refine ((resumeAt_eq _).2.2.2 reg member).trans ?_
  exact inner.trans (entered.trans (el3_smallTaken reg member))

theorem leaving_smallLeaving : smallLeaving.cpu = smallSkipped := by
  simp only [smallLeaving, Machine.setCpu]

theorem el3_smallAsking : ∀ reg ∈ el3Regs,
    smallAsking.cpu.regs reg = smallLeaving.cpu.regs reg := by
  intro reg member
  have others : ∀ reg ∈ el3Regs, reg ∉ [Reg.x 0, .x 1, .x 19, .spsel] := by decide
  have outside := others reg member
  simp only [List.mem_cons, List.not_mem_nil, or_false, not_or] at outside
  obtain ⟨x0, x1, x19, spsel⟩ := outside
  simp only [smallAsking, Machine.setCpu]
  rw [Cpu.regs_set_of_ne spsel, Cpu.regs_set_of_ne x19, Cpu.regs_set_of_ne x1,
    Cpu.regs_set_of_ne x0]

theorem atRest_smallAsking : AtRest smallAsking.monitor where
  rests := by
    have mem : smallAsking.el3Mem = smallTaken.el3Mem := by
      simp only [smallAsking, smallLeaving, Machine.setCpu]
    refine ⟨?_, fun world slot member named => ?_⟩
    rotate_left
    · change smallAsking.el3Mem slot.2 = 1
      rw [mem]
      exact atRest_smallStart.rests.selects world slot member named
    rw [Machine.regs_monitor, el3_smallAsking .spEl3 (by decide), leaving_smallLeaving,
      el3_smallSkipped .spEl3 (by decide)]
    exact sp_smallStart
  onEl3 := by
    rw [Machine.regs_monitor]
    simp [smallAsking, Machine.setCpu, Cpu.set]

theorem serves_away :
    Serves (bareEnv .aarch64 : Env .aarch64 Unit) smallBuffers
      (smallLocals.slot smallEntered :: lower64Frame 0x9000)
      (smallEntered.regs .spEl1) 0 smallLeaving smallResumed := by
  have served := @served_requests _ atRest_smallAsking awayRun (by decide)
  have linked := linked_requests smallAsking.monitor awayRun
  rw [requests_awayRun] at served linked
  have issues : Issues smallAsking.monitor yieldStep := by
    apply issues_request
    · rw [Machine.regs_monitor]
      simp [smallAsking, Machine.setCpu, Cpu.set]
      rfl
    · rw [Machine.regs_monitor]
      simp [smallAsking, Machine.setCpu, Cpu.set]
    · rw [Machine.regs_monitor]
      simp [smallAsking, Machine.setCpu, Cpu.set]
  have stays : ∀ step ∈ [getRegStep], step.code = 0 := by
    intro step member
    cases List.mem_singleton.mp member
    rfl
  have away := Excursion.switches issues linked
    (fun step member => (served step member).1.valid (served step member).2.1)
    (fun step member => (served step member).2.2) (SvcOp.code_ne_zero .yield) stays
    (SvcOp.code_ne_zero .test)
  have goes : Code smallBuffers (smallLocals.slot smallEntered :: lower64Frame 0x9000)
      (smallEntered.regs .spEl1) 0 0 smallLeaving smallAsking := by
    refine ⟨?_, Nat.zero_le _, fun _ _ => rfl, el3_smallAsking, fun _ _ _ => rfl, rfl⟩
    simp [smallAsking, Machine.setCpu, Cpu.set]
  rw [← smallAsking.monitor_resumed (testStep.after smallBuffers)] at away
  exact .code goes (.smc away (fun _ _ => rfl) (.done ..))

/-- Before that the handler skips an undefined instruction. -/
theorem serves_skipped :
    Serves (bareEnv .aarch64 : Env .aarch64 Unit) smallBuffers
      (smallLocals.slot smallEntered :: lower64Frame 0x9000)
      (smallEntered.regs .spEl1) 0 (smallTaken.setCpu smallEntered)
      smallResumed := by
  have room : 48 + smallLocals.size ≤ (smallEntered.regs .spEl1).toNat := by
    rw [sp_smallEntered]
    decide
  have prologue := prologue_smallRaised
  have epilogue := epilogue_leave
    (currentFrame (smallEntered.regs .spEl1) ++
      smallLocals.slot smallEntered :: lower64Frame 0x9000) smallLocals
    (resumeAt (smallInner.mem (smallLocals.slot smallInner) + 4) smallInner)
  have rest := serves_away
  rw [smallLeaving, smallSkipped] at rest
  rw [smallRaised] at prologue
  generalize smallInner = inner at *
  generalize smallEntered = entered at *
  generalize smallResumed = resumed at *
  exact @Serves.exception Unit (bareEnv .aarch64) smallBuffers _ _ 0
    (smallTaken.setCpu entered)
    ((smallTaken.setCpu entered).setCpu inner) resumed inner
    _ 0 0x7000 5 0 0 smallLocals room prologue (.done ..) epilogue rest

def switchedSvc : Svc (bareEnv .aarch64 : Env .aarch64 Unit) smallBuffers where
  taken := smallTaken
  far := 0
  link := 0
  locals := smallLocals
  entered := smallEntered
  leaving := smallResumed
  back := smallLocals.leave
    (resumeAt (smallResumed.cpu.mem (smallLocals.slot smallResumed.cpu)) smallResumed.cpu)
  isSvc := .inl rfl
  room := by decide
  prologue := prologue_smallEntered
  body := serves_skipped
  epilogue := epilogue_leave _ _ _

end TzTest.Aarch64.El1
