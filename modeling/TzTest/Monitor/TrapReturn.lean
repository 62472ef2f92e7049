import TzTest.Monitor.Trap
import TzTest.Monitor.SvcReturn

/-!
# The return from a trapped instruction on AArch64

Each handler has its frame for itself, however deep the exceptions of a level
nest.  So the vectors find what they have pushed; what they do not push or do
not pop is as the handler and its exceptions have left it.
-/

namespace TzTest.Aarch64

open Cpu Slots Nesting

section Handler

variable {vector : SyncVector} {kept : Set (BitVec 64)} {e : Exception}
  {entered leaving : Machine} {resume : BitVec 64} {back : Cpu}

theorem Entry.sp_eq (entry : Entry vector kept e entered) :
    entered.cpu.regs vector.sp = e.bottom vector := by
  rw [entry.sp, (e.pushes vector).sp]
  rfl

theorem frame_toNat {top : BitVec 64} {depth : Nat} (room : 8 * depth ≤ top.toNat) :
    (frame top depth).toNat = top.toNat - 8 * depth :=
  El1.toNat_sub_ofNat room

theorem Entry.bottom_toNat (entry : Entry vector kept e entered) :
    (e.bottom vector).toNat =
      (e.top vector).toNat - 8 * vector.depth - e.locals.size := by
  have room := entry.room
  have pushes := @frame_toNat (e.top vector) vector.depth (by omega)
  rw [Exception.bottom, El1.toNat_sub_ofNat (by omega), pushes]

theorem mem_layout_depth {word : Nat × Reg} (member : word ∈ vector.layout) :
    0 < word.1 ∧ word.1 ≤ vector.depth := by
  cases vector <;>
    simp only [SyncVector.layout, List.mem_cons, List.not_mem_nil, or_false]
      at member <;>
    rcases member with rfl | rfl | rfl | rfl | rfl | rfl <;>
    simp [SyncVector.depth, SyncVector.layout]

theorem Entry.pushed_toNat (entry : Entry vector kept e entered)
    {addr : BitVec 64} (member : addr ∈ e.pushed vector) :
    (e.top vector).toNat - 8 * vector.depth ≤ addr.toNat ∧
      addr.toNat < (e.top vector).toNat := by
  obtain ⟨word, inside, rfl⟩ := member
  obtain ⟨deep, shallow⟩ := mem_layout_depth inside
  have room := entry.room
  have pushes := @frame_toNat (e.top vector) word.1 (by omega)
  omega

theorem Entry.words_above (entry : Entry vector kept e entered) :
    Above (e.words vector) (e.bottom vector) := by
  have bottom := entry.bottom_toNat
  have room := entry.room
  have inside := e.locals.inside
  have wide := (e.top vector).isLt
  intro addr member
  rcases member with rfl | pushed
  · rw [BitVec.toNat_add, BitVec.toNat_ofNat, Nat.mod_eq_of_lt (by omega),
      Nat.mod_eq_of_lt (by omega)]
    omega
  · have low := (entry.pushed_toNat pushed).1
    omega

theorem Exception.mem_call (entry : Entry vector kept e entered)
    {addr : BitVec 64} (above : (e.top vector).toNat ≤ addr.toNat) :
    (e.call vector).mem addr = e.interrupted.cpu.mem addr := by
  rw [(e.pushes vector).mem]
  apply updates_of_not_mem
  rw [List.map_map]
  intro member
  obtain ⟨word, inside, rfl⟩ := List.mem_map.mp member
  have pushed := entry.pushed_toNat ⟨word, inside, rfl⟩
  change (e.top vector).toNat ≤ (frame (e.top vector) word.1).toNat at above
  omega

theorem layout_distinct : (vector.layout.map Prod.fst).Nodup := by
  cases vector <;> simp [SyncVector.layout]

/-- The pushed words are found again. -/
theorem Exception.word_call {word : Nat × Reg} (member : word ∈ vector.layout) :
    (e.call vector).mem (frame (e.top vector) word.1) =
      (e.taken vector).regs word.2 := by
  rw [(e.pushes vector).mem]
  apply updates_of_mem
  · rw [List.map_map]
    apply List.Nodup.map_on _ (List.Nodup.of_map Prod.fst layout_distinct)
    intro left leftMember right rightMember same
    have shallow {word : Nat × Reg} (inside : word ∈ vector.layout) :
        word.1 < 7 := by
      have depth : vector.depth ≤ 6 := by
        cases vector <;> simp [SyncVector.depth, SyncVector.layout]
      have := (mem_layout_depth inside).2
      omega
    have depths := frame_inj (shallow leftMember) (shallow rightMember) same
    exact List.inj_on_of_nodup_map layout_distinct leftMember rightMember depths
  · exact List.mem_map.mpr ⟨word, member, rfl⟩

theorem Entry.selected (entry : Entry vector kept e entered) :
    vector.Selected entered.cpu := by
  cases vector with
  | el1Current world => trivial
  | el1Lower64 world => trivial
  | el3Current =>
      change entered.cpu.regs .spsel = 1
      rw [entry.notInC _ (by decide), (e.pushes _).notInC _ (by decide)]
      simp [Exception.taken, SyncVector.raise]
  | el3Lower64 =>
      change entered.cpu.regs .spsel = 1
      rw [entry.notInC _ (by decide), (e.pushes _).notInC _ (by decide)]
      simp [Exception.taken, SyncVector.raise]

/-- The handler is back in its vector. -/
structure Returned (vector : SyncVector) (kept : Set (BitVec 64)) (e : Exception)
    (leaving : Machine) (resume : BitVec 64) (back : Cpu) : Prop where
  address :
    vector.returnAddress (e.call vector) e.pc leaving.excp = some resume
  sp : back.regs vector.sp = frame (e.top vector) vector.depth
  elr : back.regs vector.elr = resume
  kept : ∀ addr ∈ e.pushed vector ∪ kept,
    back.mem addr = (e.call vector).mem addr
  notInC : ∀ reg ∈ vector.notInC, back.regs reg = leaving.cpu.regs reg

/-- A handler returns if its stack pointer is back and its frame and those above
have been left alone. -/
theorem Exit.returned (exit : Exit vector kept e leaving resume back)
    (entry : Entry vector kept e entered) (above : Above kept (e.top vector))
    (sameSp : leaving.cpu.regs vector.sp = entered.cpu.regs vector.sp)
    (sameMem : ∀ addr ∈ e.words vector ∪ kept,
      leaving.cpu.mem addr = entered.cpu.mem addr)
    (selected : vector.Selected leaving.cpu) :
    Returned vector kept e leaving resume back := by
  have resumes := resumeAt_resumes vector resume selected
  have bottom := sameSp.trans entry.sp_eq
  have bottomNat := entry.bottom_toNat
  have room := entry.room
  have slot : e.slot vector leaving.cpu = e.slot vector entered.cpu :=
    congrArg (· + BitVec.ofNat 64 e.locals.elr) sameSp
  have inWords : e.slot vector entered.cpu ∈ e.words vector := by
    rw [Exception.slot, entry.sp_eq]
    exact Set.mem_insert ..
  constructor
  · have address := exit.address
    rw [slot, sameMem _ (Set.mem_union_left _ inWords), entry.elr,
      (e.pushes vector).elr] at address
    exact address
  · rw [exit.sp, resumes.sp, bottom]
    exact BitVec.sub_add_cancel ..
  · exact exit.elr.trans resumes.elr
  · intro addr member
    have high : (e.bottom vector).toNat ≤ addr.toNat := by
      rcases member with pushed | inKept
      · exact entry.words_above addr (Set.mem_insert_of_mem _ pushed)
      · have := above addr inKept
        omega
    have outside : addr ≠ leaving.cpu.regs vector.sp - 8 := by
      rintro rfl
      have below := El1.toNat_sub_ofNat (s := e.bottom vector) (b := 8) (by omega)
      rw [bottom] at high
      have : (e.bottom vector - 8).toNat = (e.bottom vector).toNat - 8 := below
      omega
    have inFrames : addr ∈ e.words vector ∪ kept :=
      member.imp_left (Set.mem_insert_of_mem _)
    calc
      back.mem addr = (vector.resumeAt resume leaving.cpu).mem addr :=
        exit.kept addr member
      _ = leaving.cpu.mem addr := by
        rw [resumes.mem, Function.update_of_ne outside]
      _ = entered.cpu.mem addr := sameMem addr inFrames
      _ = (e.call vector).mem addr := entry.kept addr member
  · intro reg member
    exact (exit.notInC reg member).trans (resumes.notInC reg member)

/-- The return of the vector does not touch the other stack pointers. -/
theorem exit_others {c : Cpu} (selected : vector.Selected c) :
    ∀ reg ∈ vector.others, (vector.exit c).regs reg = c.regs reg := by
  cases vector with
  | el1Current world =>
      simp [SyncVector.others, SyncVector.exit, El1.currentReturn, El1.ldpPop,
        El1.ldrPop, Cpu.set]
  | el1Lower64 world =>
      simp [SyncVector.others, SyncVector.exit, El1.lower64Done, El1.ldpPop,
        El1.ldrPop, mov, Cpu.set]
  | el3Current =>
      have onEl3 : c.regs .spsel = 1 := selected
      simp [SyncVector.others, SyncVector.exit, currentReturn, ldpPop, ldrPop,
        Cpu.set, Cpu.sp, onEl3]
  | el3Lower64 =>
      have onEl3 : c.regs .spsel = 1 := selected
      simp [SyncVector.others, SyncVector.exit, lower64Resume, ldpPop, ldrPop,
        mov, Cpu.set, Cpu.sp, onEl3]

theorem selected_congr {before after : Cpu}
    (same : after.regs .spsel = before.regs .spsel)
    (selected : vector.Selected before) : vector.Selected after := by
  cases vector with
  | el1Current world => trivial
  | el1Lower64 world => trivial
  | el3Current => exact same.trans selected
  | el3Lower64 => exact same.trans selected

theorem spsel_mem_others : Reg.spsel ∈ vector.others := by
  cases vector <;> simp [SyncVector.others]

theorem others_mem_notInC {reg : Reg} (other : reg ∈ vector.others) :
    reg ∈ vector.notInC :=
  List.mem_cons_of_mem _ other

theorem Exit.selected (exit : Exit vector kept e leaving resume back)
    (selected : vector.Selected leaving.cpu) : vector.Selected back := by
  have resumes := resumeAt_resumes vector resume selected
  have inList := others_mem_notInC (@spsel_mem_others vector)
  exact selected_congr
    ((exit.notInC _ inList).trans (resumes.notInC _ inList)) selected

/-- However deep the exceptions of a level nest, each has its frame for itself. -/
theorem service_lawful (vector : SyncVector) :
    vector.service.Lawful vector.stack (fun m => vector.Selected m.cpu) where
  stays step selected :=
    selected_congr (step.notInC _ (others_mem_notInC spsel_mem_others)) selected
  begins enters _ := enters.2.selected
  ends := by
    rintro kept e leaving after ⟨resume, back, exit, rfl⟩ selected
    have here := exit.selected selected
    exact selected_congr (exit_others here _ spsel_mem_others) here
  code step := step.kept
  frame := by
    rintro kept e before entered ⟨rfl, entry⟩
    have bottom : vector.stack.sp entered = e.bottom vector := entry.sp_eq
    rw [bottom]
    refine ⟨entry.words_above, ?_⟩
    have lower := entry.bottom_toNat
    change _ ≤ (e.top vector).toNat
    omega
  enters := by
    rintro kept e before entered ⟨rfl, entry⟩ above addr member
    exact (entry.kept addr (Set.mem_union_right _ member)).trans
      (e.mem_call entry (above addr member))
  leaves := by
    rintro kept e before entered leaving after ⟨rfl, entry⟩ above sameSp sameMem
      selected ⟨resume, back, exit, rfl⟩
    have returned := exit.returned entry above sameSp sameMem selected
    have popped := exit_popped vector returned.sp (exit.selected selected)
    refine ⟨popped.sp, ?_⟩
    intro addr member
    have here := returned.kept addr (Set.mem_union_right _ member)
    have before := entry.kept addr (Set.mem_union_right _ member)
    have during := sameMem addr (Set.mem_union_right _ member)
    calc
      (vector.exit back).mem addr = back.mem addr := congrFun popped.mem addr
      _ = (e.call vector).mem addr := here
      _ = entered.cpu.mem addr := before.symm
      _ = leaving.cpu.mem addr := during.symm

theorem current_stack : vector.current.stack = vector.stack := by
  cases vector <;> rfl

theorem current_selected {c : Cpu} :
    vector.current.Selected c ↔ vector.Selected c := by
  cases vector <;> rfl

end Handler

section Trapped

variable {vector : SyncVector} (trap : Trap vector)

/-- The handler comes to its end with its frame as it was. -/
theorem Trap.served :
    vector.Selected trap.leaving.cpu ∧
      trap.leaving.cpu.regs vector.sp = trap.entered.cpu.regs vector.sp ∧
      ∀ addr ∈ trap.exception.words vector,
        trap.leaving.cpu.mem addr = trap.entered.cpu.mem addr := by
  have entry := trap.entry
  have starts : vector.current.Selected trap.entered.cpu :=
    current_selected.mpr entry.selected
  have lawful := service_lawful vector.current
  have bottom : vector.current.stack.sp trap.entered =
      trap.exception.bottom vector := by
    rw [current_stack]
    exact entry.sp_eq
  obtain ⟨sp, words⟩ := trap.body.keeps lawful entry.words_above
    (Nat.le_of_eq (congrArg BitVec.toNat bottom)) starts
  rw [current_stack] at sp words
  have ends :=
    trap.body.invariant lawful.stays lawful.begins lawful.ends starts
  exact ⟨current_selected.mp ends, sp.trans entry.sp_eq.symm, words⟩

theorem Trap.leaving_selected : vector.Selected trap.leaving.cpu :=
  trap.served.1

theorem Trap.returned :
    Returned vector ∅ trap.exception trap.leaving trap.resume trap.back := by
  obtain ⟨ends, sp, words⟩ := trap.served
  have none : Above ∅ (trap.exception.top vector) := fun _ absurdity =>
    absurdity.elim
  refine trap.exit.returned trap.entry none sp ?_ ends
  rw [Set.union_empty]
  exact words

theorem Trap.popped :
    Popped vector (trap.exception.top vector) trap.back trap.final :=
  exit_popped vector trap.returned.sp (trap.exit.selected trap.leaving_selected)

theorem Trap.final_word {word : Nat × Reg} (member : word ∈ vector.layout)
    (restores : vector.RestoresX0 ∨ word.2 ≠ .x 0) :
    trap.final.regs word.2 = (trap.exception.taken vector).regs word.2 := by
  have pushed : frame (trap.exception.top vector) word.1 ∈
      trap.exception.pushed vector ∪ ∅ := Or.inl ⟨word, member, rfl⟩
  rw [trap.popped.words word member restores, trap.returned.kept _ pushed]
  exact trap.exception.word_call member

/-- Taking an exception changes only what the processor writes. -/
theorem Exception.taken_regs (e : Exception) {reg : Reg}
    (kept : reg ∉ [vector.elr, vector.spsr, Reg.spsel]) :
    (e.taken vector).regs reg = e.interrupted.cpu.regs reg := by
  simp only [List.mem_cons, List.not_mem_nil, or_false, not_or] at kept
  obtain ⟨notElr, notSpsr, notSpsel⟩ := kept
  cases vector with
  | el1Current world =>
      exact (regs_set_of_ne notSpsr _ _).trans (regs_set_of_ne notElr _ _)
  | el1Lower64 world =>
      exact (regs_set_of_ne notSpsr _ _).trans (regs_set_of_ne notElr _ _)
  | el3Current =>
      exact (regs_set_of_ne notSpsel _ _).trans
        ((regs_set_of_ne notSpsr _ _).trans (regs_set_of_ne notElr _ _))
  | el3Lower64 =>
      exact (regs_set_of_ne notSpsel _ _).trans
        ((regs_set_of_ne notSpsr _ _).trans (regs_set_of_ne notElr _ _))

theorem Exception.taken_spsr (e : Exception) :
    (e.taken vector).regs vector.spsr = e.pstate := by
  cases vector <;>
    simp [Exception.taken, SyncVector.raise, SyncVector.spsr, Cpu.set]

theorem others_taken {reg : Reg} (other : reg ∈ vector.others)
    (notSpsel : reg ≠ .spsel) : reg ∉ [vector.elr, vector.spsr, Reg.spsel] := by
  cases vector <;>
    simp only [SyncVector.others, List.mem_cons, List.not_mem_nil, or_false]
      at other <;>
    rcases other with rfl | rfl | rfl <;>
    simp_all [SyncVector.elr, SyncVector.spsr]

theorem current_others : vector.current.others = vector.others := by
  cases vector <;> rfl

theorem current_spsr : vector.current.spsr = vector.spsr := by
  cases vector <;> rfl

/-- At the call of a handler, the other stack pointers are those of the
interrupted code. -/
theorem Entry.others {kept : Set (BitVec 64)} {e : Exception} {entered : Machine}
    (entry : Entry vector kept e entered) {reg : Reg}
    (other : reg ∈ vector.others) (notSpsel : reg ≠ .spsel) :
    entered.cpu.regs reg = e.interrupted.cpu.regs reg := by
  have inList := others_mem_notInC other
  rw [entry.notInC reg inList, (e.pushes vector).notInC reg inList]
  exact e.taken_regs (others_taken other notSpsel)

theorem Exit.others {kept : Set (BitVec 64)} {e : Exception} {leaving : Machine}
    {resume : BitVec 64} {back : Cpu}
    (exit : Exit vector kept e leaving resume back)
    (selected : vector.Selected leaving.cpu) {reg : Reg}
    (other : reg ∈ vector.others) :
    (vector.exit back).regs reg = leaving.cpu.regs reg := by
  have inList := others_mem_notInC other
  rw [exit_others (exit.selected selected) reg other, exit.notInC reg inList]
  exact (resumeAt_resumes vector resume selected).notInC reg inList

/-- The level runs on its own stack pointer, and another register has the
value. -/
structure Holds (vector : SyncVector) (reg : Reg) (value : BitVec 64)
    (m : Machine) : Prop where
  selected : vector.Selected m.cpu
  value : m.cpu.regs reg = value

theorem holds_of_serves {kept : Set (BitVec 64)} {bottom : BitVec 64}
    {nested : List Exception} {m later : Machine} {reg : Reg}
    {value : BitVec 64} (other : reg ∈ vector.others) (notSpsel : reg ≠ .spsel)
    (serves : Nesting.Serves vector.stack vector.service kept bottom nested m later)
    (holds : Holds vector reg value m) : Holds vector reg value later := by
  have lawful := service_lawful vector
  apply serves.invariant _ _ _ holds
  · intro kept before after step here
    exact ⟨lawful.stays step here.selected,
      (step.notInC reg (others_mem_notInC other)).trans here.value⟩
  · rintro kept e before entered ⟨rfl, entry⟩ here
    exact ⟨entry.selected, (entry.others other notSpsel).trans here.value⟩
  · rintro kept e leaving after ⟨resume, back, exit, rfl⟩ here
    exact ⟨lawful.ends ⟨resume, back, exit, rfl⟩ here.selected,
      (exit.others here.selected other).trans here.value⟩

theorem Trap.final_others {reg : Reg} (other : reg ∈ vector.others)
    (notSpsel : reg ≠ .spsel) :
    trap.final.regs reg = trap.exception.interrupted.cpu.regs reg := by
  have otherHere : reg ∈ vector.current.others := by
    rw [current_others]
    exact other
  have starts : Holds vector.current reg
      (trap.exception.interrupted.cpu.regs reg) trap.entered :=
    ⟨current_selected.mpr trap.entry.selected, trap.entry.others other notSpsel⟩
  have ends := holds_of_serves otherHere notSpsel trap.body starts
  exact (trap.exit.others (current_selected.mp ends.selected) other).trans ends.value

/-- The status of the last exception that the handler has taken, or else that of
the interrupted code. -/
def Trap.lastPstate : BitVec 64 :=
  (trap.nested.map Exception.pstate).getLastD trap.exception.pstate

theorem Entry.spsr {kept : Set (BitVec 64)} {e : Exception} {entered : Machine}
    (entry : Entry vector kept e entered) :
    entered.cpu.regs vector.spsr = e.pstate := by
  have inList : vector.spsr ∈ vector.notInC := List.mem_cons_self ..
  rw [entry.notInC _ inList, (e.pushes vector).notInC _ inList, e.taken_spsr]

theorem Exit.spsr {kept : Set (BitVec 64)} {e : Exception} {leaving : Machine}
    {resume : BitVec 64} {back : Cpu}
    (exit : Exit vector kept e leaving resume back)
    (selected : vector.Selected leaving.cpu) :
    back.regs vector.spsr = leaving.cpu.regs vector.spsr := by
  have inList : vector.spsr ∈ vector.notInC := List.mem_cons_self ..
  rw [exit.notInC _ inList]
  exact (resumeAt_resumes vector resume selected).notInC _ inList

/-- The vectors of the current level do not put the saved program status back. -/
theorem exit_current_spsr {c : Cpu} (selected : vector.current.Selected c) :
    (vector.current.exit c).regs vector.current.spsr =
      c.regs vector.current.spsr := by
  cases vector with
  | el1Current world =>
      simp [SyncVector.current, SyncVector.exit, SyncVector.spsr,
        El1.currentReturn, El1.ldpPop, El1.ldrPop, Cpu.set]
  | el1Lower64 world =>
      simp [SyncVector.current, SyncVector.exit, SyncVector.spsr,
        El1.currentReturn, El1.ldpPop, El1.ldrPop, Cpu.set]
  | el3Current =>
      have onEl3 : c.regs .spsel = 1 := selected
      simp [SyncVector.current, SyncVector.exit, SyncVector.spsr, currentReturn,
        ldpPop, ldrPop, Cpu.set, Cpu.sp, onEl3]
  | el3Lower64 =>
      have onEl3 : c.regs .spsel = 1 := selected
      simp [SyncVector.current, SyncVector.exit, SyncVector.spsr, currentReturn,
        ldpPop, ldrPop, Cpu.set, Cpu.sp, onEl3]

/-- Nothing but an exception writes the saved program status. -/
theorem Trap.leaving_spsr :
    trap.leaving.cpu.regs vector.spsr = trap.lastPstate := by
  have lawful := service_lawful vector.current
  have starts : vector.current.Selected trap.entered.cpu :=
    current_selected.mpr trap.entry.selected
  have last := trap.body.last lawful
    (fun m => m.cpu.regs vector.current.spsr) Exception.pstate starts
    (fun step => step.notInC _ (List.mem_cons_self ..))
    (by
      rintro kept e before entered ⟨rfl, entry⟩
      exact entry.spsr)
    (by
      rintro kept e leaving after selected ⟨resume, back, exit, rfl⟩
      exact (exit_current_spsr (exit.selected selected)).trans
        (exit.spsr selected))
  rw [current_spsr, trap.entry.spsr] at last
  exact last

/-- The registers that every vector pops. -/
theorem Trap.final_popped : ∀ reg ∈ [Reg.x 1, .x 2, .x 3, .x 30],
    trap.final.regs reg = trap.exception.interrupted.cpu.regs reg := by
  intro reg member
  have pushed : ∃ depth, (depth, reg) ∈ vector.layout := by
    simp only [List.mem_cons, List.not_mem_nil, or_false] at member
    rcases member with rfl | rfl | rfl | rfl <;>
      cases vector <;> simp [SyncVector.layout]
  obtain ⟨depth, inLayout⟩ := pushed
  have notX0 : reg ≠ .x 0 := by
    rintro rfl
    simp at member
  have general : reg ∉ [vector.elr, vector.spsr, Reg.spsel] := by
    simp only [List.mem_cons, List.not_mem_nil, or_false] at member
    rcases member with rfl | rfl | rfl | rfl <;>
      cases vector <;> simp [SyncVector.elr, SyncVector.spsr]
  exact (trap.final_word inLayout (Or.inr notX0)).trans
    (trap.exception.taken_regs general)

theorem Trap.final_x0 (restores : vector.RestoresX0) :
    trap.final.regs (.x 0) = trap.exception.interrupted.cpu.regs (.x 0) := by
  have pushed : ∃ depth, (depth, Reg.x 0) ∈ vector.layout := by
    cases vector <;> simp [SyncVector.layout]
  obtain ⟨depth, inLayout⟩ := pushed
  have general : Reg.x 0 ∉ [vector.elr, vector.spsr, Reg.spsel] := by
    cases vector <;> simp [SyncVector.elr, SyncVector.spsr]
  exact (trap.final_word inLayout (Or.inl restores)).trans
    (trap.exception.taken_regs general)

theorem Trap.final_spsr (restores : vector.RestoresPstate) :
    trap.final.regs vector.spsr = trap.exception.pstate := by
  have pushed : (4, vector.spsr) ∈ vector.layout := by
    cases vector <;> simp_all [SyncVector.RestoresPstate, SyncVector.layout,
      SyncVector.spsr]
  have notX0 : vector.spsr ≠ .x 0 := by
    cases vector <;> simp [SyncVector.spsr]
  exact (trap.final_word pushed (Or.inr notX0)).trans trap.exception.taken_spsr

theorem Trap.final_sps : ∀ reg ∈ [Reg.spEl0, .spEl1, .spEl3],
    trap.final.regs reg = trap.exception.interrupted.cpu.regs reg := by
  intro reg member
  by_cases own : reg = vector.sp
  · rw [own]
    exact trap.popped.sp
  · have other : reg ∈ vector.others := by
      simp only [List.mem_cons, List.not_mem_nil, or_false] at member
      rcases member with rfl | rfl | rfl <;>
        cases vector <;> simp_all [SyncVector.sp, SyncVector.others]
    have notSpsel : reg ≠ .spsel := by
      rintro rfl
      simp at member
    exact trap.final_others other notSpsel

/-- A trapped instruction loses `x0` on the way through
`el1_sync_exception_lower64`, and the status where another exception of the
current level is taken on the way. -/
theorem trap_transparent_iff :
    trap.Transparent ↔
      (vector.RestoresX0 ∨
        trap.back.regs (.x 0) = trap.exception.interrupted.cpu.regs (.x 0)) ∧
      (vector.RestoresPstate ∨ trap.lastPstate = trap.exception.pstate) := by
  have left : vector.RestoresPstate ∨
      trap.final.regs vector.spsr = trap.lastPstate := by
    refine trap.popped.spsr.imp id fun same => ?_
    rw [same, trap.exit.spsr trap.leaving_selected]
    exact trap.leaving_spsr
  constructor
  · rintro ⟨regs, pstate⟩
    constructor
    · refine trap.popped.x0.imp id fun same => ?_
      rw [← same]
      exact regs (.x 0) (List.mem_cons_self ..)
    · exact left.imp id fun same => same.symm.trans pstate
  · rintro ⟨first, status⟩
    constructor
    · intro reg member
      have split : [Reg.x 0, .x 1, .x 2, .x 3, .x 30, .spEl0, .spEl1, .spEl3] =
          [Reg.x 0] ++ [Reg.x 1, .x 2, .x 3, .x 30] ++
            [Reg.spEl0, .spEl1, .spEl3] := rfl
      rw [split, List.mem_append, List.mem_append] at member
      rcases member with (isFirst | popped) | isSp
      · rw [List.mem_singleton.mp isFirst]
        by_cases restores : vector.RestoresX0
        · exact trap.final_x0 restores
        · exact (trap.popped.x0.resolve_left restores).trans
            (first.resolve_left restores)
      · exact trap.final_popped reg popped
      · exact trap.final_sps reg isSp
    · by_cases restores : vector.RestoresPstate
      · exact trap.final_spsr restores
      · exact (left.resolve_left restores).trans (status.resolve_left restores)

end Trapped

section Plain

variable (vector : SyncVector) (e : Exception)

/-- A handler that only keeps its return address. -/
def Exception.enter : Machine where
  cpu :=
    let bottom :=
      (e.call vector).regs vector.sp - BitVec.ofNat 64 e.locals.size
    ((e.call vector).store (bottom + BitVec.ofNat 64 e.locals.elr)
      ((e.call vector).regs (.x 3))).set vector.sp bottom
  excp := vector.handle (e.call vector) e.interrupted.excp

def Exception.leave (resume : BitVec 64) : Cpu :=
  let resumed := vector.resumeAt resume (e.enter vector).cpu
  resumed.set vector.sp
    (resumed.regs vector.sp + BitVec.ofNat 64 e.locals.size)

variable {vector e}

theorem notInC_ne_sp {reg : Reg} (member : reg ∈ vector.notInC) :
    reg ≠ vector.sp := by
  rintro rfl
  cases vector <;>
    simp [SyncVector.notInC, SyncVector.others, SyncVector.spsr, SyncVector.sp]
      at member

theorem entry_enter
    (room : 8 * (vector.depth + 1) + e.locals.size ≤ (e.top vector).toNat) :
    Entry vector ∅ e (e.enter vector) := by
  have pushes := e.pushes vector
  have sp : (e.enter vector).cpu.regs vector.sp = e.bottom vector := by
    refine (regs_set_self _ _ _).trans ?_
    rw [pushes.sp]
    rfl
  refine ⟨room, rfl, regs_set_self _ _ _, ?_, ?_, ?_⟩
  · rw [Exception.slot, sp, Exception.bottom, ← pushes.sp]
    exact Function.update_self ..
  · intro addr member
    rw [Set.union_empty] at member
    obtain ⟨word, inside, rfl⟩ := member
    apply Function.update_of_ne
    intro same
    have shallow := (mem_layout_depth inside).2
    have high := @frame_toNat (e.top vector) word.1 (by omega)
    have low := @frame_toNat (e.top vector) vector.depth (by omega)
    have within := e.locals.inside
    have wide := (e.top vector).isLt
    have slot := congrArg BitVec.toNat same
    rw [pushes.sp, BitVec.toNat_add, El1.toNat_sub_ofNat (by omega),
      BitVec.toNat_ofNat, Nat.mod_eq_of_lt (by omega),
      Nat.mod_eq_of_lt (by omega)] at slot
    omega
  · intro reg member
    exact regs_set_of_ne (notInC_ne_sp member) _ _

/-- The exception is served without another one. -/
def Exception.trap (noCall : ¬vector.SystemCall e.esr)
    (room : 8 * (vector.depth + 1) + e.locals.size ≤ (e.top vector).toNat)
    {resume : BitVec 64}
    (resumes : vector.returnAddress (e.call vector) e.pc
      (vector.handle (e.call vector) e.interrupted.excp) = some resume) :
    Trap vector where
  exception := e
  entered := e.enter vector
  nested := []
  leaving := e.enter vector
  resume := resume
  back := e.leave vector resume
  noCall := noCall
  entry := entry_enter room
  body := by
    apply Nesting.Serves.done
    rw [current_stack]
    exact (entry_enter room).sp_eq
  exit := by
    refine ⟨?_, regs_set_self _ _ _, ?_, fun _ _ => rfl, ?_⟩
    · rw [(entry_enter room).elr, (e.pushes vector).elr]
      exact resumes
    · apply regs_set_of_ne
      cases vector <;> simp [SyncVector.elr, SyncVector.sp]
    · intro reg member
      exact regs_set_of_ne (notInC_ne_sp member) _ _

end Plain

/-- EL0 has executed a trapped `wfi` at `0x4000`, with a value in `x0`. -/
def trappedWfi : Exception where
  interrupted :=
    { cpu := (idleCpu.set .spEl1 0x9000).set (.x 0) 5
      excp := { SysException.zeroed with action := SysException.skip } }
  esr := 0x04000000
  far := 0
  pc := 0x4000
  pstate := 0x3c0
  link := 0
  locals := El1.smallLocals

def wfiTrap : Trap (.el1Lower64 .nonsecure) :=
  @Exception.trap (.el1Lower64 .nonsecure) trappedWfi
    (by rintro (call | call) <;> exact absurd call (by decide))
    (by decide) 0x4004 (by decide)

/-- The return address is in `x0` when the handler returns. -/
theorem trap_loses_x0 : ¬wfiTrap.Transparent := by
  intro transparent
  have first := transparent.regs (.x 0) (List.mem_cons_self ..)
  exact absurd first (by decide)

end TzTest.Aarch64
