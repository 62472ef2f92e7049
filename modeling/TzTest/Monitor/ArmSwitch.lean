import TzTest.Monitor.ArmSaveRestore
import TzTest.Protocol.Answers

/-!
# `monitor_switch` on ARM

The switch takes the return address and status from the stack, puts the live
context into one buffer, takes the other, and leaves its return address and
status on the stack, eight bytes below where they came from.
-/

namespace TzTest.Arm

open Cpu Slots

def Link.state (link : Link) : World → BitVec 32
  | .secure => link.secState
  | .nonsecure => link.nsecState

/-- The address and the status to return to go through `r2` and `r1`. -/
def returnName : Reg → Reg
  | .r 1 => .cpsr
  | .r 2 => .pc
  | reg => reg

/-- What a world keeps across a switch, in the order of the buffer. -/
def contextNames : List Reg :=
  contextRegs.map returnName

/-- The context at the entry of `monitor_switch`, whose return address and
status are on the stack. -/
def context (c : Cpu) : Reg → BitVec 32
  | .pc => c.mem (c.regs (.sp .mon))
  | .cpsr => c.mem (c.regs (.sp .mon) + 4)
  | reg => c.regs reg

/-- The number of words in `state_buf`. -/
def stateWords : Nat := 25

/-- Depth in words below the stack pointer. -/
def frame (sp : BitVec 32) (depth : Nat) : BitVec 32 :=
  sp - BitVec.ofNat 32 (4 * depth)

/-- The buffers and the words of the monitor stack that an SMC uses are
apart. -/
structure Layout (link : Link) (sp : BitVec 32) : Prop where
  apart : ∀ first < stateWords, ∀ last < stateWords,
    link.secState + BitVec.ofNat 32 (4 * first) ≠
      link.nsecState + BitVec.ofNat 32 (4 * last)
  stack : ∀ world, ∀ word < stateWords, ∀ depth < 7,
    link.state world + BitVec.ofNat 32 (4 * word) ≠ frame sp depth

/-- The slots of a world's buffer. -/
def Link.slots (link : Link) (world : World) : List (Reg × BitVec 32) :=
  wordsFrom (link.state world) contextNames

/-- `world` was running, and the other one is resumed. -/
structure Switched (link : Link) (world : World) (before after : Cpu) : Prop where
  saved : ∀ slot ∈ link.slots world, after.mem slot.2 = context before slot.1
  kept : ∀ slot ∈ link.slots world.other, after.mem slot.2 = before.mem slot.2
  restored : ∀ slot ∈ link.slots world.other, after.regs slot.1 = before.mem slot.2
  result : after.regs (.r 0) = before.regs (.r 0)
  scr : after.regs .scr = @Sys.switchScr .arm (before.regs .scr)
  sp : after.regs (.sp .mon) = before.regs (.sp .mon)

theorem frame_zero (sp : BitVec 32) : frame sp 0 = sp := by
  unfold frame
  grind

theorem frame_succ (sp : BitVec 32) (depth : Nat) :
    frame sp (depth + 1) + 4 = frame sp depth := by
  have word : BitVec.ofNat 32 (4 * (depth + 1)) = BitVec.ofNat 32 (4 * depth) + 4 := by
    rw [Nat.mul_succ, BitVec.ofNat_add]
    rfl
  unfold frame
  rw [word]
  grind

theorem frame_inj {sp : BitVec 32} {left right : Nat} (leftShallow : left < 7)
    (rightShallow : right < 7) (same : frame sp left = frame sp right) :
    left = right := by
  unfold frame at same
  bv_omega

theorem exists_word {base : BitVec 32} {list : List Reg} {slot : Reg × BitVec 32}
    (member : slot ∈ wordsFrom base list) :
    ∃ word < list.length, slot.2 = base + BitVec.ofNat 32 (4 * word) := by
  induction list generalizing base with
  | nil => cases member
  | cons reg rest induction =>
      rcases List.mem_cons.mp member with rfl | later
      · exact ⟨0, Nat.succ_pos _, (BitVec.add_zero base).symm⟩
      · obtain ⟨word, below, place⟩ := induction later
        refine ⟨word + 1, Nat.succ_lt_succ below, ?_⟩
        rw [place, Nat.mul_succ, Nat.add_comm, BitVec.ofNat_add, BitVec.add_assoc]
        rfl

theorem length_contextNames : contextNames.length = stateWords := by
  decide

theorem nodup_wordsFrom (base : BitVec 32) {list : List Reg}
    (short : list.length ≤ stateWords) :
    ((wordsFrom base list).map Prod.snd).Nodup := by
  induction list generalizing base with
  | nil => exact List.nodup_nil
  | cons reg rest induction =>
      rw [List.length_cons] at short
      refine List.nodup_cons.mpr ⟨?_, induction (base + 4) (by omega)⟩
      intro member
      obtain ⟨slot, inside, same⟩ := List.mem_map.mp member
      obtain ⟨word, below, place⟩ := exists_word inside
      unfold stateWords at short
      rw [place] at same
      dsimp only at same
      bv_omega

theorem wordsFrom_map (base : BitVec 32) (rename : Reg → Reg) (list : List Reg) :
    wordsFrom base (list.map rename) =
      (wordsFrom base list).map fun slot => (rename slot.1, slot.2) := by
  induction list generalizing base with
  | nil => rfl
  | cons reg rest induction =>
      rw [List.map_cons, wordsFrom, induction]
      rfl

namespace Layout

variable {link : Link} {sp : BitVec 32} (layout : Layout link sp)
include layout

theorem apart_slots (world : World) {slot other : Reg × BitVec 32}
    (member : slot ∈ link.slots world)
    (otherMember : other ∈ link.slots world.other) : slot.2 ≠ other.2 := by
  obtain ⟨word, below, place⟩ := exists_word member
  obtain ⟨otherWord, otherBelow, otherPlace⟩ := exists_word otherMember
  rw [length_contextNames] at below otherBelow
  rw [place, otherPlace]
  cases world with
  | secure => exact layout.apart word below otherWord otherBelow
  | nonsecure => exact (layout.apart otherWord otherBelow word below).symm

theorem stack_slots {world : World} {slot : Reg × BitVec 32}
    (member : slot ∈ link.slots world) {depth : Nat} (shallow : depth < 7) :
    slot.2 ≠ frame sp depth := by
  obtain ⟨word, below, place⟩ := exists_word member
  rw [length_contextNames] at below
  rw [place]
  exact layout.stack world word below depth shallow

end Layout

/-- The words of a list of registers are not at `addr`. -/
def Away (addr : BitVec 32) (slots : List (Reg × BitVec 32)) : Prop :=
  ∀ slot ∈ slots, slot.2 ≠ addr

section Calls

variable {c : Cpu} {top : BitVec 32}

theorem push_lr (mode : c.mode = .mon) (sp : c.regs (.sp .mon) = frame top 2) :
    push [.lr] c =
      { c with
        regs := Function.update c.regs (.sp .mon) (frame top 3)
        mem := Function.update c.mem (frame top 3) (c.regs (.lr .mon)) } := by
  have down : frame top 2 - BitVec.ofNat 32 (4 * 1) = frame top 3 := by
    unfold frame
    grind
  simp only [push, storeMultiple, Cpu.set, mode, sp, List.length_cons,
    List.length_nil, Nat.zero_add, down]
  rfl

structure SaveCall (top : BitVec 32) (before after : Cpu) : Prop where
  mem : after.mem =
    updates (Function.update before.mem (frame top 3) (before.regs (.lr .mon)))
      (saved (wordsFrom (before.regs (.r 0)) contextRegs) before.regs)
  regs : ∀ reg ∉ [Reg.r 0, .r 3, .pc], after.regs reg = before.regs reg
  mode : after.mode = .mon
  returns : after.regs .pc = before.regs (.lr .mon)

theorem saveCall (mode : c.mode = .mon) (sp : c.regs (.sp .mon) = frame top 2)
    (away : Away (frame top 3) (wordsFrom (c.regs (.r 0)) contextRegs)) :
    SaveCall top c (monitorSaveState c) := by
  have pushed := push_lr mode sp
  have saves := saveBody_saves (push [.lr] c)
  have inMonitor : (saveBody (push [.lr] c)).mode = .mon := mode_saveBody _
  have parts : monitorSaveState c = bx .lr (pop [.lr] (saveBody (push [.lr] c))) :=
    rfl
  rw [parts]
  generalize saveBody (push [.lr] c) = d at saves inMonitor
  have kept {reg : Reg} (outside : reg ∉ scratch) (pointer : reg ≠ .sp .mon) :
      d.regs reg = c.regs reg := by
    rw [saves.regs reg outside, pushed]
    exact Function.update_of_ne pointer ..
  have base : (push [.lr] c).regs (.r 0) = c.regs (.r 0) := by
    rw [pushed]
    simp
  have stored : d.mem =
      updates (Function.update c.mem (frame top 3) (c.regs (.lr .mon)))
        (saved (wordsFrom (c.regs (.r 0)) contextRegs) c.regs) := by
    have values : saved (wordsFrom (c.regs (.r 0)) contextRegs)
        (push [.lr] c).regs =
          saved (wordsFrom (c.regs (.r 0)) contextRegs) c.regs := by
      apply saved_congr
      intro slot member
      have named := fst_mem_of_wordsFrom member
      rw [pushed]
      refine Function.update_of_ne ?_ ..
      intro pointer
      rw [pointer] at named
      exact absurd named (by decide)
    rw [saves.mem, base, values, pushed]
  have sp' : d.regs (.sp .mon) = frame top 3 := by
    rw [saves.regs _ (by decide), pushed]
    simp
  have link : d.mem (frame top 3) = c.regs (.lr .mon) := by
    rw [stored]
    refine (updates_saved_of_not_mem ?_ _ _).trans (Function.update_self ..)
    intro member
    obtain ⟨slot, inside, same⟩ := List.mem_map.mp member
    exact away slot inside same
  have up : frame top 3 + BitVec.ofNat 32 (4 * 1) = frame top 2 := frame_succ top 2
  have popped : pop [.lr] d =
      { d with
        regs := updates d.regs
          [(.lr .mon, c.regs (.lr .mon)), (.sp .mon, frame top 2)] } := by
    simp only [pop, loadMultiple, Cpu.set, inMonitor, sp', List.length_cons,
      List.length_nil, Nat.zero_add, up, ← link]
    rfl
  rw [popped]
  have regs : ∀ reg ∉ [Reg.r 0, .r 3, .pc],
      (bx .lr { d with
        regs := updates d.regs
          [(.lr .mon, c.regs (.lr .mon)), (.sp .mon, frame top 2)] }).regs reg =
        c.regs reg := by
    intro reg outside
    simp only [List.mem_cons, List.not_mem_nil, or_false, not_or] at outside
    refine (Function.update_of_ne outside.2.2 ..).trans ?_
    by_cases pointer : reg = .sp .mon
    · subst pointer
      simp [updates_cons, sp]
    · by_cases linked : reg = .lr .mon
      · subst linked
        simp [updates_cons]
      · simp only [updates_cons, updates_nil]
        rw [Function.update_of_ne pointer, Function.update_of_ne linked]
        exact kept (by simp [scratch, outside]) pointer
  refine ⟨stored, regs, inMonitor, ?_⟩
  simp [bx, inMonitor, Operand.reg, updates_cons]

structure RestoreCall (top : BitVec 32) (before after : Cpu) : Prop where
  restored : ∀ slot ∈ wordsFrom (before.regs (.r 0)) contextRegs,
    after.regs slot.1 = before.mem slot.2
  regs : ∀ reg ∉ contextRegs ++ [Reg.r 0, .r 3, .pc, .sp .mon],
    after.regs reg = before.regs reg
  sp : after.regs (.sp .mon) = frame top 4
  address : after.mem (frame top 4) = after.regs (.r 2)
  status : after.mem (frame top 3) = after.regs (.r 1)
  mem : ∀ addr, addr ≠ frame top 3 → addr ≠ frame top 4 →
    after.mem addr = before.mem addr
  mode : after.mode = .mon
  returns : after.regs .pc = before.regs (.lr .mon)

theorem restoreCall (mode : c.mode = .mon) (sp : c.regs (.sp .mon) = frame top 2)
    (away : Away (frame top 3) (wordsFrom (c.regs (.r 0)) contextRegs)) :
    RestoreCall top c (monitorRestoreState c) := by
  have pushed := push_lr mode sp
  have restores := restoreBody_restores (push [.lr] c)
  have inMonitor : (restoreBody (push [.lr] c)).mode = .mon := mode_restoreBody _
  have parts : monitorRestoreState c =
      bx (.r 3) (push [.r 0, .r 1]
        (mov (.r 0) (.r 2) (pop [.r 3] (restoreBody (push [.lr] c))))) :=
    rfl
  rw [parts]
  generalize restoreBody (push [.lr] c) = d at restores inMonitor
  have base : (push [.lr] c).regs (.r 0) = c.regs (.r 0) := by
    rw [pushed]
    simp
  have kept {reg : Reg} (outside : reg ∉ contextRegs) (clear : reg ∉ scratch)
      (pointer : reg ≠ .sp .mon) : d.regs reg = c.regs reg := by
    rw [restores.regs_of_not_mem clear outside, pushed]
    exact Function.update_of_ne pointer ..
  have loaded : ∀ slot ∈ wordsFrom (c.regs (.r 0)) contextRegs,
      d.regs slot.1 = c.mem slot.2 := by
    intro slot member
    rw [restores.regs_of_mem clear_contextRegs contextRegs_nodup
      (by rw [base]; exact member), pushed]
    exact Function.update_of_ne (away slot member) ..
  have sp' : d.regs (.sp .mon) = frame top 3 := by
    rw [restores.regs_of_not_mem (by decide) (by decide), pushed]
    simp
  have link : d.mem (frame top 3) = c.regs (.lr .mon) := by
    rw [restores.mem, pushed]
    exact Function.update_self ..
  have up : frame top 3 + BitVec.ofNat 32 4 = frame top 2 := frame_succ top 2
  have down : frame top 2 - BitVec.ofNat 32 8 = frame top 4 := by
    unfold frame
    grind
  have next : frame top 4 + BitVec.ofNat 32 4 = frame top 3 := frame_succ top 3
  have returned :
      bx (.r 3) (push [.r 0, .r 1] (mov (.r 0) (.r 2) (pop [.r 3] d))) =
        { d with
          regs := updates d.regs
            [(.r 3, c.regs (.lr .mon)), (.sp .mon, frame top 2),
              (.r 0, d.regs (.r 2)), (.sp .mon, frame top 4),
              (.pc, c.regs (.lr .mon))]
          mem := updates d.mem
            [(frame top 4, d.regs (.r 2)), (frame top 3, d.regs (.r 1))] } := by
    simp [bx, push, pop, mov, loadMultiple, storeMultiple, Cpu.set, Operand.reg,
      wordsFrom, restored, saved, updates_cons, inMonitor, sp', link, up, down, next]
  have apart : frame top 4 ≠ frame top 3 := fun same =>
    absurd (frame_inj (by decide) (by decide) same) (by decide)
  have memory (addr : BitVec 32) (notThird : addr ≠ frame top 3) :
      d.mem addr = c.mem addr := by
    rw [restores.mem, pushed]
    exact Function.update_of_ne notThird ..
  rw [returned]
  constructor
  · intro slot member
    have named := fst_mem_of_wordsFrom member
    rw [← loaded slot member]
    apply updates_of_not_mem
    intro written
    have outside : ∀ reg ∈ contextRegs, reg ∉ [Reg.r 3, .sp .mon, .r 0, .sp .mon, .pc] := by
      decide
    exact outside _ named written
  · intro reg outside
    have clear := not_or.mp (mt List.mem_append.mpr outside)
    simp only [List.mem_cons, List.not_mem_nil, or_false, not_or] at clear
    rw [← kept clear.1 (by simp [scratch, clear.2]) clear.2.2.2.2]
    apply updates_of_not_mem
    simp [clear.2]
  · simp [updates_cons]
  · simp [updates_cons, apart]
  · simp [updates_cons]
  · intro addr notThird notFourth
    rw [← memory addr notThird]
    apply updates_of_not_mem
    simp [notThird, notFourth]
  · exact inMonitor
  · simp [updates_cons]

end Calls

/-- The return address and status go to `r2` and `r1`, the arguments to the
stack. -/
def switchHead (c : Cpu) : Cpu :=
  let c := mov (.r 1) (.r 3) (push [.r 0, .r 1] (pop [.r 2, .r 3] c))
  let c := c.set (.r 3) (c.regs .scr)
  c.set (.r 3) (c.regs (.r 3) &&& 0x1)

def exchange (source target saved restored : BitVec 32) (c : Cpu) : Cpu :=
  monitorRestoreState (bl restored
    ((monitorSaveState (bl saved (c.set (.r 0) source))).set (.r 0) target))

/-- `switch_state` -/
def switchTail (c : Cpu) : Cpu :=
  rfefd (push [.r 2, .r 3] (pop [.r 0, .r 1] (pop [.r 2, .r 3] c)))

/-- `read scr`, change it, and write it back. -/
def setScr (value : BitVec 32 → BitVec 32) (c : Cpu) : Cpu :=
  let c := c.set (.r 3) (c.regs .scr)
  let c := c.set (.r 3) (value (c.regs (.r 3)))
  c.set .scr (c.regs (.r 3))

section Parts

variable {c : Cpu} {top : BitVec 32} {link : Link}

theorem switchHead_eq (mode : c.mode = .mon) (sp : c.regs (.sp .mon) = frame top 2) :
    switchHead c =
      { c with
        regs := updates c.regs
          [(.r 2, c.mem (frame top 2)), (.r 1, c.mem (frame top 1)),
            (.r 3, c.regs .scr &&& 1)]
        mem := updates c.mem
          [(frame top 2, c.regs (.r 0)), (frame top 1, c.regs (.r 1))] } := by
  have next : frame top 2 + BitVec.ofNat 32 4 = frame top 1 := frame_succ top 1
  have same : frame top 2 + BitVec.ofNat 32 8 - BitVec.ofNat 32 8 = frame top 2 := by
    grind
  have result : (switchHead c).regs =
      updates c.regs
          [(.r 2, c.mem (frame top 2)), (.r 1, c.mem (frame top 1)),
            (.r 3, c.regs .scr &&& 1)] := by
    funext reg
    simp [switchHead, push, pop, mov, loadMultiple, storeMultiple, Cpu.set,
      Operand.reg, wordsFrom, restored, saved, updates_cons, mode, sp, next, same,
      Function.update_apply]
    split_ifs <;> simp_all
  have memory : (switchHead c).mem =
      updates c.mem
        [(frame top 2, c.regs (.r 0)), (frame top 1, c.regs (.r 1))] := by
    simp [switchHead, push, pop, mov, loadMultiple, storeMultiple, Cpu.set,
      Operand.reg, wordsFrom, restored, saved, updates_cons, mode, sp, next, same]
  calc switchHead c
      = { regs := (switchHead c).regs, mode := c.mode, mem := (switchHead c).mem } := rfl
    _ = _ := by rw [result, memory]

/-- What `switch_state` leaves. -/
theorem switchTail_eq (mode : c.mode = .mon) (sp : c.regs (.sp .mon) = frame top 4) :
    switchTail c =
      { c with
        regs := updates c.regs
          [(.r 2, c.mem (frame top 4)), (.r 3, c.mem (frame top 3)),
            (.r 0, c.mem (frame top 2)), (.r 1, c.mem (frame top 1)),
            (.sp .mon, frame top 2), (.pc, c.mem (frame top 4)),
            (.cpsr, c.mem (frame top 3))]
        mem := updates c.mem
          [(frame top 2, c.mem (frame top 4)), (frame top 1, c.mem (frame top 3))] } := by
  have third : frame top 4 + BitVec.ofNat 32 4 = frame top 3 := frame_succ top 3
  have second : frame top 4 + BitVec.ofNat 32 8 = frame top 2 := by
    unfold frame
    grind
  have first : frame top 2 + BitVec.ofNat 32 4 = frame top 1 := frame_succ top 1
  have back : frame top 2 + BitVec.ofNat 32 8 - BitVec.ofNat 32 8 = frame top 2 := by
    grind
  have apart : frame top 2 ≠ frame top 1 := fun same =>
    absurd (frame_inj (by decide) (by decide) same) (by decide)
  have result : (switchTail c).regs =
      updates c.regs
        [(.r 2, c.mem (frame top 4)), (.r 3, c.mem (frame top 3)),
          (.r 0, c.mem (frame top 2)), (.r 1, c.mem (frame top 1)),
          (.sp .mon, frame top 2), (.pc, c.mem (frame top 4)),
          (.cpsr, c.mem (frame top 3))] := by
    funext reg
    simp [switchTail, push, pop, rfefd, loadMultiple, storeMultiple, Cpu.set,
      Operand.reg, wordsFrom, restored, saved, updates_cons, mode, sp, third,
      second, first, back, apart, Function.update_apply]
    split_ifs <;> simp_all
  have memory : (switchTail c).mem =
      updates c.mem
        [(frame top 2, c.mem (frame top 4)), (frame top 1, c.mem (frame top 3))] := by
    simp [switchTail, push, pop, rfefd, loadMultiple, storeMultiple, Cpu.set,
      Operand.reg, wordsFrom, restored, saved, updates_cons, mode, sp, third,
      second, first, back]
  calc switchTail c
      = { regs := (switchTail c).regs, mode := c.mode, mem := (switchTail c).mem } := rfl
    _ = _ := by rw [result, memory]

/-- The live context goes to the words at `source`, and those at `target`
become live. -/
structure Exchanged (top source target scr : BitVec 32) (before after : Cpu) :
    Prop where
  saved : ∀ slot ∈ wordsFrom source contextRegs,
    after.mem slot.2 = before.regs slot.1
  restored : ∀ slot ∈ wordsFrom target contextRegs,
    after.regs slot.1 = before.mem slot.2
  mem : ∀ addr, Away addr (wordsFrom source contextRegs) →
    addr ≠ frame top 3 → addr ≠ frame top 4 → after.mem addr = before.mem addr
  address : after.mem (frame top 4) = after.regs (.r 2)
  status : after.mem (frame top 3) = after.regs (.r 1)
  scr : after.regs .scr = scr
  sp : after.regs (.sp .mon) = frame top 4
  mode : after.mode = .mon

theorem call_regs (mode : c.mode = .mon) (argument next : BitVec 32) :
    (bl next (c.set (.r 0) argument)).regs (.r 0) = argument ∧
      (bl next (c.set (.r 0) argument)).mode = .mon ∧
      ∀ reg ∉ [Reg.r 0, .lr .mon],
        (bl next (c.set (.r 0) argument)).regs reg = c.regs reg := by
  have inMonitor : (c.set (.r 0) argument).mode = .mon := mode
  refine ⟨?_, mode, ?_⟩
  · exact (regs_set_of_ne (by simp) _ _).trans (regs_set_self _ _ _)
  · intro reg outside
    simp only [List.mem_cons, List.not_mem_nil, or_false, not_or] at outside
    refine (regs_set_of_ne ?_ _ _).trans (regs_set_of_ne outside.1 _ _)
    rw [inMonitor]
    exact outside.2

theorem contextRegs_outside : ∀ reg ∈ contextRegs,
    reg ∉ [Reg.r 0, .r 3, .pc, .cpsr, .lr .mon, .sp .mon, .scr] := by
  decide

theorem exchanged {source target afterSave afterRestore : BitVec 32}
    (mode : c.mode = .mon) (sp : c.regs (.sp .mon) = frame top 2)
    (sourceAway : Away (frame top 3) (wordsFrom source contextRegs))
    (targetAway : Away (frame top 3) (wordsFrom target contextRegs))
    (sourceDeep : Away (frame top 4) (wordsFrom source contextRegs))
    (apart : ∀ slot ∈ wordsFrom target contextRegs,
      Away slot.2 (wordsFrom source contextRegs)) :
    Exchanged top source target (c.regs .scr) c
      (exchange source target afterSave afterRestore c) := by
  have call := call_regs mode source afterSave
  have memory : (bl afterSave (c.set (.r 0) source)).mem = c.mem := rfl
  unfold exchange
  generalize bl afterSave (c.set (.r 0) source) = d at call memory ⊢
  obtain ⟨base, inMonitor, others⟩ := call
  have saves := saveCall inMonitor ((others _ (by decide)).trans sp)
    (base.symm ▸ sourceAway)
  generalize monitorSaveState d = s at saves ⊢
  have again := call_regs saves.mode target afterRestore
  have memory' : (bl afterRestore (s.set (.r 0) target)).mem = s.mem := rfl
  generalize bl afterRestore (s.set (.r 0) target) = e at again memory' ⊢
  obtain ⟨base', inMonitor', others'⟩ := again
  have kept {reg : Reg} (outside : reg ∉ [Reg.r 0, .r 3, .pc, .lr .mon]) :
      e.regs reg = c.regs reg := by
    simp only [List.mem_cons, List.not_mem_nil, or_false, not_or] at outside
    rw [others' reg (by simp [outside]), saves.regs reg (by simp [outside]),
      others reg (by simp [outside])]
  have restores := restoreCall inMonitor' ((kept (by decide)).trans sp)
    (base'.symm ▸ targetAway)
  generalize monitorRestoreState e = t at restores ⊢
  have stored : e.mem =
      updates (Function.update c.mem (frame top 3) (d.regs (.lr .mon)))
        (saved (wordsFrom source contextRegs) d.regs) := by
    rw [memory', saves.mem, memory, base]
  have unsaved {addr : BitVec 32}
      (away : Away addr (wordsFrom source contextRegs))
      (notThird : addr ≠ frame top 3) : e.mem addr = c.mem addr := by
    rw [stored]
    refine (updates_saved_of_not_mem ?_ _ _).trans
      (Function.update_of_ne notThird _ _)
    intro member
    obtain ⟨slot, inside, same⟩ := List.mem_map.mp member
    exact away slot inside same
  refine ⟨?_, ?_, ?_, restores.address, restores.status, ?_, restores.sp,
    restores.mode⟩
  · intro slot member
    have named := fst_mem_of_wordsFrom member
    have outside := contextRegs_outside _ named
    simp only [List.mem_cons, List.not_mem_nil, or_false, not_or] at outside
    rw [restores.mem _ (sourceAway slot member) (sourceDeep slot member), stored,
      updates_saved (nodup_wordsFrom source (by decide)) member,
      others _ (by simp [outside])]
  · intro slot member
    rw [← base'] at member
    rw [restores.restored slot member]
    rw [base'] at member
    exact unsaved (apart slot member) (targetAway slot member)
  · intro addr away notThird notFourth
    rw [restores.mem addr notThird notFourth]
    exact unsaved away notThird
  · rw [restores.regs _ (by decide)]
    exact kept (by decide)

theorem regs_setScr (value : BitVec 32 → BitVec 32) {reg : Reg}
    (outside : reg ∉ [Reg.r 3, .scr]) : (setScr value c).regs reg = c.regs reg := by
  simp only [List.mem_cons, List.not_mem_nil, or_false, not_or] at outside
  simp [setScr, Cpu.set, outside]

theorem scr_setScr (value : BitVec 32 → BitVec 32) :
    (setScr value c).regs .scr = value (c.regs .scr) := by
  simp [setScr, Cpu.set]

section Scr

variable {source target scr : BitVec 32} {before after : Cpu}

theorem Exchanged.setScr_after (done : Exchanged top source target scr before after)
    (value : BitVec 32 → BitVec 32) :
    Exchanged top source target (value scr) before (setScr value after) where
  saved := done.saved
  restored := by
    intro slot member
    have named := fst_mem_of_wordsFrom member
    have outside := contextRegs_outside _ named
    simp only [List.mem_cons, List.not_mem_nil, or_false, not_or] at outside
    rw [regs_setScr value (by simp [outside])]
    exact done.restored slot member
  mem := done.mem
  address := done.address.trans (regs_setScr value (by decide)).symm
  status := done.status.trans (regs_setScr value (by decide)).symm
  scr := (scr_setScr value).trans (congrArg value done.scr)
  sp := (regs_setScr value (by decide)).trans done.sp
  mode := done.mode

theorem Exchanged.setScr_before {value : BitVec 32 → BitVec 32}
    (done : Exchanged top source target scr (setScr value before) after) :
    Exchanged top source target scr before after where
  saved := by
    intro slot member
    have named := fst_mem_of_wordsFrom member
    have outside := contextRegs_outside _ named
    simp only [List.mem_cons, List.not_mem_nil, or_false, not_or] at outside
    rw [done.saved slot member, regs_setScr value (by simp [outside])]
  restored := done.restored
  mem := done.mem
  address := done.address
  status := done.status
  scr := done.scr
  sp := done.sp
  mode := done.mode

end Scr

section Whole

variable {world : World}

/-- What is between the head and the tail, on the way out of `world`. -/
def switchMiddle (link : Link) : World → Cpu → Cpu
  | .secure, c =>
      setScr (· ||| scrNsWord)
        (exchange link.secState link.nsecState link.savedSec link.restoredNsec c)
  | .nonsecure, c =>
      exchange link.nsecState link.secState link.savedNsec link.restoredSec
        (setScr (· &&& ~~~scrNsWord) c)

theorem monitorSwitch_parts (link : Link) (c : Cpu) :
    monitorSwitch link c =
      switchTail
        (if (switchHead c).regs (.r 3) = 0 then
          switchMiddle link .secure (switchHead c)
        else
          switchMiddle link .nonsecure (switchHead c)) :=
  rfl

theorem monitorSwitch_eq (mode : c.mode = .mon)
    (sp : c.regs (.sp .mon) = frame top 2)
    (ns : @Word.nsBit .arm (c.regs .scr) = world.ns) :
    monitorSwitch link c = switchTail (switchMiddle link world (switchHead c)) := by
  have tested : (switchHead c).regs (.r 3) = c.regs .scr &&& 1 := by
    rw [switchHead_eq mode sp]
    simp [updates_cons]
  have zero := @Word.and_scrNs_eq_zero_iff .arm (c.regs .scr)
  rw [monitorSwitch_parts, tested]
  cases world with
  | secure =>
      have clear : c.regs .scr &&& 1 = 0 := zero.mpr ns
      rw [if_pos clear]
  | nonsecure =>
      have set : ¬c.regs .scr &&& 1 = 0 := by
        intro clear
        exact absurd (ns.symm.trans (zero.mp clear)) (by decide)
      rw [if_neg set]

theorem mem_slots {base : BitVec 32} {slot : Reg × BitVec 32}
    (member : slot ∈ wordsFrom base contextRegs) :
    (returnName slot.1, slot.2) ∈ wordsFrom base contextNames := by
  rw [contextNames, wordsFrom_map]
  exact List.mem_map.mpr ⟨slot, member, rfl⟩

theorem away_frame (layout : Layout link top) (side : World) {depth : Nat}
    (shallow : depth < 7) :
    Away (frame top depth) (wordsFrom (link.state side) contextRegs) := by
  intro slot member
  have different := @Layout.stack_slots _ _ layout side _ (mem_slots member) _ shallow
  exact different

theorem away_other (layout : Layout link top) (side : World) :
    ∀ slot ∈ wordsFrom (link.state side.other) contextRegs,
      Away slot.2 (wordsFrom (link.state side) contextRegs) := by
  intro slot member other inside
  have different := layout.apart_slots side (mem_slots inside) (mem_slots member)
  exact different

theorem switchMiddle_exchanged (layout : Layout link top) (mode : c.mode = .mon)
    (sp : c.regs (.sp .mon) = frame top 2)
    (ns : @Word.nsBit .arm (c.regs .scr) = world.ns) :
    Exchanged top (link.state world) (link.state world.other)
      (@Sys.switchScr .arm (c.regs .scr)) c (switchMiddle link world c) := by
  have zero := @Word.and_scrNs_eq_zero_iff .arm (c.regs .scr)
  cases world with
  | secure =>
      have clear : c.regs .scr &&& 1 = 0 := zero.mpr ns
      have scr : @Sys.switchScr .arm (c.regs .scr) = c.regs .scr ||| scrNsWord :=
        if_pos clear
      have done : Exchanged top link.secState link.nsecState (c.regs .scr) c
          (exchange link.secState link.nsecState link.savedSec
            link.restoredNsec c) :=
        exchanged mode sp (away_frame layout .secure (by decide))
          (away_frame layout .nonsecure (by decide))
          (away_frame layout .secure (by decide)) (away_other layout .secure)
      rw [scr]
      exact done.setScr_after (· ||| scrNsWord)
  | nonsecure =>
      have set : ¬c.regs .scr &&& 1 = 0 := by
        intro clear
        exact absurd (ns.symm.trans (zero.mp clear)) (by decide)
      have scr : @Sys.switchScr .arm (c.regs .scr) = c.regs .scr &&& ~~~scrNsWord :=
        if_neg set
      have sp' : (setScr (· &&& ~~~scrNsWord) c).regs (.sp .mon) = frame top 2 :=
        (regs_setScr _ (by decide)).trans sp
      have written : (setScr (· &&& ~~~scrNsWord) c).regs .scr =
          c.regs .scr &&& ~~~scrNsWord := scr_setScr _
      have mode' : (setScr (· &&& ~~~scrNsWord) c).mode = .mon := mode
      rw [scr, ← written]
      apply Exchanged.setScr_before
      exact exchanged mode' sp' (away_frame layout .nonsecure (by decide))
        (away_frame layout .secure (by decide))
        (away_frame layout .nonsecure (by decide))
        (away_other layout .nonsecure)

theorem exists_slot {base : BitVec 32} {slot : Reg × BitVec 32}
    (member : slot ∈ wordsFrom base contextNames) :
    ∃ source ∈ wordsFrom base contextRegs,
      slot = (returnName source.1, source.2) := by
  rw [contextNames, wordsFrom_map] at member
  obtain ⟨source, inside, same⟩ := List.mem_map.mp member
  exact ⟨source, inside, same.symm⟩

/-- The registers of the context are those of the processor, the return address
and status excepted. -/
theorem returnName_cases {reg : Reg} (member : reg ∈ contextRegs) :
    reg = .r 1 ∨ reg = .r 2 ∨
      (returnName reg = reg ∧
        reg ∉ [Reg.r 0, .r 1, .r 2, .r 3, .pc, .cpsr, .sp .mon]) := by
  have all : ∀ reg ∈ contextRegs, reg = .r 1 ∨ reg = .r 2 ∨
      (returnName reg = reg ∧
        reg ∉ [Reg.r 0, .r 1, .r 2, .r 3, .pc, .cpsr, .sp .mon]) := by
    decide
  exact all reg member

theorem context_of_ne {reg : Reg} (notPc : reg ≠ .pc) (notCpsr : reg ≠ .cpsr) :
    context c reg = c.regs reg := by
  cases reg <;> first | rfl | contradiction

theorem monitorSwitch_switched (layout : Layout link top) (mode : c.mode = .mon)
    (sp : c.regs (.sp .mon) = frame top 2)
    (ns : @Word.nsBit .arm (c.regs .scr) = world.ns) :
    Switched link world c (monitorSwitch link c) := by
  have head := switchHead_eq mode sp
  have headScr : (switchHead c).regs .scr = c.regs .scr := by
    rw [head]
    simp [updates_cons]
  have headSp : (switchHead c).regs (.sp .mon) = frame top 2 := by
    rw [head, ← sp]
    simp [updates_cons]
  have headMode : (switchHead c).mode = .mon := by
    rw [head]
    exact mode
  have headMem {addr : BitVec 32} (notSecond : addr ≠ frame top 2)
      (notFirst : addr ≠ frame top 1) : (switchHead c).mem addr = c.mem addr := by
    rw [head]
    apply updates_of_not_mem
    simp [notSecond, notFirst]
  have done := @switchMiddle_exchanged _ _ _ world layout headMode headSp
    (headScr.symm ▸ ns)
  rw [headScr] at done
  rw [monitorSwitch_eq mode sp ns]
  generalize switchMiddle link world (switchHead c) = t at done
  have tail := switchTail_eq done.mode done.sp
  have tailRegs {reg : Reg} (outside :
      reg ∉ [Reg.r 2, .r 3, .r 0, .r 1, .sp .mon, .pc, .cpsr]) :
      (switchTail t).regs reg = t.regs reg := by
    rw [tail]
    apply updates_of_not_mem
    exact outside
  have tailMem {addr : BitVec 32} (notSecond : addr ≠ frame top 2)
      (notFirst : addr ≠ frame top 1) : (switchTail t).mem addr = t.mem addr := by
    rw [tail]
    apply updates_of_not_mem
    simp [notSecond, notFirst]
  have different : frame top 2 ≠ frame top 1 ∧ frame top 2 ≠ frame top 3 ∧
      frame top 2 ≠ frame top 4 := by
    refine ⟨?_, ?_, ?_⟩ <;>
      exact fun same => absurd (frame_inj (by decide) (by decide) same) (by decide)
  constructor
  · intro slot member
    obtain ⟨source, inside, rfl⟩ := exists_slot member
    have named := fst_mem_of_wordsFrom inside
    dsimp only
    rw [tailMem (away_frame layout world (by decide) source inside)
      (away_frame layout world (by decide) source inside), done.saved source inside,
      head]
    rcases returnName_cases named with first | second | ⟨same, outside⟩
    · rw [first]
      simp only [returnName, context, sp]
      rw [show frame top 2 + 4 = frame top 1 from frame_succ top 1]
      simp [updates_cons]
    · rw [second]
      simp only [returnName, context, sp]
      simp [updates_cons]
    · simp only [List.mem_cons, List.not_mem_nil, or_false, not_or] at outside
      rw [same, context_of_ne outside.2.2.2.2.1 outside.2.2.2.2.2.1]
      apply updates_of_not_mem
      simp [outside]
  · intro slot member
    obtain ⟨source, inside, rfl⟩ := exists_slot member
    have frames {depth : Nat} (shallow : depth < 7) : source.2 ≠ frame top depth :=
      away_frame layout world.other shallow source inside
    dsimp only
    rw [tailMem (frames (by decide)) (frames (by decide)),
      done.mem _ (away_other layout world source inside) (frames (by decide))
        (frames (by decide)),
      headMem (frames (by decide)) (frames (by decide))]
  · intro slot member
    obtain ⟨source, inside, rfl⟩ := exists_slot member
    have named := fst_mem_of_wordsFrom inside
    have frames {depth : Nat} (shallow : depth < 7) : source.2 ≠ frame top depth :=
      away_frame layout world.other shallow source inside
    dsimp only
    rw [← headMem (frames (by decide)) (frames (by decide)),
      ← done.restored source inside]
    rcases returnName_cases named with first | second | ⟨same, outside⟩
    · rw [first, ← done.status, tail]
      simp [returnName, updates_cons]
    · rw [second, ← done.address, tail]
      simp [returnName, updates_cons]
    · rw [same]
      apply tailRegs
      simp only [List.mem_cons, List.not_mem_nil, or_false, not_or] at outside ⊢
      tauto
  · have kept := done.mem (frame top 2)
      (fun slot member => away_frame layout world (by decide) slot member)
      different.2.1 different.2.2
    rw [tail]
    simp only [updates_cons, updates_nil]
    simp [kept, head, updates_cons, different.1]
  · rw [tailRegs (by decide), done.scr]
  · rw [tail, sp]
    simp [updates_cons]

end Whole

end Parts

end TzTest.Arm
