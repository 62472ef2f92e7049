import TzTest.Monitor.ArmVector

/-!
# The ARM state buffers before the first SMC

`state_buf` of `el3_monitor.h`, `el3_monitor_init`, and the end of `el3_start`,
which leaves monitor mode for the secure world.
-/

namespace TzTest.Arm

open Cpu Slots

/-- The fields of `state_buf`. -/
inductive StateField where
  | spEl0
  | elrEl0
  | spsrIrq
  | spIrq
  | elrIrq
  | spsrEl1
  | spEl1
  | elrEl1
  | spsrAbt
  | spAbt
  | elrAbt
  | spsrUnd
  | spUnd
  | elrUnd
  | spsrEl3
  | elrEl3
  | reg (index : Fin 9)
  deriving DecidableEq, Repr

namespace StateField

/-- The fields in the order of the structure, which are a word each. -/
def stateBuf : List StateField :=
  [spEl0, elrEl0, spsrIrq, spIrq, elrIrq, spsrEl1, spEl1, elrEl1, spsrAbt, spAbt,
    elrAbt, spsrUnd, spUnd, elrUnd, spsrEl3, elrEl3] ++
  (List.finRange 9).map reg

def word (field : StateField) : Nat :=
  stateBuf.idxOf field

/-- What the field is for; `reg[0]` stands for `r4`. -/
def contextName : StateField → Reg
  | spEl0 => .sp .sys
  | elrEl0 => .lr .sys
  | spsrIrq => .spsr .irq
  | spIrq => .sp .irq
  | elrIrq => .lr .irq
  | spsrEl1 => .spsr .svc
  | spEl1 => .sp .svc
  | elrEl1 => .lr .svc
  | spsrAbt => .spsr .abt
  | spAbt => .sp .abt
  | elrAbt => .lr .abt
  | spsrUnd => .spsr .und
  | spUnd => .sp .und
  | elrUnd => .lr .und
  | spsrEl3 => .cpsr
  | elrEl3 => .pc
  | reg index => .r ⟨index + 4, by omega⟩

end StateField

open StateField

theorem contextNames_stateBuf : contextNames = stateBuf.map contextName := by
  rfl

/-- `EL1_S_FLASH_BASE` -/
def el1SFlashBase : BitVec 32 := 0x10000
/-- `EL1_NS_FLASH_BASE` -/
def el1NsFlashBase : BitVec 32 := 0x20000
/-- `SPSR_EL1`, which is `CPSR_M_SVC` -/
def spsrEl1 : BitVec 32 := 0x13

/-- `memset` of a whole state buffer. -/
def memset (base : BitVec 32) (mem : BitVec 32 → BitVec 32) :
    BitVec 32 → BitVec 32 :=
  updates mem
    ((List.range stateWords).map fun word => (base + BitVec.ofNat 32 (4 * word), 0))

/-- Where a field of the buffer is. -/
def fieldAt (base : BitVec 32) (field : StateField) : BitVec 32 :=
  base + BitVec.ofNat 32 (4 * field.word)

def el3MonitorInit (link : Link) (syscntlPa : BitVec 32) (c : Cpu) : Cpu :=
  let c := { c with mem := memset link.secState c.mem }
  let c := { c with mem := memset link.nsecState c.mem }
  let c := c.store (fieldAt link.secState (.reg 0)) syscntlPa
  let c := c.store (fieldAt link.nsecState .elrEl3) el1NsFlashBase
  let c := c.store (fieldAt link.nsecState .spsrEl3) spsrEl1
  c.store (fieldAt link.nsecState (.reg 0)) syscntlPa

/-- The last three calls of `el3_start`, with the `rfefd sp!` that ends them. -/
def el3Start (link : Link) (syscntlPa : BitVec 32) (c : Cpu) : Cpu :=
  let c := el3MonitorInit link syscntlPa c
  let c := monitorRestoreState (c.set (.r 0) link.secState)
  -- `__exception_return`
  let c := (c.set (.r 0) el1SFlashBase).set (.r 1) spsrEl1
  rfefdWriteback (push [.r 0, .r 1] c)

/-- What `el3_monitor_init` puts into the slot of a register. -/
def initial (syscntlPa : BitVec 32) (world : World) (reg : Reg) : BitVec 32 :=
  if reg = .r 4 then syscntlPa
  else if world = .nonsecure ∧ reg = .pc then el1NsFlashBase
  else if world = .nonsecure ∧ reg = .cpsr then spsrEl1
  else 0

theorem word_field :
    word (.reg 0) = 16 ∧ word .elrEl3 = 15 ∧ word .spsrEl3 = 14 := by
  decide

theorem exists_index {base : BitVec 32} {list : List Reg} {slot : Reg × BitVec 32}
    (member : slot ∈ wordsFrom base list) :
    ∃ word, list[word]? = some slot.1 ∧
      slot.2 = base + BitVec.ofNat 32 (4 * word) := by
  induction list generalizing base with
  | nil => cases member
  | cons reg rest induction =>
      rcases List.mem_cons.mp member with rfl | later
      · exact ⟨0, rfl, (BitVec.add_zero base).symm⟩
      · obtain ⟨word, named, place⟩ := induction later
        refine ⟨word + 1, named, ?_⟩
        rw [place, Nat.mul_succ, Nat.add_comm, BitVec.ofNat_add, BitVec.add_assoc]
        rfl

theorem contextNames_named {word : Nat} {reg : Reg}
    (named : contextNames[word]? = some reg) :
    word < stateWords ∧ (word = 16 ↔ reg = .r 4) ∧ (word = 15 ↔ reg = .pc) ∧
      (word = 14 ↔ reg = .cpsr) := by
  obtain ⟨below, rfl⟩ := List.getElem?_eq_some_iff.mp named
  have short := length_contextNames ▸ below
  have all : ∀ word, ∀ below : word < contextNames.length,
      (word = 16 ↔ contextNames[word] = .r 4) ∧
        (word = 15 ↔ contextNames[word] = .pc) ∧
        (word = 14 ↔ contextNames[word] = .cpsr) := by
    decide
  exact ⟨short, all word below⟩

section Init

variable {link : Link} {sp : BitVec 32}

theorem word_inj {base : BitVec 32} {left right : Nat} (leftBelow : left < stateWords)
    (rightBelow : right < stateWords) :
    base + BitVec.ofNat 32 (4 * left) = base + BitVec.ofNat 32 (4 * right) ↔
      left = right := by
  unfold stateWords at leftBelow rightBelow
  constructor
  · intro same
    have words := (BitVec.add_right_inj _).mp same
    have numbers := congrArg BitVec.toNat words
    rw [BitVec.toNat_ofNat, BitVec.toNat_ofNat, Nat.mod_eq_of_lt (by omega),
      Nat.mod_eq_of_lt (by omega)] at numbers
    omega
  · rintro rfl
    rfl

theorem memset_word (base : BitVec 32) (mem : BitVec 32 → BitVec 32) {word : Nat}
    (below : word < stateWords) :
    memset base mem (base + BitVec.ofNat 32 (4 * word)) = 0 := by
  apply updates_of_mem
  · rw [List.map_map]
    apply List.Nodup.map_on _ List.nodup_range
    intro left leftMember right rightMember same
    exact (word_inj (List.mem_range.mp leftMember)
      (List.mem_range.mp rightMember)).mp same
  · exact List.mem_map.mpr ⟨word, List.mem_range.mpr below, rfl⟩

theorem memset_of_apart {base addr : BitVec 32} (mem : BitVec 32 → BitVec 32)
    (apart : ∀ word < stateWords, base + BitVec.ofNat 32 (4 * word) ≠ addr) :
    memset base mem addr = mem addr := by
  apply updates_of_not_mem
  rw [List.map_map]
  intro member
  obtain ⟨word, below, place⟩ := List.mem_map.mp member
  exact apart word (List.mem_range.mp below) place

theorem el3MonitorInit_slot (layout : Layout link sp) (syscntlPa : BitVec 32)
    (c : Cpu) (world : World) {slot : Reg × BitVec 32}
    (member : slot ∈ link.slots world) :
    (el3MonitorInit link syscntlPa c).mem slot.2 =
      initial syscntlPa world slot.1 := by
  obtain ⟨word, found, place⟩ := exists_index member
  obtain ⟨below, isR4, isPc, isCpsr⟩ := contextNames_named found
  obtain ⟨r4Word, elrWord, spsrWord⟩ := word_field
  rw [place]
  simp only [el3MonitorInit, store, fieldAt, r4Word, elrWord, spsrWord, initial,
    Function.update_apply, ← isR4, ← isPc, ← isCpsr]
  have named {base : BitVec 32} (field : Nat) (inBuffer : field < stateWords) :
      base + BitVec.ofNat 32 (4 * word) = base + BitVec.ofNat 32 (4 * field) ↔
        word = field :=
    word_inj below inBuffer
  cases world with
  | secure =>
      have other (field : Nat) (inBuffer : field < stateWords) :
          link.secState + BitVec.ofNat 32 (4 * word) ≠
            link.nsecState + BitVec.ofNat 32 (4 * field) :=
        layout.apart word below field inBuffer
      have cleared := memset_word link.secState c.mem below
      have kept := memset_of_apart (memset link.secState c.mem)
        fun field inBuffer => (other field inBuffer).symm
      simp only [Link.state, named 16 (by decide), other 16 (by decide),
        other 15 (by decide), other 14 (by decide), kept, cleared, if_false,
        reduceCtorEq, false_and]
  | nonsecure =>
      have other (field : Nat) (inBuffer : field < stateWords) :
          link.nsecState + BitVec.ofNat 32 (4 * word) ≠
            link.secState + BitVec.ofNat 32 (4 * field) :=
        (layout.apart field inBuffer word below).symm
      have cleared := memset_word link.nsecState (memset link.secState c.mem) below
      simp only [Link.state, named 16 (by decide), named 15 (by decide),
        named 14 (by decide), other 16 (by decide), cleared, if_false, true_and]
      split_ifs <;> first | rfl | omega

/-- The secure world starts with both buffers filled and the secure
configuration register of `el3_start`.  The two words that
`monitor_restore_state` leaves on the stack stay there. -/
structure Starts (link : Link) (syscntlPa : BitVec 32) (c started : Cpu) : Prop where
  buffers : ∀ world, ∀ slot ∈ link.slots world,
    started.mem slot.2 = initial syscntlPa world slot.1
  scr : started.regs .scr = c.regs .scr
  sp : started.regs (.sp .mon) = frame (c.regs (.sp .mon)) 2

theorem frame_add_eight (sp : BitVec 32) (depth : Nat) :
    frame (sp + 8) (depth + 2) = frame sp depth := by
  have words : BitVec.ofNat 32 (4 * (depth + 2)) = BitVec.ofNat 32 (4 * depth) + 8 := by
    rw [Nat.mul_add, BitVec.ofNat_add]
    rfl
  unfold frame
  rw [words]
  grind

theorem el3Start_starts {c : Cpu} (layout : Layout link (c.regs (.sp .mon)))
    (mode : c.mode = .mon) (syscntlPa : BitVec 32) :
    Starts link syscntlPa c (el3Start link syscntlPa c) := by
  have slots := @el3MonitorInit_slot link _ layout syscntlPa c
  have sameRegs : (el3MonitorInit link syscntlPa c).regs = c.regs := rfl
  have sameMode : (el3MonitorInit link syscntlPa c).mode = .mon := mode
  have parts : el3Start link syscntlPa c =
      rfefdWriteback (push [.r 0, .r 1]
        (((monitorRestoreState ((el3MonitorInit link syscntlPa c).set (.r 0)
          link.secState)).set (.r 0) el1SFlashBase).set (.r 1) spsrEl1)) :=
    rfl
  rw [parts]
  generalize el3MonitorInit link syscntlPa c = d at slots sameRegs sameMode ⊢
  have frames (depth : Nat) := frame_add_eight (c.regs (.sp .mon)) depth
  have sp : (d.set (.r 0) link.secState).regs (.sp .mon) =
      frame (c.regs (.sp .mon) + 8) 2 := by
    rw [frames 0, frame_zero, regs_set_of_ne (by decide), sameRegs]
  have base : (d.set (.r 0) link.secState).regs (.r 0) = link.secState :=
    regs_set_self _ _ _
  have away : Away (frame (c.regs (.sp .mon) + 8) 3)
      (wordsFrom ((d.set (.r 0) link.secState).regs (.r 0)) contextRegs) := by
    rw [frames 1, base]
    exact away_frame layout .secure (by decide)
  have restored := @restoreCall (d.set (.r 0) link.secState) _ sameMode sp away
  have scr : (d.set (.r 0) link.secState).regs .scr = c.regs .scr := by
    rw [regs_set_of_ne (by decide), sameRegs]
  generalize monitorRestoreState (d.set (.r 0) link.secState) = t at restored ⊢
  have pointer := restored.sp
  rw [frames 2] at pointer
  have down : frame (c.regs (.sp .mon)) 2 - BitVec.ofNat 32 8 =
      frame (c.regs (.sp .mon)) 4 := by
    unfold frame
    grind
  have up : frame (c.regs (.sp .mon)) 4 + BitVec.ofNat 32 8 =
      frame (c.regs (.sp .mon)) 2 := by
    unfold frame
    grind
  have next : frame (c.regs (.sp .mon)) 4 + BitVec.ofNat 32 4 =
      frame (c.regs (.sp .mon)) 3 := frame_succ _ 3
  constructor
  · intro world slot member
    have written : (rfefdWriteback (push [.r 0, .r 1]
        ((t.set (.r 0) el1SFlashBase).set (.r 1) spsrEl1))).mem =
        updates t.mem [(frame (c.regs (.sp .mon)) 4, el1SFlashBase),
          (frame (c.regs (.sp .mon)) 3, spsrEl1)] := by
      simp [rfefdWriteback, push, storeMultiple, Cpu.set, Operand.reg, wordsFrom,
        saved, updates_cons, restored.mode, pointer, down, next]
    have apart {depth : Nat} (shallow : depth < 7) :
        slot.2 ≠ frame (c.regs (.sp .mon)) depth :=
      layout.stack_slots member shallow
    rw [written, ← slots world member]
    refine (updates_of_not_mem ?_ _).trans ?_
    · simp [apart (by decide : 3 < 7), apart (by decide : 4 < 7)]
    · have first := apart (by decide : 1 < 7)
      have second := apart (by decide : 2 < 7)
      rw [← frames 1] at first
      rw [← frames 2] at second
      exact restored.mem slot.2 first second
  · have untouched := (restored.regs .scr (by decide)).trans scr
    simp [rfefdWriteback, push, storeMultiple, Cpu.set, restored.mode, untouched]
  · simp [rfefdWriteback, push, storeMultiple, Cpu.set, restored.mode, pointer,
      down, up]

end Init

end TzTest.Arm
