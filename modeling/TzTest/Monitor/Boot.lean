import TzTest.Monitor.Vector

/-!
# The state buffers before the first SMC

`state_buf` of `el3_monitor.h`, `el3_monitor_init`, and the end of `el3_start`,
which leaves EL3 for the secure world.
-/

namespace TzTest.Aarch64

open Cpu Slots

/-- The fields of `state_buf`. -/
inductive StateField where
  | elrEl3
  | spsrEl3
  | elrEl1
  | spsrEl1
  | esrEl1
  | spEl1
  | spsel
  | spEl0
  | spsrAbt
  | spsrUnd
  | spsrIrq
  | spsrFiq
  | sctlrEl1
  | actlrEl1
  | cpacrEl1
  | csselrEl1
  | ttbr0El1
  | ttbr1El1
  | tcrEl1
  | vbarEl1
  | mairEl1
  | amairEl1
  | tpidrEl0
  | tpidrEl1
  | tpidrroEl0
  | contextidrEl1
  | parEl1
  | farEl1
  | afsr0El1
  | afsr1El1
  | reg (index : Fin 27)
  deriving DecidableEq, Repr

namespace StateField

/-- The fields in the order of the structure, which are a double word each. -/
def stateBuf : List StateField :=
  [elrEl3, spsrEl3, elrEl1, spsrEl1, esrEl1, spEl1, spsel, spEl0, spsrAbt,
    spsrUnd, spsrIrq, spsrFiq, sctlrEl1, actlrEl1, cpacrEl1, csselrEl1, ttbr0El1,
    ttbr1El1, tcrEl1, vbarEl1, mairEl1, amairEl1, tpidrEl0, tpidrEl1, tpidrroEl0,
    contextidrEl1, parEl1, farEl1, afsr0El1, afsr1El1] ++
  (List.finRange 27).map reg

def word (field : StateField) : Nat :=
  stateBuf.idxOf field

/-- The register with the field's name; `reg[0]` stands for `x4`.  The macros
leave eight of the fields alone. -/
def reg? : StateField → Option Reg
  | elrEl3 => some .elrEl3
  | spsrEl3 => some .spsrEl3
  | elrEl1 => some .elrEl1
  | spsrEl1 => some .spsrEl1
  | esrEl1 => some .esrEl1
  | spEl1 => some .spEl1
  | spsel => some .spsel
  | spEl0 => some .spEl0
  | sctlrEl1 => some .sctlrEl1
  | actlrEl1 => some .actlrEl1
  | cpacrEl1 => some .cpacrEl1
  | csselrEl1 => some .csselrEl1
  | ttbr0El1 => some .ttbr0El1
  | ttbr1El1 => some .ttbr1El1
  | tcrEl1 => some .tcrEl1
  | vbarEl1 => some .vbarEl1
  | mairEl1 => some .mairEl1
  | amairEl1 => some .amairEl1
  | tpidrEl0 => some .tpidrEl0
  | tpidrEl1 => some .tpidrEl1
  | tpidrroEl0 => some .tpidrroEl0
  | contextidrEl1 => some .contextidrEl1
  | reg index => some (.x ⟨index + 4, by omega⟩)
  | _ => none

end StateField

open StateField

theorem saveList_stateBuf :
    saveList =
      stateBuf.zipIdx.filterMap fun field =>
        field.1.reg?.map fun reg => (reg, 8 * field.2) := by
  rfl

/-- `EL1_S_FLASH_BASE` -/
def el1SFlashBase : BitVec 64 := 0x10000
/-- `EL1_NS_FLASH_BASE` -/
def el1NsFlashBase : BitVec 64 := 0x20000
/-- `SPSR_EL1` -/
def spsrEl1 : BitVec 64 := 0x05

/-- `memset` of a whole state buffer. -/
def memset (base : BitVec 64) (mem : BitVec 64 → BitVec 64) :
    BitVec 64 → BitVec 64 :=
  updates mem
    ((List.range stateWords).map fun word => (base + BitVec.ofNat 64 (8 * word), 0))

/-- Where a field of the buffer is. -/
def fieldAt (base : BitVec 64) (field : StateField) : BitVec 64 :=
  base + BitVec.ofNat 64 (8 * field.word)

def el3MonitorInit (buffers : Buffers) (syscntlPa : BitVec 64) (c : Cpu) : Cpu :=
  let c := { c with mem := memset buffers.secState c.mem }
  let c := { c with mem := memset buffers.nsecState c.mem }
  let c := c.store (fieldAt buffers.secState .spsel) 0x1
  let c := c.store (fieldAt buffers.secState (.reg 0)) syscntlPa
  let c := c.store (fieldAt buffers.nsecState .elrEl3) el1NsFlashBase
  let c := c.store (fieldAt buffers.nsecState .spsrEl3) spsrEl1
  let c := c.store (fieldAt buffers.nsecState .spsel) 0x1
  c.store (fieldAt buffers.nsecState (.reg 0)) syscntlPa

/-- The function `monitor_restore_state`. -/
def monitorRestoreStateCall (c : Cpu) : Cpu :=
  ldrPop (.x 30) (monitorRestoreState (strPush (.x 30) c))

/-- The last three calls of `el3_start`, up to the `eret`. -/
def el3Start (buffers : Buffers) (syscntlPa : BitVec 64) (c : Cpu) : Cpu :=
  let c := el3MonitorInit buffers syscntlPa c
  let c := monitorRestoreStateCall (c.set (.x 0) buffers.secState)
  -- `__exception_return` at EL3
  let c := (c.set (.x 0) el1SFlashBase).set (.x 1) spsrEl1
  mov .spsrEl3 (.x 1) (mov .elrEl3 (.x 0) (c.set (.x 7) 0xC))

/-- What `el3_monitor_init` puts into the slot of a register. -/
def initial (syscntlPa : BitVec 64) (world : World) (reg : Reg) : BitVec 64 :=
  if reg = .spsel then 1
  else if reg = .x 4 then syscntlPa
  else if world = .nonsecure ∧ reg = .elrEl3 then el1NsFlashBase
  else if world = .nonsecure ∧ reg = .spsrEl3 then spsrEl1
  else 0

theorem word_field :
    word .spsel = 6 ∧ word (.reg 0) = 30 ∧ word .elrEl3 = 0 ∧
      word .spsrEl3 = 1 := by
  decide

theorem saveList_named : ∀ slot ∈ saveList,
    (slot.2 / 8 = 6 ↔ slot.1 = .spsel) ∧ (slot.2 / 8 = 30 ↔ slot.1 = .x 4) ∧
      (slot.2 / 8 = 0 ↔ slot.1 = .elrEl3) ∧
      (slot.2 / 8 = 1 ↔ slot.1 = .spsrEl3) := by
  decide

section Init

variable {buffers : Buffers} {sp : BitVec 64}

theorem word_inj {base : BitVec 64} {left right : Nat} (leftBelow : left < stateWords)
    (rightBelow : right < stateWords) :
    base + BitVec.ofNat 64 (8 * left) = base + BitVec.ofNat 64 (8 * right) ↔
      left = right := by
  unfold stateWords at leftBelow rightBelow
  constructor
  · intro same
    have words := (BitVec.add_right_inj _).mp same
    have numbers := congrArg BitVec.toNat words
    rw [BitVec.toNat_ofNat, BitVec.toNat_ofNat, Nat.mod_eq_of_lt (by omega),
      Nat.mod_eq_of_lt (by omega)] at numbers
    omega
  · rintro rfl
    rfl

theorem memset_word (base : BitVec 64) (mem : BitVec 64 → BitVec 64) {word : Nat}
    (below : word < stateWords) :
    memset base mem (base + BitVec.ofNat 64 (8 * word)) = 0 := by
  apply updates_of_mem
  · rw [List.map_map]
    apply List.Nodup.map_on _ List.nodup_range
    intro left leftMember right rightMember same
    exact (word_inj (List.mem_range.mp leftMember)
      (List.mem_range.mp rightMember)).mp same
  · exact List.mem_map.mpr ⟨word, List.mem_range.mpr below, rfl⟩

theorem memset_of_apart {base addr : BitVec 64} (mem : BitVec 64 → BitVec 64)
    (apart : ∀ word < stateWords, base + BitVec.ofNat 64 (8 * word) ≠ addr) :
    memset base mem addr = mem addr := by
  apply updates_of_not_mem
  rw [List.map_map]
  intro member
  obtain ⟨word, below, place⟩ := List.mem_map.mp member
  exact apart word (List.mem_range.mp below) place

theorem el3MonitorInit_slot (layout : Layout buffers sp) (syscntlPa : BitVec 64)
    (c : Cpu) (world : World) {slot : Reg × BitVec 64}
    (member : slot ∈ buffers.slots world) :
    (el3MonitorInit buffers syscntlPa c).mem slot.2 =
      initial syscntlPa world slot.1 := by
  obtain ⟨source, inside, rfl⟩ := List.mem_map.mp member
  obtain ⟨aligned, below⟩ := saveList_words source inside
  obtain ⟨isSpsel, isX4, isElr, isSpsr⟩ := saveList_named source inside
  obtain ⟨spselWord, x4Word, elrWord, spsrWord⟩ := word_field
  have whole : 8 * (source.2 / 8) = source.2 := by omega
  simp only [el3MonitorInit, store, fieldAt, spselWord, x4Word, elrWord, spsrWord,
    initial, Function.update_apply]
  rw [← whole]
  simp only [← isSpsel, ← isX4, ← isElr, ← isSpsr]
  generalize source.2 / 8 = word at below
  have named {base : BitVec 64} (field : Nat) (inBuffer : field < stateWords) :
      base + BitVec.ofNat 64 (8 * word) = base + BitVec.ofNat 64 (8 * field) ↔
        word = field :=
    word_inj below inBuffer
  cases world with
  | secure =>
      have other (field : Nat) (inBuffer : field < stateWords) :
          buffers.secState + BitVec.ofNat 64 (8 * word) ≠
            buffers.nsecState + BitVec.ofNat 64 (8 * field) :=
        layout.apart word below field inBuffer
      have cleared := memset_word buffers.secState c.mem below
      have kept := memset_of_apart (memset buffers.secState c.mem)
        fun field inBuffer => (other field inBuffer).symm
      simp only [Buffers.state, named 6 (by decide), named 30 (by decide),
        other 30 (by decide), other 6 (by decide), other 1 (by decide),
        other 0 (by decide), kept, cleared, if_false, reduceCtorEq, false_and]
      split_ifs <;> first | rfl | omega
  | nonsecure =>
      have other (field : Nat) (inBuffer : field < stateWords) :
          buffers.nsecState + BitVec.ofNat 64 (8 * word) ≠
            buffers.secState + BitVec.ofNat 64 (8 * field) :=
        (layout.apart field inBuffer word below).symm
      have cleared := memset_word buffers.nsecState
        (memset buffers.secState c.mem) below
      simp only [Buffers.state, named 6 (by decide), named 30 (by decide),
        named 1 (by decide), named 0 (by decide), other 30 (by decide),
        other 6 (by decide), cleared, if_false, true_and]
      split_ifs <;> first | rfl | omega

/-- The secure world starts with the stack pointer, the selection of it and the
secure configuration register of `el3_start`. -/
structure Starts (buffers : Buffers) (syscntlPa : BitVec 64) (c started : Cpu) :
    Prop where
  buffers : ∀ world, ∀ slot ∈ buffers.slots world,
    started.mem slot.2 = initial syscntlPa world slot.1
  kept : ∀ reg ∈ [Reg.spEl3, .scrEl3], started.regs reg = c.regs reg
  selects : started.regs .spsel = 1

theorem el3Start_starts {c : Cpu} (layout : Layout buffers (c.regs .spEl3))
    (onEl3 : c.regs .spsel = 1) (syscntlPa : BitVec 64) :
    Starts buffers syscntlPa c (el3Start buffers syscntlPa c) := by
  have slots := @el3MonitorInit_slot buffers _ layout syscntlPa c
  have regs : (el3MonitorInit buffers syscntlPa c).regs = c.regs := rfl
  generalize prepared : el3MonitorInit buffers syscntlPa c = d at slots regs
  have pushed :
      strPush (.x 30) (d.set (.x 0) buffers.secState) =
        { regs := updates c.regs
            [(.x 0, buffers.secState), (.spEl3, frame (c.regs .spEl3) 1)]
          mem := updates d.mem [(frame (c.regs .spEl3) 1, c.regs (.x 30))] } := by
    have first : frame (c.regs .spEl3) 1 = c.regs .spEl3 - 8 := rfl
    rw [first]
    simp [strPush, Cpu.set, store, Cpu.sp, regs, onEl3, updates_cons]
  have restores := monitorRestoreState_restores
    (strPush (.x 30) (d.set (.x 0) buffers.secState))
  generalize restored : monitorRestoreState
    (strPush (.x 30) (d.set (.x 0) buffers.secState)) = e at restores
  have mem : e.mem = updates d.mem [(frame (c.regs .spEl3) 1, c.regs (.x 30))] := by
    rw [restores.mem, pushed]
  have still (world : World) (slot) (member : slot ∈ buffers.slots world) :
      e.mem slot.2 = initial syscntlPa world slot.1 := by
    have away := layout.stack_slots member (by decide : 1 ∈ List.range 7)
    rw [mem, ← slots world member]
    exact Function.update_of_ne away _ _
  have onEl3' : e.regs .spsel = 1 := by
    obtain ⟨slot, member, named⟩ :=
      List.mem_map.mp (@mem_regs_slots buffers .secure _ |>.mpr spsel_mem_saveList)
    have base : (strPush (.x 30) (d.set (.x 0) buffers.secState)).regs (.x 0) =
        buffers.secState := by
      rw [pushed]
      simp [updates_cons]
    have read := restores.regs_of_mem clear_saveList saveList_regs_nodup
      (by rw [base]; exact member)
    rw [← named, read, ← restores.mem, still .secure slot member, named]
    rfl
  have kept {reg : Reg} (outside : reg ∉ saveList.map Prod.fst)
      (clear : reg ∉ Reg.x 0 :: scratch) (pointer : reg ≠ .spEl3) :
      e.regs reg = c.regs reg := by
    obtain ⟨notBase, notScratch⟩ := not_or.mp (mt List.mem_cons.mpr clear)
    rw [restores.regs_of_not_mem notScratch outside, pushed]
    simp [updates_cons, notBase, pointer]
  have sp : e.regs .spEl3 = frame (c.regs .spEl3) 1 := by
    rw [restores.regs_of_not_mem (by decide) (by decide), pushed]
    simp [updates_cons]
  have returned : el3Start buffers syscntlPa c =
      mov .spsrEl3 (.x 1) (mov .elrEl3 (.x 0)
        ((((ldrPop (.x 30) e).set (.x 0) el1SFlashBase).set (.x 1) spsrEl1).set
          (.x 7) 0xC)) := by
    rw [← restored, ← prepared]
    rfl
  have popped : (ldrPop (.x 30) e).mem = e.mem ∧
      (ldrPop (.x 30) e).regs .spEl3 = c.regs .spEl3 ∧
      (ldrPop (.x 30) e).regs .scrEl3 = c.regs .scrEl3 ∧
      (ldrPop (.x 30) e).regs .spsel = 1 := by
    have zero : frame (c.regs .spEl3) 1 + 8 = c.regs .spEl3 :=
      (frame_succ _ 0).trans (frame_zero _)
    have scr := kept (by decide : Reg.scrEl3 ∉ _) (by decide) (by decide)
    refine ⟨rfl, ?_, ?_, ?_⟩
    · rw [← zero, ← sp]
      simp [ldrPop, Cpu.set, Cpu.sp, onEl3']
    · simp [ldrPop, Cpu.set, Cpu.sp, onEl3', scr]
    · simp [ldrPop, Cpu.set, Cpu.sp, onEl3']
  rw [returned]
  constructor
  · intro world slot member
    exact (congrFun popped.1 slot.2).trans (still world slot member)
  · intro reg member
    simp only [List.mem_cons, List.not_mem_nil, or_false] at member
    rcases member with rfl | rfl
    · rw [← popped.2.1]
      simp [mov, Cpu.set]
    · rw [← popped.2.2.1]
      simp [mov, Cpu.set]
  · rw [← popped.2.2.2]
    simp [mov, Cpu.set]

end Init

end TzTest.Aarch64
