import TzTest.Monitor.SaveRestore
import TzTest.Protocol.Answers

/-!
# `monitor_switch` on AArch64

One call of `monitor_switch` puts the live registers into the buffer of the
world that was running and takes those of the other world from its buffer.
-/

namespace TzTest.Aarch64

open Cpu Slots

def Buffers.state (buffers : Buffers) : World → BitVec 64
  | .secure => buffers.secState
  | .nonsecure => buffers.nsecState

/-- The number of words in `state_buf`. -/
def stateWords : Nat := 57

/-- The buffers and the words of the EL3 stack that an SMC uses are apart. -/
structure Layout (buffers : Buffers) (sp : BitVec 64) : Prop where
  apart : ∀ first < stateWords, ∀ last < stateWords,
    buffers.secState + BitVec.ofNat 64 (8 * first) ≠
      buffers.nsecState + BitVec.ofNat 64 (8 * last)
  stack : ∀ world, ∀ word < stateWords, ∀ depth ∈ List.range 7,
    buffers.state world + BitVec.ofNat 64 (8 * word) ≠
      sp - BitVec.ofNat 64 (8 * depth)

/-- The slots of a world's buffer, as addresses. -/
def Buffers.slots (buffers : Buffers) (world : World) :
    List (Reg × BitVec 64) :=
  slotsAt (buffers.state world) saveList

/-- `world` was running, and the other one is resumed. -/
structure Switched (buffers : Buffers) (world : World) (before after : Cpu) :
    Prop where
  saved : ∀ slot ∈ buffers.slots world, after.mem slot.2 = before.regs slot.1
  kept : ∀ slot ∈ buffers.slots world.other, after.mem slot.2 = before.mem slot.2
  restored : ∀ slot ∈ buffers.slots world.other,
    after.regs slot.1 = before.mem slot.2
  args : ∀ reg ∈ [Reg.x 0, .x 1, .x 2, .x 3], after.regs reg = before.regs reg
  scr : after.regs .scrEl3 = @Sys.switchScr .aarch64 (before.regs .scrEl3)
  others : ∀ reg ∈ [Reg.cptrEl3, .esrEl3, .farEl3, .spEl3],
    after.regs reg = before.regs reg

theorem saveList_words : ∀ slot ∈ saveList, slot.2 % 8 = 0 ∧ slot.2 / 8 < stateWords := by
  decide

theorem spsel_mem_saveList : Reg.spsel ∈ saveList.map Prod.fst := by
  decide

theorem saveList_outside : ∀ reg ∈ saveList.map Prod.fst,
    reg ∉ [Reg.x 0, .x 1, .x 2, .x 3, .spEl3, .scrEl3] := by
  decide

theorem others_outside : ∀ reg ∈ [Reg.cptrEl3, .esrEl3, .farEl3, .spEl3],
    reg ∉ saveList.map Prod.fst ∧ reg ∉ Reg.x 0 :: scratch ∧ reg ≠ .x 3 ∧
      reg ∉ [Reg.x 3, .scrEl3, .x 2, .x 0, .x 1] := by
  decide

theorem saveList_regs_nodup : (saveList.map Prod.fst).Nodup := by
  decide

theorem saveList_offsets_nodup : (saveList.map Prod.snd).Nodup := by
  decide

theorem exists_word {buffers : Buffers} {world : World} {slot : Reg × BitVec 64}
    (member : slot ∈ buffers.slots world) :
    ∃ word < stateWords,
      slot.2 = buffers.state world + BitVec.ofNat 64 (8 * word) := by
  obtain ⟨source, inside, rfl⟩ := List.mem_map.mp member
  obtain ⟨aligned, below⟩ := saveList_words source inside
  refine ⟨source.2 / 8, below, ?_⟩
  have whole : 8 * (source.2 / 8) = source.2 := by omega
  rw [whole]

theorem slots_nodup (buffers : Buffers) (world : World) :
    ((buffers.slots world).map Prod.snd).Nodup := by
  rw [Buffers.slots, slotsAt, List.map_map]
  apply List.Nodup.map_on _ (List.Nodup.of_map Prod.snd saveList_offsets_nodup)
  intro left leftInside right rightInside same
  have leftBelow := (saveList_words left leftInside).2
  have rightBelow := (saveList_words right rightInside).2
  have leftAligned := (saveList_words left leftInside).1
  have rightAligned := (saveList_words right rightInside).1
  unfold stateWords at leftBelow rightBelow
  have offsets : left.2 = right.2 := by
    have words : BitVec.ofNat 64 left.2 = BitVec.ofNat 64 right.2 :=
      (BitVec.add_right_inj _).mp same
    have numbers := congrArg BitVec.toNat words
    rw [BitVec.toNat_ofNat, BitVec.toNat_ofNat, Nat.mod_eq_of_lt (by omega),
      Nat.mod_eq_of_lt (by omega)] at numbers
    exact numbers
  exact List.inj_on_of_nodup_map saveList_offsets_nodup leftInside rightInside
    offsets

theorem mem_regs_slots {buffers : Buffers} {world : World} {reg : Reg} :
    reg ∈ (buffers.slots world).map Prod.fst ↔ reg ∈ saveList.map Prod.fst := by
  rw [Buffers.slots, slotsAt, List.map_map]
  rfl

namespace Layout

variable {buffers : Buffers} {sp : BitVec 64} (layout : Layout buffers sp)
include layout

theorem apart_slots (world : World) {slot other : Reg × BitVec 64}
    (member : slot ∈ buffers.slots world)
    (otherMember : other ∈ buffers.slots world.other) :
    slot.2 ≠ other.2 := by
  obtain ⟨word, below, place⟩ := exists_word member
  obtain ⟨otherWord, otherBelow, otherPlace⟩ := exists_word otherMember
  rw [place, otherPlace]
  cases world with
  | secure => exact layout.apart word below otherWord otherBelow
  | nonsecure => exact (layout.apart otherWord otherBelow word below).symm

theorem stack_slots {world : World} {slot : Reg × BitVec 64}
    (member : slot ∈ buffers.slots world) {depth : Nat}
    (shallow : depth ∈ List.range 7) :
    slot.2 ≠ sp - BitVec.ofNat 64 (8 * depth) := by
  obtain ⟨word, below, place⟩ := exists_word member
  rw [place]
  exact layout.stack world word below depth shallow

end Layout

/-- The live arguments are pushed, and `x3` becomes `SCR.NS`. -/
def switchHead (c : Cpu) : Cpu :=
  let c := stpPush (.x 2) (.x 3) (stpPush (.x 0) (.x 1) c)
  let c := mov (.x 3) .scrEl3 c
  c.set (.x 3) (c.regs (.x 3) &&& 0x1)

def swapState (source target : BitVec 64) (c : Cpu) : Cpu :=
  monitorRestoreState ((monitorSaveState (c.set (.x 0) source)).set (.x 0) target)

/-- `switch_state`, up to its `eret`. -/
def switchTail (c : Cpu) : Cpu :=
  let c := mov .scrEl3 (.x 3) (c.set (.x 3) (c.regs (.x 3) ^^^ 0x1))
  ldpPop (.x 0) (.x 1) (ldpPop (.x 2) (.x 3) c)

section Parts

variable {buffers : Buffers} {c : Cpu}

/-- Depth in double words below the stack pointer. -/
def frame (sp : BitVec 64) (depth : Nat) : BitVec 64 :=
  sp - BitVec.ofNat 64 (8 * depth)

theorem frame_two (sp : BitVec 64) : sp - 16 = frame sp 2 := rfl

theorem frame_one (sp : BitVec 64) : sp - 16 + 8 = frame sp 1 := by
  unfold frame
  bv_omega

theorem frame_four (sp : BitVec 64) : sp - 16 - 16 = frame sp 4 := by
  unfold frame
  bv_omega

theorem frame_three (sp : BitVec 64) : sp - 16 - 16 + 8 = frame sp 3 := by
  unfold frame
  bv_omega

theorem frame_inj {sp : BitVec 64} {left right : Nat} (leftShallow : left < 7)
    (rightShallow : right < 7) (same : frame sp left = frame sp right) :
    left = right := by
  unfold frame at same
  bv_omega

theorem switchHead_eq (onEl3 : c.regs .spsel = 1) :
    switchHead c =
      { regs :=
          updates c.regs
            [(.spEl3, frame (c.regs .spEl3) 2), (.spEl3, frame (c.regs .spEl3) 4),
              (.x 3, c.regs .scrEl3), (.x 3, c.regs .scrEl3 &&& 1)]
        mem :=
          updates c.mem
            [(frame (c.regs .spEl3) 2, c.regs (.x 0)),
              (frame (c.regs .spEl3) 1, c.regs (.x 1)),
              (frame (c.regs .spEl3) 4, c.regs (.x 2)),
              (frame (c.regs .spEl3) 3, c.regs (.x 3))] } := by
  rw [← frame_one, ← frame_two, ← frame_three, ← frame_four]
  simp [switchHead, stpPush, mov, Cpu.set, store, Cpu.sp, onEl3, updates_cons]

theorem switchTail_eq (onEl3 : c.regs .spsel = 1) :
    switchTail c =
      { c with
        regs :=
          updates c.regs
            [(.x 3, c.regs (.x 3) ^^^ 1), (.scrEl3, c.regs (.x 3) ^^^ 1),
              (.x 2, c.mem (c.regs .spEl3)), (.x 3, c.mem (c.regs .spEl3 + 8)),
              (.spEl3, c.regs .spEl3 + 16),
              (.x 0, c.mem (c.regs .spEl3 + 16)),
              (.x 1, c.mem (c.regs .spEl3 + 16 + 8)),
              (.spEl3, c.regs .spEl3 + 16 + 16)] } := by
  simp [switchTail, ldpPop, mov, Cpu.set, Cpu.sp, onEl3, updates_cons]

theorem frame_succ (sp : BitVec 64) (depth : Nat) :
    frame sp (depth + 1) + 8 = frame sp depth := by
  unfold frame
  bv_omega

theorem frame_add_two (sp : BitVec 64) (depth : Nat) :
    frame sp (depth + 2) + 16 = frame sp depth := by
  unfold frame
  bv_omega

theorem frame_zero (sp : BitVec 64) : frame sp 0 = sp := by
  unfold frame
  bv_omega

theorem switchTail_regs {top : BitVec 64} (onEl3 : c.regs .spsel = 1)
    (sp : c.regs .spEl3 = frame top 4) :
    (switchTail c).regs =
      updates c.regs
        [(.x 3, c.regs (.x 3) ^^^ 1), (.scrEl3, c.regs (.x 3) ^^^ 1),
          (.x 2, c.mem (frame top 4)), (.x 3, c.mem (frame top 3)),
          (.spEl3, frame top 2), (.x 0, c.mem (frame top 2)),
          (.x 1, c.mem (frame top 1)), (.spEl3, top)] := by
  rw [switchTail_eq onEl3, sp]
  simp only [frame_succ, frame_add_two, frame_zero]

section Swap

variable {source target : BitVec 64}

theorem swapState_saves :
    Saves saveList (c.set (.x 0) source)
      (monitorSaveState (c.set (.x 0) source)) :=
  monitorSaveState_saves _

theorem swapState_restores :
    Restores saveList
      ((monitorSaveState (c.set (.x 0) source)).set (.x 0) target)
      (swapState source target c) :=
  monitorRestoreState_restores _

theorem mem_swapState :
    (swapState source target c).mem =
      updates c.mem (saved (slotsAt source saveList) (c.set (.x 0) source).regs) := by
  have stored := (@swapState_saves c source).mem
  rw [regs_set_self] at stored
  exact swapState_restores.mem.trans stored

theorem mem_swapState_of_not_slot {addr : BitVec 64}
    (outside : ∀ slot ∈ slotsAt source saveList, slot.2 ≠ addr) :
    (swapState source target c).mem addr = c.mem addr := by
  rw [mem_swapState]
  apply updates_saved_of_not_mem
  intro member
  obtain ⟨slot, inside, place⟩ := List.mem_map.mp member
  exact outside slot inside place

theorem regs_swapState_of_not_mem {reg : Reg}
    (outside : reg ∉ saveList.map Prod.fst) (kept : reg ∉ Reg.x 0 :: scratch) :
    (swapState source target c).regs reg = c.regs reg := by
  obtain ⟨notBase, notScratch⟩ := not_or.mp (mt List.mem_cons.mpr kept)
  rw [swapState_restores.regs_of_not_mem notScratch outside]
  rw [regs_set_of_ne notBase, swapState_saves.regs reg notScratch,
    regs_set_of_ne notBase]

theorem regs_swapState_of_mem {slot : Reg × BitVec 64}
    (member : slot ∈ slotsAt target saveList)
    (outside : ∀ other ∈ slotsAt source saveList, other.2 ≠ slot.2) :
    (swapState source target c).regs slot.1 = c.mem slot.2 := by
  have read := (@swapState_restores c source target).regs_of_mem clear_saveList
    saveList_regs_nodup (by rw [regs_set_self]; exact member)
  rw [read, ← (@swapState_restores c source target).mem]
  exact mem_swapState_of_not_slot outside

end Swap

section Whole

variable {world : World}

theorem monitorSwitch_eq (onEl3 : c.regs .spsel = 1)
    (ns : @Word.nsBit .aarch64 (c.regs .scrEl3) = world.ns) :
    monitorSwitch buffers c =
      switchTail (swapState (buffers.state world) (buffers.state world.other)
        (switchHead c)) := by
  have parts : monitorSwitch buffers c =
      switchTail
        (if (switchHead c).regs (.x 3) = 0 then
          swapState buffers.secState buffers.nsecState (switchHead c)
        else
          swapState buffers.nsecState buffers.secState (switchHead c)) :=
    rfl
  have tested : (switchHead c).regs (.x 3) = c.regs .scrEl3 &&& 1 := by
    rw [switchHead_eq onEl3]
    simp [updates_cons]
  have zero := @Word.and_scrNs_eq_zero_iff .aarch64 (c.regs .scrEl3)
  rw [parts, tested]
  cases world with
  | secure =>
      have clear : c.regs .scrEl3 &&& 1 = 0 := zero.mpr ns
      rw [if_pos clear]
      rfl
  | nonsecure =>
      have set : ¬c.regs .scrEl3 &&& 1 = 0 := by
        intro clear
        exact absurd (ns.symm.trans (zero.mp clear)) (by decide)
      rw [if_neg set]
      rfl

theorem switchHead_regs (onEl3 : c.regs .spsel = 1) {reg : Reg}
    (notArg : reg ≠ .x 3) (notSp : reg ≠ .spEl3) :
    (switchHead c).regs reg = c.regs reg := by
  rw [switchHead_eq onEl3]
  apply updates_of_not_mem
  simp [notArg, notSp]

theorem switchHead_mem (onEl3 : c.regs .spsel = 1) {addr : BitVec 64}
    (outside : ∀ depth ∈ List.range 7, addr ≠ frame (c.regs .spEl3) depth) :
    (switchHead c).mem addr = c.mem addr := by
  rw [switchHead_eq onEl3]
  apply updates_of_not_mem
  have apart (depth : Nat) (shallow : depth < 7) :
      addr ≠ frame (c.regs .spEl3) depth :=
    outside depth (List.mem_range.mpr shallow)
  simp [apart 1, apart 2, apart 3, apart 4]

/-- The four words that `monitor_switch` pushes. -/
theorem switchHead_pushed (onEl3 : c.regs .spsel = 1) :
    (switchHead c).mem (frame (c.regs .spEl3) 2) = c.regs (.x 0) ∧
      (switchHead c).mem (frame (c.regs .spEl3) 1) = c.regs (.x 1) ∧
      (switchHead c).mem (frame (c.regs .spEl3) 4) = c.regs (.x 2) ∧
      (switchHead c).mem (frame (c.regs .spEl3) 3) = c.regs (.x 3) := by
  have distinct : ([2, 1, 4, 3].map (frame (c.regs .spEl3))).Nodup := by
    apply List.Nodup.map_on _ (by decide)
    intro left leftMember right rightMember same
    have below : ∀ depth ∈ [2, 1, 4, 3], depth < 7 := by decide
    exact frame_inj (below left leftMember) (below right rightMember) same
  rw [switchHead_eq onEl3]
  refine ⟨?_, ?_, ?_, ?_⟩
  all_goals
    apply updates_of_mem
    · exact distinct
    · simp

theorem swapState_frame (layout : Layout buffers (c.regs .spEl3))
    (depth : Nat) (shallow : depth < 7) (d : Cpu) :
    (swapState (buffers.state world) (buffers.state world.other) d).mem
        (frame (c.regs .spEl3) depth) =
      d.mem (frame (c.regs .spEl3) depth) := by
  apply mem_swapState_of_not_slot
  intro slot member
  exact layout.stack_slots member (List.mem_range.mpr shallow)

theorem monitorSwitch_switched (layout : Layout buffers (c.regs .spEl3))
    (onEl3 : c.regs .spsel = 1)
    (ns : @Word.nsBit .aarch64 (c.regs .scrEl3) = world.ns)
    (resumesEl3 : ∀ slot ∈ buffers.slots world.other,
      slot.1 = .spsel → c.mem slot.2 = 1) :
    Switched buffers world c (monitorSwitch buffers c) := by
  rw [monitorSwitch_eq onEl3 ns]
  generalize swapped : swapState (buffers.state world)
    (buffers.state world.other) (switchHead c) = d
  have unsaved {reg : Reg} (outside : reg ∉ saveList.map Prod.fst)
      (kept : reg ∉ Reg.x 0 :: scratch) : d.regs reg = (switchHead c).regs reg :=
    swapped ▸ regs_swapState_of_not_mem outside kept
  have resumed : ∀ slot ∈ buffers.slots world.other,
      d.regs slot.1 = c.mem slot.2 := by
    intro slot member
    rw [← swapped, regs_swapState_of_mem member
      (fun other inside => layout.apart_slots world inside member)]
    exact switchHead_mem onEl3
      fun depth shallow => layout.stack_slots member shallow
  have stack (depth : Nat) (shallow : depth < 7) :
      d.mem (frame (c.regs .spEl3) depth) =
        (switchHead c).mem (frame (c.regs .spEl3) depth) :=
    swapped ▸ swapState_frame layout depth shallow _
  have stillEl3 : d.regs .spsel = 1 := by
    obtain ⟨slot, member, named⟩ :=
      List.mem_map.mp (mem_regs_slots.mpr spsel_mem_saveList)
    rw [← named, resumed slot member]
    exact resumesEl3 slot member named
  have sp : d.regs .spEl3 = frame (c.regs .spEl3) 4 := by
    rw [unsaved (by decide) (by decide), switchHead_eq onEl3]
    simp [updates_cons]
  have selected : d.regs (.x 3) = c.regs .scrEl3 &&& 1 := by
    rw [unsaved (by decide) (by decide), switchHead_eq onEl3]
    simp [updates_cons]
  have untouched {reg : Reg}
      (outside : reg ∉ [Reg.x 3, .scrEl3, .x 2, .spEl3, .x 0, .x 1]) :
      (switchTail d).regs reg = d.regs reg := by
    rw [switchTail_regs stillEl3 sp]
    apply updates_of_not_mem
    simp only [List.mem_cons, List.not_mem_nil, or_false, not_or] at outside
    simp [outside]
  have tailMem : (switchTail d).mem = d.mem := by
    rw [switchTail_eq stillEl3]
  constructor
  · intro slot member
    rw [tailMem, ← swapped, mem_swapState]
    have stored := updates_saved (slots_nodup buffers world) member
      ((switchHead c).set (.x 0) (buffers.state world)).regs (switchHead c).mem
    refine stored.trans ?_
    have outside := saveList_outside slot.1
      (mem_regs_slots.mp (List.mem_map_of_mem member))
    simp only [List.mem_cons, List.not_mem_nil, or_false, not_or] at outside
    rw [regs_set_of_ne outside.1, switchHead_regs onEl3 outside.2.2.2.1
      outside.2.2.2.2.1]
  · intro slot member
    rw [tailMem, ← swapped, mem_swapState_of_not_slot
      (fun other inside => layout.apart_slots world inside member)]
    exact switchHead_mem onEl3
      fun depth shallow => layout.stack_slots member shallow
  · intro slot member
    have outside := saveList_outside slot.1
      (mem_regs_slots.mp (List.mem_map_of_mem member))
    rw [untouched (by simp at outside ⊢; tauto), resumed slot member]
  · obtain ⟨first, second, third, fourth⟩ := switchHead_pushed onEl3
    intro reg argument
    rw [switchTail_regs stillEl3 sp, stack 4 (by decide), stack 3 (by decide),
      stack 2 (by decide), stack 1 (by decide), first, second, third, fourth]
    simp only [List.mem_cons, List.not_mem_nil, or_false] at argument
    rcases argument with rfl | rfl | rfl | rfl <;> simp [updates_cons]
  · rw [switchTail_regs stillEl3 sp, selected]
    simp only [updates_cons, updates_nil]
    rfl
  · intro reg other
    by_cases pointer : reg = .spEl3
    · rw [pointer, switchTail_regs stillEl3 sp]
      simp [updates_cons]
    · have outside := others_outside reg other
      rw [untouched (by simpa [pointer] using outside.2.2.2),
        unsaved outside.1 outside.2.1,
        switchHead_regs onEl3 outside.2.2.1 pointer]

end Whole

end Parts

end TzTest.Aarch64
