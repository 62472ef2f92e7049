import TzTest.Monitor.WorldSwitch

/-!
# The EL1 vectors on AArch64

`el1_sync_exception_current` and `el1_sync_exception_lower64`, instruction by
instruction, and what may happen while a handler that they call is running:
its own code, further exceptions at EL1, and SMCs.  All EL1 code of the images
runs with `SP_EL1` selected.
-/

namespace TzTest.Aarch64

open Slots

variable {Paging : Type}

namespace El1

/-- `str first, [sp, #-8]!` -/
def strPush (first : Reg) (c : Cpu) : Cpu :=
  let addr := c.regs .spEl1 - 8
  (c.store addr (c.regs first)).set .spEl1 addr

/-- `stp first, second, [sp, #-16]!` -/
def stpPush (first second : Reg) (c : Cpu) : Cpu :=
  let addr := c.regs .spEl1 - 16
  ((c.store addr (c.regs first)).store (addr + 8) (c.regs second)).set .spEl1 addr

/-- `ldr first, [sp], #8` -/
def ldrPop (first : Reg) (c : Cpu) : Cpu :=
  let addr := c.regs .spEl1
  (c.set first (c.mem addr)).set .spEl1 (addr + 8)

/-- `ldp first, second, [sp], #16` -/
def ldpPop (first second : Reg) (c : Cpu) : Cpu :=
  let addr := c.regs .spEl1
  ((c.set first (c.mem addr)).set second (c.mem (addr + 8))).set .spEl1 (addr + 16)

/-- The arguments that both vectors take from the syndrome register. -/
def syndrome (c : Cpu) : Cpu :=
  let c := c.set (.x 1) 0xffffff
  let c := c.set (.x 1) (c.regs (.x 1) &&& c.regs (.x 0))
  c.set (.x 0) (c.regs (.x 0) >>> 26)

/-- `el1_sync_exception_current`, up to the call; `far` is in `far_el1`. -/
def currentEntry (far : BitVec 64) (c : Cpu) : Cpu :=
  let c := strPush (.x 30) c
  let c := stpPush (.x 2) (.x 3) c
  let c := stpPush (.x 0) (.x 1) c
  let c := Cpu.mov (.x 0) .esrEl1 c
  let c := syndrome c
  let c := c.set (.x 2) far
  Cpu.mov (.x 3) .elrEl1 c

/-- What follows the call of `el1_handle_exception`, up to the `eret`. -/
def currentReturn (c : Cpu) : Cpu :=
  let c := ldpPop (.x 0) (.x 1) c
  let c := ldpPop (.x 2) (.x 3) c
  ldrPop (.x 30) c

/-- `el1_sync_exception_lower64`, up to its comparisons. -/
def lower64Entry (far : BitVec 64) (c : Cpu) : Cpu :=
  let c := strPush (.x 30) c
  let c := stpPush (.x 2) (.x 3) c
  let c := Cpu.mov (.x 2) .spsrEl1 c
  let c := strPush (.x 2) c
  let c := stpPush (.x 0) (.x 1) c
  let c := c.set (.x 2) far
  let c := Cpu.mov (.x 3) .elrEl1 c
  let c := Cpu.mov (.x 0) .esrEl1 c
  syndrome c

def ecSvc32 : BitVec 64 := 0x11
def ecSvc64 : BitVec 64 := 0x15

/-- The comparisons lead to `el1_sync_exception_lower64_svc`. -/
def IsSvc (c : Cpu) : Prop :=
  c.regs (.x 0) = ecSvc64 ∨ c.regs (.x 0) = ecSvc32

/-- `ldp x0, x1, [sp]` before the call of `el1_handle_svc`. -/
def lower64Args (c : Cpu) : Cpu :=
  let addr := c.regs .spEl1
  (c.set (.x 0) (c.mem addr)).set (.x 1) (c.mem (addr + 8))

/-- `el1_sync_exception_lower64_done`, up to its `eret`. -/
def lower64Done (c : Cpu) : Cpu :=
  let c := ldpPop (.x 2) (.x 1) c
  let c := ldrPop (.x 2) c
  let c := Cpu.mov .spsrEl1 (.x 2) c
  let c := ldpPop (.x 2) (.x 3) c
  ldrPop (.x 30) c

/-- `bl`, with the address behind it. -/
def bl (link : BitVec 64) (c : Cpu) : Cpu :=
  c.set (.x 30) link

/-- `__set_exception_return`; `currentel` reads as EL1, and the comparisons lead
to `__set_exception_return_el1`. -/
def setExceptionReturn (c : Cpu) : Cpu :=
  let c := strPush (.x 30) c
  let c := c.set (.x 7) 0x4
  let c := Cpu.mov .elrEl1 (.x 0) c
  ldrPop (.x 30) c

/-- The stack frame of a compiled handler, with the offset of its `elr`. -/
structure Locals where
  size : Nat
  elr : Nat
  inside : elr < size

/-- The address of `elr` while the stack pointer is at the frame's bottom. -/
def Locals.slot (locals : Locals) (c : Cpu) : BitVec 64 :=
  c.regs .spEl1 + BitVec.ofNat 64 locals.elr

/-- What EL1 code leaves alone: EL3's registers. -/
def el3Regs : List Reg := [.scrEl3, .cptrEl3, .spEl3]

/-- The handler has made its frame and stored its arguments there. -/
structure Prologue (kept : List (BitVec 64)) (locals : Locals)
    (call entered : Cpu) : Prop where
  sp : entered.regs .spEl1 = call.regs .spEl1 - BitVec.ofNat 64 locals.size
  elr : entered.mem (locals.slot entered) = call.regs (.x 3)
  kept : ∀ addr ∈ kept, entered.mem addr = call.mem addr
  el3 : ∀ reg ∈ el3Regs, entered.regs reg = call.regs reg

/-- `__set_exception_return(resume)` at the end of the handler. -/
def resumeAt (resume : BitVec 64) (c : Cpu) : Cpu :=
  setExceptionReturn (c.set (.x 0) resume)

/-- The handler has taken its frame down and returned. -/
structure Epilogue (kept : List (BitVec 64)) (locals : Locals)
    (resumed back : Cpu) : Prop where
  sp : back.regs .spEl1 = resumed.regs .spEl1 + BitVec.ofNat 64 locals.size
  elr : back.regs .elrEl1 = resumed.regs .elrEl1
  kept : ∀ addr ∈ kept, back.mem addr = resumed.mem addr
  el3 : ∀ reg ∈ el3Regs, back.regs reg = resumed.regs reg

/-- The machine while a world is at EL1: the registers, the memory as its EL1
image sees it, and EL3. -/
structure Machine (Paging : Type) where
  cpu : Cpu
  el3Mem : BitVec 64 → BitVec 64
  sys : Sys .aarch64 Paging

def Machine.monitor (m : Machine Paging) : Monitor Paging :=
  { cpu := { regs := m.cpu.regs, mem := m.el3Mem }
    sys := m.sys }

def Machine.setCpu (m : Machine Paging) (cpu : Cpu) : Machine Paging :=
  { m with cpu := cpu }

/-- What a world does without an SMC: nothing to EL3. -/
structure Confined (buffers : Buffers) (before after : Monitor Paging) : Prop where
  regs : ∀ reg ∈ el3Regs, after.cpu.regs reg = before.cpu.regs reg
  buffers : ∀ world, ∀ slot ∈ buffers.slots world,
    after.cpu.mem slot.2 = before.cpu.mem slot.2
  secureState : after.sys.secureState = before.sys.secureState

/-- Code of the EL1 image, called from the handler with `depth` bytes of stack
in use below its frame and leaving off with `later` bytes.  It does not write
the frames that are still needed. -/
structure Code (buffers : Buffers) (kept : List (BitVec 64)) (bottom : BitVec 64)
    (depth later : Nat) (before after : Machine Paging) : Prop where
  sp : after.cpu.regs .spEl1 =
    before.cpu.regs .spEl1 + BitVec.ofNat 64 depth - BitVec.ofNat 64 later
  room : later ≤ bottom.toNat
  kept : ∀ addr ∈ kept, after.cpu.mem addr = before.cpu.mem addr
  confined : Confined buffers before.monitor after.monitor

/-- What the processor writes when it takes an exception to EL3. -/
def smcRegs : List Reg := [.esrEl3, .elrEl3, .spsrEl3, .farEl3, .spsel]

/-- The world at EL1 executes `smc`. -/
structure Issues (m : Monitor Paging) (step : SmcStep Paging) : Prop where
  before : step.before = m
  taken : ∀ reg ∉ smcRegs, step.taken.cpu.regs reg = m.cpu.regs reg

/-- An SMC and what happens before the world runs again: EL3 answers it, or the
other world runs and makes SMCs of its own until one of them switches back. -/
inductive Excursion (env : Env .aarch64 Paging) (buffers : Buffers)
    (m : Monitor Paging) : Monitor Paging → Prop where
  | stays {step : SmcStep Paging} (issues : Issues m step)
      (valid : step.Valid env buffers) (keeps : step.KeepsNs env)
      (zero : step.code = 0) : Excursion env buffers m (step.after buffers)
  | switches {first last : SmcStep Paging} {middle : List (SmcStep Paging)}
      (issues : Issues m first)
      (linked : Chain.Linked SmcStep.before (SmcStep.after buffers) m
        (first :: (middle ++ [last])))
      (valid : ∀ step ∈ first :: (middle ++ [last]), step.Valid env buffers)
      (keeps : ∀ step ∈ first :: (middle ++ [last]), step.KeepsNs env)
      (away : first.code ≠ 0) (there : ∀ step ∈ middle, step.code = 0)
      (back : last.code ≠ 0) : Excursion env buffers m (last.after buffers)

/-- The processor takes an exception from EL1 to EL1. -/
def raise (esr elr spsr : BitVec 64) (c : Cpu) : Cpu :=
  ((c.set .esrEl1 esr).set .elrEl1 elr).set .spsrEl1 spsr

/-- The words that `el1_sync_exception_current` pushes. -/
def currentFrame (sp : BitVec 64) : List (BitVec 64) :=
  [1, 3, 2, 5, 4].map (frame sp)

/-- What happens while a handler is running, from `depth` bytes of stack in use
below its frame to none. -/
inductive Serves (env : Env .aarch64 Paging) (buffers : Buffers) :
    List (BitVec 64) → BitVec 64 → Nat → Machine Paging → Machine Paging → Prop
  | done (kept : List (BitVec 64)) (bottom : BitVec 64) (m : Machine Paging) :
      Serves env buffers kept bottom 0 m m
  | code {kept : List (BitVec 64)} {bottom : BitVec 64} {depth later : Nat}
      {m middle final : Machine Paging}
      (runs : Code buffers kept bottom depth later m middle)
      (rest : Serves env buffers kept bottom later middle final) :
      Serves env buffers kept bottom depth m final
  | exception {kept : List (BitVec 64)} {bottom : BitVec 64} {depth : Nat}
      {m leaving final : Machine Paging} {entered back : Cpu}
      (esr elr spsr far link : BitVec 64) (locals : Locals)
      (room : 48 + locals.size ≤ (m.cpu.regs .spEl1).toNat)
      (prologue : Prologue (currentFrame (m.cpu.regs .spEl1) ++ kept) locals
        (bl link (currentEntry far (raise esr elr spsr m.cpu))) entered)
      (body : Serves env buffers
        (locals.slot entered :: (currentFrame (m.cpu.regs .spEl1) ++ kept))
        (entered.regs .spEl1) 0 (m.setCpu entered) leaving)
      -- `elr += 4`, where `EXCP_ACTION_SKIP` is set.
      (epilogue : Epilogue (currentFrame (m.cpu.regs .spEl1) ++ kept) locals
        (resumeAt (leaving.cpu.mem (locals.slot leaving.cpu) + 4) leaving.cpu)
        back)
      (rest : Serves env buffers kept bottom depth
        (leaving.setCpu (currentReturn back)) final) :
      Serves env buffers kept bottom depth m final
  | smc {kept : List (BitVec 64)} {bottom : BitVec 64} {depth : Nat}
      {m middle final : Machine Paging}
      (excursion : Excursion env buffers m.monitor middle.monitor)
      (stack : ∀ addr ∈ kept, middle.cpu.mem addr = m.cpu.mem addr)
      (rest : Serves env buffers kept bottom depth middle final) :
      Serves env buffers kept bottom depth m final

/-- The words that `el1_sync_exception_lower64` pushes. -/
def lower64Frame (sp : BitVec 64) : List (BitVec 64) :=
  [1, 3, 2, 4, 6, 5].map (frame sp)

/-- An SVC from EL0, from its exception to the `eret`. -/
structure Svc (env : Env .aarch64 Paging) (buffers : Buffers) where
  /-- The processor has taken the exception. -/
  taken : Machine Paging
  far : BitVec 64
  link : BitVec 64
  locals : Locals
  entered : Cpu
  /-- The handler is about to restore the return address. -/
  leaving : Machine Paging
  back : Cpu
  isSvc : IsSvc (lower64Entry far taken.cpu)
  room : 56 + locals.size ≤ (taken.cpu.regs .spEl1).toNat
  prologue : Prologue (lower64Frame (taken.cpu.regs .spEl1)) locals
    (bl link (lower64Args (lower64Entry far taken.cpu))) entered
  body : Serves env buffers
    (locals.slot entered :: lower64Frame (taken.cpu.regs .spEl1))
    (entered.regs .spEl1) 0 (taken.setCpu entered) leaving
  epilogue : Epilogue (lower64Frame (taken.cpu.regs .spEl1)) locals
    (resumeAt (leaving.cpu.mem (locals.slot leaving.cpu)) leaving.cpu) back

/-- At the `eret`. -/
def Svc.final {env : Env .aarch64 Paging} {buffers : Buffers}
    (svc : Svc env buffers) : Cpu :=
  lower64Done svc.back

section Frame

variable {c : Cpu}

theorem pushed_word {sp : BitVec 64} {mem : BitVec 64 → BitVec 64}
    {words : List (Nat × BitVec 64)} (shallow : ∀ word ∈ words, word.1 < 7)
    (distinct : (words.map Prod.fst).Nodup) {word : Nat × BitVec 64}
    (member : word ∈ words) :
    updates mem (words.map fun word => (frame sp word.1, word.2))
      (frame sp word.1) = word.2 := by
  apply updates_of_mem
  · rw [List.map_map]
    apply List.Nodup.map_on _ (List.Nodup.of_map Prod.fst distinct)
    intro left leftMember right rightMember same
    have depths := frame_inj (shallow left leftMember)
      (shallow right rightMember) same
    exact List.inj_on_of_nodup_map distinct leftMember rightMember depths
  · exact List.mem_map.mpr ⟨word, member, rfl⟩

theorem pushed_other {sp addr : BitVec 64} {mem : BitVec 64 → BitVec 64}
    {words : List (Nat × BitVec 64)} {depths : List Nat}
    (outside : addr ∉ depths.map (frame sp))
    (within : ∀ word ∈ words, word.1 ∈ depths) :
    updates mem (words.map fun word => (frame sp word.1, word.2)) addr =
      mem addr := by
  apply updates_of_not_mem
  rw [List.map_map]
  intro member
  obtain ⟨word, inside, same⟩ := List.mem_map.mp member
  exact outside (List.mem_map.mpr ⟨word.1, within word inside, same⟩)

theorem frame_words (sp : BitVec 64) :
    frame sp 1 = sp - 8 ∧ frame sp 3 = sp - 8 - 16 ∧
      frame sp 2 = sp - 8 - 16 + 8 ∧ frame sp 4 = sp - 8 - 16 - 8 ∧
      frame sp 5 = sp - 8 - 16 - 16 ∧ frame sp 4 = sp - 8 - 16 - 16 + 8 ∧
      frame sp 6 = sp - 8 - 16 - 8 - 16 ∧
      frame sp 5 = sp - 8 - 16 - 8 - 16 + 8 := by
  unfold frame
  refine ⟨rfl, ?_, ?_, ?_, ?_, ?_, ?_, ?_⟩ <;> grind

/-- What `el1_sync_exception_current` pushes, by depth. -/
def currentWords (regs : Reg → BitVec 64) : List (Nat × BitVec 64) :=
  [(1, regs (.x 30)), (3, regs (.x 2)), (2, regs (.x 3)), (5, regs (.x 0)),
    (4, regs (.x 1))]

/-- The call of `el1_handle_exception`. -/
structure Entered (words : (Reg → BitVec 64) → List (Nat × BitVec 64))
    (depth : Nat) (c call : Cpu) : Prop where
  mem : call.mem = updates c.mem
    ((words c.regs).map fun word => (frame (c.regs .spEl1) word.1, word.2))
  sp : call.regs .spEl1 = frame (c.regs .spEl1) depth
  elr : call.regs (.x 3) = c.regs .elrEl1
  el3 : ∀ reg ∈ el3Regs, call.regs reg = c.regs reg

theorem currentEntry_entered (far link : BitVec 64) :
    Entered currentWords 5 c (bl link (currentEntry far c)) := by
  obtain ⟨first, third, second, _, fifth, fourth, _⟩ :=
    frame_words (c.regs .spEl1)
  constructor
  · simp only [currentWords, List.map_cons, List.map_nil]
    rw [first, third, second, fifth, fourth]
    simp [bl, currentEntry, syndrome, strPush, stpPush, Cpu.mov, Cpu.set,
      Cpu.store, updates_cons]
  · rw [fifth]
    simp [bl, currentEntry, syndrome, strPush, stpPush, Cpu.mov, Cpu.set,
      Cpu.store]
  · simp [bl, currentEntry, syndrome, strPush, stpPush, Cpu.mov, Cpu.set,
      Cpu.store]
  · simp [el3Regs, bl, currentEntry, syndrome, strPush, stpPush, Cpu.mov,
      Cpu.set, Cpu.store]

/-- What `el1_sync_exception_lower64` pushes, by depth. -/
def lower64Words (regs : Reg → BitVec 64) : List (Nat × BitVec 64) :=
  [(1, regs (.x 30)), (3, regs (.x 2)), (2, regs (.x 3)), (4, regs .spsrEl1),
    (6, regs (.x 0)), (5, regs (.x 1))]

theorem lower64Entry_entered (far link : BitVec 64) :
    Entered lower64Words 6 c (bl link (lower64Args (lower64Entry far c))) := by
  obtain ⟨first, third, second, fourth, _, _, sixth, fifth⟩ :=
    frame_words (c.regs .spEl1)
  constructor
  · simp only [lower64Words, List.map_cons, List.map_nil]
    rw [first, third, second, fourth, sixth, fifth]
    simp [bl, lower64Args, lower64Entry, syndrome, strPush, stpPush, Cpu.mov,
      Cpu.set, Cpu.store, updates_cons]
  · rw [sixth]
    simp [bl, lower64Args, lower64Entry, syndrome, strPush, stpPush, Cpu.mov,
      Cpu.set, Cpu.store]
  · simp [bl, lower64Args, lower64Entry, syndrome, strPush, stpPush, Cpu.mov,
      Cpu.set, Cpu.store]
  · simp [el3Regs, bl, lower64Args, lower64Entry, syndrome, strPush, stpPush,
      Cpu.mov, Cpu.set, Cpu.store]

theorem frame_pops (top : BitVec 64) :
    frame top 6 + 8 = frame top 5 ∧ frame top 6 + 16 = frame top 4 ∧
      frame top 5 + 8 = frame top 4 ∧ frame top 5 + 16 = frame top 3 ∧
      frame top 4 + 8 = frame top 3 ∧ frame top 3 + 8 = frame top 2 ∧
      frame top 3 + 16 = frame top 1 ∧ frame top 1 + 8 = top :=
  ⟨frame_succ top 5, frame_add_two top 4, frame_succ top 4, frame_add_two top 3,
    frame_succ top 3, frame_succ top 2, frame_add_two top 1,
    (frame_succ top 0).trans (frame_zero top)⟩

theorem currentReturn_eq {top : BitVec 64} (sp : c.regs .spEl1 = frame top 5) :
    currentReturn c =
      { c with
        regs := updates c.regs
          [(.x 0, c.mem (frame top 5)), (.x 1, c.mem (frame top 4)),
            (.x 2, c.mem (frame top 3)), (.x 3, c.mem (frame top 2)),
            (.x 30, c.mem (frame top 1)), (.spEl1, top)] } := by
  obtain ⟨_, _, fourth, third, _, second, first, zero⟩ := frame_pops top
  simp [currentReturn, ldpPop, ldrPop, Cpu.set, sp, updates_cons]
  funext reg
  simp only [Function.update_apply]
  split_ifs <;> simp_all

theorem lower64Done_eq {top : BitVec 64} (sp : c.regs .spEl1 = frame top 6) :
    lower64Done c =
      { c with
        regs := updates c.regs
          [(.x 1, c.mem (frame top 5)), (.spsrEl1, c.mem (frame top 4)),
            (.x 2, c.mem (frame top 3)), (.x 3, c.mem (frame top 2)),
            (.x 30, c.mem (frame top 1)), (.spEl1, top)] } := by
  obtain ⟨fifth, fourth, _, _, third, second, first, zero⟩ := frame_pops top
  simp [lower64Done, ldpPop, ldrPop, Cpu.mov, Cpu.set, sp, updates_cons]
  funext reg
  simp only [Function.update_apply]
  split_ifs <;> simp_all

theorem resumeAt_eq (resume : BitVec 64) :
    (resumeAt resume c).regs .elrEl1 = resume ∧
      (resumeAt resume c).regs .spEl1 = c.regs .spEl1 ∧
      (resumeAt resume c).mem =
        Function.update c.mem (c.regs .spEl1 - 8) (c.regs (.x 30)) ∧
      ∀ reg ∈ el3Regs, (resumeAt resume c).regs reg = c.regs reg := by
  simp [el3Regs, resumeAt, setExceptionReturn, strPush, ldrPop, Cpu.mov, Cpu.set,
    Cpu.store]

end Frame

end El1

end TzTest.Aarch64
