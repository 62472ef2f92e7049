import TzTest.Monitor.Requests
import TzTest.Protocol.HandlerLookup
import TzTest.Protocol.SharedBuffer

/-!
# The descriptor of an SMC

`el3_handle_smc` loads and stores through the pointer that the caller has left
in its second argument register.  It checks the pointer for nothing: whatever
EL3's tables translate it to is taken for the descriptor, EL3's own memory
included.
-/

namespace TzTest

variable {arch : Arch} {Paging : Type}

/-- A byte of a word, the lowest one first. -/
def byteOf {width : Nat} (word : BitVec width) (index : Nat) : BitVec 8 :=
  word.extractLsb' (8 * index) 8

theorem eq_of_byteOf {left right : Word arch}
    (same : ∀ index < wordBytes arch, byteOf left index = byteOf right index) :
    left = right := by
  have whole : arch.width = 8 * wordBytes arch := by
    cases arch <;> rfl
  apply BitVec.eq_of_getLsbD_eq
  intro bit below
  have inside : bit / 8 < wordBytes arch := by omega
  have place : 8 * (bit / 8) + bit % 8 = bit := Nat.div_add_mod bit 8
  have remainder : bit % 8 < 8 := Nat.mod_lt bit (by decide)
  have bits := congrArg (fun byte => byte.getLsbD (bit % 8)) (same (bit / 8) inside)
  simpa [byteOf, remainder, place] using bits

theorem byteOf_setLow (word : Word arch) (value : U32) {index : Nat}
    (high : 4 ≤ index) : byteOf (word.setLow value) index = byteOf word index := by
  have inHigh (whole : Word arch) :
      byteOf whole index = byteOf (whole >>> 32) (index - 4) := by
    apply BitVec.eq_of_getLsbD_eq
    intro bit below
    have place : 32 + (8 * (index - 4) + bit) = 8 * index + bit := by omega
    simp [byteOf, below, place]
  rw [inHigh, Word.high_setLow, ← inHigh]

theorem byteOf_highHalf (word : BitVec 64) {index : Nat} (high : 4 ≤ index)
    (below : index < 8) : byteOf word index = byteOf (highHalf word) (index - 4) := by
  apply BitVec.eq_of_getLsbD_eq
  intro bit inside
  have place : 32 + (8 * (index - 4) + bit) = 8 * index + bit := by omega
  have inHalf : 8 * (index - 4) + bit < 32 := by omega
  simp [byteOf, highHalf, inside, inHalf, place]

namespace Desc

def word (desc : Desc arch) : Nat → Word arch
  | 0 => desc.word0
  | 1 => desc.word1
  | 2 => desc.word2
  | 3 => desc.word3
  | _ => desc.word4

/-- `sizeof(smc_op_desc_t)` -/
def size (arch : Arch) : Nat :=
  5 * wordBytes arch

/-- The byte at an offset. -/
def byte (desc : Desc arch) (offset : Nat) : BitVec 8 :=
  byteOf (desc.word (offset / wordBytes arch)) (offset % wordBytes arch)

end Desc

/-- EL3 in memory. -/
structure El3Image (arch : Arch) (Paging : Type) where
  /-- The place in memory that EL3's tables lead to. -/
  translate : Paging → Word arch → Word arch
  /-- The address of `secure_state`. -/
  secureState : Word arch
  /-- The addresses of what the handler itself works with: code, tables, stack and
  the other data of EL3. -/
  working : Set (Word arch)

/-- The address of a byte of the word at `addr`. -/
def byteAddress (addr : Word arch) (index : Nat) : Word arch :=
  addr + BitVec.ofNat arch.width index

/-- A call of `el3_handle_smc`.  The interop words of `sys` are what the handler
loads from the descriptor. -/
structure SmcCall (arch : Arch) (Paging : Type) where
  op : Word arch
  desc : Word arch
  sys : Sys arch Paging

/-- The store of the `SMC_OP_GET_REG` case, by offset and size. -/
def el3GetRegStores (sys : Sys arch Paging) : List (Nat × Nat) :=
  if sys.interop.data.el = 3 ∧
      ((RegKey.ofCode? sys.interop.data.key).bind (el3ReadReg sys.regs)).isSome then
    [(wordBytes arch, wordBytes arch)]
  else
    []

/-- The offset of `fail` in `op_test_t`. -/
def failOffset : Arch → Nat
  | .aarch64 => 20
  | .arm => 12

/-- The stores to `val`, `count` and `fail`. -/
def testStores (test : OpTest arch) : List (Nat × Nat) :=
  [(wordBytes arch, wordBytes arch), (2 * wordBytes arch, 4)] ++
    if test.val ≠ test.orig >>> test.count.toNat then [(failOffset arch, 4)] else []

/-- What the `switch` statement of `el3_handle_smc` stores to the descriptor. -/
def el3Stores (op : Word arch) (sys : Sys arch Paging) : List (Nat × Nat) :=
  match SmcOp.ofCode? op with
  | some .test =>
      testStores sys.interop.test ++
        el3GetRegStores (sys.setInterop (sys.interop.setTest sys.interop.test.hop))
  | some .getReg => el3GetRegStores sys
  | some .map =>
      if sys.interop.map.type &&& opMapSecEl1 = opMapSecEl1 then [(0, 4)] else []
  | _ => []

/-- The page that `mem_map_pa` maps an address in. -/
def pageOf : {arch : Arch} → Word arch → Nat
  | .aarch64, addr => addr.toNat % 2 ^ 48 / 4096
  | .arm, addr => addr.toNat / 4096

/-- The registers that the handler runs with: on ARM the mode, the instruction
set and the byte order in the CPSR, and the SCTLR of the secure state. -/
def KeepsHandlerReg :
    {arch : Arch} → Regs arch → RegKey → Word arch → Prop
  | .arm, _, .cpsr, data => (data : BitVec 32) &&& 0x23F = 0x16
  | .arm, regs, .sctlr, data => regs.scr.nsBit = false → data = regs.sctlr
  | _, _, _, _ => True

/-- A test function at EL3 leaves these registers alone. -/
def Handler.KeepsHandlerRegs : Handler arch → Regs arch → Prop
  | .done, _ => True
  | .getReg key _ next, regs =>
      match (RegKey.ofCode? key).bind (el3ReadReg regs) with
      | some data => (next data).KeepsHandlerRegs regs
      | none => (next 0).KeepsHandlerRegs regs
  | .setReg key _ data next, regs =>
      match RegKey.ofCode? key with
      | some key =>
          KeepsHandlerReg regs key data ∧
            next.KeepsHandlerRegs (el3WriteReg regs key data)
      | none => next.KeepsHandlerRegs regs

namespace SmcCall

variable (call : SmcCall arch Paging)

/-- The byte of the descriptor at `offset` is the byte of EL3 at `addr`. -/
def Reaches (image : El3Image arch Paging) (offset : Nat) (addr : Word arch) : Prop :=
  image.translate call.sys.paging (byteAddress call.desc offset) =
    image.translate call.sys.paging addr

/-- The handler stores to the byte of the descriptor at `offset`. -/
def Stores (offset : Nat) : Prop :=
  ∃ field ∈ el3Stores call.op call.sys, field.1 ≤ offset ∧ offset < field.1 + field.2

/-- The handler maps the page of `addr` at EL3. -/
def Remaps (addr : Word arch) : Prop :=
  SmcOp.ofCode? call.op = some .map ∧
    call.sys.interop.map.type &&& opMapEl3 = opMapEl3 ∧
      pageOf addr = pageOf call.sys.interop.map.va

/-- After the call, EL3 may find another byte at `addr`. -/
def Overwrites (image : El3Image arch Paging) (addr : Word arch) : Prop :=
  (∃ offset, call.Stores offset ∧ call.Reaches image offset addr) ∨ call.Remaps addr

/-- A register request or a test function of EL3 keeps the registers that the
handler runs with. -/
def KeepsRegs (env : Env arch Paging) : Prop :=
  match SmcOp.ofCode? call.op with
  | some .setReg =>
      ∀ key, RegKey.ofCode? call.sys.interop.data.key = some key →
        call.sys.interop.data.el = 3 →
        KeepsHandlerReg call.sys.regs key call.sys.interop.data.data
  | some .dispatch =>
      KeptByEl3 call.sys →
        ∀ test, el3Test? env call.sys = some test → test.KeepsHandlerRegs call.sys.regs
  | _ => True

/-- A test that EL3 runs itself is looked up inside of its `test_func`. -/
def LooksUp : Prop :=
  SmcOp.ofCode? call.op = some .dispatch → KeptByEl3 call.sys →
    call.sys.interop.disp.fid.toNat < (testFuncTable arch .el3).length

/-- The handler does not take away the memory or the registers that it runs
with. -/
structure SparesHandler (env : Env arch Paging) (image : El3Image arch Paging) :
    Prop where
  working : ∀ addr ∈ image.working, ¬call.Overwrites image addr
  /-- `el3_map_mem` reads the descriptor again after `mem_map_pa`. -/
  desc : ∀ offset < Desc.size arch, ¬call.Remaps (byteAddress call.desc offset)
  regs : call.KeepsRegs env
  lookup : call.LooksUp

/-- Where the descriptor lies over a word of the monitor or over `secure_state`,
the handler loads what is there. -/
structure Loads (image : El3Image arch Paging) (words : Set (Word arch))
    (mem : Word arch → Word arch) : Prop where
  words : ∀ addr ∈ words, ∀ index < wordBytes arch, ∀ offset < Desc.size arch,
    call.Reaches image offset (byteAddress addr index) →
    call.sys.interop.byte offset = byteOf (mem addr) index
  secureState : ∀ index < 4, ∀ offset < Desc.size arch,
    call.Reaches image offset (byteAddress image.secureState index) →
    call.sys.interop.byte offset = byteOf call.sys.secureState index

/-- What the call makes of the words of the monitor, `desc` being the descriptor
that the handler leaves. -/
structure Leaves (image : El3Image arch Paging) (words : Set (Word arch))
    (before after : Word arch → Word arch) (desc : Desc arch) : Prop where
  kept : ∀ addr ∈ words, ∀ index < wordBytes arch,
    ¬call.Overwrites image (byteAddress addr index) →
    byteOf (after addr) index = byteOf (before addr) index
  /-- Unless two bytes of the descriptor are one in memory. -/
  stored : ∀ addr ∈ words, ∀ index < wordBytes arch, ∀ offset < Desc.size arch,
    call.Stores offset → call.Reaches image offset (byteAddress addr index) →
    (∀ other < Desc.size arch,
      call.Reaches image other (byteAddress addr index) → other = offset) →
    ¬call.Remaps (byteAddress addr index) →
    byteOf (after addr) index = desc.byte offset

/-- The call spares words in memory. -/
def SparesWords (image : El3Image arch Paging) (words : Set (Word arch)) : Prop :=
  ∀ addr ∈ words, ∀ index < wordBytes arch,
    ¬call.Overwrites image (byteAddress addr index)

def SparesSecureState (image : El3Image arch Paging) : Prop :=
  ∀ index < 4, ¬call.Overwrites image (byteAddress image.secureState index)

/-- The call spares EL3: its handler, the words that the monitor keeps, and
`secure_state`. -/
structure SparesEl3 (env : Env arch Paging) (image : El3Image arch Paging)
    (words : Set (Word arch)) : Prop where
  handler : call.SparesHandler env image
  words : call.SparesWords image words
  secureState : call.SparesSecureState image

variable {call} {env : Env arch Paging} {image : El3Image arch Paging}
  {words : Set (Word arch)}

theorem Leaves.same {before after : Word arch → Word arch} {desc : Desc arch}
    (leaves : call.Leaves image words before after desc)
    (spares : call.SparesWords image words) :
    ∀ addr ∈ words, after addr = before addr := by
  intro addr member
  apply eq_of_byteOf
  intro index inside
  exact leaves.kept addr member index inside (spares addr member index inside)

end SmcCall

namespace Desc

theorem byte_of_word {left right : Desc arch} {offset : Nat}
    (same : left.word (offset / wordBytes arch) = right.word (offset / wordBytes arch)) :
    left.byte offset = right.byte offset :=
  congrArg (byteOf · (offset % wordBytes arch)) same

theorem byte_of_place (desc : Desc arch) {place index : Nat}
    (aligned : place % wordBytes arch = 0) (inWord : index < wordBytes arch) :
    desc.byte (place + index) = byteOf (desc.word (place / wordBytes arch)) index := by
  obtain ⟨count, rfl⟩ := Nat.dvd_of_mod_eq_zero aligned
  unfold byte
  rw [Nat.mul_add_div (wordBytes_pos arch), Nat.mul_add_mod, Nat.div_eq_of_lt inWord,
    Nat.mod_eq_of_lt inWord, Nat.mul_div_cancel_left _ (wordBytes_pos arch),
    Nat.add_zero]

theorem word_congr {left right : Desc arch} {index : Nat}
    (first : index = 0 → left.word0 = right.word0)
    (second : index = 1 → left.word1 = right.word1)
    (third : index = 2 → left.word2 = right.word2)
    (fourth : index = 3 → left.word3 = right.word3)
    (fifth : left.word4 = right.word4) : left.word index = right.word index := by
  rcases index with _ | _ | _ | _ | _
  · exact first rfl
  · exact second rfl
  · exact third rfl
  · exact fourth rfl
  · exact fifth

theorem word_setDataData (desc : Desc arch) (data : Word arch) {index : Nat}
    (other : index ≠ 1) : (desc.setDataData data).word index = desc.word index :=
  word_congr (fun _ => rfl) (absurd · other) (fun _ => rfl) (fun _ => rfl) rfl

theorem byte_setDataData (desc : Desc arch) (data : Word arch) {offset : Nat}
    (outside : ¬(wordBytes arch ≤ offset ∧ offset < wordBytes arch + wordBytes arch)) :
    (desc.setDataData data).byte offset = desc.byte offset := by
  apply byte_of_word
  apply word_setDataData
  intro first
  obtain ⟨low, high⟩ :=
    (Nat.div_eq_iff (wordBytes_pos arch)).mp first
  have positive := wordBytes_pos arch
  exact outside ⟨by omega, by omega⟩

theorem byte_setMapType (desc : Desc arch) (type : U32) {offset : Nat}
    (outside : 4 ≤ offset) :
    (desc.setMap { desc.map with type := type }).byte offset = desc.byte offset := by
  by_cases first : offset / wordBytes arch = 0
  · have inWord : offset % wordBytes arch = offset :=
      Nat.mod_eq_of_lt ((Nat.div_eq_zero_iff_lt (wordBytes_pos arch)).mp first)
    unfold byte
    rw [first, inWord]
    exact byteOf_setLow desc.word0 type outside
  · apply byte_of_word
    exact word_congr (absurd · first) (fun _ => rfl) (fun _ => rfl) (fun _ => rfl) rfl

theorem fail_hop {test : OpTest arch}
    (outside : ∀ field ∈ testStores test, field ≠ (failOffset arch, 4)) :
    test.hop.fail = test.fail := by
  by_cases mismatch : test.val ≠ test.orig >>> test.count.toNat
  · exact absurd rfl (outside (failOffset arch, 4) (by simp [testStores, mismatch]))
  · exact if_neg mismatch

theorem byte_setTest_hop (desc : Desc arch) {offset : Nat}
    (outside : ∀ field ∈ testStores desc.test,
      ¬(field.1 ≤ offset ∧ offset < field.1 + field.2)) :
    (desc.setTest desc.test.hop).byte offset = desc.byte offset := by
  have notVal := outside (wordBytes arch, wordBytes arch) (by simp [testStores])
  have notCount := outside (2 * wordBytes arch, 4) (by simp [testStores])
  have quiet (inFail : failOffset arch ≤ offset ∧ offset < failOffset arch + 4) :
      desc.test.hop.fail = desc.test.fail := by
    apply fail_hop
    rintro field member rfl
    exact outside _ member inFail
  cases arch with
  | aarch64 =>
      simp only [wordBytes, failOffset] at notVal notCount quiet
      by_cases second : offset / 8 = 2
      · have high : 4 ≤ offset % 8 := by omega
        have below : offset % 8 < 8 := Nat.mod_lt offset (by decide)
        have upper (word : BitVec 64) := byteOf_highHalf word high below
        have kept : highHalf ((desc.setTest desc.test.hop).word2 : BitVec 64) =
            highHalf (desc.word2 : BitVec 64) :=
          (highHalf_setHighHalf _ _).trans (quiet (by omega))
        show byteOf ((desc.setTest desc.test.hop).word (offset / 8)) (offset % 8) =
          byteOf (desc.word (offset / 8)) (offset % 8)
        rw [second]
        refine (upper _).trans (Eq.trans ?_ (upper _).symm)
        exact congrArg (byteOf · (offset % 8 - 4)) kept
      · apply byte_of_word
        have notFirst : offset / 8 ≠ 1 := by omega
        show (desc.setTest desc.test.hop).word (offset / 8) = desc.word (offset / 8)
        exact word_congr (fun _ => rfl) (absurd · notFirst) (absurd · second)
          (fun _ => rfl) rfl
  | arm =>
      simp only [wordBytes, failOffset] at notVal notCount quiet
      apply byte_of_word
      have notFirst : offset / 4 ≠ 1 := by omega
      have notSecond : offset / 4 ≠ 2 := by omega
      have third (inFail : offset / 4 = 3) : desc.test.hop.fail = desc.test.fail :=
        quiet (by omega)
      show (desc.setTest desc.test.hop).word (offset / 4) = desc.word (offset / 4)
      refine word_congr (fun _ => rfl) (absurd · notFirst) (absurd · notSecond)
        (fun inFail => ?_) rfl
      show desc.word3.setLow desc.test.hop.fail = desc.word3
      rw [third inFail]
      exact Word.setLow_low desc.word3

end Desc

section Handler

variable {env : Env arch Paging} {op : Word arch} {sys after : Sys arch Paging}
  {code : U32}

theorem byte_el3GetReg {offset : Nat}
    (outside : ∀ field ∈ el3GetRegStores sys,
      ¬(field.1 ≤ offset ∧ offset < field.1 + field.2)) :
    (el3GetReg sys).interop.byte offset = sys.interop.byte offset := by
  rcases sys.el3GetReg_cases with ⟨level, data, found, read⟩ | ⟨_, kept⟩
  · have stores : el3GetRegStores sys = [(wordBytes arch, wordBytes arch)] := by
      apply if_pos
      exact ⟨level, by rw [found]; rfl⟩
    rw [stores] at outside
    rw [read]
    exact Desc.byte_setDataData _ _ (outside _ (List.mem_singleton.mpr rfl))
  · rw [kept]

theorem byte_el3MapMem (answered : el3MapMem env sys = some (code, after))
    {offset : Nat}
    (outside : sys.interop.map.type &&& opMapSecEl1 = opMapSecEl1 → 4 ≤ offset) :
    after.interop.byte offset = sys.interop.byte offset := by
  have end_cases {paging : Paging}
      (returned :
        (if sys.interop.map.type &&& opMapSecEl1 = opMapSecEl1 then
          some (SvcOp.map.code, mapMasked sys paging)
        else
          some (0, { sys with paging := paging })) = some (code, after)) :
      after.interop.byte offset = sys.interop.byte offset := by
    split at returned
    · rename_i secure
      cases returned
      exact Desc.byte_setMapType _ _ (outside secure)
    · cases returned
      rfl
  by_cases toEl3 : sys.interop.map.type &&& opMapEl3 = opMapEl3
  · simp only [el3MapMem, if_pos toEl3] at answered
    obtain ⟨paging, _, returned⟩ := Option.bind_eq_some_iff.mp answered
    exact end_cases returned
  · simp only [el3MapMem, if_neg toEl3] at answered
    obtain ⟨paging, _, returned⟩ := Option.bind_eq_some_iff.mp answered
    exact end_cases returned

/-- `el3Stores` leaves out no store. -/
theorem byte_el3HandleSmc (answered : el3HandleSmc env op sys = some (code, after))
    {offset : Nat}
    (outside : ∀ field ∈ el3Stores op sys,
      ¬(field.1 ≤ offset ∧ offset < field.1 + field.2)) :
    after.interop.byte offset = sys.interop.byte offset := by
  obtain ⟨⟨ret, served⟩, switched, returned⟩ := Option.map_eq_some_iff.mp answered
  have same : after.interop = served.interop := by
    dsimp only at returned
    split at returned <;> cases returned <;> rfl
  rw [same]
  unfold el3Switch at switched
  unfold el3Stores at outside
  cases named : SmcOp.ofCode? op with
  | none =>
      simp only [named] at switched
      cases switched
      rfl
  | some operation =>
  simp only [named] at switched outside
  cases operation with
  | noop => cases switched; rfl
  | exit => cases switched; rfl
  | yield => cases switched; rfl
  | test =>
      cases switched
      rw [byte_el3GetReg fun field member =>
        outside field (List.mem_append_right _ member)]
      exact Desc.byte_setTest_hop _ fun field member =>
        outside field (List.mem_append_left _ member)
  | map =>
      apply byte_el3MapMem switched
      intro secure
      rw [if_pos secure] at outside
      have apart := outside (0, 4) (List.mem_singleton.mpr rfl)
      simpa using apart
  | getReg =>
      cases switched
      exact byte_el3GetReg outside
  | setReg =>
      cases switched
      rw [interop_el3SetReg]
  | dispatch =>
      have dispatched := Option.some.inj switched
      unfold el3Dispatch at dispatched
      dsimp only at dispatched
      split at dispatched
      · cases dispatched
        rw [interop_el3RunTest]
      · cases dispatched
        rfl

/-- The state after an SMC that writes neither registers nor page tables. -/
def Sys.answered (sys : Sys arch Paging) (code : U32) (stored : Desc arch) :
    Sys arch Paging :=
  { sys with
    interop := stored
    secureState := if code = 0 then sys.secureState else sys.secureState ^^^ 1 }

theorem el3HandleSmc_yield :
    el3HandleSmc env (U32.word arch SmcOp.yield.code) sys =
      some (SvcOp.yield.code, sys.answered SvcOp.yield.code sys.interop) := by
  simp only [el3HandleSmc, el3Switch, SmcOp.ofCode?_code, Option.map_some]
  rfl

theorem el3GetReg_eq_setInterop (sys : Sys arch Paging) :
    el3GetReg sys = sys.setInterop (el3GetReg sys).interop := by
  rcases sys.el3GetReg_cases with ⟨_, data, _, read⟩ | ⟨_, kept⟩
  · rw [read]
    rfl
  · rw [kept]
    rfl

theorem el3HandleSmc_getReg :
    el3HandleSmc env (U32.word arch SmcOp.getReg.code) sys =
      some (0, sys.answered 0 (el3GetReg sys).interop) := by
  simp only [el3HandleSmc, el3Switch, SmcOp.ofCode?_code, Option.map_some]
  rw [el3GetReg_eq_setInterop]
  rfl

/-- The descriptor after `SMC_OP_TEST`, which goes on into `SMC_OP_GET_REG`. -/
def testStored (sys : Sys arch Paging) : Desc arch :=
  (el3GetReg (sys.setInterop (sys.interop.setTest sys.interop.test.hop))).interop

theorem el3HandleSmc_test :
    el3HandleSmc env (U32.word arch SmcOp.test.code) sys =
      some (SvcOp.test.code, sys.answered SvcOp.test.code (testStored sys)) := by
  simp only [el3HandleSmc, el3Switch, SmcOp.ofCode?_code, Option.map_some]
  rw [el3GetReg_eq_setInterop]
  rfl

/-- The answer to an SMC that works with nothing but the descriptor, and what is
left there. -/
def inDescriptorAnswer (op : SmcOp) (sys : Sys arch Paging) : U32 × Desc arch :=
  match op with
  | .test => (SvcOp.test.code, testStored sys)
  | .getReg => (0, (el3GetReg sys).interop)
  | _ => (SvcOp.yield.code, sys.interop)

theorem el3HandleSmc_inDescriptor {op : SmcOp} (member : op ∈ [.yield, .test, .getReg]) :
    el3HandleSmc env (U32.word arch op.code) sys =
      some ((inDescriptorAnswer op sys).1,
        sys.answered (inDescriptorAnswer op sys).1 (inDescriptorAnswer op sys).2) := by
  simp only [List.mem_cons, List.not_mem_nil, or_false] at member
  rcases member with rfl | rfl | rfl
  · exact el3HandleSmc_yield
  · exact el3HandleSmc_test
  · exact el3HandleSmc_getReg

theorem keepsNs_inDescriptor {op : SmcOp} (member : op ∈ [.yield, .test, .getReg]) :
    KeepsNs env (U32.word arch op.code) sys := by
  unfold KeepsNs
  rw [SmcOp.ofCode?_code]
  simp only [List.mem_cons, List.not_mem_nil, or_false] at member
  rcases member with rfl | rfl | rfl <;> trivial

end Handler

namespace SmcCall

variable {call : SmcCall arch Paging} {image : El3Image arch Paging}
  {words : Set (Word arch)} {mem : Word arch → Word arch}

/-- Memory after the handler has left `desc` in the caller's descriptor. -/
def writeBack (call : SmcCall arch Paging) (desc : Desc arch)
    (mem : Word arch → Word arch) (addr : Word arch) : Word arch :=
  if (addr - call.desc).toNat < Desc.size arch then
    desc.word ((addr - call.desc).toNat / wordBytes arch)
  else
    mem addr

/-- Where an address stands for itself, a descriptor that is aligned with the
words lies over whole words. -/
theorem reaches_iff (plain : ∀ addr, image.translate call.sys.paging addr = addr)
    {addr : Word arch} (aligned : (addr - call.desc).toNat % wordBytes arch = 0)
    {index offset : Nat} (inWord : index < wordBytes arch)
    (inDesc : offset < Desc.size arch) :
    call.Reaches image offset (byteAddress addr index) ↔
      offset = (addr - call.desc).toNat + index := by
  have distance : byteAddress addr index =
      call.desc + ((addr - call.desc) + BitVec.ofNat arch.width index) := by
    unfold byteAddress
    grind
  have room : (addr - call.desc).toNat + index < 2 ^ arch.width := by
    have below := (addr - call.desc).isLt
    generalize (addr - call.desc).toNat = place at aligned below ⊢
    cases arch <;> simp only [wordBytes, Arch.width] at * <;> omega
  have small : offset < 2 ^ arch.width := by
    refine Nat.lt_trans inDesc ?_
    cases arch <;> decide
  unfold Reaches
  rw [plain, plain, distance, byteAddress, BitVec.add_right_inj]
  constructor
  · intro same
    have numbers := congrArg BitVec.toNat same
    rw [BitVec.toNat_add, BitVec.toNat_ofNat, BitVec.toNat_ofNat,
      Nat.mod_eq_of_lt small, Nat.add_mod_mod, Nat.mod_eq_of_lt room] at numbers
    exact numbers
  · rintro rfl
    rw [BitVec.ofNat_add, BitVec.ofNat_toNat, BitVec.setWidth_eq]

theorem leaves_writeBack {env : Env arch Paging} {code : U32}
    {after : Sys arch Paging}
    (plain : ∀ addr, image.translate call.sys.paging addr = addr)
    (aligned : ∀ addr ∈ words, (addr - call.desc).toNat % wordBytes arch = 0)
    (loads : call.Loads image words mem)
    (answered : el3HandleSmc env call.op call.sys = some (code, after)) :
    call.Leaves image words mem (call.writeBack after.interop mem) after.interop := by
  have positive := wordBytes_pos arch
  constructor
  · intro addr member index inWord quiet
    have onWord := aligned addr member
    by_cases inside : (addr - call.desc).toNat < Desc.size arch
    · have inDesc : (addr - call.desc).toNat + index < Desc.size arch := by
        unfold Desc.size at inside ⊢
        obtain ⟨place, whole⟩ := Nat.dvd_of_mod_eq_zero onWord
        rw [whole, Nat.mul_comm] at inside ⊢
        have early := Nat.lt_of_mul_lt_mul_right inside
        calc place * wordBytes arch + index
            < place * wordBytes arch + wordBytes arch := Nat.add_lt_add_left inWord _
          _ = (place + 1) * wordBytes arch := (Nat.succ_mul _ _).symm
          _ ≤ 5 * wordBytes arch := Nat.mul_le_mul_right _ early
      have reaches := (reaches_iff plain onWord inWord inDesc).mpr rfl
      have unchanged := byte_el3HandleSmc answered fun field stored within =>
        quiet (.inl ⟨_, ⟨field, stored, within⟩, reaches⟩)
      rw [writeBack, if_pos inside, ← loads.words addr member index inWord _ inDesc reaches,
        ← unchanged]
      exact (after.interop.byte_of_place onWord inWord).symm
    · rw [writeBack, if_neg inside]
  · intro addr member index inWord offset inDesc _ reaches _ _
    have onWord := aligned addr member
    have place := (reaches_iff plain onWord inWord inDesc).mp reaches
    have inside : (addr - call.desc).toNat < Desc.size arch :=
      Nat.lt_of_le_of_lt (place ▸ Nat.le_add_right _ _) inDesc
    rw [writeBack, if_pos inside, place]
    exact (after.interop.byte_of_place onWord inWord).symm

theorem lt_size_of_mem_el3GetRegStores {sys : Sys arch Paging} {field : Nat × Nat}
    (member : field ∈ el3GetRegStores sys) : field.1 + field.2 ≤ Desc.size arch := by
  unfold el3GetRegStores at member
  split at member
  · rw [List.mem_singleton.mp member]
    cases arch <;> decide
  · cases member

theorem lt_size_of_mem_testStores {test : OpTest arch} {field : Nat × Nat}
    (member : field ∈ testStores test) : field.1 + field.2 ≤ Desc.size arch := by
  unfold testStores at member
  split at member
  · simp only [List.cons_append, List.nil_append, List.mem_cons, List.not_mem_nil,
      or_false] at member
    rcases member with rfl | rfl | rfl <;> cases arch <;> decide
  · simp only [List.append_nil, List.mem_cons, List.not_mem_nil, or_false] at member
    rcases member with rfl | rfl <;> cases arch <;> decide

theorem Stores.lt_size {offset : Nat} (stores : call.Stores offset) :
    offset < Desc.size arch := by
  obtain ⟨field, member, _, below⟩ := stores
  refine Nat.lt_of_lt_of_le below ?_
  unfold el3Stores at member
  split at member
  · rcases List.mem_append.mp member with inTest | inGetReg
    · exact lt_size_of_mem_testStores inTest
    · exact lt_size_of_mem_el3GetRegStores inGetReg
  · exact lt_size_of_mem_el3GetRegStores member
  · split at member
    · rw [List.mem_singleton.mp member]
      cases arch <;> decide
    · cases member
  · cases member

/-- The descriptor is made of the words that it lies over. -/
theorem loads_of_words (plain : ∀ addr, image.translate call.sys.paging addr = addr)
    (aligned : ∀ addr ∈ words, (addr - call.desc).toNat % wordBytes arch = 0)
    (held : ∀ addr ∈ words, (addr - call.desc).toNat < Desc.size arch →
      call.sys.interop.word ((addr - call.desc).toNat / wordBytes arch) = mem addr)
    (secureState : ∀ index < 4, ∀ offset < Desc.size arch,
      ¬call.Reaches image offset (byteAddress image.secureState index)) :
    call.Loads image words mem := by
  constructor
  · intro addr member index inWord offset inDesc reaches
    have onWord := aligned addr member
    have place := (reaches_iff plain onWord inWord inDesc).mp reaches
    have inside : (addr - call.desc).toNat < Desc.size arch :=
      Nat.lt_of_le_of_lt (place ▸ Nat.le_add_right _ _) inDesc
    rw [place, Desc.byte_of_place _ onWord inWord, held addr member inside]
  · intro index inWord offset inDesc reaches
    exact absurd reaches (secureState index inWord offset inDesc)

/-- No byte of the descriptor is a byte that EL3 has at one of the addresses. -/
def Apart (call : SmcCall arch Paging) (image : El3Image arch Paging)
    (addresses : Set (Word arch)) : Prop :=
  ∀ offset < Desc.size arch, ∀ addr ∈ addresses, ¬call.Reaches image offset addr

/-- The operations that work with nothing but the descriptor. -/
def InDescriptor (call : SmcCall arch Paging) : Prop :=
  SmcOp.ofCode? call.op ∉ [some .map, some .setReg, some .dispatch]

theorem inDescriptor_of_op {op : SmcOp} (named : call.op = U32.word arch op.code)
    (member : op ∈ [.yield, .test, .getReg]) : call.InDescriptor := by
  unfold InDescriptor
  rw [named, SmcOp.ofCode?_code]
  simp only [List.mem_cons, List.not_mem_nil, or_false] at member
  rcases member with rfl | rfl | rfl <;> decide

theorem InDescriptor.not_remaps (inDescriptor : call.InDescriptor) (addr : Word arch) :
    ¬call.Remaps addr := by
  rintro ⟨named, _⟩
  exact inDescriptor (by rw [named]; decide)

theorem InDescriptor.spares {addresses : Set (Word arch)}
    (inDescriptor : call.InDescriptor) (apart : call.Apart image addresses) :
    ∀ addr ∈ addresses, ¬call.Overwrites image addr := by
  rintro addr member (⟨offset, stores, reaches⟩ | remaps)
  · exact apart offset stores.lt_size addr member reaches
  · exact inDescriptor.not_remaps addr remaps

theorem InDescriptor.sparesHandler {env : Env arch Paging}
    (inDescriptor : call.InDescriptor) (apart : call.Apart image image.working) :
    call.SparesHandler env image where
  working := inDescriptor.spares apart
  desc := fun _ _ => inDescriptor.not_remaps _
  regs := by
    unfold InDescriptor at inDescriptor
    unfold KeepsRegs
    split
    · rename_i named
      exact absurd (by rw [named]; decide) inDescriptor
    · rename_i named
      exact absurd (by rw [named]; decide) inDescriptor
    · trivial
  lookup := fun named =>
    absurd (by rw [named]; decide) inDescriptor

/-- The bytes of the words and of `secure_state`. -/
def monitorBytes (image : El3Image arch Paging) (words : Set (Word arch)) :
    Set (Word arch) :=
  { place | (∃ addr ∈ words, ∃ index < wordBytes arch, byteAddress addr index = place) ∨
      ∃ index < 4, byteAddress image.secureState index = place }

theorem InDescriptor.sparesEl3 {env : Env arch Paging}
    (inDescriptor : call.InDescriptor) (working : call.Apart image image.working)
    (bytes : call.Apart image (monitorBytes image words)) :
    call.SparesEl3 env image words where
  handler := inDescriptor.sparesHandler working
  words := fun addr member index inWord =>
    inDescriptor.spares bytes _ (.inl ⟨addr, member, index, inWord, rfl⟩)
  secureState := fun index inWord =>
    inDescriptor.spares bytes _ (.inr ⟨index, inWord, rfl⟩)

theorem Apart.loads (bytes : call.Apart image (monitorBytes image words)) :
    call.Loads image words mem where
  words := fun addr member index inWord offset inDesc reaches =>
    absurd reaches (bytes offset inDesc _ (.inl ⟨addr, member, index, inWord, rfl⟩))
  secureState := fun index inWord offset inDesc reaches =>
    absurd reaches (bytes offset inDesc _ (.inr ⟨index, inWord, rfl⟩))

end SmcCall

end TzTest
