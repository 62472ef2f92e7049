import TzTest.Exceptions
import TzTest.Monitor.El1Vector

/-!
# The exception record on AArch64

What `syncntl->excp` holds after a synchronous exception that is no system
call, on each of the four vectors of EL1 and EL3.
-/

namespace TzTest.Aarch64

open Cpu

/-- `el3_sync_exception_current`, up to the call. -/
def currentEntry (c : Cpu) : Cpu :=
  let c := strPush (.x 30) c
  let c := stpPush (.x 2) (.x 3) c
  let c := stpPush (.x 0) (.x 1) c
  let c := mov (.x 0) .esrEl3 c
  let c := c.set (.x 1) 0xffffff
  let c := c.set (.x 1) (c.regs (.x 1) &&& c.regs (.x 0))
  let c := c.set (.x 0) (c.regs (.x 0) >>> 26)
  let c := mov (.x 2) .farEl3 c
  mov (.x 3) .elrEl3 c

/-- The vectors of synchronous exceptions. -/
inductive SyncVector where
  | el1Current (world : World)
  | el1Lower64 (world : World)
  | el3Current
  | el3Lower64
  deriving DecidableEq, Repr

namespace SyncVector

/-- The level of the handler. -/
def image : SyncVector → Image
  | el1Current world => .el1 world
  | el1Lower64 world => .el1 world
  | el3Current => .el3
  | el3Lower64 => .el3

/-- The security state of the handler; EL3 is secure. -/
def world : SyncVector → World
  | el1Current world => world
  | el1Lower64 world => world
  | el3Current => .secure
  | el3Lower64 => .secure

/-- The vector's instructions up to its call or its comparisons, with the
syndrome and the fault address in the registers of its level. -/
def entry (vector : SyncVector) (esr : U32) (far : BitVec 64) (c : Cpu) : Cpu :=
  match vector with
  | el1Current _ => El1.currentEntry far (c.set .esrEl1 (esr.setWidth 64))
  | el1Lower64 _ => El1.lower64Entry far (c.set .esrEl1 (esr.setWidth 64))
  | el3Current =>
      currentEntry ((c.set .esrEl3 (esr.setWidth 64)).set .farEl3 far)
  | el3Lower64 =>
      lower64Entry ((c.set .esrEl3 (esr.setWidth 64)).set .farEl3 far)

/-- The comparisons of the vector lead to the handler of system calls. -/
def Calls (vector : SyncVector) (c : Cpu) : Prop :=
  match vector with
  | el1Current _ => False
  | el1Lower64 _ => El1.IsSvc c
  | el3Current => False
  | el3Lower64 => IsSmc c

/-- The call of `el1_handle_exception` or of `el3_handle_exception`. -/
def handle (vector : SyncVector) (c : Cpu) (excp : SysException) :
    SysException :=
  let ec : Word .aarch64 := c.regs (.x 0)
  let iss : Word .aarch64 := c.regs (.x 1)
  let far : Word .aarch64 := c.regs (.x 2)
  let elr : Word .aarch64 := c.regs (.x 3)
  match vector with
  | el1Current world => (el1HandleException world ec iss far elr excp).1
  | el1Lower64 world => (el1HandleException world ec iss far elr excp).1
  | el3Current => (el3HandleException ec iss far elr excp).1
  | el3Lower64 => (el3HandleException ec iss far elr excp).1

/-- The exception class of a system call to the level of the vector, where the
vector has one. -/
def SystemCall (vector : SyncVector) (esr : U32) : Prop :=
  match vector with
  | el1Current _ => False
  | el1Lower64 _ => esr.extractLsb 31 26 = 0x15 ∨ esr.extractLsb 31 26 = 0x11
  | el3Current => False
  | el3Lower64 => esr.extractLsb 31 26 = 0x17 ∨ esr.extractLsb 31 26 = 0x13

end SyncVector

/-- The record tells the whole of the syndrome and of the fault address. -/
structure Faithful (vector : SyncVector) (esr : U32) (far : BitVec 64)
    (record : SysException) : Prop where
  ec : record.ec.toNat = (esr.extractLsb 31 26).toNat
  iss : record.iss.toNat = (esr.extractLsb 24 0).toNat
  far : record.far.toNat = far.toNat
  el : record.el = vector.image.exceptionLevel
  state : record.state = vector.world.state

/-- What the vectors pass to their handlers. -/
structure Arguments (esr : U32) (far : BitVec 64) (c : Cpu) : Prop where
  ec : c.regs (.x 0) = esr.setWidth 64 >>> 26
  iss : c.regs (.x 1) = 0xffffff &&& esr.setWidth 64
  far : c.regs (.x 2) = far

section Vectors

variable {c : Cpu}

theorem regs_strPush {first reg : Reg} (user : reg ≠ .spEl0)
    (monitor : reg ≠ .spEl3) : (strPush first c).regs reg = c.regs reg := by
  apply regs_set_of_ne
  unfold Cpu.sp
  split_ifs
  · exact user
  · exact monitor

theorem regs_stpPush {first second reg : Reg} (user : reg ≠ .spEl0)
    (monitor : reg ≠ .spEl3) : (stpPush first second c).regs reg = c.regs reg := by
  apply regs_set_of_ne
  unfold Cpu.sp
  split_ifs
  · exact user
  · exact monitor

theorem arguments_entry (vector : SyncVector) (esr : U32) (far : BitVec 64)
    (c : Cpu) : Arguments esr far (vector.entry esr far c) := by
  cases vector with
  | el1Current world =>
      constructor <;>
        simp [SyncVector.entry, El1.currentEntry, El1.syndrome, El1.strPush,
          El1.stpPush, mov, Cpu.set, store]
  | el1Lower64 world =>
      constructor <;>
        simp [SyncVector.entry, El1.lower64Entry, El1.syndrome, El1.strPush,
          El1.stpPush, mov, Cpu.set, store]
  | el3Current =>
      constructor <;>
        simp [SyncVector.entry, currentEntry, mov, regs_set_of_ne, regs_strPush,
          regs_stpPush]
  | el3Lower64 =>
      constructor <;>
        simp [SyncVector.entry, lower64Entry, mov, regs_set_of_ne, regs_strPush,
          regs_stpPush]

theorem class_toNat (esr : U32) :
    (esr.setWidth 64 >>> 26 : BitVec 64).toNat = esr.toNat / 2 ^ 26 := by
  have wide := esr.isLt
  rw [BitVec.toNat_ushiftRight, BitVec.toNat_setWidth, Nat.shiftRight_eq_div_pow,
    Nat.mod_eq_of_lt (by omega)]

theorem extractLsb_class (esr : U32) :
    (esr.extractLsb 31 26).toNat = esr.toNat / 2 ^ 26 := by
  have wide := esr.isLt
  rw [BitVec.extractLsb_toNat, Nat.shiftRight_eq_div_pow]
  exact Nat.mod_eq_of_lt (by omega)

theorem class_eq_iff (esr : U32) {code : Nat} (small : code < 64) :
    (esr.setWidth 64 >>> 26 : BitVec 64) = BitVec.ofNat 64 code ↔
      esr.extractLsb 31 26 = BitVec.ofNat 6 code := by
  rw [← BitVec.toNat_inj, ← BitVec.toNat_inj, class_toNat, extractLsb_class,
    BitVec.toNat_ofNat, BitVec.toNat_ofNat, Nat.mod_eq_of_lt (by omega),
    Nat.mod_eq_of_lt (by omega)]

theorem iss_toNat (esr : U32) :
    (0xffffff &&& esr.setWidth 64 : BitVec 64).toNat = esr.toNat % 2 ^ 24 := by
  have wide := esr.isLt
  have mask : (0xffffff : BitVec 64).toNat = 2 ^ 24 - 1 := by decide
  rw [BitVec.toNat_and, BitVec.toNat_setWidth, Nat.mod_eq_of_lt (by omega), mask,
    Nat.and_comm, Nat.and_two_pow_sub_one_eq_mod]

theorem extractLsb_iss (esr : U32) :
    (esr.extractLsb 24 0).toNat = esr.toNat % 2 ^ 25 := by
  rw [BitVec.extractLsb_toNat, Nat.shiftRight_zero]

theorem bit24_iff (esr : U32) :
    esr.getLsbD 24 = false ↔ esr.toNat % 2 ^ 24 = esr.toNat % 2 ^ 25 := by
  rw [BitVec.getLsbD, Nat.testBit_eq_decide_div_mod_eq, decide_eq_false_iff_not]
  omega

/-- The vector calls the handler of system calls for those alone. -/
theorem calls_entry_iff (vector : SyncVector) (esr : U32) (far : BitVec 64)
    (c : Cpu) :
    vector.Calls (vector.entry esr far c) ↔ vector.SystemCall esr := by
  have ec := (arguments_entry vector esr far c).ec
  cases vector with
  | el1Current world => exact Iff.rfl
  | el1Lower64 world =>
      change _ ∨ _ ↔ _ ∨ _
      rw [ec]
      exact or_congr (@class_eq_iff esr 0x15 (by decide))
        (@class_eq_iff esr 0x11 (by decide))
  | el3Current => exact Iff.rfl
  | el3Lower64 =>
      change _ ∨ _ ↔ _ ∨ _
      rw [ec]
      exact or_congr (@class_eq_iff esr 0x17 (by decide))
        (@class_eq_iff esr 0x13 (by decide))

theorem handle_of_log (vector : SyncVector) (c : Cpu) {excp : SysException}
    (log : excp.log = true) :
    vector.handle c excp =
      { excp with
        taken := true
        ec := (c.regs (.x 0)).setWidth 32
        iss := (c.regs (.x 1)).setWidth 32
        far := (c.regs (.x 2)).setWidth 32
        el := vector.image.exceptionLevel
        state := vector.world.state } := by
  cases vector <;> exact if_pos log

/-- The record is the whole truth where bit 24 of the syndrome is clear and the
fault address has 32 bits, and only there. -/
theorem exceptionRecord_faithful_iff (vector : SyncVector) (esr : U32)
    (far : BitVec 64) (c : Cpu) (excp : SysException) (log : excp.log = true)
    (other : ¬vector.SystemCall esr) :
    ¬vector.Calls (vector.entry esr far c) ∧
      (Faithful vector esr far (vector.handle (vector.entry esr far c) excp) ↔
        esr.getLsbD 24 = false ∧ far.toNat < 2 ^ 32) := by
  refine ⟨(calls_entry_iff vector esr far c).not.mpr other, ?_⟩
  obtain ⟨ec, iss, fault⟩ := arguments_entry vector esr far c
  have wide := esr.isLt
  rw [handle_of_log vector _ log, ec, iss, fault, bit24_iff]
  constructor
  · rintro ⟨-, sameIss, sameFar, -, -⟩
    rw [BitVec.toNat_setWidth, iss_toNat, extractLsb_iss] at sameIss
    rw [BitVec.toNat_setWidth] at sameFar
    omega
  · rintro ⟨bit, short⟩
    refine ⟨?_, ?_, ?_, rfl, rfl⟩
    · rw [BitVec.toNat_setWidth, class_toNat, extractLsb_class]
      omega
    · rw [BitVec.toNat_setWidth, iss_toNat, extractLsb_iss]
      omega
    · rw [BitVec.toNat_setWidth]
      omega

end Vectors

/-- An armed record. -/
def armed : SysException :=
  { SysException.zeroed with log := true }

def idleCpu : Cpu where
  regs _ := 0
  mem _ := 0

/-- A data abort at EL1 without a valid instruction syndrome. -/
theorem exceptionRecord_faithful_short :
    ¬(SyncVector.el1Current .nonsecure).Calls
        ((SyncVector.el1Current .nonsecure).entry 0x96000045 0x40001000 idleCpu) ∧
      (Faithful (.el1Current .nonsecure) 0x96000045 0x40001000
          ((SyncVector.el1Current .nonsecure).handle
            ((SyncVector.el1Current .nonsecure).entry 0x96000045 0x40001000
              idleCpu) armed) ↔
        (0x96000045 : U32).getLsbD 24 = false ∧
          (0x40001000 : BitVec 64).toNat < 2 ^ 32) :=
  exceptionRecord_faithful_iff (.el1Current .nonsecure) 0x96000045 0x40001000
    idleCpu armed rfl (fun call => call)

/-- A data abort of secure EL1 in its heap, which lies above the first 4 GB. -/
theorem exceptionRecord_drops_far :
    ¬(SyncVector.el1Current .secure).SystemCall 0x96000045 ∧
      ¬Faithful (.el1Current .secure) 0x96000045 0xC001000000
        ((SyncVector.el1Current .secure).handle
          ((SyncVector.el1Current .secure).entry 0x96000045 0xC001000000
            idleCpu) armed) := by
  refine ⟨fun call => call, fun faithful => ?_⟩
  exact absurd faithful.far (by decide)

end TzTest.Aarch64
