import Mathlib.Data.BitVec

/-!
# Architectures, worlds and operation codes

The test image is configured for AArch64 or for ARM.  Both builds share the C
sources of the exception-level handlers; they differ in the width of
`uintptr_t`, in the monitor assembly and in the page-table format.
-/

namespace TzTest

/-- The two values of `configure --arch`. -/
inductive Arch where
  | aarch64
  | arm
  deriving DecidableEq, Repr

/-- Bits of `uintptr_t`. -/
def Arch.width : Arch → Nat
  | .aarch64 => 64
  | .arm => 32

theorem Arch.le_width (arch : Arch) : 32 ≤ arch.width := by
  cases arch <;> decide

/-- The bytes of a machine word. -/
def wordBytes : Arch → Nat
  | .aarch64 => 8
  | .arm => 4

theorem wordBytes_pos (arch : Arch) : 0 < wordBytes arch := by
  cases arch <;> decide

/-- `uintptr_t` of the configured architecture. -/
abbrev Word (arch : Arch) := BitVec arch.width

abbrev U32 := BitVec 32

/-- The `uint32_t` conversion of a machine word. -/
def Word.low {arch : Arch} (word : Word arch) : U32 :=
  word.setWidth 32

/-- Store to the four low bytes of a machine word. -/
def Word.setLow {arch : Arch} (word : Word arch) (value : U32) : Word arch :=
  ((word >>> 32) <<< 32) ||| value.setWidth arch.width

/-- The `uintptr_t` conversion of a `uint32_t`. -/
def U32.word (arch : Arch) (value : U32) : Word arch :=
  value.setWidth arch.width

@[simp] theorem Word.low_setLow {arch : Arch} (word : Word arch) (value : U32) :
    (word.setLow value).low = value := by
  apply BitVec.eq_of_getLsbD_eq
  intro index below
  have inside : index < arch.width := Nat.lt_of_lt_of_le below arch.le_width
  simp [Word.low, Word.setLow, below, inside]

@[simp] theorem Word.low_word (arch : Arch) (value : U32) :
    Word.low (U32.word arch value) = value := by
  apply BitVec.eq_of_getLsbD_eq
  intro index below
  have inside : index < arch.width := Nat.lt_of_lt_of_le below arch.le_width
  simp [Word.low, U32.word, below, inside]

theorem Word.high_setLow {arch : Arch} (word : Word arch) (value : U32) :
    word.setLow value >>> 32 = word >>> 32 := by
  apply BitVec.eq_of_getLsbD_eq
  intro index below
  simpa [Word.setLow] using BitVec.lt_of_getLsbD

theorem Word.ext_halves {arch : Arch} {left right : Word arch} (low : left.low = right.low)
    (high : left >>> 32 = right >>> 32) : left = right := by
  apply BitVec.eq_of_getLsbD_eq
  intro index below
  by_cases inLow : index < 32
  · have same := congrArg (fun word : U32 => word.getLsbD index) low
    simpa [Word.low, inLow] using same
  · have same := congrArg (fun word : Word arch => word.getLsbD (index - 32)) high
    have back : 32 + (index - 32) = index := by omega
    simpa [back] using same

theorem Word.setLow_low {arch : Arch} (word : Word arch) : word.setLow word.low = word :=
  Word.ext_halves (word.low_setLow _) (word.high_setLow _)

/-- The security states; `SECURE` is 0 and `NONSECURE` is 1. -/
inductive World where
  | secure
  | nonsecure
  deriving DecidableEq, Repr

namespace World

/-- The value of the image's `secure_state` variable. -/
def state : World → U32
  | .secure => 0
  | .nonsecure => 1

def other : World → World
  | .secure => .nonsecure
  | .nonsecure => .secure

/-- The value of `SCR.NS` while the world runs. -/
def ns : World → Bool
  | .secure => false
  | .nonsecure => true

@[simp] theorem other_other (world : World) : world.other.other = world := by
  cases world <;> rfl

theorem state_inj {left right : World} : left.state = right.state ↔ left = right := by
  cases left <;> cases right <;> decide

end World

/-- The five linked images. -/
inductive Image where
  | el3
  | el1 (world : World)
  | el0 (world : World)
  deriving DecidableEq, Repr

/-- The image's `exception_level` constant. -/
def Image.exceptionLevel : Image → U32
  | .el3 => 3
  | .el1 _ => 1
  | .el0 _ => 0

/-- `SVC_OP_*` of `common/svc.h`. -/
inductive SvcOp where
  | yield
  | exit
  | map
  | getReg
  | setReg
  | test
  | dispatch
  | getSyscntl
  | alloc
  deriving DecidableEq, Repr

namespace SvcOp

def code : SvcOp → U32
  | .yield => 1
  | .exit => 2
  | .map => 3
  | .getReg => 4
  | .setReg => 5
  | .test => 6
  | .dispatch => 7
  | .getSyscntl => 8
  | .alloc => 9

/-- The `case` label that an operation code selects, if there is one. -/
def ofCode? (op : U32) : Option SvcOp :=
  [yield, exit, map, getReg, setReg, test, dispatch, getSyscntl, alloc].find?
    fun candidate => candidate.code == op

@[simp] theorem ofCode?_code (op : SvcOp) : ofCode? op.code = some op := by
  cases op <;> decide

theorem code_ne_zero (op : SvcOp) : op.code ≠ 0 := by
  cases op <;> decide

end SvcOp

/-- `SMC_OP_*` of `common/smc.h`. -/
inductive SmcOp where
  | noop
  | yield
  | exit
  | map
  | getReg
  | setReg
  | test
  | dispatch
  deriving DecidableEq, Repr

namespace SmcOp

def code : SmcOp → U32
  | .noop => 0
  | .yield => 1
  | .exit => 2
  | .map => 3
  | .getReg => 4
  | .setReg => 5
  | .test => 6
  | .dispatch => 7

/-- The `case` label of `el3_handle_smc`, whose argument is a `uintptr_t`. -/
def ofCode? {arch : Arch} (op : Word arch) : Option SmcOp :=
  [noop, yield, exit, map, getReg, setReg, test, dispatch].find?
    fun candidate => U32.word arch candidate.code == op

@[simp] theorem ofCode?_code (arch : Arch) (op : SmcOp) :
    ofCode? (U32.word arch op.code) = some op := by
  cases arch <;> cases op <;> decide

end SmcOp

/-- `op_reg_key_t` of `common/interop.h`. -/
inductive RegKey where
  | currentel
  | cptrEl3
  | cpacr
  | scr
  | sctlr
  | cpsr
  deriving DecidableEq, Repr

namespace RegKey

def code : RegKey → Nat
  | .currentel => 1
  | .cptrEl3 => 2
  | .cpacr => 3
  | .scr => 4
  | .sctlr => 5
  | .cpsr => 6

/-- The key that a descriptor's `key` field names. -/
def ofCode? {arch : Arch} (key : Word arch) : Option RegKey :=
  [currentel, cptrEl3, cpacr, scr, sctlr, cpsr].find?
    fun candidate => BitVec.ofNat arch.width candidate.code == key

@[simp] theorem ofCode?_code (arch : Arch) (key : RegKey) :
    ofCode? (BitVec.ofNat arch.width key.code) = some key := by
  cases arch <;> cases key <;> decide

end RegKey

/-- `SCR_NS` of `cpu.h`. -/
def scrNs (arch : Arch) : Word arch := 1

/-- The bit of the secure configuration register that selects the world. -/
def Word.nsBit {arch : Arch} (scr : Word arch) : Bool :=
  scr.getLsbD 0

/-- `OP_MAP_*` of `common/interop.h`. -/
def opMapSecEl0 : U32 := 1
def opMapNsecEl1 : U32 := 2
def opMapSecEl1 : U32 := 4
def opMapEl3 : U32 := 8
def opMapAll : U32 := opMapSecEl0 ||| opMapNsecEl1 ||| opMapSecEl1 ||| opMapEl3

/-- `PTE_PRIV_RW` of the architecture's `vmsa.h`. -/
def ptePrivRw : (arch : Arch) → Word arch
  | .aarch64 => (0 <<< 6 : BitVec 64)
  | .arm => ((1 <<< 4) ||| (0 <<< 5) ||| (0 <<< 9) : BitVec 32)

/-- `PTE_USER_RW` of the architecture's `vmsa.h`. -/
def pteUserRw : (arch : Arch) → Word arch
  | .aarch64 => (1 <<< 6 : BitVec 64)
  | .arm => ((1 <<< 4) ||| (1 <<< 5) ||| (0 <<< 9) : BitVec 32)

end TzTest
