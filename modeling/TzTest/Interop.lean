import TzTest.Arch

/-!
# The operation descriptor

`smc_op_desc_t` and `svc_op_desc_t` are unions of the per-operation structures
of `common/interop.h`.  Every member is laid over the same five machine words,
so the members alias each other as in the source.
-/

namespace TzTest

/-- The five machine words under the descriptor unions. -/
@[ext] structure Desc (arch : Arch) where
  word0 : Word arch
  word1 : Word arch
  word2 : Word arch
  word3 : Word arch
  word4 : Word arch
  deriving DecidableEq

/-- `op_dispatch_t` -/
@[ext] structure OpDispatch (arch : Arch) where
  fid : U32
  arg : Word arch
  state : Word arch
  el : Word arch
  ret : Word arch
  deriving DecidableEq

/-- `op_map_mem_t` -/
structure OpMapMem (arch : Arch) where
  type : U32
  len : Word arch
  va : Word arch
  pa : Word arch
  deriving DecidableEq

/-- `op_alloc_mem_t` -/
structure OpAllocMem (arch : Arch) where
  type : U32
  len : Word arch
  addr : Word arch
  deriving DecidableEq

/-- `op_data_t` -/
structure OpData (arch : Arch) where
  key : Word arch
  data : Word arch
  el : U32
  deriving DecidableEq

/-- `op_test_t` -/
@[ext] structure OpTest (arch : Arch) where
  orig : Word arch
  val : Word arch
  count : U32
  fail : U32
  deriving DecidableEq

/-- What each hop of the interop test does to the descriptor. -/
def OpTest.hop {arch : Arch} (test : OpTest arch) : OpTest arch :=
  { orig := test.orig
    val := test.val >>> 1
    count := test.count + 1
    fail :=
      if test.val ≠ test.orig >>> test.count.toNat then test.fail + 1
      else test.fail }

/-- The four bytes above the low half of an eight-byte word. -/
def highHalf (word : BitVec 64) : U32 :=
  (word >>> 32).setWidth 32

/-- Store to the four bytes above the low half of an eight-byte word. -/
def setHighHalf (word : BitVec 64) (value : U32) : BitVec 64 :=
  (word.setWidth 32).setWidth 64 ||| (value.setWidth 64 <<< 32)

@[simp] theorem highHalf_setHighHalf (word : BitVec 64) (value : U32) :
    highHalf (setHighHalf word value) = value := by
  apply BitVec.eq_of_getLsbD_eq
  intro index below
  have inside : 32 + index < 64 := by omega
  simp [highHalf, setHighHalf, below, inside]

theorem setWidth_setHighHalf (word : BitVec 64) (value : U32) :
    (setHighHalf word value).setWidth 32 = word.setWidth 32 := by
  apply BitVec.eq_of_getLsbD_eq
  intro index below
  simp [setHighHalf, below]

@[simp] theorem low_setHighHalf (word : BitVec 64) (value : U32) :
    @Word.low .aarch64 (setHighHalf word value) = @Word.low .aarch64 word :=
  setWidth_setHighHalf word value

namespace Desc

variable {arch : Arch}

def disp (desc : Desc arch) : OpDispatch arch :=
  { fid := desc.word0.low
    arg := desc.word1
    state := desc.word2
    el := desc.word3
    ret := desc.word4 }

def setDisp (desc : Desc arch) (disp : OpDispatch arch) : Desc arch :=
  { word0 := desc.word0.setLow disp.fid
    word1 := disp.arg
    word2 := disp.state
    word3 := disp.el
    word4 := disp.ret }

def map (desc : Desc arch) : OpMapMem arch :=
  { type := desc.word0.low
    len := desc.word1
    va := desc.word2
    pa := desc.word3 }

def setMap (desc : Desc arch) (map : OpMapMem arch) : Desc arch :=
  { desc with
    word0 := desc.word0.setLow map.type
    word1 := map.len
    word2 := map.va
    word3 := map.pa }

def alloc (desc : Desc arch) : OpAllocMem arch :=
  { type := desc.word0.low
    len := desc.word1
    addr := desc.word2 }

def setAllocAddr (desc : Desc arch) (addr : Word arch) : Desc arch :=
  { desc with word2 := addr }

/-- The `get` and `set` members are the same structure. -/
def data (desc : Desc arch) : OpData arch :=
  { key := desc.word0
    data := desc.word1
    el := desc.word2.low }

/-- Store to the `data` field of a register request. -/
def setDataData (desc : Desc arch) (data : Word arch) : Desc arch :=
  { desc with word1 := data }

/-- Store to the `key` and `el` fields of a register request. -/
def setDataKey (desc : Desc arch) (key : Word arch) (el : U32) : Desc arch :=
  { desc with
    word0 := key
    word2 := desc.word2.setLow el }

/-- `count` and `fail` share one word on AArch64 and take one word each on
ARM. -/
def test : {arch : Arch} → Desc arch → OpTest arch
  | .aarch64, desc =>
      { orig := desc.word0
        val := desc.word1
        count := desc.word2.low
        fail := highHalf desc.word2 }
  | .arm, desc =>
      { orig := desc.word0
        val := desc.word1
        count := desc.word2.low
        fail := desc.word3.low }

def setTest : {arch : Arch} → Desc arch → OpTest arch → Desc arch
  | .aarch64, desc, test =>
      { desc with
        word0 := test.orig
        word1 := test.val
        word2 := setHighHalf (desc.word2.setLow test.count) test.fail }
  | .arm, desc, test =>
      { desc with
        word0 := test.orig
        word1 := test.val
        word2 := desc.word2.setLow test.count
        word3 := desc.word3.setLow test.fail }

/-- `memcpy` of `sizeof(op_map_mem_t)` bytes, which are four words in both
layouts. -/
def copyMapMem (target source : Desc arch) : Desc arch :=
  { target with
    word0 := source.word0
    word1 := source.word1
    word2 := source.word2
    word3 := source.word3 }

@[simp] theorem disp_setDisp (desc : Desc arch) (value : OpDispatch arch) :
    (desc.setDisp value).disp = value := by
  simp [disp, setDisp]

@[simp] theorem map_setMap (desc : Desc arch) (value : OpMapMem arch) :
    (desc.setMap value).map = value := by
  simp [map, setMap]

@[simp] theorem data_setDataData (desc : Desc arch) (value : Word arch) :
    (desc.setDataData value).data = { desc.data with data := value } :=
  rfl

@[simp] theorem data_setDataKey (desc : Desc arch) (key : Word arch) (el : U32) :
    (desc.setDataKey key el).data =
      { key := key, data := desc.data.data, el := el } := by
  simp [data, setDataKey]

@[simp] theorem map_copyMapMem (target source : Desc arch) :
    (target.copyMapMem source).map = source.map :=
  rfl

@[simp] theorem test_setTest (desc : Desc arch) (value : OpTest arch) :
    (desc.setTest value).test = value := by
  cases arch with
  | aarch64 =>
      exact OpTest.ext rfl rfl
        ((low_setHighHalf _ _).trans (Word.low_setLow _ _))
        (highHalf_setHighHalf _ _)
  | arm => simp [test, setTest]

theorem data_el_eq_test_count (desc : Desc arch) :
    desc.data.el = desc.test.count := by
  cases arch <;> rfl

theorem data_key_eq_test_orig (desc : Desc arch) :
    desc.data.key = desc.test.orig := by
  cases arch <;> rfl

end Desc

end TzTest
