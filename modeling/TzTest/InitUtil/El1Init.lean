import TzTest.InitUtil.Memcpy
import TzTest.InitUtil.Pools
import TzTest.InitUtil.Ranges

/-!
# The start-up code of EL1

`el1_init` of the AArch64 `el1_init.S` up to `el1_init_start`, on the `virt`
board.  It maps the image by physical addresses, turns the MMU on, and from then
on goes through the new tables: it copies text and data out of flash and unmaps
the flash again.  An access that has no translation ends the run without a
result, since the code of the exception handler is not in place yet.
-/

namespace TzTest.Aarch64

/-- The physical address of an access. -/
def access (ttbr0 : BitVec 64) (mem : BitVec 64 → BitVec 64) (va : BitVec 64) :
    Option (BitVec 64) :=
  (hwWalk mem ttbr0 va).map fun found => found.pa ||| (va &&& 0xFFF)

/-- `ldr` and `str` of a word. -/
def ldr (ttbr0 : BitVec 64) (mem : BitVec 64 → BitVec 64) (va : BitVec 64) :
    Option (BitVec 64) :=
  (access ttbr0 mem va).map mem

def str (ttbr0 va word : BitVec 64) (mem : BitVec 64 → BitVec 64) :
    Option (BitVec 64 → BitVec 64) :=
  (access ttbr0 mem va).map fun pa => Function.update mem pa word

namespace InitUtil

/-- The round of `memcpy`: `ldr` and `str`, both with their increment, and
`subs`. -/
def memcpyMove (ttbr0 : BitVec 64) (s : InitUtil) : Option InitUtil := do
  let src ← access ttbr0 s.mem s.x1
  let s := { s with x10 := s.mem src, x1 := s.x1 + 8 }
  let dest ← access ttbr0 s.mem s.x0
  return { s with
    mem := Function.update s.mem dest s.x10
    x0 := s.x0 + 8
    x2 := s.x2 - 8 }

/-- `memcpy`, with a bound on its rounds. -/
def memcpyLoop (ttbr0 : BitVec 64) : Nat → InitUtil → Option InitUtil
  | 0, _ => none
  | rounds + 1, s =>
      if BitVec.sle s.x2 0 then
        some s
      else do
        let s ← s.memcpyMove ttbr0
        memcpyLoop ttbr0 rounds s

/-- `memcpy`.  It makes as many rounds as the length begins words. -/
def memcpy (ttbr0 : BitVec 64) (s : InitUtil) : Option InitUtil :=
  memcpyLoop ttbr0 (@TzTest.InitUtil.copyWords .aarch64 s.x2 + 1) s

/-- `unmap_loop` up to `unmap_done`, with a bound on its rounds. -/
def unmapWalk (ttbr0 : BitVec 64) : Nat → InitUtil → Option InitUtil
  | 0, _ => none
  | rounds + 1, s => do
      let s := s.descriptorAddress
      let pte ← access ttbr0 s.mem s.x10
      if s.x13 = 0 then
        return { s with x12 := 0, mem := Function.update s.mem pte 0 }
      else
        let s := { s with x12 := s.mem pte, x11 := s.mem pte &&& 0x1 }
        if s.x11 = 0 then
          return s
        else
          unmapWalk ttbr0 rounds s

/-- `unmap_va` while the MMU is on. -/
def unmapMapped (ttbr0 ptBase : BitVec 64) (s : InitUtil) : Option InitUtil := do
  let last ← unmapWalk ttbr0 4 (s.enter ptBase)
  return s.leave last

/-- `unmap_va_loop`, with a bound on its rounds. -/
def unmapRangeLoop (page : InitUtil → Option InitUtil) :
    Nat → InitUtil → Option InitUtil
  | 0, _ => none
  | rounds + 1, s =>
      if s.x1 = 0 then
        some s
      else do
        let s ← page s
        unmapRangeLoop page rounds { s with x0 := s.x0 + 0x1000, x1 := s.x1 - 0x1000 }

/-- `unmap_va_range`, which saves `x0` and `x1`. -/
def unmapVaRange (ttbr0 ptBase : BitVec 64) (caller : InitUtil) :
    Option InitUtil := do
  let x1 := caller.x1 + 0xFFF
  let x1 := x1 &&& ~~~0xFFF
  let s ← unmapRangeLoop (unmapMapped ttbr0 ptBase) (x1.toNat / 0x1000 + 1)
    { caller with x1 := x1 }
  return { s with x0 := caller.x0, x1 := caller.x1 }

end InitUtil

def ramBase : BitVec 64 := 0x40000000
def uart0Base : BitVec 64 := 0x09000000
def ptePrivRw : BitVec 64 := 0 <<< 6
def pteUserRo : BitVec 64 := 3 <<< 6
def tnSz : Nat := 64 - 48

/-- `EL1_S_PGTBL_BASE` and `EL1_NS_PGTBL_BASE`. -/
def el1PgtblBase (world : World) : BitVec 64 :=
  TzTest.InitUtil.pgtblBase ramBase (.el1 world)

def el1PgtblSize : BitVec 64 := 0x40000

/-- `EL1_S_STACK_BASE` and `EL1_NS_STACK_BASE`. -/
def el1StackBase : World → BitVec 64
  | .secure => 0xCF00000000
  | .nonsecure => 0xFFFFF000

/-- `EL0_S_STACK_BASE` and `EL0_NS_STACK_BASE`. -/
def el0StackBase : World → BitVec 64
  | .secure => 0x80000000 - 0x1000
  | .nonsecure => 0x70000000 - 0x1000

/-- Where the RAM of the next image begins: `EL1_NS_RAM_BASE` and
`EL0_S_RAM_BASE`, which is `EL0_NS_RAM_BASE` too. -/
def nextRamBase : World → BitVec 64
  | .secure => ramBase + 0x2000000
  | .nonsecure => ramBase + 0x4000000

/-- The symbols of a linker script. -/
structure ImageSymbols where
  initBase : BitVec 64
  initSize : BitVec 64
  flashText : BitVec 64
  textBase : BitVec 64
  textSize : BitVec 64
  flashData : BitVec 64
  dataBase : BitVec 64
  dataSize : BitVec 64

/-- From `el1_map_init` to `el1_map_uart`. -/
def ImageSymbols.el1Calls (image : ImageSymbols) (world : World) : List MapCall :=
  [.mapPaRange image.initBase (ptePage ||| pteAccess ||| pteUserRo) image.initSize,
    .mapPaRange image.flashText (ptePage ||| pteAccess ||| pteUserRo) image.textSize,
    .mapPaRange image.flashData (ptePage ||| pteAccess ||| pteUserRw) image.dataSize,
    .mapVaRange image.textBase (ptePage ||| pteAccess ||| ptePrivRw) image.textSize,
    .mapVaRange image.dataBase (ptePage ||| pteAccess ||| ptePrivRw) image.dataSize,
    .mapVa (el1StackBase world - 0x1000) (ptePage ||| pteAccess ||| ptePrivRw),
    .mapVa (el0StackBase world - 0x1000) (ptePage ||| pteAccess ||| pteUserRw),
    .mapPaRange (el1PgtblBase world) (ptePage ||| pteAccess ||| ptePrivRw) el1PgtblSize,
    .mapPa uart0Base (ptePage ||| pteAccess ||| pteUserRw)]

/-- `el1_copy_text` and `el1_copy_data`. -/
def InitUtil.copyOut (ttbr0 ptBase base flash size : BitVec 64) (s : InitUtil) :
    Option InitUtil := do
  let s ← ({ s with x0 := base, x1 := flash, x2 := size } : InitUtil).memcpy ttbr0
  ({ s with x0 := flash, x1 := size } : InitUtil).unmapVaRange ttbr0 ptBase

/-- The memory, the tables and the next page when the start-up code is left. -/
structure Booted where
  mem : BitVec 64 → BitVec 64
  ttbr0 : BitVec 64
  /-- For `mem_next_pa`. -/
  x17 : BitVec 64

/-- The state at `el1_init_start`. -/
structure El1Start extends Booted where
  /-- For `syscntl`. -/
  x16 : BitVec 64

/-- `el1_init` with `x4`.  `x16` and `x17` wait on the new stack. -/
def el1Init (world : World) (image : ImageSymbols) (x4 : BitVec 64) (s : InitUtil) :
    Option El1Start := do
  let ptBase := el1PgtblBase world
  let ttbr0 := (ptBase >>> tnSz) <<< tnSz
  let s ← MapCall.runAll ptBase (image.el1Calls world) { s with nextPa := ptBase + 0x1000 }
  let x17 := s.nextPa
  let sp := el1StackBase world - 0x10 - 16
  let mem ← str ttbr0 sp x4 s.mem
  let mem ← str ttbr0 (sp + 8) x17 mem
  let s ← ({ s with mem := mem } : InitUtil).copyOut ttbr0 ptBase image.textBase
    image.flashText image.textSize
  let s ← s.copyOut ttbr0 ptBase image.dataBase image.flashData image.dataSize
  let x16 ← ldr ttbr0 s.mem sp
  let x17 ← ldr ttbr0 s.mem (sp + 8)
  return ⟨⟨s.mem, ttbr0, x17⟩, x16⟩

end TzTest.Aarch64
