import TzTest.InitUtil.El1Init

/-!
# The start-up code of EL3

`el3_init` of the AArch64 `el3_init.S` up to `el3_init_start`.  It is built like the
start-up code of EL1, but the flash of text and data stays mapped.
-/

namespace TzTest.Aarch64

def sysregBase : BitVec 64 := 0x1c010000
def ptePrivRo : BitVec 64 := 2 <<< 6

def el3PgtblBase : BitVec 64 :=
  TzTest.InitUtil.pgtblBase ramBase .el3

def el3PgtblSize : BitVec 64 := 0x40000
def el3StackBase : BitVec 64 := 0xFF00000000

def el1SecureRamBase : BitVec 64 := ramBase + 0x1000000

/-- From `el3_map_init` to `el3_map_sysreg`. -/
def ImageSymbols.el3Calls (image : ImageSymbols) : List MapCall :=
  [.mapPaRange image.initBase (ptePage ||| pteAccess ||| ptePrivRo) image.initSize,
    .mapPaRange image.flashText (ptePage ||| pteAccess ||| ptePrivRo) image.textSize,
    .mapPaRange image.flashData (ptePage ||| pteAccess ||| ptePrivRo) image.dataSize,
    .mapVaRange image.textBase (ptePage ||| pteAccess ||| ptePrivRw) image.textSize,
    .mapVaRange image.dataBase (ptePage ||| pteAccess ||| ptePrivRw) image.dataSize,
    .mapVa (el3StackBase - 0x1000) (ptePage ||| pteAccess ||| ptePrivRw),
    .mapPaRange el3PgtblBase (ptePage ||| pteAccess ||| ptePrivRw) el3PgtblSize,
    .mapPa uart0Base (ptePage ||| pteAccess ||| ptePrivRw),
    .mapPa sysregBase (ptePage ||| pteAccess ||| ptePrivRw)]

/-- `el3_init`.  `x17` waits on the new stack. -/
def el3Init (image : ImageSymbols) (s : InitUtil) : Option Booted := do
  let ptBase := el3PgtblBase
  let ttbr0 := (ptBase >>> tnSz) <<< tnSz
  let s ← MapCall.runAll ptBase image.el3Calls { s with nextPa := ptBase + 0x1000 }
  let x17 := s.nextPa
  let sp := el3StackBase - 8
  let mem ← str ttbr0 sp x17 s.mem
  let s ← ({ s with
    mem := mem
    x0 := image.textBase
    x1 := image.flashText
    x2 := image.textSize } : InitUtil).memcpy ttbr0
  let s ← ({ s with
    x0 := image.dataBase
    x1 := image.flashData
    x2 := image.dataSize } : InitUtil).memcpy ttbr0
  let x17 ← ldr ttbr0 s.mem sp
  return ⟨s.mem, ttbr0, x17⟩

end TzTest.Aarch64
