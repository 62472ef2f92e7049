import TzTest.InitUtil.El3Init
import TzTest.Paging.Accesses

/-!
# The main code takes over

`el3_start` and `el1_start` on AArch64, up to the code that they start, and the
start-up code before them.  The variables of an image, which lie in its data section,
are fields here; the pages that the levels share are in the memory.
-/

namespace TzTest.Aarch64.Boot

/-- `EL3_VA_HEAP_BASE` -/
def el3VaHeapBase : BitVec 64 := 0xF000000000 + 0x1000000

/-- `EL1_S_VA_HEAP_BASE` and `EL1_NS_VA_HEAP_BASE`. -/
def el1VaHeapBase : World → BitVec 64
  | .secure => 0xC000000000 + 0x1000000
  | .nonsecure => 0x80000000 + 0x1000000

/-- `syscntl->smc_interop.buf_pa` -/
def bufPaAt (syscntl : BitVec 64) : BitVec 64 := syscntl + 0
/-- `syscntl->smc_interop.buf_va` -/
def bufVaAt (syscntl : BitVec 64) : BitVec 64 := syscntl + 8

/-- The loop that unmaps the init segment, with a bound on its rounds. -/
def unmapInit (memPgtblBase size : BitVec 64) :
    (rounds : Nat) → (len addr : BitVec 64) → MemUtil 64 → Option (MemUtil 64)
  | 0, _, _, _ => none
  | rounds + 1, len, addr, s =>
      if len < (size + (0x1000 - 1)) &&& ~~~(0x1000 - 1) then
        unmapInit memPgtblBase size rounds (len + 0x1000) (addr + 0x1000)
          (memUnmapVa memPgtblBase addr s).2
      else
        some s

/-- The variables of `el3.c` and the argument of `el3_monitor_init`. -/
structure El3Started where
  s : MemUtil 64
  syscntl : BitVec 64
  smcInteropBuf : BitVec 64
  syscntlPa : BitVec 64

/-- `el3_start` up to `el3_monitor_init`, which puts the address that it looks up into
`reg[0]` of both state buffers. -/
def el3Start (fuel rounds : Nat) (base size : BitVec 64) (s : MemUtil 64) :
    Option El3Started := do
  let s ← unmapInit el3PgtblBase size rounds 0 base s
  let (syscntl, s) ← @memHeapAllocate .aarch64 el3PgtblBase fuel rounds 0x1000 s
  let (smcInteropBuf, s) ← @memHeapAllocate .aarch64 el3PgtblBase fuel rounds 0x1000 s
  let mem ← str el3PgtblBase (bufVaAt syscntl) smcInteropBuf s.mem
  let s : MemUtil 64 := { s with mem := mem }
  let mem ← str el3PgtblBase (bufPaAt syscntl) (memLookupPa el3PgtblBase smcInteropBuf s)
    s.mem
  let s : MemUtil 64 := { s with mem := mem }
  return ⟨s, syscntl, smcInteropBuf, memLookupPa el3PgtblBase syscntl s⟩

/-- `el3_init` and `el3_start`. -/
def bootEl3 (image : ImageSymbols) (fuel rounds : Nat) (s : InitUtil) :
    Option El3Started := do
  let booted ← el3Init image s
  el3Start fuel rounds image.initBase image.initSize
    ⟨booted.mem, booted.x17, el3VaHeapBase⟩

/-- The variables of `el1.c`. -/
structure El1Started where
  s : MemUtil 64
  syscntl : BitVec 64
  smcInteropBuf : BitVec 64

/-- `el1_start` up to `el1_init_el0`. -/
def el1Start (world : World) (fuel rounds : Nat) (base size syscntl : BitVec 64)
    (s : MemUtil 64) : Option El1Started := do
  let tables := el1PgtblBase world
  let s ← unmapInit tables size rounds 0 base s
  let pa := syscntl
  let (syscntl, s) ← @memHeapAllocate .aarch64 tables fuel rounds 0x1000 s
  let s ← memMapPa tables fuel syscntl pa 0 pteUserRw s
  let bufVa ← ldr tables s.mem (bufVaAt syscntl)
  let bufPa ← ldr tables s.mem (bufPaAt syscntl)
  let s ← memMapPa tables fuel bufVa bufPa 0 pteUserRw s
  let smcInteropBuf ← ldr tables s.mem (bufVaAt syscntl)
  return ⟨s, syscntl, smcInteropBuf⟩

/-- `el1_init` and `el1_start`, with `syscntl_pa` in `x4`. -/
def bootEl1 (world : World) (image : ImageSymbols) (fuel rounds : Nat)
    (syscntlPa : BitVec 64) (s : InitUtil) : Option El1Started := do
  let start ← el1Init world image syscntlPa s
  el1Start world fuel rounds image.initBase image.initSize start.x16
    ⟨start.mem, start.x17, el1VaHeapBase world⟩

end TzTest.Aarch64.Boot
