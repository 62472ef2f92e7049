import TzTest.Arch
import TzTest.Library.RadixMap

/-!
# The page-table routines

`mem_util.c` of both architectures.  A table is accessed at its physical
address, which its image has mapped to itself.  The recursion of `mem_map_pa`
and the loop of `mem_heap_allocate` carry a bound, and have no result where the
bound is reached.
-/

namespace TzTest

/-- The memory and the pool variables of one image. -/
@[ext] structure MemUtil (width : Nat) where
  mem : BitVec width → BitVec width
  memNextPa : BitVec width
  memHeapPool : BitVec width

namespace MemUtil

variable {width : Nat}

def write (s : MemUtil width) (pte value : BitVec width) : MemUtil width :=
  { s with mem := Function.update s.mem pte value }

@[simp] theorem mem_write (s : MemUtil width) (pte value : BitVec width) :
    (s.write pte value).mem = Function.update s.mem pte value :=
  rfl

/-- `*pte = first; *pte |= more;` -/
def writeOr (s : MemUtil width) (pte first more : BitVec width) :
    MemUtil width :=
  let s := s.write pte first
  s.write pte (s.mem pte ||| more)

theorem writeOr_eq (s : MemUtil width) (pte first more : BitVec width) :
    s.writeOr pte first more = s.write pte (first ||| more) := by
  simp only [writeOr, mem_write, Function.update_self]
  simp only [write, Function.update_idem]

/-- The part that the table routines change. -/
def store (s : MemUtil width) : Radix.Store (BitVec width) (BitVec width) :=
  ⟨s.mem, s.memNextPa⟩

def withStore (s : MemUtil width)
    (store : Radix.Store (BitVec width) (BitVec width)) : MemUtil width :=
  { s with mem := store.mem, memNextPa := store.next }

end MemUtil

/-- What the hardware finds for a page: its address and the other bits of its
descriptor. -/
@[ext] structure Leaf (width : Nat) where
  pa : BitVec width
  attr : BitVec width
  deriving DecidableEq, Repr

/-- `mem_allocate_pa` -/
def memAllocatePa {width : Nat} (s : MemUtil width) :
    BitVec width × MemUtil width :=
  (s.memNextPa, { s with memNextPa := s.memNextPa + 0x1000 })

namespace Aarch64

def ptePage : BitVec 64 := 0x3
def pteTable : BitVec 64 := 0x3
def pteAccess : BitVec 64 := 1 <<< 10
def pteUserRw : BitVec 64 := 1 <<< 6

def off (vaddr : BitVec 64) (i : Nat) : BitVec 64 :=
  ((vaddr >>> (39 - i * 9)) &&& 0x1FF) <<< 3

/-- The loop body of `mem_map_pa`. -/
def mapLevel (mapTable : BitVec 64 → MemUtil 64 → Option (MemUtil 64))
    (vaddr tblattr : BitVec 64) (i : Nat) (pa : BitVec 64) (s : MemUtil 64) :
    Option (BitVec 64 × MemUtil 64) :=
  let pte := pa ||| off vaddr i
  if s.mem pte &&& 0x1 = 0 then do
    let (pa, s) := memAllocatePa s
    let s ← mapTable pa s
    return (pa, s.writeOr pte pa (pteTable ||| tblattr))
  else
    return (s.mem pte &&& 0x000FFFFFF000, s)

def memMapPa (memPgtblBase : BitVec 64) :
    Nat → (vaddr paddr tblattr pgattr : BitVec 64) → MemUtil 64 →
      Option (MemUtil 64)
  | 0, _, _, _, _, _ => none
  | fuel + 1, vaddr, paddr, tblattr, pgattr, s => do
      let level := mapLevel
        (fun pa => memMapPa memPgtblBase fuel pa pa 0 pteUserRw) vaddr tblattr
      let (pa, s) ← level 0 memPgtblBase s
      let (pa, s) ← level 1 pa s
      let (pa, s) ← level 2 pa s
      return s.writeOr (pa ||| off vaddr 3) (paddr &&& ~~~0xFFF)
        (ptePage ||| pteAccess ||| pgattr)

/-- The loop of `mem_unmap_va` and `mem_lookup_pa` from level `i` on: the last
entry and the address in it, unless an entry is invalid. -/
def walk (mem : BitVec 64 → BitVec 64) (addr : BitVec 64) :
    (remaining i : Nat) → (pte pa : BitVec 64) →
      Option (BitVec 64 × BitVec 64)
  | 0, _, pte, pa => some (pte, pa)
  | remaining + 1, i, _, pa =>
      let pte := pa ||| off addr i
      if mem pte &&& 0x1 = 0 then none
      else walk mem addr remaining (i + 1) pte (mem pte &&& 0x000FFFFFF000)

/-- The first component is the value that `mem_unmap_va` returns. -/
def memUnmapVa (memPgtblBase addr : BitVec 64) (s : MemUtil 64) :
    Int × MemUtil 64 :=
  match walk s.mem addr 4 0 0 memPgtblBase with
  | none => (-1, s)
  | some (pte, _) => (0, s.write pte 0)

def memLookupPa (memPgtblBase va : BitVec 64) (s : MemUtil 64) : BitVec 64 :=
  match walk s.mem va 4 0 0 memPgtblBase with
  | none => -1
  | some (_, pa) => pa

end Aarch64

namespace Arm

def ptePage : BitVec 32 := 0x2
def pteTable : BitVec 32 := 0x1
def pteAccess : BitVec 32 := 1 <<< 4
def pteUserRw : BitVec 32 := (1 <<< 4) ||| (1 <<< 5) ||| (0 <<< 9)

def l1idx (vaddr : BitVec 32) : BitVec 32 := (vaddr >>> 20) &&& 0xFFF
def l2idx (vaddr : BitVec 32) : BitVec 32 := (vaddr >>> 12) &&& 0xFF

def l1Pte (memPgtblBase vaddr : BitVec 32) : BitVec 32 :=
  (memPgtblBase &&& 0xFFFFC000) ||| (l1idx vaddr <<< 2)

def l2Pte (entry vaddr : BitVec 32) : BitVec 32 :=
  (entry &&& 0xFFFFFC00) ||| (l2idx vaddr <<< 2)

def memMapPa (memPgtblBase : BitVec 32) :
    Nat → (vaddr paddr tblattr pgattr : BitVec 32) → MemUtil 32 →
      Option (MemUtil 32)
  | 0, _, _, _, _, _ => none
  | fuel + 1, vaddr, paddr, tblattr, pgattr, s => do
      let pte := l1Pte memPgtblBase vaddr
      let s ←
        if s.mem pte &&& 0x3 = 0x0 then do
          let (pa, s) := memAllocatePa s
          let s ← memMapPa memPgtblBase fuel pa pa 0 pteUserRw s
          some (s.writeOr pte pa (pteTable ||| tblattr))
        else
          some s
      return s.writeOr (l2Pte (s.mem pte) vaddr) (paddr &&& ~~~0xFFF)
        (ptePage ||| pteAccess ||| pgattr)

def memUnmapVa (memPgtblBase addr : BitVec 32) (s : MemUtil 32) :
    Int × MemUtil 32 :=
  let pte := l1Pte memPgtblBase addr
  if s.mem pte &&& 0x3 = 0x0 then
    (-1, s)
  else
    (0, s.write (l2Pte (s.mem pte) addr) 0)

/-- The last-level entry is not checked. -/
def memLookupPa (memPgtblBase va : BitVec 32) (s : MemUtil 32) : BitVec 32 :=
  let pte := l1Pte memPgtblBase va
  if s.mem pte &&& 0x3 = 0x0 then
    -1
  else
    (s.mem (l2Pte (s.mem pte) va) &&& 0xFFFFF000) ||| (va &&& 0xFFF)

end Arm

def memMapPa : {arch : Arch} → (memPgtblBase : Word arch) → (fuel : Nat) →
    (vaddr paddr tblattr pgattr : Word arch) → MemUtil arch.width →
      Option (MemUtil arch.width)
  | .aarch64 => Aarch64.memMapPa
  | .arm => Arm.memMapPa

def memUnmapVa : {arch : Arch} → (memPgtblBase addr : Word arch) →
    MemUtil arch.width → Int × MemUtil arch.width
  | .aarch64 => Aarch64.memUnmapVa
  | .arm => Arm.memUnmapVa

def memLookupPa : {arch : Arch} → (memPgtblBase va : Word arch) →
    MemUtil arch.width → Word arch
  | .aarch64 => Aarch64.memLookupPa
  | .arm => Arm.memLookupPa

section Both

variable {arch : Arch}

def memMapVa (memPgtblBase : Word arch) (fuel : Nat)
    (addr tblattr pgattr : Word arch) (s : MemUtil arch.width) :
    Option (MemUtil arch.width) :=
  let (pa, s) := memAllocatePa s
  memMapPa memPgtblBase fuel addr pa tblattr pgattr s

/-- The loop of `mem_heap_allocate`, with a bound on its rounds. -/
def heapLoop (memPgtblBase : Word arch) (fuel : Nat) (len : Word arch) :
    (rounds : Nat) → (off : Word arch) → MemUtil arch.width →
      Option (Word arch × MemUtil arch.width)
  | 0, _, _ => none
  | rounds + 1, off, s =>
      if off < len then do
        let s ← memMapVa memPgtblBase fuel (s.memHeapPool + off) 0
          (pteUserRw arch) s
        heapLoop memPgtblBase fuel len rounds (off + 0x1000) s
      else
        some (off, s)

def memHeapAllocate (memPgtblBase : Word arch) (fuel rounds : Nat)
    (len : Word arch) (s : MemUtil arch.width) :
    Option (Word arch × MemUtil arch.width) := do
  let addr := s.memHeapPool
  let (off, s) ← heapLoop memPgtblBase fuel len rounds 0 s
  return (addr, { s with memHeapPool := s.memHeapPool + off })

end Both

end TzTest
