import TzTest.Library.RadixSelf
import TzTest.Paging.Termination

/-!
# The entries that the table routines access

`mem_util.c` takes the address of a table for a pointer.  Here are the entries
that each routine dereferences, in its order, with the memory of the moment.
-/

namespace TzTest

open Radix

abbrev PteAccess (width : Nat) : Type :=
  Access (BitVec width) (BitVec width)

/-- `*pte = first; *pte |= more;` -/
def MemUtil.writeOrAccesses {width : Nat} (s : MemUtil width)
    (pte first : BitVec width) : List (PteAccess width) :=
  [⟨s.mem, pte⟩, ⟨(s.write pte first).mem, pte⟩]

namespace Aarch64

/-- The loop body of `mem_map_pa`. -/
def mapLevelAccesses (mapTable : BitVec 64 → MemUtil 64 → Option (MemUtil 64))
    (tableAccesses : BitVec 64 → MemUtil 64 → List (PteAccess 64))
    (vaddr : BitVec 64) (i : Nat) (pa : BitVec 64) (s : MemUtil 64) :
    List (PteAccess 64) :=
  let pte := pa ||| off vaddr i
  ⟨s.mem, pte⟩ ::
    if s.mem pte &&& 0x1 = 0 then
      let (pa, s) := memAllocatePa s
      tableAccesses pa s ++
        (mapTable pa s).elim [] fun s => s.writeOrAccesses pte pa
    else
      [⟨s.mem, pte⟩]

def memMapPaAccesses (memPgtblBase : BitVec 64) :
    Nat → (vaddr paddr tblattr : BitVec 64) → MemUtil 64 → List (PteAccess 64)
  | 0, _, _, _, _ => []
  | fuel + 1, vaddr, paddr, tblattr, s =>
      let mapTable pa := memMapPa memPgtblBase fuel pa pa 0 pteUserRw
      let level := mapLevel mapTable vaddr tblattr
      let accesses := mapLevelAccesses mapTable
        (fun pa => memMapPaAccesses memPgtblBase fuel pa pa 0) vaddr
      accesses 0 memPgtblBase s ++ (level 0 memPgtblBase s).elim [] fun (pa, s) =>
        accesses 1 pa s ++ (level 1 pa s).elim [] fun (pa, s) =>
          accesses 2 pa s ++ (level 2 pa s).elim [] fun (pa, s) =>
            s.writeOrAccesses (pa ||| off vaddr 3) (paddr &&& ~~~0xFFF)

/-- The loop of `mem_unmap_va` and `mem_lookup_pa` from level `i` on. -/
def walkAccesses (mem : BitVec 64 → BitVec 64) (addr : BitVec 64) :
    (remaining i : Nat) → (pa : BitVec 64) → List (PteAccess 64)
  | 0, _, _ => []
  | remaining + 1, i, pa =>
      let pte := pa ||| off addr i
      ⟨mem, pte⟩ ::
        if mem pte &&& 0x1 = 0 then []
        else
          ⟨mem, pte⟩ ::
            walkAccesses mem addr remaining (i + 1) (mem pte &&& 0x000FFFFFF000)

def memUnmapVaAccesses (memPgtblBase addr : BitVec 64) (s : MemUtil 64) :
    List (PteAccess 64) :=
  walkAccesses s.mem addr 4 0 memPgtblBase ++
    (walk s.mem addr 4 0 0 memPgtblBase).elim [] fun (pte, _) => [⟨s.mem, pte⟩]

def memLookupPaAccesses (memPgtblBase va : BitVec 64) (s : MemUtil 64) :
    List (PteAccess 64) :=
  walkAccesses s.mem va 4 0 memPgtblBase

end Aarch64

namespace Arm

def memMapPaAccesses (memPgtblBase : BitVec 32) :
    Nat → (vaddr paddr tblattr : BitVec 32) → MemUtil 32 → List (PteAccess 32)
  | 0, _, _, _, _ => []
  | fuel + 1, vaddr, paddr, tblattr, s =>
      let pte := l1Pte memPgtblBase vaddr
      let last (s : MemUtil 32) :=
        ⟨s.mem, pte⟩ ::
          s.writeOrAccesses (l2Pte (s.mem pte) vaddr) (paddr &&& ~~~0xFFF)
      ⟨s.mem, pte⟩ ::
        if s.mem pte &&& 0x3 = 0x0 then
          let (pa, s) := memAllocatePa s
          memMapPaAccesses memPgtblBase fuel pa pa 0 s ++
            (memMapPa memPgtblBase fuel pa pa 0 pteUserRw s).elim [] fun s =>
              s.writeOrAccesses pte pa ++
                last (s.writeOr pte pa (pteTable ||| tblattr))
        else
          last s

def memUnmapVaAccesses (memPgtblBase addr : BitVec 32) (s : MemUtil 32) :
    List (PteAccess 32) :=
  let pte := l1Pte memPgtblBase addr
  ⟨s.mem, pte⟩ ::
    if s.mem pte &&& 0x3 = 0x0 then []
    else [⟨s.mem, pte⟩, ⟨s.mem, l2Pte (s.mem pte) addr⟩]

def memLookupPaAccesses (memPgtblBase va : BitVec 32) (s : MemUtil 32) :
    List (PteAccess 32) :=
  let pte := l1Pte memPgtblBase va
  ⟨s.mem, pte⟩ ::
    if s.mem pte &&& 0x3 = 0x0 then []
    else [⟨s.mem, pte⟩, ⟨s.mem, l2Pte (s.mem pte) va⟩]

end Arm

def memMapPaAccesses : {arch : Arch} → (memPgtblBase : Word arch) → (fuel : Nat) →
    (vaddr paddr tblattr : Word arch) → MemUtil arch.width →
      List (PteAccess arch.width)
  | .aarch64 => Aarch64.memMapPaAccesses
  | .arm => Arm.memMapPaAccesses

def memUnmapVaAccesses : {arch : Arch} → (memPgtblBase addr : Word arch) →
    MemUtil arch.width → List (PteAccess arch.width)
  | .aarch64 => Aarch64.memUnmapVaAccesses
  | .arm => Arm.memUnmapVaAccesses

def memLookupPaAccesses : {arch : Arch} → (memPgtblBase va : Word arch) →
    MemUtil arch.width → List (PteAccess arch.width)
  | .aarch64 => Aarch64.memLookupPaAccesses
  | .arm => Arm.memLookupPaAccesses

section Both

variable {arch : Arch}

def memMapVaAccesses (memPgtblBase : Word arch) (fuel : Nat)
    (addr tblattr : Word arch) (s : MemUtil arch.width) :
    List (PteAccess arch.width) :=
  let (pa, s) := memAllocatePa s
  memMapPaAccesses memPgtblBase fuel addr pa tblattr s

/-- The loop of `mem_heap_allocate`. -/
def heapLoopAccesses (memPgtblBase : Word arch) (fuel : Nat) (len : Word arch) :
    (rounds : Nat) → (off : Word arch) → MemUtil arch.width →
      List (PteAccess arch.width)
  | 0, _, _ => []
  | rounds + 1, off, s =>
      if off < len then
        memMapVaAccesses memPgtblBase fuel (s.memHeapPool + off) 0 s ++
          (memMapVa memPgtblBase fuel (s.memHeapPool + off) 0 (pteUserRw arch)
            s).elim [] fun s =>
              heapLoopAccesses memPgtblBase fuel len rounds (off + 0x1000) s
      else []

def memHeapAllocateAccesses (memPgtblBase : Word arch) (fuel rounds : Nat)
    (len : Word arch) (s : MemUtil arch.width) : List (PteAccess arch.width) :=
  heapLoopAccesses memPgtblBase fuel len rounds 0 s

end Both

end TzTest
