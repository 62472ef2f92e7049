import TzTest.Arch

/-!
# Words in a memory of bytes
-/

namespace TzTest

variable {arch : Arch}

/-- The word of `size` bytes at an address, the lowest byte first. -/
def loadWord (mem : Word arch → BitVec 8) (addr : Word arch) :
    (size : Nat) → BitVec (8 * size)
  | 0 => 0#0
  | size + 1 => loadWord mem (addr + 1) size ++ mem addr

def storeWord (mem : Word arch → BitVec 8) (addr : Word arch) {size : Nat}
    (value : BitVec (8 * size)) (target : Word arch) : BitVec 8 :=
  if (target - addr).toNat < size then
    (value >>> (8 * (target - addr).toNat)).setWidth 8
  else
    mem target

theorem loadWord_byte (mem : Word arch → BitVec 8) (addr : Word arch)
    {size index : Nat} (inside : index < size) :
    ((loadWord mem addr size) >>> (8 * index)).setWidth 8 =
      mem (addr + BitVec.ofNat arch.width index) := by
  induction size generalizing addr index with
  | zero => exact absurd inside (Nat.not_lt_zero _)
  | succ size induction =>
      cases index with
      | zero =>
          apply BitVec.eq_of_getLsbD_eq
          intro bit below
          simp [loadWord, BitVec.getLsbD_append, below]
      | succ index =>
          have rest := induction (addr + 1) (Nat.lt_of_succ_lt_succ inside)
          have next : addr + 1 + BitVec.ofNat arch.width index =
              addr + BitVec.ofNat arch.width (index + 1) := by
            rw [BitVec.ofNat_add, BitVec.add_assoc,
              BitVec.add_comm (BitVec.ofNat arch.width index)]
            rfl
          rw [next] at rest
          rw [← rest]
          apply BitVec.eq_of_getLsbD_eq
          intro bit below
          have high : ¬8 * (index + 1) + bit < 8 := by omega
          have shifted : 8 * (index + 1) + bit - 8 = 8 * index + bit := by omega
          simp [loadWord, BitVec.getLsbD_append, below, high, shifted]

end TzTest
