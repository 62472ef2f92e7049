import Mathlib.Data.Fintype.Pigeonhole
import TzTest.InitUtil.Booting

/-!
# The tables of the first windows

The start-up code maps its flash before it takes any page of the pool for another
use.  Up to then every page that was taken is a table of a low address, and there
are not more of them than the image maps to themselves.
-/

namespace TzTest.Aarch64

open Radix BitField

section Count

variable {base : BitVec 64} {store : Store (BitVec 64) (BitVec 64)}

theorem agree_low {left right : BitVec 64} (small : left.toNat < 2 ^ 30)
    (small' : right.toNat < 2 ^ 30) : initMapper.Agree 2 left right := by
  intro level below
  apply BitVec.eq_of_toNat_eq
  change (index level left).toNat = (index level right).toNat
  rw [index_toNat, index_toNat]
  have far : 2 ^ 30 ≤ 2 ^ (39 - level * 9) := Nat.pow_le_pow_right (by decide) (by omega)
  rw [Nat.div_eq_of_lt (lt_of_lt_of_le small far), Nat.div_eq_of_lt (lt_of_lt_of_le small' far)]

/-- A number for the place of a table: one for each of the first two levels, and one
for each 2 MB. -/
def placeNumber (level : Nat) (va : BitVec 64) : Nat :=
  if level = 3 then 2 + va.toNat / 2 ^ 21 else level - 1

theorem tableAt_of_placeNumber {mem : BitVec 64 → BitVec 64} {left right : BitVec 64}
    {level level' : Nat} (small : left.toNat < 2 ^ 30) (small' : right.toNat < 2 ^ 30)
    (above : 0 < level) (above' : 0 < level') (shallow : level ≤ 3) (shallow' : level' ≤ 3)
    (same : placeNumber level left = placeNumber level' right) :
    initMapper.tableAt mem base left level = initMapper.tableAt mem base right level' := by
  unfold placeNumber at same
  have sameLevel : level = level' := by
    split at same <;> split at same <;> omega
  subst sameLevel
  by_cases last : level = 3
  · subst last
    rw [if_pos rfl, if_pos rfl] at same
    have region : left.toNat / 2 ^ 21 = right.toNat / 2 ^ 21 := by omega
    exact Format.Agree.tableAt (agree_of_region region) mem base
  · have upper : level ≤ 2 := by omega
    exact ((agree_low small small').mono upper).tableAt mem base

/-- The page below the next one, counted from the root table on. -/
def poolTable (base : BitVec 64) (number : Nat) : BitVec 64 :=
  base + BitVec.ofNat 64 (0x1000 * number)

theorem poolTable_toNat {number : Nat} (room : base.toNat + 0x1000 * number < 2 ^ 64) :
    (poolTable base number).toNat = base.toNat + 0x1000 * number := by
  unfold poolTable
  rw [BitVec.toNat_add, BitVec.toNat_ofNat]
  lia

/-- Below 122 MB there are no more tables than the image maps to themselves. -/
theorem OnlyTables.next_le (only : OnlyTables base (61 * 2 ^ 21) store)
    (aligned : base.toNat % 0x1000 = 0) (whole : store.next.toNat % 0x1000 = 0)
    (limit : base.toNat + 0x41000 < 2 ^ 64) :
    store.next.toNat ≤ base.toNat + 0x40000 := by
  by_contra beyond
  have place (number : Fin 64) : ∃ code : Fin 63, ∃ va : BitVec 64, ∃ level,
      va.toNat < 61 * 2 ^ 21 ∧ 0 < level ∧ level ≤ 3 ∧ placeNumber level va = code ∧
        initMapper.tableAt store.mem base va level =
          some (poolTable base (number + 1)) := by
    have inside := number.isLt
    have address : (poolTable base (number + 1)).toNat = _ :=
      poolTable_toNat (by lia)
    have different : poolTable base (number + 1) ≠ base := by
      intro same
      rw [same] at address
      lia
    obtain ⟨va, small, level, above, shallow, there⟩ := only _
      ⟨by lia, by lia, by lia⟩ different
    have low : placeNumber level va < 63 := by
      unfold placeNumber
      split <;> omega
    exact ⟨⟨_, low⟩, va, level, small, above, shallow, rfl, there⟩
  choose code va level small above shallow number table using place
  obtain ⟨first, second, different, same⟩ :=
    Fintype.exists_ne_map_eq_of_card_lt code (by decide)
  apply different
  have sameTable := @tableAt_of_placeNumber base store.mem _ _ _ _
    (lt_trans (small first) (by decide)) (lt_trans (small second) (by decide))
    (above first) (above second) (shallow first) (shallow second)
    ((number first).trans ((congrArg Fin.val same).trans (number second).symm))
  rw [table, table] at sameTable
  have addresses := congrArg BitVec.toNat (Option.some.inj sameTable)
  have inside := first.isLt
  have inside' := second.isLt
  rw [poolTable_toNat (by lia), poolTable_toNat (by lia)] at addresses
  exact Fin.ext (by lia)

theorem OnlyTables.start {ram : BitVec 64 → BitVec 64} (bound : Nat)
    (room : base.toNat + 0x1000 < 2 ^ 64) : OnlyTables base bound ⟨ram, base + 0x1000⟩ := by
  intro page taken different
  have next : (base + 0x1000).toNat = base.toNat + 0x1000 := toNat_bump room
  have above := taken.above
  have below : page.toNat + 0x1000 ≤ (base + 0x1000).toNat := taken.below
  exact absurd (BitVec.eq_of_toNat_eq (by omega)) different

end Count

end TzTest.Aarch64
