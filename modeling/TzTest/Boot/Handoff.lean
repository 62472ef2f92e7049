import TzTest.InitUtil.Relocation
import TzTest.Paging.Settled
import TzTest.Paging.Truthful

/-!
# From the start-up code to the runtime routines

The start-up code maps the first pages of its pool to themselves.  When it has taken
no other pages for its tables, it leaves what the runtime routines need: tables that
are mapped to themselves, and a clear rest of the pool in the same 2 MB.
-/

namespace TzTest.Aarch64

open Radix BitField

/-- Where the 2 MB of an address end. -/
def regionEnd (base : BitVec 64) : Nat :=
  (base.toNat / 2 ^ 21 + 1) * 2 ^ 21

namespace ImageLayout

/-- The first pages of the pool are mapped to themselves and lie in the 2 MB of the
root table, all of which the image owns. -/
structure Windowed (layout : ImageLayout) : Prop where
  window : ⟨layout.base, 64⟩ ∈ layout.direct
  inRegion : layout.base.toNat + 0x40000 < regionEnd layout.base
  owned : regionEnd layout.base ≤ layout.stop

/-- The start-up code takes no more pages than it maps to themselves. -/
def Few (layout : ImageLayout) (calls : List MapCall) (s : InitUtil) : Prop :=
  ∀ next, layout.poolAfter calls s = some next → next.toNat ≤ layout.base.toNat + 0x40000

variable {layout : ImageLayout} {flash : BitVec 64 → BitVec 64} {booted : Booted}

theorem Relocated.root_le (relocated : layout.Relocated flash booted) :
    layout.base.toNat + 0x1000 ≤ booted.x17.toNat :=
  (@Relocated.tables _ _ _ relocated 0 _ 0 (Nat.zero_le 3) (congrArg some relocated.root)).below

/-- The page tables that the runtime routines take over. -/
theorem Relocated.wellFormed (relocated : layout.Relocated flash booted)
    (placed : layout.Placed) (windowed : layout.Windowed)
    (clear : ∀ {addr : BitVec 64}, layout.base.toNat ≤ addr.toNat →
      addr.toNat < layout.stop → flash addr = 0)
    (few : booted.x17.toNat ≤ layout.base.toNat + 0x40000) (heap : BitVec 64) :
    WellFormed layout.base (regionEnd layout.base) ⟨booted.mem, booted.x17, heap⟩ := by
  have root := relocated.root
  have above := relocated.root_le
  obtain ⟨window, inRegion, owned⟩ := windowed
  have limit := placed.limit
  have tableAt (va : BitVec 64) (level : Nat) :
      booted.tableAt va level = mapper.tableAt booted.mem layout.base va level := by
    unfold Booted.tableAt
    rw [root]
  have sameRegion : layout.base.toNat / 2 ^ 21 = booted.x17.toNat / 2 ^ 21 := by
    unfold regionEnd at inRegion
    omega
  refine
    { rootAligned := placed.aligned
      link := ?_
      distinct := ?_
      apart := ?_
      empty := ?_
      nextAligned := relocated.next.1
      stopAligned := ?_
      limit := le_trans owned limit
      region := ?_
      installed := ?_ }
  · intro va level table below there
    exact relocated.links below ((tableAt va level).trans there)
  · intro left right level level' table inside inside' there there'
    exact relocated.tablesDistinct inside inside' ((tableAt left level).trans there)
      ((tableAt right level').trans there')
  · intro va level table inside there
    have taken := (relocated.tables inside ((tableAt va level).trans there)).below
    change table.toNat < booted.x17.toNat ∨ _
    omega
  · intro addr unused inside
    change booted.x17.toNat ≤ addr.toNat at unused
    refine (relocated.frame (.inr unused)).trans (clear ?_ ?_) <;> omega
  · unfold regionEnd
    omega
  · change _ ≤ (booted.x17.toNat / 2 ^ 21 + 1) * 2 ^ 21
    rw [← sameRegion]
    rfl
  · have covers : Span.Covers ⟨layout.base, 64⟩ layout.base := by
      unfold Span.Covers Span.stop
      dsimp only
      omega
    have mapped := relocated.direct window covers
    obtain ⟨found, walked, _⟩ := Option.map_eq_some_iff.mp mapped
    have walked := (hwWalk_some walked).2
    rw [root] at walked
    obtain ⟨last, there, _⟩ := Option.bind_eq_some_iff.mp walked
    change (mapper.tableAt booted.mem layout.base booted.x17 3).isSome
    rw [← (agree_of_region sameRegion).tableAt booted.mem layout.base]
    exact Option.isSome_iff_exists.mpr ⟨last, there⟩

/-- The runtime routines can go on. -/
theorem Relocated.settled (relocated : layout.Relocated flash booted)
    (placed : layout.Placed) (windowed : layout.Windowed)
    (clear : ∀ {addr : BitVec 64}, layout.base.toNat ≤ addr.toNat →
      addr.toNat < layout.stop → flash addr = 0)
    (few : booted.x17.toNat ≤ layout.base.toNat + 0x40000) (heap : BitVec 64) :
    @Settled .aarch64 layout.base (regionEnd layout.base)
      ⟨booted.mem, booted.x17, heap⟩ := by
  have start := relocated.wellFormed placed windowed clear few heap
  have root := relocated.root
  have above := relocated.root_le
  have aligned := placed.aligned
  have entry {key table : BitVec 64} {level : Nat} (inside : level ≤ 3)
      (there : mapper.tableAt booted.mem layout.base key level = some table) :
      layout.base.toNat ≤ (mapper.entryOf level table key).toNat ∧
        (mapper.entryOf level table key).toNat < booted.x17.toNat := by
    have taken : Taken layout.base booted.x17 table := by
      apply relocated.tables inside
      unfold Booted.tableAt
      rw [root]
      exact there
    have page := entryOf_toNat (within_of_toNat taken.aligned table.isLt) level key
    have lower := taken.above
    have upper := taken.below
    have whole := taken.aligned
    omega
  refine
    { aligned := aligned
      whole := start.stopAligned
      homed :=
        { hosted := start.hosted
          self := ?_
          installed := fun inside => start.installed_pool inside.1 inside.2 }
      start := ?_
      below := ?_
      inside := ?_ }
  · intro key level table inside there
    obtain ⟨lower, upper⟩ := entry inside there
    have covers : Span.Covers ⟨layout.base, 64⟩ (mapper.entryOf level table key) := by
      unfold Span.Covers Span.stop
      dsimp only
      omega
    have mapped := relocated.direct windowed.window covers
    obtain ⟨found, walked, place⟩ := Option.map_eq_some_iff.mp mapped
    have walked := (hwWalk_some walked).2
    have isPage := pa_within walked
    rw [root] at walked
    refine ⟨found, walked, ?_⟩
    apply BitVec.eq_of_toNat_eq
    have number := offset_toNat isPage.toNat_mod (mapper.entryOf level table key)
    have whole : found.pa.toNat % 0x1000 = 0 := isPage.toNat_mod
    rw [place] at number
    have floor : (@pageBase .aarch64 (mapper.entryOf level table key)).toNat =
        (mapper.entryOf level table key).toNat / 0x1000 * 0x1000 :=
      pageBase_toNat _
    have same : @BitVec.toNat 64 found.pa =
        (mapper.entryOf level table key).toNat / 0x1000 * 0x1000 := by
      omega
    exact same.trans floor.symm
  · change layout.base.toNat ≤ booted.x17.toNat
    omega
  · change booted.x17.toNat ≤ _
    have inRegion := windowed.inRegion
    omega
  · rintro addr ⟨key, level, table, inside, there, rfl⟩
    exact entry inside there

end ImageLayout

end TzTest.Aarch64
