import TzTest.Boot.UnmapInit

/-!
# Pages that the levels share

A page of the heap, a page that is mapped to a given address, and accesses through
both.
-/

namespace TzTest.Aarch64.Boot

open Radix BitField

/-- The page at `va` is the page at `pa`. -/
def PageAt (base : BitVec 64) (mem : BitVec 64 → BitVec 64) (va pa : BitVec 64) : Prop :=
  ∀ offset : BitVec 64, offset.toNat < 0x1000 →
    access base mem (va + offset) = some (pa + offset)

/-- A page whose entry is 36 bits wide, as the routines read it. -/
structure Page (pa : BitVec 64) : Prop where
  aligned : pa.toNat % 0x1000 = 0
  small : pa.toNat < 2 ^ 36

variable {base va pa : BitVec 64} {stop : Nat} {s later : MemUtil 64}

theorem Page.within (page : Page pa) : Within pa 12 36 :=
  within_of_toNat page.aligned page.small

theorem add_toNat {page offset : BitVec 64} (room : page.toNat + 0x1000 ≤ 2 ^ 64)
    (small : offset.toNat < 0x1000) : (page + offset).toNat = page.toNat + offset.toNat := by
  rw [BitVec.toNat_add]
  omega

theorem samePage_add {offset : BitVec 64} (aligned : va.toNat % 0x1000 = 0)
    (inside : va.toNat < 2 ^ 48) (small : offset.toNat < 0x1000) :
    mapper.SamePage (va + offset) va := by
  have place := @add_toNat va offset (by omega) small
  exact (@TzTest.samePage_iff .aarch64 (va + offset) va
    (by change (va + offset).toNat < 2 ^ 48; omega) inside).mpr (by
      change (va + offset).toNat / 0x1000 = va.toNat / 0x1000
      omega)

theorem PageAt.of_translate {mem : BitVec 64 → BitVec 64} {attr : BitVec 64}
    (aligned : va.toNat % 0x1000 = 0) (inside : va.toNat < 2 ^ 48) (page : Page pa)
    (translated : mapper.translate mem base va = some ⟨pa, attr⟩) :
    PageAt base mem va pa := by
  intro offset small
  have same := (samePage_add aligned inside small).translate mem base
  have place := @add_toNat va offset (by omega) small
  have sum := @add_toNat pa offset (by have wide := page.small; omega) small
  have number := offset_toNat page.aligned (va + offset)
  unfold access
  rw [hwWalk_eq (by omega), same, translated]
  apply congrArg some
  apply BitVec.eq_of_toNat_eq
  refine number.trans ?_
  omega

theorem access_congr {mem mem' : BitVec 64 → BitVec 64}
    (same : mapper.translate mem' base va = mapper.translate mem base va) :
    access base mem' va = access base mem va := by
  unfold access
  rw [hwWalk_congr same]

theorem PageAt.congr {mem mem' : BitVec 64 → BitVec 64} (there : PageAt base mem va pa)
    (aligned : va.toNat % 0x1000 = 0) (inside : va.toNat < 2 ^ 48)
    (same : mapper.translate mem' base va = mapper.translate mem base va) :
    PageAt base mem' va pa := by
  intro offset small
  have page := samePage_add aligned inside small
  rw [← there offset small]
  apply access_congr
  rw [page.translate, page.translate, same]

theorem PageAt.str {mem : BitVec 64 → BitVec 64} (there : PageAt base mem va pa)
    {offset : BitVec 64} (small : offset.toNat < 0x1000) (word : BitVec 64) :
    str base (va + offset) word mem = some (Function.update mem (pa + offset) word) :=
  Option.map_eq_some_iff.mpr ⟨_, there offset small, rfl⟩

theorem PageAt.ldr {mem : BitVec 64 → BitVec 64} (there : PageAt base mem va pa)
    {offset : BitVec 64} (small : offset.toNat < 0x1000) :
    ldr base mem (va + offset) = some (mem (pa + offset)) :=
  Option.map_eq_some_iff.mpr ⟨_, there offset small, rfl⟩

theorem memLookupPa_page (settled : @Settled .aarch64 base stop s) (page : Page pa)
    {attr : BitVec 64} (translated : mapper.translate s.mem base va = some ⟨pa, attr⟩) :
    memLookupPa base va s = pa := by
  have forest : Forest mapper.toFormat (fun _ : Unit => base) s.mem
      (@range .aarch64 s.memNextPa.toNat stop) := settled.homed.hosted.forest
  rw [@memLookupPa_eq Unit (fun _ => base) () _ s forest va _ translated]
  exact page.within.and_mask (by decide : IsMask tableAddress 12 36) (le_refl _) (le_refl _)

theorem pageLeaf_page (page : Page pa) :
    ∃ attr, mapper.leaf (pageEntry pa pteUserRw) = some ⟨pa, attr⟩ := by
  obtain ⟨attr, found⟩ := leaf_pageEntry pa (by decide :
    (ptePage ||| pteAccess ||| pteUserRw) &&& 0x3 = 0x3) (by decide)
  have kept : pa &&& outputAddress = pa :=
    page.within.and_mask (by decide : IsMask outputAddress 12 48) (le_refl _) (by decide)
  rw [kept] at found
  exact ⟨attr, found⟩

/-- The tables after a page was mapped. -/
structure Mapped (base : BitVec 64) (stop : Nat) (va pa : BitVec 64)
    (s later : MemUtil 64) : Prop where
  settled : @Settled .aarch64 base stop later
  here : ∃ attr, mapper.translate later.mem base va = some ⟨pa, attr⟩
  others {other : BitVec 64} : @Elsewhere .aarch64 base stop other →
    ¬mapper.SamePage other va →
    mapper.translate later.mem base other = mapper.translate s.mem base other
  advances : s.memNextPa.toNat ≤ later.memNextPa.toNat
  most : later.memNextPa.toNat ≤ s.memNextPa.toNat + 0x4000
  beside {addr : BitVec 64} : @Beside .aarch64 base stop s addr →
    @Beside .aarch64 base stop later addr ∧ later.mem addr = s.mem addr

theorem Settled.page (settled : @Settled .aarch64 base stop s)
    (room : s.memNextPa.toNat < stop) : Page s.memNextPa := by
  have limit : stop ≤ 2 ^ 36 := settled.homed.hosted.pool.limit
  exact ⟨settled.homed.hosted.pool.aligned, by omega⟩

theorem mapPage_ends (settled : @Settled .aarch64 base stop s)
    (elsewhere : @Elsewhere .aarch64 base stop va) (page : Page pa)
    (room : s.memNextPa.toNat + 0x4000 ≤ stop) :
    ∃ later : MemUtil 64,
      (∀ fuel, memMapPa base (fuel + 2) va pa 0 pteUserRw s = some later) ∧
      Mapped base stop va pa s later ∧ later.memHeapPool = s.memHeapPool := by
  obtain ⟨later, ran, leaves⟩ := settled.call_room (.mapPa va pa pteUserRw) elsewhere room
  obtain ⟨attr, leaf⟩ := pageLeaf_page page
  have here : mapper.translate later.mem base va = some ⟨pa, attr⟩ :=
    (leaves.here (mapper.samePage_refl va)).trans leaf
  exact ⟨later, ran, ⟨leaves.settled, ⟨attr, here⟩, leaves.others, leaves.advances,
    leaves.most, leaves.beside⟩, leaves.heapPool⟩

/-- A page of the heap. -/
theorem heapPage_ends (settled : @Settled .aarch64 base stop s)
    (elsewhere : @Elsewhere .aarch64 base stop s.memHeapPool)
    (room : s.memNextPa.toNat + 0x4000 ≤ stop) :
    ∃ later : MemUtil 64,
      (∀ fuel rounds,
        @memHeapAllocate .aarch64 base (fuel + 2) (rounds + 2) 0x1000 s =
          some (s.memHeapPool, later)) ∧
      Mapped base stop s.memHeapPool s.memNextPa s later ∧
      later.memHeapPool = s.memHeapPool + 0x1000 ∧
      s.memNextPa.toNat + 0x1000 ≤ later.memNextPa.toNat ∧
      ∀ offset : BitVec 64, offset.toNat < 0x1000 →
        @Beside .aarch64 base stop later (s.memNextPa + offset) := by
  have limit : stop ≤ 2 ^ 36 := settled.homed.hosted.pool.limit
  obtain ⟨later, ran, leaves, more, own⟩ := settled.heapPage elsewhere room
  obtain ⟨attr, leaf⟩ := pageLeaf_page (Settled.page settled (by omega))
  have here : mapper.translate later.mem base s.memHeapPool = some ⟨s.memNextPa, attr⟩ :=
    (leaves.here (mapper.samePage_refl _)).trans leaf
  refine ⟨_, ran, ⟨leaves.settled.withHeapPool _, ⟨attr, here⟩, leaves.others,
    leaves.advances, leaves.most, ?_⟩, rfl, more, ?_⟩
  · intro addr beside
    obtain ⟨beside', same⟩ := leaves.beside beside
    exact ⟨⟨beside'.entries, beside'.pool⟩, same⟩
  · intro offset small
    have place := @add_toNat s.memNextPa offset (by omega) small
    have inside : s.memNextPa.toNat ≤ (s.memNextPa + offset).toNat ∧
        (s.memNextPa + offset).toNat < s.memNextPa.toNat + 0x1000 := by
      omega
    have beside := own (s.memNextPa + offset) inside
    exact ⟨beside.entries, beside.pool⟩

end TzTest.Aarch64.Boot
