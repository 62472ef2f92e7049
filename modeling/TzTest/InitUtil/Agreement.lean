import TzTest.InitUtil.MapVaToPa

/-!
# Start-up and runtime mapping on AArch64

`map_va_to_pa` and `mem_map_pa`, and `unmap_va` and `mem_unmap_va`, from the same
tables and the same next page.
-/

namespace TzTest.Aarch64

/-- Well-formed tables in whose links nothing stands above the address. -/
structure InitTables (base : BitVec 64) (stop : Nat) (s : MemUtil 64) : Prop
    extends WellFormed base stop s where
  plain {va : BitVec 64} {level : Nat} {table : BitVec 64} : level < 3 →
    mapper.tableAt s.mem base va level = some table →
    Plain (descriptor s.mem level table va)

/-- The start-up routines have the tables and the next page of the runtime
ones. -/
structure SameTables (init : InitUtil) (s : MemUtil 64) : Prop where
  mem : init.mem = s.mem
  nextPa : init.nextPa = s.memNextPa

/-- The arguments of `map_va_to_pa`, as the start-up code passes them. -/
def InitUtil.mapArgs (init : InitUtil) (va pa pgattr : BitVec 64) : InitUtil :=
  { init with x0 := va, x1 := ptePage ||| pteAccess ||| pgattr, x2 := pa }

section Agreement

variable {base : BitVec 64} {stop : Nat} {s : MemUtil 64} {init : InitUtil}

theorem InitTables.forest (start : InitTables base stop s)
    (same : SameTables init s) :
    Radix.Forest initMapper.toFormat (fun _ : Unit => base) init.mem
      (@range .aarch64 init.nextPa.toNat stop) := by
  rw [same.mem, same.nextPa]
  exact start.toWellFormed.hosted.forest.withGood start.plain

theorem pageEntry_eq {pa : BitVec 64} (isPage : BitField.Within pa 12 36)
    (pgattr : BitVec 64) :
    ptePage ||| pteAccess ||| pgattr ||| pa = pageEntry pa pgattr := by
  unfold pageEntry
  rw [isPage.and_mask
    (by decide : BitField.IsMask (~~~0xFFF : BitVec 64) 12 64) (le_refl _)
    (by decide), BitVec.or_comm]

/-- What `map_va_to_pa` makes of the tables. -/
theorem mapVaToPa_translates (start : InitTables base stop s)
    (same : SameTables init s) {va pa pgattr : BitVec 64}
    (inside : va.toNat < 2 ^ 48) (isPage : BitField.Within pa 12 36)
    (room : s.memNextPa.toNat +
      0x1000 * @tablesMissing .aarch64 base va s ≤ stop) :
    ∃ later,
      (∀ fuel, (init.mapArgs va pa pgattr).mapVaToPa base (fuel + 4) =
        some later) ∧
      later.nextPa.toNat = s.memNextPa.toNat +
        0x1000 * @tablesMissing .aarch64 base va s ∧
      ∀ va' : BitVec 64, va'.toNat < 2 ^ 48 →
        hwWalk later.mem base va' =
          if pageOf va' = pageOf va then leaf (pageEntry pa pgattr)
          else hwWalk s.mem base va' := by
  have pool : @Pool .aarch64 init.nextPa stop := by
    rw [same.nextPa]
    exact start.toWellFormed.hosted.pool
  have missing : mapper.missing init.mem va 3 0 base =
      @tablesMissing .aarch64 base va s := by
    rw [same.mem]
    rfl
  have forest := start.forest same
  obtain ⟨later, ran, _, taken, becomes⟩ :=
    @InitUtil.mapVaToPa_becomes Unit _ (fun _ => base) () _
      (init.mapArgs va pa pgattr) forest stop pool
      (by
        change init.nextPa.toNat + 0x1000 * mapper.missing init.mem va 3 0 base ≤ stop
        rw [missing, same.nextPa]
        exact room)
      (le_refl _)
  refine ⟨later, ran, ?_, ?_⟩
  · rw [← missing, ← same.nextPa]
    exact taken
  · intro va' inside'
    have entry : ptePage ||| pteAccess ||| pgattr ||| pa = pageEntry pa pgattr :=
      pageEntry_eq isPage pgattr
    have before : initMapper.translate init.mem base va' = hwWalk s.mem base va' := by
      rw [initMapper_translate, same.mem, hwWalk_eq inside']
    rw [hwWalk_eq inside', ← initMapper_translate, becomes.translated va']
    by_cases page : pageOf va' = pageOf va
    · rw [if_pos page, ← entry]
      exact initMapper.set_of_samePage ((samePage_iff inside' inside).mpr page) _ _
    · rw [if_neg page, ← before]
      exact initMapper.set_of_not_samePage
        (mt (samePage_iff inside' inside).mp page) _ _

/-- What `mem_map_pa` makes of the tables. -/
theorem memMapPa_translates (start : WellFormed base stop s)
    {va pa pgattr : BitVec 64} (inside : va.toNat < 2 ^ 48)
    (room : s.memNextPa.toNat +
      0x1000 * @tablesMissing .aarch64 base va s ≤ stop) :
    ∃ later,
      (∀ fuel, memMapPa base (fuel + 2) va pa 0 pgattr s = some later) ∧
      later.memNextPa.toNat = s.memNextPa.toNat +
        0x1000 * @tablesMissing .aarch64 base va s ∧
      ∀ va' : BitVec 64, va'.toNat < 2 ^ 48 →
        hwWalk later.mem base va' =
          if pageOf va' = pageOf va then leaf (pageEntry pa pgattr)
          else
            (lastChange? ((@tablesTaken .aarch64 base va s).map tableMapping)
              va').elim (hwWalk s.mem base va') Change.leaf := by
  have ready : Ready base stop s := ⟨start.hosted, start.installed_pool⟩
  have fits := @Ready.fits base stop s (.mapPa va pa pgattr) ready room
  obtain ⟨mem, next, ran, _, taken, becomes, _⟩ :=
    @memMapPa_becomes .aarch64 Unit _ (fun _ => base) _ s () ready.hosted.forest
      va pa pgattr stop ready.hosted.pool room (le_refl _) fits.installed
  refine ⟨_, ran, taken, ?_⟩
  intro va' inside'
  have tables : (@tablesTaken .aarch64 base va s).map tableMapping =
      (@tablesTaken .aarch64 base va s).map tableChange := by
    apply List.map_congr_left
    intro page member
    exact tableMapping_eq (@Ready.table_within base stop s
      (.mapPa va pa pgattr) ready room _ member)
  have small : ∀ change ∈ (@tablesTaken .aarch64 base va s).map tableMapping,
      BitVec.toNat change.vaddr < 2 ^ 48 := by
    intro change member
    obtain ⟨page, listed, rfl⟩ := List.mem_map.mp member
    have within := @Ready.table_within base stop s (.mapPa va pa pgattr) ready
      room page listed
    exact lt_trans within.toNat_lt (by decide)
  have changed : hwWalk mem base va' = _ :=
    (hwWalk_eq inside' mem base).trans (becomes.translated va')
  refine changed.trans ?_
  by_cases page : pageOf va' = pageOf va
  · rw [if_pos page]
    exact mapper.set_of_samePage ((samePage_iff inside' inside).mpr page) _ _
  · have walked := foldl_apply_eq small (translate s.mem base) inside'
    rw [if_neg page, hwWalk_eq inside']
    refine (mapper.set_of_not_samePage
      (mt (samePage_iff inside' inside).mp page) _ _).trans ?_
    refine Eq.trans ?_ walked
    rw [tables]
    exact congrFun (@identities_eq .aarch64 _ _) va'

/-- What `unmap_va` makes of the tables is what `mem_unmap_va` makes of them. -/
theorem unmapVa_translates (start : InitTables base stop s)
    (same : SameTables init s) (va : BitVec 64) :
    ∃ later,
      (∀ fuel, ({ init with x0 := va } : InitUtil).unmapVa base (fuel + 4) =
        some later) ∧
      later.nextPa = s.memNextPa ∧
      ∀ va', hwWalk later.mem base va' =
        hwWalk (memUnmapVa base va s).2.mem base va' := by
  have forest := start.forest same
  obtain ⟨later, ran, kept, becomes⟩ :=
    @InitUtil.unmapVa_becomes Unit _ (fun _ => base) () _ { init with x0 := va }
      forest
  obtain ⟨mem, ranC, becomesC⟩ := @memUnmapVa_becomes Unit (fun _ => base) () _ s _
    start.toWellFormed.hosted.forest va
  refine ⟨later, ran, kept.trans same.nextPa, ?_⟩
  intro va'
  have before : initMapper.translate init.mem base = mapper.translate s.mem base := by
    funext key
    rw [initMapper_translate, same.mem]
  apply hwWalk_congr
  rw [← initMapper_translate, becomes.translated va', ranC, becomesC.translated va']
  change initMapper.set va none (initMapper.translate init.mem base) va' = _
  rw [before]
  rfl

/-- Both pairs of routines agree: the mapping ones take the same pages and leave
the same translation, except that `mem_map_pa` maps the tables that it takes,
and the unmapping ones leave the same translation. -/
theorem initUtil_agrees_memUtil (start : InitTables base stop s)
    (same : SameTables init s) :
    (∀ va pa pgattr : BitVec 64, va.toNat < 2 ^ 48 → pa.toNat % 0x1000 = 0 →
      pa.toNat < 2 ^ 36 →
      s.memNextPa.toNat + 0x1000 * @tablesMissing .aarch64 base va s ≤ stop →
      ∃ booted later,
        (∀ fuel, (init.mapArgs va pa pgattr).mapVaToPa base (fuel + 4) =
          some booted) ∧
        (∀ fuel, memMapPa base (fuel + 2) va pa 0 pgattr s = some later) ∧
        booted.nextPa = later.memNextPa ∧
        ∀ va' : BitVec 64, va'.toNat < 2 ^ 48 →
          hwWalk later.mem base va' =
            if pageOf va' = pageOf va then hwWalk booted.mem base va'
            else
              (lastChange? ((@tablesTaken .aarch64 base va s).map tableMapping)
                va').elim (hwWalk booted.mem base va') Change.leaf) ∧
    ∀ va : BitVec 64, ∃ booted,
      (∀ fuel, ({ init with x0 := va } : InitUtil).unmapVa base (fuel + 4) =
        some booted) ∧
      booted.nextPa = (memUnmapVa base va s).2.memNextPa ∧
      ∀ va', hwWalk booted.mem base va' =
        hwWalk (memUnmapVa base va s).2.mem base va' := by
  constructor
  · intro va pa pgattr inside aligned small room
    have isPage : BitField.Within pa 12 36 :=
      BitField.within_of_toNat aligned small
    obtain ⟨booted, ran, next, found⟩ :=
      mapVaToPa_translates start same inside isPage room
    obtain ⟨later, ranC, nextC, foundC⟩ :=
      @memMapPa_translates _ _ _ start.toWellFormed va pa pgattr inside room
    refine ⟨booted, later, ran, ranC, ?_, ?_⟩
    · exact BitVec.eq_of_toNat_eq (next.trans nextC.symm)
    · intro va' inside'
      rw [foundC va' inside', found va' inside']
      by_cases page : pageOf va' = pageOf va
      · rw [if_pos page, if_pos page, if_pos page]
      · rw [if_neg page, if_neg page, if_neg page]
  · intro va
    obtain ⟨booted, ran, kept, found⟩ := unmapVa_translates start same va
    obtain ⟨mem, ranC, _⟩ := @memUnmapVa_becomes Unit (fun _ => base) () _ s _
      start.toWellFormed.hosted.forest va
    refine ⟨booted, ran, ?_, found⟩
    rw [kept, ranC]

end Agreement

/-- The start-up routines on the small tables. -/
def smallInit : InitUtil where
  mem := smallTables.mem
  nextPa := smallTables.memNextPa
  x0 := 0
  x1 := 0
  x2 := 0
  x10 := 0
  x11 := 0
  x12 := 0
  x13 := 0
  x14 := 0

theorem smallTables_plain (addr : BitVec 64) : Plain (smallTables.mem addr) := by
  change Plain (if addr = 0x1000 then 0x2003 else if addr = 0x2000 then 0x3003
    else if addr = 0x3000 then 0x4003 else 0)
  split
  · exact .inr (by decide)
  split
  · exact .inr (by decide)
  split
  · exact .inr (by decide)
  · exact .inl (by decide)

theorem smallTables_init : InitTables 0x1000 0x20000 smallTables where
  toWellFormed := smallTables_wellFormed
  plain _ _ := smallTables_plain _

/-- Two tables are missing for the address, and both are mapped by the runtime
routine. -/
theorem initUtil_agrees_memUtil_twoTables :
    ∃ booted later,
      (smallInit.mapArgs 0x40000000 0x80000 0x40).mapVaToPa 0x1000 4 =
        some booted ∧
      memMapPa 0x1000 2 0x40000000 0x80000 0 0x40 smallTables = some later ∧
      booted.nextPa = later.memNextPa ∧
      hwWalk later.mem 0x1000 0x5000 = some (mapping 0x5000 pteUserRw) := by
  obtain ⟨booted, later, ran, ranC, next, found⟩ :=
    (initUtil_agrees_memUtil smallTables_init
      (⟨rfl, rfl⟩ : SameTables smallInit smallTables)).1
        0x40000000 0x80000 0x40 (by decide) (by decide) (by decide) (by decide)
  refine ⟨booted, later, ran 0, ranC 0, next, ?_⟩
  rw [found 0x5000 (by decide)]
  rfl

end TzTest.Aarch64
