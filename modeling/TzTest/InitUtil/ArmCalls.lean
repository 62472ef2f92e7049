import TzTest.InitUtil.ArmMapVaToPa

/-!
# The ARM start-up tables as a finite map

A sequence of `map_va_to_pa` and `unmap_va` acts on the hardware's view of the
tables as on a map, as long as no call meets a page that is mapped already.
-/

namespace TzTest.Arm

open BitField

/-- The mapping that a call asks for. -/
def initMapping (pgprop pa : BitVec 32) : Leaf 32 :=
  ⟨pa, ptePage ||| pgprop⟩

namespace InitCall

def change : InitCall → Change .arm
  | mapVaToPa va pgprop pa => ⟨va, some (initMapping pgprop pa)⟩
  | unmapVa va => ⟨va, none⟩

/-- An address of a page, and properties beside it. -/
def Legal : InitCall → Prop
  | mapVaToPa _ pgprop pa => pa.toNat % 0x1000 = 0 ∧ pgprop.toNat < 0x1000
  | unmapVa _ => True

/-- `map_va_to_pa` has a page for a missing table, and the page of the address is
not mapped otherwise; `unmap_va` has nothing to remove, and its walk stops. -/
def Sound (base : BitVec 32) (stop : Nat) (s : InitUtil) : InitCall → Prop
  | mapVaToPa va pgprop pa =>
      (tableOf s.mem base va = none → s.nextL1Page.toNat + 0x1000 ≤ stop) ∧
        (hwWalk s.mem base va = none ∨
          hwWalk s.mem base va = some (initMapping pgprop pa))
  | unmapVa va =>
      hwWalk s.mem base va = none ∧ InitUtil.WalkStops s.mem base va

def SoundAll (base : BitVec 32) (stop : Nat) : List InitCall → InitUtil → Prop
  | [], _ => True
  | call :: calls, s =>
      call.Sound base stop s ∧
        ∀ later, call.run base 4 s = some later → SoundAll base stop calls later

end InitCall

/-- A two-level table and the pages up to `stop` for further tables. -/
structure InitTables (base : BitVec 32) (stop : Nat) (s : InitUtil) : Prop where
  ttbr0 : s.ttbr0 &&& 0xFFFFC000 = base
  /-- A first-level entry is invalid or leads to a table. -/
  link (va : BitVec 32) : Good (s.mem (l1Pte base va))
  /-- A second-level entry is invalid or a small page. -/
  small {va table : BitVec 32} : tableOf s.mem base va = some table →
    s.mem (table ||| (l2idx va <<< 2)) &&& 0x3 = 0 ∨
      s.mem (table ||| (l2idx va <<< 2)) &&& 0x2 ≠ 0
  /-- Second-level tables lie on distinct pages, -/
  distinct {left right first second : BitVec 32} :
    tableOf s.mem base left = some first →
    tableOf s.mem base right = some second →
    first.toNat / 0x1000 = second.toNat / 0x1000 → l1idx left = l1idx right
  /-- not on those of the first-level table, -/
  apartRoot {va table : BitVec 32} : tableOf s.mem base va = some table →
    table.toNat / 0x4000 ≠ base.toNat / 0x4000
  /-- and on no unused page. -/
  apart {va table : BitVec 32} : tableOf s.mem base va = some table →
    table.toNat < s.nextL1Page.toNat ∨ stop ≤ table.toNat
  rootApart : base.toNat + 0x4000 ≤ s.nextL1Page.toNat ∨ stop ≤ base.toNat
  /-- The unused pages are zero. -/
  empty {addr : BitVec 32} : s.nextL1Page.toNat ≤ addr.toNat →
    addr.toNat < stop → s.mem addr = 0
  nextAligned : s.nextL1Page.toNat % 0x1000 = 0
  stopAligned : stop % 0x1000 = 0
  below : s.nextL1Page.toNat ≤ stop
  limit : stop ≤ 2 ^ 32 - 0x1000

/-- What the calls keep. -/
structure InitHosted (base : BitVec 32) (stop : Nat) (s : InitUtil) : Prop where
  ttbr0 : s.ttbr0 &&& 0xFFFFC000 = base
  forest : Radix.Forest initMapper.toFormat (fun _ : Unit => base) s.mem
    (@range .arm s.nextL1Page.toNat stop)
  pool : @Pool .arm s.nextL1Page stop
  below : s.nextL1Page.toNat ≤ stop
  small {va entry : BitVec 32} : initMapper.translate s.mem base va = some entry →
    entry &&& 0x2 ≠ 0

section Calls

variable {base : BitVec 32} {stop : Nat} {s : InitUtil}

theorem InitTables.hosted (start : InitTables base stop s) :
    InitHosted base stop s where
  ttbr0 := start.ttbr0
  forest := by
    apply Radix.Forest.withLeaf
    have aligned : base.toNat % 0x4000 = 0 := by
      rw [← start.ttbr0]
      exact (within_and_mask (by decide : IsMask (0xFFFFC000 : BitVec 32) 14 32)
        _).toNat_mod
    have nextAligned := start.nextAligned
    have stopAligned := start.stopAligned
    apply forest_of_pages start.link start.distinct start.apartRoot
    · intro addr inside
      exact start.empty inside.1 inside.2
    · rintro addr ⟨above, below⟩
      have apart := start.rootApart
      have low : s.nextL1Page.toNat ≤ addr.toNat := above
      have high : addr.toNat < stop := below
      omega
    · rintro va table found addr ⟨above, below⟩
      have apart := start.apart found
      have low : s.nextL1Page.toNat ≤ addr.toNat := above
      have high : addr.toNat < stop := below
      omega
  pool := ⟨start.nextAligned, start.limit⟩
  below := start.below
  small {va entry} found := by
    obtain ⟨table, here, read⟩ := Option.bind_eq_some_iff.mp found
    have there : tableOf s.mem base va = some table := here
    change rawLeaf (s.mem (table ||| (l2idx va <<< 2))) = some entry at read
    unfold rawLeaf at read
    split at read
    · cases read
    · rename_i valid
      cases read
      exact (start.small there).resolve_left valid

theorem InitHosted.root (hosted : InitHosted base stop s) :
    s.ttbr0 &&& 0xFFFFC000 = base &&& 0xFFFFC000 := by
  rw [← hosted.ttbr0, BitVec.and_assoc, BitVec.and_self]

theorem leaf_initMapping {pgprop pa : BitVec 32} (aligned : pa.toNat % 0x1000 = 0)
    (props : pgprop.toNat < 0x1000) :
    leaf (pa ||| pgprop ||| 0x2) = some (initMapping pgprop pa) := by
  have isPage : Within pa 12 32 := within_of_toNat aligned pa.isLt
  have low : Within pgprop 0 12 := within_of_toNat (Nat.mod_one _) props
  have output : IsMask outputAddress 12 32 := by decide
  have rest : IsMask (~~~outputAddress) 0 12 := by decide
  have valid : (pa ||| pgprop ||| 0x2) &&& 0x2 ≠ 0 := by
    have bit : (pa ||| pgprop ||| 0x2) &&& 0x2 = 0x2 := by grind
    rw [bit]
    decide
  have address : (pa ||| pgprop ||| 0x2) &&& outputAddress = pa := by
    rw [BitVec.and_or_distrib_right, BitVec.and_or_distrib_right,
      isPage.and_mask output (le_refl _) (le_refl _),
      low.and_eq_zero output.within (.inl (le_refl _)),
      show (0x2 : BitVec 32) &&& outputAddress = 0#32 by decide, BitVec.or_zero]
    exact BitVec.or_zero
  have attr : (pa ||| pgprop ||| 0x2) &&& ~~~outputAddress = ptePage ||| pgprop := by
    rw [BitVec.and_or_distrib_right, BitVec.and_or_distrib_right,
      isPage.and_eq_zero rest.within (.inr (le_refl _)),
      low.and_mask rest (le_refl _) (le_refl _),
      show (0x2 : BitVec 32) &&& ~~~outputAddress = ptePage by decide]
    exact (congrArg (· ||| ptePage) BitVec.zero_or).trans (BitVec.or_comm ..)
  unfold leaf
  rw [if_neg valid, address, attr]
  rfl

theorem set_bind (va : BitVec 32) (entry : Option (BitVec 32))
    (σ : BitVec 32 → Option (BitVec 32)) :
    (fun key => (initMapper.set va entry σ key).bind leaf) =
      mapper.set va (entry.bind leaf) fun key => (σ key).bind leaf := by
  funext key
  by_cases same : mapper.SamePage key va
  · rw [mapper.set_of_samePage same]
    exact congrArg (Option.bind · leaf) (initMapper.set_of_samePage same _ _)
  · rw [mapper.set_of_not_samePage same]
    exact congrArg (Option.bind · leaf) (initMapper.set_of_not_samePage same _ _)

theorem translate_bind (mem : BitVec 32 → BitVec 32) (base : BitVec 32) :
    mapper.translate mem base =
      fun key => (initMapper.translate mem base key).bind leaf :=
  funext (translate_eq_raw mem base)

theorem missing_le_one (mem : BitVec 32 → BitVec 32) (base va : BitVec 32) :
    (tableOf mem base va = none ∧ mapper.missing mem va 1 0 base = 1) ∨
      mapper.missing mem va 1 0 base = 0 := by
  have entry : mapper.next (mem (mapper.entryOf 0 base va)) = tableOf mem base va :=
    rfl
  simp only [Radix.Mapper.missing, entry]
  cases tableOf mem base va with
  | none => exact .inl ⟨rfl, rfl⟩
  | some below => exact .inr rfl

/-- `map_va_to_pa` maps its page where that is not mapped otherwise. -/
theorem InitHosted.mapVaToPa (hosted : InitHosted base stop s)
    {va pgprop pa : BitVec 32}
    (legal : (InitCall.mapVaToPa va pgprop pa).Legal)
    (sound : (InitCall.mapVaToPa va pgprop pa).Sound base stop s) :
    let later := ({ s with r0 := va, r1 := pgprop, r2 := pa } : InitUtil).mapVaToPa
    InitHosted base stop later ∧
      mapper.translate later.mem base =
        mapper.set va (some (initMapping pgprop pa))
          (mapper.translate s.mem base) := by
  intro later
  obtain ⟨room, free⟩ := sound
  have space : s.nextL1Page.toNat + 0x1000 * mapper.missing s.mem va 1 0 base ≤ stop := by
    rcases missing_le_one s.mem base va with ⟨absent, one⟩ | zero
    · rw [one]
      exact room absent
    · rw [zero]
      exact hosted.below
  obtain ⟨kept, _⟩ := @InitUtil.mapVaToPa_store base
    { s with r0 := va, r1 := pgprop, r2 := pa } hosted.root
  obtain ⟨pool, advances, below, becomes⟩ := @InitUtil.mapVaToPa_becomes base _
    { s with r0 := va, r1 := pgprop, r2 := pa } hosted.forest hosted.root stop
    hosted.pool space (le_refl _)
  have written := leaf_initMapping legal.1 legal.2
  have range : @range .arm later.nextL1Page.toNat stop ⊆
      @range .arm s.nextL1Page.toNat stop \
        @range .arm s.nextL1Page.toNat later.nextL1Page.toNat := by
    intro addr inside
    refine ⟨range_mono advances (le_refl _) inside, ?_⟩
    intro taken
    exact absurd taken.2 (not_lt.mpr inside.1)
  have translated : initMapper.translate later.mem base = _ :=
    funext becomes.translated
  have hosts (small : ∀ {va' entry}, initMapper.translate later.mem base va' =
      some entry → entry &&& 0x2 ≠ 0) : InitHosted base stop later :=
    { ttbr0 := (congrArg (· &&& 0xFFFFC000) kept).trans hosted.ttbr0
      forest := becomes.forest.shrink range
      pool := pool
      below := below
      small := small }
  dsimp only at translated
  have seen : mapper.translate s.mem base va = _ := translate_eq_raw s.mem base va
  cases mapped : initMapper.translate s.mem base va with
  | some entry =>
      have kept : initMapper.translate later.mem base =
          initMapper.translate s.mem base := by
        rw [translated, mapped]
        exact if_pos rfl
      have valid := hosted.small mapped
      have same : mapper.translate s.mem base va = some (initMapping pgprop pa) := by
        refine free.resolve_left ?_
        intro absent
        have unmapped : mapper.translate s.mem base va = none := absent
        rw [seen, mapped] at unmapped
        change leaf entry = none at unmapped
        unfold leaf at unmapped
        rw [if_neg valid] at unmapped
        cases unmapped
      refine ⟨hosts ?_, ?_⟩
      · intro va' other found
        rw [kept] at found
        exact hosted.small found
      · rw [← same, Radix.Mapper.set_translate, translate_bind, translate_bind, kept]
  | none =>
      have set : initMapper.translate later.mem base =
          initMapper.set va (some (pa ||| pgprop ||| 0x2))
            (initMapper.translate s.mem base) := by
        rw [translated, mapped]
        exact if_neg Bool.false_ne_true
      refine ⟨hosts ?_, ?_⟩
      · intro va' other found
        rw [set] at found
        by_cases samePage : initMapper.SamePage va' va
        · rw [initMapper.set_of_samePage samePage] at found
          cases found
          have bit : (pa ||| pgprop ||| 0x2) &&& 0x2 = 0x2 := by grind
          rw [bit]
          decide
        · rw [initMapper.set_of_not_samePage samePage] at found
          exact hosted.small found
      · rw [translate_bind, set, set_bind, translate_bind]
        exact congrArg (mapper.set va · _) written

/-- A call that meets its condition changes its page. -/
theorem InitHosted.run (hosted : InitHosted base stop s) {call : InitCall}
    (legal : call.Legal) (sound : call.Sound base stop s) :
    ∃ later, (∀ fuel, call.run base (fuel + 4) s = some later) ∧
      InitHosted base stop later ∧
      @translate .arm later.mem base =
        Change.apply (@translate .arm s.mem base) call.change := by
  cases call with
  | mapVaToPa va pgprop pa =>
      obtain ⟨after, translated⟩ := hosted.mapVaToPa legal sound
      exact ⟨_, fun _ => rfl, after, translated⟩
  | unmapVa va =>
      obtain ⟨unmapped, stops⟩ := sound
      obtain ⟨later, ran, kept, ttbr0⟩ := @InitUtil.unmapVa_of_stops base
        { s with r0 := va } stops
      have memory : later.mem = s.mem := congrArg Radix.Store.mem kept
      have pool : later.nextL1Page = s.nextL1Page := congrArg Radix.Store.next kept
      refine ⟨later, ran, ?_, ?_⟩
      · constructor
        · rw [ttbr0]
          exact hosted.ttbr0
        · rw [memory, pool]
          exact hosted.forest
        · rw [pool]
          exact hosted.pool
        · rw [pool]
          exact hosted.below
        · rw [memory]
          exact hosted.small
      · have same : mapper.set va none (mapper.translate s.mem base) =
            mapper.translate s.mem base := by
          rw [← unmapped]
          exact Radix.Mapper.set_translate s.mem base va
        rw [memory]
        exact same.symm

theorem InitHosted.runAll (hosted : InitHosted base stop s) {calls : List InitCall}
    (legal : ∀ call ∈ calls, call.Legal)
    (sound : InitCall.SoundAll base stop calls s) :
    ∃ later, (∀ fuel, InitCall.runAll base (fuel + 4) calls s = some later) ∧
      @translate .arm later.mem base =
        (calls.map InitCall.change).foldl Change.apply (@translate .arm s.mem base) := by
  induction calls generalizing s with
  | nil => exact ⟨s, fun _ => rfl, rfl⟩
  | cons call calls induction =>
      obtain ⟨first, rest⟩ := sound
      obtain ⟨middle, ran, after, changed⟩ :=
        hosted.run (legal call (List.mem_cons_self ..)) first
      obtain ⟨later, reached, translated⟩ := induction after
        (fun other member => legal other (List.mem_cons_of_mem _ member))
        (rest middle (ran 0))
      refine ⟨later, ?_, ?_⟩
      · intro fuel
        exact Option.bind_eq_some_iff.mpr ⟨middle, ran fuel, reached fuel⟩
      · rw [translated, changed]
        rfl

/-- In every sequence of calls that meet their condition the hardware finds for
every page what the last call on it asked for. -/
theorem initCalls_refine_map (start : InitTables base stop s)
    {calls : List InitCall} (legal : ∀ call ∈ calls, call.Legal)
    (sound : InitCall.SoundAll base stop calls s) :
    ∃ later, (∀ fuel, InitCall.runAll base (fuel + 4) calls s = some later) ∧
      ∀ va, hwWalk later.mem base va =
        (lastChange? (calls.map InitCall.change) va).elim (hwWalk s.mem base va)
          Change.leaf := by
  obtain ⟨later, ran, translated⟩ := start.hosted.runAll legal sound
  refine ⟨later, ran, ?_⟩
  intro va
  have changed := @foldl_apply_eq_find .arm _ _ pageOf
    (calls.map InitCall.change) va
    (fun change _ => (samePage_iff va change.vaddr).trans eq_comm)
    (@translate .arm s.mem base)
  exact (congrFun translated va).trans changed

end Calls

/-- One second-level table, for the lowest addresses. -/
def smallInit : InitUtil where
  mem addr := if addr = 0x4000 then 0x8001 else 0
  nextL1Page := 0x10000
  ttbr0 := 0x400B
  r0 := 0
  r1 := 0
  r2 := 0
  r7 := 0
  r8 := 0
  r9 := 0
  r10 := 0
  r11 := 0
  r12 := 0

theorem smallInit_tableOf {va table : BitVec 32}
    (found : tableOf smallInit.mem 0x4000 va = some table) :
    table = 0x8000 ∧ l1Pte 0x4000 va = 0x4000 :=
  smallShared_tableOf found

theorem smallInit_tables : InitTables 0x4000 0x20000 smallInit where
  ttbr0 := by decide
  link := smallShared_wellFormed.link
  small {va table} found := by
    rw [(smallInit_tableOf found).1]
    have place : (0x8000 ||| (l2idx va <<< 2) : BitVec 32) ≠ 0x4000 := by
      intro same
      have page := entry_toNat (tableOf_within found) va
      rw [(smallInit_tableOf found).1] at page
      change (0x8000 ||| (l2idx va <<< 2) : BitVec 32).toNat / 0x1000 = _ at page
      rw [same] at page
      exact absurd page (by decide)
    left
    change (if (0x8000 ||| (l2idx va <<< 2) : BitVec 32) = 0x4000 then (0x8001 : BitVec 32)
      else 0) &&& 0x3 = 0
    rw [if_neg place]
    rfl
  distinct := smallShared_wellFormed.distinct
  apartRoot := smallShared_wellFormed.apartRoot
  apart found := by
    rw [(smallInit_tableOf found).1]
    decide
  rootApart := by decide
  empty {addr} above _ := by
    have different : addr ≠ 0x4000 := by
      rintro rfl
      exact absurd above (by decide)
    exact if_neg different
  nextAligned := by decide
  stopAligned := by decide
  below := by decide
  limit := by decide

/-- A page of the lowest region, and one of a region that has no table yet. -/
theorem initCalls_refine_map_twoPages :
    ∃ later,
      InitCall.runAll 0x4000 4
        [.mapVaToPa 0x5000 pteUserRw 0x1000, .mapVaToPa 0x40000000 pteUserRw 0x2000]
        smallInit = some later ∧
      hwWalk later.mem 0x4000 0x40000000 = some (mapping 0x2000 pteUserRw) := by
  have legal : ∀ call ∈ [InitCall.mapVaToPa 0x5000 pteUserRw 0x1000,
      .mapVaToPa 0x40000000 pteUserRw 0x2000], call.Legal := by
    intro call member
    simp only [List.mem_cons, List.not_mem_nil, or_false] at member
    rcases member with rfl | rfl
    · exact ⟨by decide, by decide⟩
    · exact ⟨by decide, by decide⟩
  have sound : InitCall.SoundAll 0x4000 0x20000
      [.mapVaToPa 0x5000 pteUserRw 0x1000, .mapVaToPa 0x40000000 pteUserRw 0x2000]
      smallInit := by
    refine ⟨⟨by decide, .inl (by decide)⟩, ?_⟩
    intro later ran
    cases Option.some.inj ran
    exact ⟨⟨by decide, .inl (by decide)⟩, fun _ _ => trivial⟩
  obtain ⟨later, ran, found⟩ := initCalls_refine_map smallInit_tables legal sound
  refine ⟨later, ran 0, ?_⟩
  rw [found]
  decide

/-- A page that is mapped again keeps its first mapping, and a page that is
unmapped keeps it as well. -/
theorem initCalls_not_refine_map :
    InitTables 0x4000 0x20000 smallInit ∧
      (∃ later,
        InitCall.runAll 0x4000 4
          [.mapVaToPa 0x5000 pteUserRw 0x1000, .mapVaToPa 0x5000 pteUserRw 0x2000]
          smallInit = some later ∧
        hwWalk later.mem 0x4000 0x5000 = some (mapping 0x1000 pteUserRw)) ∧
      ∃ later,
        InitCall.runAll 0x4000 4
          [.mapVaToPa 0x5000 pteUserRw 0x1000, .unmapVa 0x5000] smallInit =
            some later ∧
        hwWalk later.mem 0x4000 0x5000 = some (mapping 0x1000 pteUserRw) :=
  ⟨smallInit_tables, ⟨_, rfl, by decide⟩, _, rfl, by decide⟩

end TzTest.Arm
