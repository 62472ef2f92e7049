import TzTest.Library.Loop
import TzTest.Library.RadixDirect
import TzTest.Paging.Refinement

/-!
# The AArch64 start-up table routines

`allocate_pa`, `map_va_to_pa` and `unmap_va` of `init_util.S`, by their
registers.  They build the tables that `mem_util.c` works on afterwards, and go
through them by physical addresses.
-/

namespace TzTest.Aarch64

open BitField

/-- The tables, the word at `RAM_BASE + 0x2000` and the registers that the
routines use. -/
structure InitUtil where
  mem : BitVec 64 → BitVec 64
  nextPa : BitVec 64
  x0 : BitVec 64
  x1 : BitVec 64
  x2 : BitVec 64
  x10 : BitVec 64
  x11 : BitVec 64
  x12 : BitVec 64
  x13 : BitVec 64
  x14 : BitVec 64

namespace InitUtil

/-- `allocate_pa`, which saves `x10` and `x11`. -/
def allocatePa (s : InitUtil) : InitUtil :=
  { s with x0 := s.nextPa, nextPa := s.nextPa + 0x1000 }

/-- The counters of `map_va_to_pa` and `unmap_va`. -/
def enter (ptBase : BitVec 64) (s : InitUtil) : InitUtil :=
  { s with x12 := ptBase, x13 := 0x4, x14 := 39 }

/-- The registers that both routines pop at their end. -/
def leave (caller s : InitUtil) : InitUtil :=
  { s with
    x10 := caller.x10
    x11 := caller.x11
    x12 := caller.x12
    x13 := caller.x13
    x14 := caller.x14 }

/-- From `map_loop` or `unmap_loop` to the test of the level. -/
def descriptorAddress (s : InitUtil) : InitUtil :=
  let x11 := s.x12 &&& ~~~0xFFF
  let x10 := s.x0 >>> (s.x14 &&& 0x3F)
  let x14 := s.x14 - 9
  let x10 := x10 &&& 0x1FF
  let x10 := x10 <<< 3
  let x10 := x10 ||| x11
  { s with x10 := x10, x11 := x11, x13 := s.x13 - 1, x14 := x14 }

/-- The descriptor, and its valid bit. -/
def fetch (s : InitUtil) : InitUtil :=
  { s with x12 := s.mem s.x10, x11 := s.mem s.x10 &&& 0x1 }

def mapAllocPage (s : InitUtil) : InitUtil :=
  let s := { s with x11 := s.x0 }
  let s := s.allocatePa
  let s := { s with x12 := s.x0, x0 := s.x11 }
  let s := { s with x12 := s.x12 ||| pteTable }
  { s with mem := Function.update s.mem s.x10 s.x12 }

/-- One round of `map_loop`. -/
def mapLoop (s : InitUtil) : Option InitUtil :=
  let s := s.descriptorAddress
  if s.x13 = 0 then
    none
  else
    let s := s.fetch
    some (if s.x11 = 0 then s.mapAllocPage else s)

def mapDone (s : InitUtil) : InitUtil :=
  let s := { s with x12 := s.x1 ||| s.x2 }
  { s with mem := Function.update s.mem s.x10 s.x12 }

/-- `map_va_to_pa`, with a bound on the rounds of its loop. -/
def mapVaToPa (ptBase : BitVec 64) (fuel : Nat) (s : InitUtil) :
    Option InitUtil := do
  let last ← Loop.run mapLoop fuel (s.enter ptBase)
  return s.leave last.descriptorAddress.mapDone

/-- One round of `unmap_loop`. -/
def unmapLoop (s : InitUtil) : Option InitUtil :=
  let s := s.descriptorAddress
  if s.x13 = 0 then
    none
  else
    let s := s.fetch
    if s.x11 = 0 then none else some s

/-- The two ways out of `unmap_loop`: the last level, and a missing table. -/
def unmapPage (s : InitUtil) : InitUtil :=
  let s := s.descriptorAddress
  if s.x13 = 0 then
    { s with x12 := 0, mem := Function.update s.mem s.x10 0 }
  else
    s.fetch

/-- `unmap_va`, with a bound on the rounds of its loop. -/
def unmapVa (ptBase : BitVec 64) (fuel : Nat) (s : InitUtil) :
    Option InitUtil := do
  let last ← Loop.run unmapLoop fuel (s.enter ptBase)
  return s.leave last.unmapPage

def store (s : InitUtil) : Radix.Store (BitVec 64) (BitVec 64) :=
  ⟨s.mem, s.nextPa⟩

end InitUtil

/-- Invalid entries, and links with no bit above the addresses of the tables. -/
def Plain (entry : BitVec 64) : Prop :=
  entry &&& 0x1 = 0 ∨
    entry &&& 0x3 = 0x3 ∧ entry &&& ~~~0xFFF = entry &&& tableAddress

def initSoft (entry : BitVec 64) : Option (BitVec 64) :=
  if entry &&& 0x1 = 0 then none else some (entry &&& ~~~0xFFF)

theorem Plain.good {entry : BitVec 64} (plain : Plain entry) : Good entry := by
  rcases plain with invalid | ⟨valid, address⟩
  · exact .inl invalid
  · refine .inr ⟨valid, ?_⟩
    have inner : (entry &&& ~~~0xFFF) &&& outputAddress =
        entry &&& outputAddress := by
      rw [BitVec.and_assoc]
      rfl
    have outer : (entry &&& tableAddress) &&& outputAddress =
        entry &&& tableAddress := by
      rw [BitVec.and_assoc]
      rfl
    rw [← inner, address, outer]

theorem initSoft_eq {entry : BitVec 64} (plain : Plain entry) :
    initSoft entry = next entry := by
  rw [← soft_eq plain.good]
  unfold initSoft soft
  by_cases invalid : entry &&& 0x1 = 0
  · rw [if_pos invalid, if_pos invalid]
  · rcases plain with absent | ⟨_, address⟩
    · exact absurd absent invalid
    · rw [if_neg invalid, if_neg invalid, address]

theorem link_pageMask {page : BitVec 64} (isPage : Within page 12 36) :
    (page ||| 0x3) &&& ~~~0xFFF = page := by
  rw [BitVec.and_or_distrib_right,
    isPage.and_mask (by decide : IsMask (~~~0xFFF : BitVec 64) 12 64) (le_refl _)
      (by decide)]
  exact BitVec.or_zero

/-- The table format and the start-up routine. -/
def initMapper : Radix.Mapper (BitVec 64) (BitVec 64) (BitVec 64) (BitVec 64)
    (Leaf 64) :=
  { mapper with
    toFormat := mapper.toFormat.withGood Plain (.inl (by decide))
    soft := initSoft
    enter := fun page => (page ||| pteTable) &&& ~~~0xFFF
    soft_eq := initSoft_eq
    good_linkTo := fun isPage => .inr ⟨link_valid isPage,
      (link_pageMask isPage).trans (link_tableAddress isPage).symm⟩
    enter_eq := link_pageMask }

theorem initMapper_translate (mem : BitVec 64 → BitVec 64) (base va : BitVec 64) :
    initMapper.translate mem base va = mapper.translate mem base va :=
  Radix.Format.translate_withGood ..

theorem initMapper_missing (mem : BitVec 64 → BitVec 64) (va : BitVec 64)
    (remaining level : Nat) (table : BitVec 64) :
    initMapper.missing mem va remaining level table =
      mapper.missing mem va remaining level table :=
  Radix.Mapper.missing_congr (by rfl) (by rfl) ..

theorem initMapper_pages (count : Nat) (page : BitVec 64) :
    initMapper.pages count page = mapper.pages count page :=
  Radix.Mapper.pages_congr (by rfl) count page

theorem initMapper_without (free : Set (BitVec 64)) (pages : List (BitVec 64)) :
    initMapper.without free pages = mapper.without free pages :=
  Radix.Mapper.without_congr (by rfl) free pages

theorem initMapper_pool {next : BitVec 64} {stop count : Nat}
    {free : Set (BitVec 64)} (pool : @Pool .aarch64 next stop)
    (room : next.toNat + 0x1000 * count ≤ stop)
    (inFree : @range .aarch64 next.toNat (next.toNat + 0x1000 * count) ⊆ free) :
    initMapper.Supply free (initMapper.pages count next) ∧
      free \ @range .aarch64 next.toNat (next.toNat + 0x1000 * count) ⊆
        initMapper.without free (initMapper.pages count next) ∧
      @Pool .aarch64 (initMapper.bump^[count] next) stop ∧
      (initMapper.bump^[count] next).toNat = next.toNat + 0x1000 * count := by
  obtain ⟨supply, left⟩ := @Pool.supply .aarch64 _ _ _ free pool room inFree
  rw [initMapper_pages, initMapper_without]
  exact ⟨(Radix.Mapper.supply_congr (by rfl) (by rfl) ..).mpr supply, left,
    @Pool.iterate .aarch64 _ _ _ pool room⟩

theorem initMapper_bump (page : BitVec 64) :
    initMapper.bump page = page + 0x1000 :=
  rfl

namespace InitUtil

/-- The state before a round. -/
structure AtLevel (caller : InitUtil) (level : Nat) (table : BitVec 64)
    (store : Radix.Store (BitVec 64) (BitVec 64)) (s : InitUtil) : Prop where
  x0 : s.x0 = caller.x0
  x1 : s.x1 = caller.x1
  x2 : s.x2 = caller.x2
  x12 : s.x12 &&& ~~~0xFFF = table
  x13 : s.x13 = BitVec.ofNat 64 (4 - level)
  x14 : s.x14 = BitVec.ofNat 64 (39 - level * 9)
  store : s.store = store

variable {caller s : InitUtil} {level : Nat} {table : BitVec 64}
variable {store : Radix.Store (BitVec 64) (BitVec 64)}

theorem shift_toNat : ∀ level, level < 4 →
    (BitVec.ofNat 64 (39 - level * 9) &&& 0x3F).toNat = 39 - level * 9 := by
  decide

theorem levels_left : ∀ level, level < 4 →
    (BitVec.ofNat 64 (4 - level) - 1 = 0 ↔ level = 3) := by
  decide

theorem counters_step : ∀ level, level < 3 →
    BitVec.ofNat 64 (4 - level) - 1 = BitVec.ofNat 64 (4 - (level + 1)) ∧
      BitVec.ofNat 64 (39 - level * 9) - 9 =
        BitVec.ofNat 64 (39 - (level + 1) * 9) := by
  decide

theorem store_mapAllocPage (s : InitUtil) :
    s.mapAllocPage.store =
      ⟨Function.update s.mem s.x10 (s.nextPa ||| pteTable), s.nextPa + 0x1000⟩ := by
  simp only [store, mapAllocPage, allocatePa]

theorem mapAllocPage_registers (s : InitUtil) :
    s.mapAllocPage.x0 = s.x0 ∧ s.mapAllocPage.x1 = s.x1 ∧
      s.mapAllocPage.x2 = s.x2 ∧ s.mapAllocPage.x12 = s.nextPa ||| pteTable ∧
      s.mapAllocPage.x13 = s.x13 ∧ s.mapAllocPage.x14 = s.x14 := by
  simp only [mapAllocPage, allocatePa, and_self]

theorem AtLevel.x10 (here : AtLevel caller level table store s)
    (inside : level ≤ 3) :
    s.descriptorAddress.x10 = initMapper.entryOf level table caller.x0 := by
  have shift : (s.x14 &&& 0x3F).toNat = 39 - level * 9 := by
    rw [here.x14]
    exact shift_toNat level (Nat.lt_succ_of_le inside)
  change ((s.x0 >>> (s.x14 &&& 0x3F).toNat) &&& 0x1FF) <<< 3 |||
    (s.x12 &&& ~~~(0xFFF : BitVec 64)) = table ||| (index level caller.x0 <<< 3)
  rw [shift, here.x0, here.x12, BitVec.or_comm]
  rfl

theorem AtLevel.x13_eq_zero (here : AtLevel caller level table store s)
    (inside : level ≤ 3) : s.descriptorAddress.x13 = 0 ↔ level = 3 := by
  change s.x13 - 1 = 0 ↔ _
  rw [here.x13]
  exact levels_left level (Nat.lt_succ_of_le inside)

theorem AtLevel.counters (here : AtLevel caller level table store s)
    (below : level < 3) :
    s.x13 - 1 = BitVec.ofNat 64 (4 - (level + 1)) ∧
      s.x14 - 9 = BitVec.ofNat 64 (39 - (level + 1) * 9) := by
  rw [here.x13, here.x14]
  exact counters_step level below

theorem AtLevel.mem (here : AtLevel caller level table store s) :
    s.mem = store.mem :=
  congrArg Radix.Store.mem here.store

theorem AtLevel.nextPa (here : AtLevel caller level table store s) :
    s.nextPa = store.next :=
  congrArg Radix.Store.next here.store

theorem AtLevel.x12_fetch (here : AtLevel caller level table store s)
    (inside : level ≤ 3) :
    s.descriptorAddress.fetch.x12 =
      store.mem (initMapper.entryOf level table caller.x0) := by
  rw [← here.x10 inside, ← here.mem]
  rfl

theorem AtLevel.mapLoop_eq (here : AtLevel caller level table store s)
    (below : level < 3) :
    s.mapLoop = some
      (if store.mem (initMapper.entryOf level table caller.x0) &&& 0x1 = 0 then
        s.descriptorAddress.fetch.mapAllocPage
      else s.descriptorAddress.fetch) := by
  have goes : s.descriptorAddress.x13 ≠ 0 :=
    mt (here.x13_eq_zero (Nat.le_of_lt below)).mp (Nat.ne_of_lt below)
  rw [← here.x12_fetch (Nat.le_of_lt below)]
  exact if_neg goes

theorem AtLevel.linked (here : AtLevel caller level table store s)
    (below : level < 3) :
    AtLevel caller (level + 1) (initMapper.enter store.next)
      (Radix.Store.write ⟨store.mem, initMapper.bump store.next⟩
        (initMapper.entryOf level table caller.x0)
        (initMapper.linkTo store.next))
      s.descriptorAddress.fetch.mapAllocPage := by
  obtain ⟨levels, shift⟩ := here.counters below
  have pool : s.descriptorAddress.fetch.nextPa = store.next := here.nextPa
  have address : s.descriptorAddress.fetch.x10 =
      initMapper.entryOf level table caller.x0 := here.x10 (Nat.le_of_lt below)
  have memory : s.descriptorAddress.fetch.mem = store.mem := here.mem
  obtain ⟨x0, x1, x2, x12, x13, x14⟩ :=
    mapAllocPage_registers s.descriptorAddress.fetch
  refine ⟨x0.trans here.x0, x1.trans here.x1, x2.trans here.x2, ?_,
    x13.trans levels, x14.trans shift, ?_⟩
  · rw [x12, pool]
    rfl
  · rw [store_mapAllocPage, pool, address, memory, Radix.Store.write,
      initMapper_bump]
    rfl

theorem AtLevel.entered (here : AtLevel caller level table store s)
    (below : level < 3) :
    AtLevel caller (level + 1)
      (store.mem (initMapper.entryOf level table caller.x0) &&& ~~~0xFFF) store
      s.descriptorAddress.fetch := by
  obtain ⟨levels, shift⟩ := here.counters below
  refine ⟨here.x0, here.x1, here.x2, ?_, levels, shift, here.store⟩
  rw [here.x12_fetch (Nat.le_of_lt below)]

/-- The loop of `map_va_to_pa` goes down as the table routine does. -/
theorem mapLoop_descends {remaining : Nat} (total : level + remaining = 3)
    (here : AtLevel caller level table store s) {last : BitVec 64}
    {later : Radix.Store (BitVec 64) (BitVec 64)}
    (down : initMapper.descendDirect caller.x0 remaining level table store =
      some (last, later)) :
    ∃ bottom, (∀ fuel, Loop.run mapLoop (fuel + (remaining + 1)) s = some bottom) ∧
      AtLevel caller 3 last later bottom := by
  induction remaining generalizing level table store s with
  | zero =>
      cases down
      have atDepth : level = 3 := total
      subst atDepth
      refine ⟨s, ?_, here⟩
      intro fuel
      have left : s.mapLoop = none :=
        if_pos ((here.x13_eq_zero (le_refl _)).mpr rfl)
      rw [Loop.run, left]
  | succ remaining induction =>
      have below : level < 3 := by omega
      have turned := here.mapLoop_eq below
      have soft : initMapper.soft (store.mem
          (initMapper.entryOf level table caller.x0)) =
          if store.mem (initMapper.entryOf level table caller.x0) &&& 0x1 = 0
          then none else some _ := rfl
      simp only [Radix.Mapper.descendDirect, Radix.Mapper.descend, soft] at down
      by_cases invalid :
          store.mem (initMapper.entryOf level table caller.x0) &&& 0x1 = 0
      · rw [if_pos invalid] at turned down
        obtain ⟨bottom, ran, arrived⟩ :=
          induction (by omega) (here.linked below) down
        refine ⟨bottom, ?_, arrived⟩
        intro fuel
        rw [← Nat.add_assoc, Loop.run, turned]
        exact ran fuel
      · rw [if_neg invalid] at turned down
        obtain ⟨bottom, ran, arrived⟩ :=
          induction (by omega) (here.entered below) down
        refine ⟨bottom, ?_, arrived⟩
        intro fuel
        rw [← Nat.add_assoc, Loop.run, turned]
        exact ran fuel

/-- The loop of `unmap_va` comes to the last-level entry when every table is in
place. -/
theorem unmapLoop_walks {base : BitVec 64}
    (links : ∀ {level table}, level < 3 →
      initMapper.tableAt store.mem base caller.x0 level = some table →
      Plain (store.mem (initMapper.entryOf level table caller.x0)))
    {remaining : Nat} (total : level + remaining = 3)
    (here : AtLevel caller level table store s)
    (found : initMapper.tableAt store.mem base caller.x0 level = some table) :
    ∃ bottom,
      (∀ fuel, Loop.run unmapLoop (fuel + (remaining + 1)) s = some bottom) ∧
      bottom.unmapPage.store =
        (initMapper.tableAt store.mem base caller.x0 3).elim store fun last =>
          store.write (initMapper.entryOf 3 last caller.x0) 0 := by
  induction remaining generalizing level table s with
  | zero =>
      have atDepth : level = 3 := total
      subst atDepth
      have last : s.descriptorAddress.x13 = 0 :=
        (here.x13_eq_zero (le_refl _)).mpr rfl
      refine ⟨s, ?_, ?_⟩
      · intro fuel
        have left : s.unmapLoop = none := if_pos last
        rw [Loop.run, left]
      · have written : s.unmapPage =
            { s.descriptorAddress with
              x12 := 0
              mem := Function.update s.descriptorAddress.mem
                s.descriptorAddress.x10 0 } := if_pos last
        rw [found, written, here.x10 (le_refl _)]
        change Radix.Store.mk (Function.update s.mem _ 0) s.nextPa = _
        rw [here.mem, here.nextPa]
        rfl
  | succ remaining induction =>
      have below : level < 3 := by omega
      have goes : s.descriptorAddress.x13 ≠ 0 :=
        mt (here.x13_eq_zero (Nat.le_of_lt below)).mp (Nat.ne_of_lt below)
      have read := here.x12_fetch (Nat.le_of_lt below)
      have turned : s.unmapLoop =
          if s.descriptorAddress.fetch.x12 &&& 0x1 = 0 then none
          else some s.descriptorAddress.fetch := if_neg goes
      have step : initMapper.tableAt store.mem base caller.x0 (level + 1) =
          next (store.mem (initMapper.entryOf level table caller.x0)) :=
        initMapper.tableAt_succ found
      rw [← initSoft_eq (links below found)] at step
      unfold initSoft at step
      rw [read] at turned
      by_cases invalid :
          store.mem (initMapper.entryOf level table caller.x0) &&& 0x1 = 0
      · rw [if_pos invalid] at turned step
        refine ⟨s, ?_, ?_⟩
        · intro fuel
          rw [← Nat.add_assoc, Loop.run, turned]
        · have unchanged : s.unmapPage = s.descriptorAddress.fetch := if_neg goes
          rw [unchanged]
          cases bottom : initMapper.tableAt store.mem base caller.x0 3 with
          | none => exact here.store
          | some last =>
              obtain ⟨above, there⟩ := initMapper.exists_tableAt below bottom
              rw [step] at there
              cases there
      · rw [if_neg invalid] at turned step
        obtain ⟨bottom, ran, outcome⟩ :=
          induction (by omega) (here.entered below) step
        refine ⟨bottom, ?_, outcome⟩
        intro fuel
        rw [← Nat.add_assoc, Loop.run, turned]
        exact ran fuel

theorem atLevel_enter {base : BitVec 64} (aligned : Within base 12 64)
    (s : InitUtil) : AtLevel s 0 base s.store (s.enter base) := by
  refine ⟨rfl, rfl, rfl, ?_, rfl, rfl, rfl⟩
  exact aligned.and_mask (by decide : IsMask (~~~0xFFF : BitVec 64) 12 64)
    (le_refl _) (le_refl _)

/-- `map_va_to_pa` is the direct routine of the format. -/
theorem mapVaToPa_runs {base : BitVec 64} (aligned : Within base 12 64)
    {s : InitUtil} {later : Radix.Store (BitVec 64) (BitVec 64)}
    (ran : initMapper.mapDirect base s.x0 (s.x1 ||| s.x2) s.store = some later) :
    ∃ last, (∀ fuel, mapVaToPa base (fuel + 4) s = some last) ∧
      last.store = later := by
  obtain ⟨⟨table, middle⟩, down, written⟩ := Option.bind_eq_some_iff.mp ran
  cases written
  obtain ⟨bottom, looped, arrived⟩ :=
    mapLoop_descends (Nat.zero_add 3) (atLevel_enter aligned s) down
  refine ⟨s.leave bottom.descriptorAddress.mapDone, ?_, ?_⟩
  · intro fuel
    exact Option.bind_eq_some_iff.mpr ⟨bottom, looped fuel, rfl⟩
  · change Radix.Store.mk (Function.update bottom.mem
      bottom.descriptorAddress.x10 (bottom.x1 ||| bottom.x2)) bottom.nextPa = _
    rw [arrived.x10 (le_refl _), arrived.x1, arrived.x2, arrived.mem,
      arrived.nextPa]
    rfl

section Forest

variable {Root : Type} [DecidableEq Root] {roots : Root → BitVec 64} {root : Root}
variable {free : Set (BitVec 64)} {s : InitUtil}

omit [DecidableEq Root] in
theorem root_within (forest : Radix.Forest initMapper.toFormat roots s.mem free)
    (root : Root) : Within (roots root) 12 64 :=
  @Radix.Forest.table _ _ _ _ _ _ _ _ _ _ forest root s.x0 0 _ (Nat.zero_le _) rfl

/-- `map_va_to_pa` changes one page of its tree, and takes the pages that its
tables lack. -/
theorem mapVaToPa_becomes
    (forest : Radix.Forest initMapper.toFormat roots s.mem free) {stop : Nat}
    (pool : @Pool .aarch64 s.nextPa stop)
    (room : s.nextPa.toNat +
      0x1000 * mapper.missing s.mem s.x0 3 0 (roots root) ≤ stop)
    (inFree : @range .aarch64 s.nextPa.toNat stop ⊆ free) :
    ∃ later,
      (∀ fuel, mapVaToPa (roots root) (fuel + 4) s = some later) ∧
      @Pool .aarch64 later.nextPa stop ∧
      later.nextPa.toNat = s.nextPa.toNat +
        0x1000 * mapper.missing s.mem s.x0 3 0 (roots root) ∧
      initMapper.Becomes roots root s.mem later.mem
        (free \ @range .aarch64 s.nextPa.toNat later.nextPa.toNat)
        (initMapper.set s.x0 (leaf (s.x1 ||| s.x2))
          (initMapper.translate s.mem (roots root))) := by
  rw [← initMapper_missing] at room ⊢
  obtain ⟨supply, left, rest, reached⟩ := initMapper_pool pool room
    ((range_mono (le_refl _) room).trans inFree)
  obtain ⟨mem, ran, becomes, _⟩ := @Radix.Mapper.mapDirect_becomes _ _ _ _ _ _ _
    initMapper roots free s.store root s.x0 _ _ forest (s.x1 ||| s.x2) _ rfl supply
  obtain ⟨later, looped, outcome⟩ :=
    mapVaToPa_runs (root_within forest root) ran
  have memory : later.mem = mem := congrArg Radix.Store.mem outcome
  have taken : later.nextPa =
      initMapper.bump^[initMapper.missing s.mem s.x0 3 0 (roots root)] s.nextPa :=
    congrArg Radix.Store.next outcome
  have place : later.nextPa.toNat = s.nextPa.toNat +
      0x1000 * initMapper.missing s.mem s.x0 3 0 (roots root) := by
    rw [taken, reached]
  refine ⟨later, looped, ?_, place, ?_⟩
  · rw [taken]
    exact rest
  · rw [memory, place]
    exact becomes.shrink left

/-- `unmap_va` removes one page from its tree. -/
theorem unmapVa_becomes
    (forest : Radix.Forest initMapper.toFormat roots s.mem free) :
    ∃ later,
      (∀ fuel, unmapVa (roots root) (fuel + 4) s = some later) ∧
      later.nextPa = s.nextPa ∧
      initMapper.Becomes roots root s.mem later.mem free
        (initMapper.set s.x0 none (initMapper.translate s.mem (roots root))) := by
  have aligned := root_within forest root
  obtain ⟨bottom, looped, outcome⟩ := @unmapLoop_walks s _ 0 _ _ (roots root)
    forest.good 3 rfl (atLevel_enter aligned s) rfl
  have memory : (s.leave bottom.unmapPage).mem = _ :=
    congrArg Radix.Store.mem outcome
  have pool : (s.leave bottom.unmapPage).nextPa = _ :=
    congrArg Radix.Store.next outcome
  refine ⟨_, fun fuel => Option.bind_eq_some_iff.mpr ⟨bottom, looped fuel, rfl⟩,
    ?_, ?_⟩
  · rw [pool]
    cases initMapper.tableAt s.store.mem (roots root) s.x0 3 <;> rfl
  · rw [memory]
    cases found : initMapper.tableAt s.store.mem (roots root) s.x0 3 with
    | none =>
        apply Radix.Mapper.becomes_remove_missing forest
        change Option.bind (initMapper.tableAt s.mem (roots root) s.x0 3) _ = none
        rw [show initMapper.tableAt s.mem (roots root) s.x0 3 = none from found]
        rfl
    | some last =>
        exact @Radix.Mapper.becomes_setLeaf _ _ _ _ _ _ initMapper roots free
          s.store root s.x0 _ _ _ forest 0 _ found

end Forest

end InitUtil

end TzTest.Aarch64
