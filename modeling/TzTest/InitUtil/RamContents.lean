import TzTest.InitUtil.Agreement
import TzTest.InitUtil.ArmCalls
import TzTest.InitUtil.ArmRanges
import TzTest.InitUtil.Ranges
import TzTest.Paging.TwinCalls

/-!
# Tables and what was in memory before

Neither the start-up code nor the running images clear a page that becomes a
table.  Two memories in which these pages and the root table are clear get the
same tables, whatever else they hold.
-/

namespace TzTest

open Radix BitField

namespace Aarch64

namespace Placement

/-- The pages that become tables when a page is mapped. -/
def tables (base : BitVec 64) (place : Placement)
    (store : Store (BitVec 64) (BitVec 64)) : List (BitVec 64) :=
  initMapper.descendDirectTables place.va initMapper.depth 0 base (place.page store).2

def tablesAll (base : BitVec 64) : List Placement →
    Store (BitVec 64) (BitVec 64) → List (BitVec 64)
  | [], _ => []
  | place :: places, store =>
      place.tables base store ++ (place.run base store).elim [] (tablesAll base places)

variable {base : BitVec 64} {free : Set (BitVec 64)}
variable {left right : Store (BitVec 64) (BitVec 64)}

theorem run_alike (alike : initMapper.Alike (fun _ : Unit => base) free left right)
    (place : Placement) (supply : initMapper.Supply free (place.tables base left)) :
    ∃ leftLater rightLater,
      place.run base left = some leftLater ∧ place.run base right = some rightLater ∧
      initMapper.Alike (fun _ : Unit => base)
        (initMapper.without free (place.tables base left)) leftLater rightLater := by
  have page : (place.page right).1 = (place.page left).1 := by
    unfold page
    cases place.pa? with
    | some pa => rfl
    | none => exact alike.next
  have behind : initMapper.Alike (fun _ : Unit => base) free (place.page left).2
      (place.page right).2 := by
    unfold Placement.page
    cases place.pa? with
    | some pa => exact alike
    | none => exact ⟨congrArg (· + 0x1000) alike.next, alike.twin⟩
  have ran := Mapper.mapDirect_together () place.va
    (place.pgprop ||| (place.page left).1) behind supply
  unfold run
  rw [page]
  exact ran

theorem runAll_alike (alike : initMapper.Alike (fun _ : Unit => base) free left right)
    (places : List Placement)
    (supply : initMapper.Supply free (tablesAll base places left)) :
    ∃ leftLater rightLater,
      runAll base places left = some leftLater ∧
      runAll base places right = some rightLater ∧
      initMapper.Alike (fun _ : Unit => base)
        (initMapper.without free (tablesAll base places left)) leftLater rightLater := by
  induction places generalizing left right free with
  | nil => exact ⟨left, right, rfl, rfl, alike⟩
  | cons place places induction =>
      rw [tablesAll] at supply
      obtain ⟨first, rest⟩ := Mapper.supply_append.mp supply
      obtain ⟨leftMiddle, rightMiddle, leftRan, rightRan, middle⟩ :=
        place.run_alike alike first
      rw [leftRan] at rest
      obtain ⟨leftLater, rightLater, leftEnds, rightEnds, after⟩ := induction middle rest
      refine ⟨leftLater, rightLater, ?_, ?_, ?_⟩
      · rw [runAll, leftRan]
        exact leftEnds
      · rw [runAll, rightRan]
        exact rightEnds
      · rw [tablesAll, Mapper.without_append, leftRan]
        exact after

end Placement

/-- The runtime routines find the same in memories that are alike to the start-up
ones. -/
theorem twin_mapper {base : BitVec 64} {free : Set (BitVec 64)}
    {left right : BitVec 64 → BitVec 64}
    (twin : initMapper.Twin (fun _ : Unit => base) free left right) :
    mapper.Twin (fun _ : Unit => base) free left right where
  forest := by
    have forest := @Forest.withGood _ _ _ _ _ _ _ _ _ _ twin.forest Good
      (.inl (by decide)) fun {root _ _ _} below here =>
        Plain.good (@Forest.good _ _ _ _ _ _ _ _ _ _ twin.forest root _ _ _ below here)
    exact forest
  entries := by
    rintro root _ ⟨key, level, table, inside, there, rfl⟩
    exact @Mapper.Twin.entries _ _ _ _ _ _ _ _ _ _ _ twin root _
      ⟨key, level, table, inside, (Format.tableAt_withGood ..).trans there, rfl⟩
  free := twin.free

/-- An image that maps pages while it starts up, and again while it runs. -/
structure ImageRun where
  pgtblBase : BitVec 64
  boot : InitUtil
  memHeapPool : BitVec 64
  inits : List MapCall
  calls : List (RuntimeCall .aarch64)

namespace ImageRun

variable (image : ImageRun) (fuel rounds : Nat) (ram : BitVec 64 → BitVec 64)

/-- The image in its main code, with the tables that its start-up code built. -/
def started (store : Store (BitVec 64) (BitVec 64)) : MemUtil 64 :=
  ⟨store.mem, store.next, image.memHeapPool⟩

def run : Option (MemUtil 64) := do
  let s ← MapCall.runAll image.pgtblBase image.inits { image.boot with mem := ram }
  @RuntimeCall.runAll .aarch64 image.pgtblBase fuel rounds image.calls
    (image.started s.store)

/-- The pages that become tables while the image runs. -/
def tablesLater (store : Store (BitVec 64) (BitVec 64)) : List (BitVec 64) :=
  @RuntimeCall.tablesAll .aarch64 image.pgtblBase fuel rounds image.calls
    (image.started store)

/-- The pages that become tables. -/
def tables : List (BitVec 64) :=
  let places := image.inits.flatMap MapCall.placements
  let store : Store (BitVec 64) (BitVec 64) := ⟨ram, image.boot.nextPa⟩
  Placement.tablesAll image.pgtblBase places store ++
    (Placement.runAll image.pgtblBase places store).elim [] (image.tablesLater fuel rounds)

theorem run_eq (aligned : Within image.pgtblBase 12 64) :
    image.run fuel rounds ram =
      (Placement.runAll image.pgtblBase (image.inits.flatMap MapCall.placements)
        ⟨ram, image.boot.nextPa⟩).bind fun store =>
          @RuntimeCall.runAll .aarch64 image.pgtblBase fuel rounds image.calls
            (image.started store) := by
  have mapped := MapCall.runAll_eq aligned image.inits { image.boot with mem := ram }
  have start : ({ image.boot with mem := ram } : InitUtil).store =
      ⟨ram, image.boot.nextPa⟩ := rfl
  rw [start] at mapped
  rw [run, ← mapped]
  cases MapCall.runAll image.pgtblBase image.inits { image.boot with mem := ram } with
  | none => rfl
  | some s => rfl

/-- Two memories in which the tables are clear end with the same tables. -/
theorem run_same {left right : BitVec 64 → BitVec 64}
    (aligned : image.pgtblBase.toNat % 0x1000 = 0)
    (clear : mapper.Clear image.pgtblBase left right (image.tables fuel rounds left)) :
    Option.Rel
      (fun first second : MemUtil 64 =>
        second.memNextPa = first.memNextPa ∧
          ∀ va, hwWalk second.mem image.pgtblBase va = hwWalk first.mem image.pgtblBase va)
      (image.run fuel rounds left) (image.run fuel rounds right) := by
  have isTable : Within image.pgtblBase 12 64 :=
    within_of_toNat aligned image.pgtblBase.isLt
  have supply : initMapper.Supply (initMapper.clearBeside image.pgtblBase left right)
      (image.tables fuel rounds left) :=
    (Mapper.supply_congr (by rfl) (by rfl) ..).mpr clear.pages
  obtain ⟨first, later⟩ := Mapper.supply_append.mp supply
  have start : initMapper.Alike (fun _ : Unit => image.pgtblBase)
      (initMapper.clearBeside image.pgtblBase left right)
      ⟨left, image.boot.nextPa⟩ ⟨right, image.boot.nextPa⟩ :=
    ⟨rfl, Mapper.twin_of_clear isTable clear.rootTable⟩
  obtain ⟨leftStore, rightStore, leftRan, rightRan, after⟩ :=
    Placement.runAll_alike start _ first
  rw [leftRan] at later
  have same : @SameImage .aarch64 image.pgtblBase _ (image.started leftStore)
      (image.started rightStore) :=
    ⟨⟨after.next, twin_mapper after.twin⟩, rfl⟩
  have ends := RuntimeCall.runAll_sameEnd same image.calls
    ((Mapper.supply_congr (by rfl) (by rfl) ..).mp later)
  rw [run_eq _ _ _ _ isTable, run_eq _ _ _ _ isTable, leftRan, rightRan, Option.bind_some,
    Option.bind_some]
  rcases Mapper.rel_cases ends with ⟨stuck, stuck'⟩ |
    ⟨leftLater, rightLater, leftEnds, rightEnds, final⟩
  · rw [stuck, stuck']
    exact .none
  · rw [leftEnds, rightEnds]
    refine .some ⟨final.alike.next, ?_⟩
    intro va
    exact hwWalk_congr (final.alike.twin.translate () va)

end ImageRun

end Aarch64

namespace Arm

namespace Placement

/-- The page that becomes a table when a page is mapped. -/
def tables (base : BitVec 32) (place : Placement) (pools : PoolStore) :
    List (BitVec 32) :=
  initMapper.descendDirectTables place.va initMapper.depth 0 base pools.store

def tablesAll (base : BitVec 32) : List Placement → PoolStore → List (BitVec 32)
  | [], _ => []
  | place :: places, pools =>
      place.tables base pools ++ (place.run base pools).elim [] (tablesAll base places)

variable {base : BitVec 32} {free : Set (BitVec 32)} {left right : PoolStore}

/-- Both start-ups with the same next pages. -/
structure Alike (base : BitVec 32) (free : Set (BitVec 32)) (left right : PoolStore) :
    Prop where
  store : initMapper.Alike (fun _ : Unit => base) free left.store right.store
  nextPa : right.nextPa = left.nextPa

theorem mapUnmapped_alike {left right : Store (BitVec 32) (BitVec 32)}
    (alike : initMapper.Alike (fun _ : Unit => base) free left right)
    (va entry : BitVec 32)
    (supply : initMapper.Supply free
      (initMapper.descendDirectTables va initMapper.depth 0 base left)) :
    ∃ leftLater rightLater,
      mapUnmapped base va entry left = some leftLater ∧
      mapUnmapped base va entry right = some rightLater ∧
      initMapper.Alike (fun _ : Unit => base)
        (initMapper.without free
          (initMapper.descendDirectTables va initMapper.depth 0 base left))
        leftLater rightLater := by
  obtain ⟨last, leftStore, rightStore, leftRan, rightRan, arrived, after⟩ :=
    Mapper.descendDirect_together () va alike supply
  refine ⟨_, _, Option.bind_eq_some_iff.mpr ⟨_, leftRan, rfl⟩,
    Option.bind_eq_some_iff.mpr ⟨_, rightRan, rfl⟩, ?_⟩
  have read : rightStore.mem (initMapper.entryOf 1 last va) =
      leftStore.mem (initMapper.entryOf 1 last va) :=
    @Mapper.Twin.read _ _ _ _ _ _ _ _ _ _ _ () _ _ _ after.twin (le_refl _) arrived
  rw [read]
  split
  · exact ⟨after.next,
      @Mapper.Twin.setLeaf _ _ _ _ _ _ _ _ _ _ _ () _ _ _ after.twin arrived entry⟩
  · exact after

theorem run_alike (alike : Alike base free left right) (place : Placement)
    (supply : initMapper.Supply free (place.tables base left)) :
    ∃ leftLater rightLater,
      place.run base left = some leftLater ∧ place.run base right = some rightLater ∧
      Alike base (initMapper.without free (place.tables base left)) leftLater
        rightLater := by
  obtain ⟨leftStore, rightStore, leftRan, rightRan, after⟩ := mapUnmapped_alike
    alike.store place.va ((place.page left.nextPa).1 ||| place.pgprop ||| 0x2) supply
  unfold run
  rw [alike.nextPa]
  exact ⟨_, _, Option.map_eq_some_iff.mpr ⟨_, leftRan, rfl⟩,
    Option.map_eq_some_iff.mpr ⟨_, rightRan, rfl⟩, after, rfl⟩

theorem runAll_alike (alike : Alike base free left right) (places : List Placement)
    (supply : initMapper.Supply free (tablesAll base places left)) :
    ∃ leftLater rightLater,
      runAll base places left = some leftLater ∧
      runAll base places right = some rightLater ∧
      Alike base (initMapper.without free (tablesAll base places left)) leftLater
        rightLater := by
  induction places generalizing left right free with
  | nil => exact ⟨left, right, rfl, rfl, alike⟩
  | cons place places induction =>
      rw [tablesAll] at supply
      obtain ⟨first, rest⟩ := Mapper.supply_append.mp supply
      obtain ⟨leftMiddle, rightMiddle, leftRan, rightRan, middle⟩ :=
        run_alike alike place first
      rw [leftRan] at rest
      obtain ⟨leftLater, rightLater, leftEnds, rightEnds, after⟩ := induction middle rest
      refine ⟨leftLater, rightLater, ?_, ?_, ?_⟩
      · rw [runAll, leftRan]
        exact leftEnds
      · rw [runAll, rightRan]
        exact rightEnds
      · rw [tablesAll, Mapper.without_append, leftRan]
        exact after

end Placement

/-- The runtime routine finds the same in memories that are alike to the start-up
one. -/
theorem twin_mapper {base : BitVec 32} {free : Set (BitVec 32)}
    {left right : BitVec 32 → BitVec 32}
    (twin : initMapper.Twin (fun _ : Unit => base) free left right) :
    mapper.Twin (fun _ : Unit => base) free left right where
  forest := by
    have forest := @Forest.withLeaf _ _ _ _ _ _ _ _ _ _ twin.forest _ leaf (by decide)
    exact forest
  entries := by
    rintro root _ ⟨key, level, table, inside, there, rfl⟩
    exact @Mapper.Twin.entries _ _ _ _ _ _ _ _ _ _ _ twin root _
      ⟨key, level, table, inside, (Format.tableAt_withLeaf ..).trans there, rfl⟩
  free := twin.free

/-- `monitor_pt_clear`: so many words from an address on. -/
def monitorPtClear :
    Nat → BitVec 32 → (BitVec 32 → BitVec 32) → BitVec 32 → BitVec 32
  | 0, _, mem => mem
  | words + 1, addr, mem =>
      monitorPtClear words (addr + 4) (Function.update mem addr 0)

theorem monitorPtClear_apply (words : Nat) (addr : BitVec 32)
    (mem : BitVec 32 → BitVec 32) (other : BitVec 32) :
    monitorPtClear words addr mem other =
      if ∃ word < words, other = addr + BitVec.ofNat 32 (4 * word) then 0
      else mem other := by
  induction words generalizing addr mem with
  | zero => simp [monitorPtClear]
  | succ words induction =>
      have first : (∃ word < words + 1, other = addr + BitVec.ofNat 32 (4 * word)) ↔
          other = addr ∨ ∃ word < words, other = addr + 4 + BitVec.ofNat 32 (4 * word) := by
        rw [Nat.exists_lt_succ_left]
        apply or_congr
        · exact iff_of_eq (congrArg (other = ·) (BitVec.add_zero addr))
        · simp only [Nat.mul_succ, BitVec.ofNat_add, BitVec.add_assoc,
            BitVec.add_comm (BitVec.ofNat 32 _) (BitVec.ofNat 32 4)]
          rfl
      rw [monitorPtClear, induction]
      by_cases here : other = addr
      · rw [here, Function.update_self, ite_self, if_pos (here ▸ first.mpr (.inl here))]
      · simp only [first, here, false_or, Function.update_of_ne here]

/-- An image that maps pages while it starts up, and again while it runs. -/
structure ImageRun where
  pgtblBase : BitVec 32
  /-- The words that are cleared before: `EL3_PGTBL_SIZE` bytes in the monitor, and
  none in the other images. -/
  ptClear : Nat
  boot : Startup
  memHeapPool : BitVec 32
  inits : List MapCall
  calls : List (RuntimeCall .arm)

namespace ImageRun

variable (image : ImageRun) (fuel rounds : Nat) (ram : BitVec 32 → BitVec 32)

/-- The memory when the start-up code begins to map. -/
def cleared : BitVec 32 → BitVec 32 :=
  monitorPtClear image.ptClear image.pgtblBase ram

/-- The start-up code has set the table base, with its memory attributes. -/
def start : Startup :=
  { image.boot with
    mem := image.cleared ram
    ttbr0 := image.pgtblBase ||| 0xB }

/-- The image in its main code.  Its tables come from the pool of the pages. -/
def started (pools : PoolStore) : MemUtil 32 :=
  ⟨pools.store.mem, pools.nextPa, image.memHeapPool⟩

def run : Option (MemUtil 32) := do
  let s ← MapCall.runAll image.inits (image.start ram)
  @RuntimeCall.runAll .arm image.pgtblBase fuel rounds image.calls (image.started s.pools)

/-- The pages that become tables while the image runs. -/
def tablesLater (pools : PoolStore) : List (BitVec 32) :=
  @RuntimeCall.tablesAll .arm image.pgtblBase fuel rounds image.calls (image.started pools)

/-- The pages that become tables. -/
def tables : List (BitVec 32) :=
  let places := image.inits.flatMap MapCall.placements
  Placement.tablesAll image.pgtblBase places (image.start ram).pools ++
    (Placement.runAll image.pgtblBase places (image.start ram).pools).elim []
      (image.tablesLater fuel rounds)

theorem run_eq :
    image.run fuel rounds ram =
      (Placement.runAll image.pgtblBase (image.inits.flatMap MapCall.placements)
        (image.start ram).pools).bind fun pools =>
          @RuntimeCall.runAll .arm image.pgtblBase fuel rounds image.calls
            (image.started pools) := by
  have at' : (image.start ram).At image.pgtblBase := by
    change (image.pgtblBase ||| 0xB) &&& 0xFFFFC000 = image.pgtblBase &&& 0xFFFFC000
    rw [BitVec.and_or_distrib_right]
    exact BitVec.or_zero
  obtain ⟨later, ran, mapped⟩ := MapCall.runAll_eq image.inits at'
  rw [run, ran, mapped]
  rfl

theorem cleared_rootTable (aligned : image.pgtblBase.toNat % 0x4000 = 0)
    (whole : 0x1000 ≤ image.ptClear) (va : BitVec 32) :
    image.cleared ram (mapper.entryOf 0 image.pgtblBase va) = 0 := by
  obtain ⟨place, inside, _, same⟩ := l1Pte_toNat image.pgtblBase va
  have index : Within (l1idx va <<< 2) 2 14 :=
    (within_and_mask (by decide : IsMask (0xFFF : BitVec 32) 0 12) _).shiftLeft 2
  have words := index.toNat_mod
  change monitorPtClear _ _ _ (l1Pte image.pgtblBase va) = 0
  rw [monitorPtClear_apply]
  apply if_pos
  refine ⟨(l1idx va <<< 2).toNat / 4, by omega, BitVec.eq_of_toNat_eq ?_⟩
  rw [BitVec.toNat_add, BitVec.toNat_ofNat]
  have small := (l1Pte image.pgtblBase va).isLt
  omega

/-- Two memories in which the tables are clear end with the same tables. -/
theorem run_same {left right : BitVec 32 → BitVec 32}
    (clear : mapper.Clear image.pgtblBase (image.cleared left) (image.cleared right)
      (image.tables fuel rounds left)) :
    Option.Rel
      (fun first second : MemUtil 32 =>
        second.memNextPa = first.memNextPa ∧
          ∀ va, hwWalk second.mem image.pgtblBase va = hwWalk first.mem image.pgtblBase va)
      (image.run fuel rounds left) (image.run fuel rounds right) := by
  have supply : initMapper.Supply
      (initMapper.clearBeside image.pgtblBase (image.cleared left) (image.cleared right))
      (image.tables fuel rounds left) :=
    (Mapper.supply_congr (by rfl) (by rfl) ..).mpr clear.pages
  obtain ⟨first, later⟩ := Mapper.supply_append.mp supply
  have start : Placement.Alike image.pgtblBase
      (initMapper.clearBeside image.pgtblBase (image.cleared left) (image.cleared right))
      (image.start left).pools
      (image.start right).pools :=
    ⟨⟨rfl, Mapper.twin_of_clear (.inl rfl) clear.rootTable⟩, rfl⟩
  obtain ⟨leftPools, rightPools, leftRan, rightRan, after⟩ :=
    Placement.runAll_alike start _ first
  rw [leftRan] at later
  have same : @SameImage .arm image.pgtblBase _ (image.started leftPools)
      (image.started rightPools) :=
    ⟨⟨after.nextPa, twin_mapper after.store.twin⟩, rfl⟩
  have ends := RuntimeCall.runAll_sameEnd same image.calls
    ((Mapper.supply_congr (by rfl) (by rfl) ..).mp later)
  rw [run_eq, run_eq, leftRan, rightRan, Option.bind_some, Option.bind_some]
  rcases Mapper.rel_cases ends with ⟨stuck, stuck'⟩ |
    ⟨leftLater, rightLater, leftEnds, rightEnds, final⟩
  · rw [stuck, stuck']
    exact .none
  · rw [leftEnds, rightEnds]
    refine .some ⟨final.alike.next, ?_⟩
    intro va
    rw [hwWalk_eq, hwWalk_eq]
    exact final.alike.twin.translate () va

end ImageRun

end Arm

/-- From memories in which the root table and every page that becomes a table are
clear when the image begins to map, the same calls leave the same translation. -/
theorem mapping_independent_of_ram (fuel rounds : Nat) :
    (∀ (image : Aarch64.ImageRun) (left right : BitVec 64 → BitVec 64),
      image.pgtblBase.toNat % 0x1000 = 0 →
      Aarch64.mapper.Clear image.pgtblBase left right (image.tables fuel rounds left) →
      Option.Rel
        (fun first second : MemUtil 64 =>
          second.memNextPa = first.memNextPa ∧
            ∀ va, Aarch64.hwWalk second.mem image.pgtblBase va =
              Aarch64.hwWalk first.mem image.pgtblBase va)
        (image.run fuel rounds left) (image.run fuel rounds right)) ∧
    ∀ (image : Arm.ImageRun) (left right : BitVec 32 → BitVec 32),
      Arm.mapper.Clear image.pgtblBase (image.cleared left) (image.cleared right)
        (image.tables fuel rounds left) →
      Option.Rel
        (fun first second : MemUtil 32 =>
          second.memNextPa = first.memNextPa ∧
            ∀ va, Arm.hwWalk second.mem image.pgtblBase va =
              Arm.hwWalk first.mem image.pgtblBase va)
        (image.run fuel rounds left) (image.run fuel rounds right) :=
  ⟨fun image _ _ aligned clear => image.run_same fuel rounds aligned clear,
    fun image _ _ clear => image.run_same fuel rounds clear⟩

/-- Two pages while it starts up, and two while it runs. -/
def Aarch64.smallImage : Aarch64.ImageRun where
  pgtblBase := 0x1000
  boot := { smallInit with nextPa := 0x2000 }
  memHeapPool := 0x9000
  inits := [.mapPa 0x5000 0x443, .mapVa 0x6000 0x443]
  calls := [.memMapVa (0x8000 : BitVec 64) (0x40 : BitVec 64),
    .memHeapAllocate (0x1000 : BitVec 64)]

def Arm.smallImage : Arm.ImageRun where
  pgtblBase := 0x4000
  ptClear := 0
  boot := { toInitUtil := { smallInit with nextL1Page := 0x8000 }, nextPa := 0x20000 }
  memHeapPool := 0x9000
  inits := [.mapPa 0x5000 0x30, .mapVa 0x6000 0x30]
  calls := [.memMapVa (0x7000 : BitVec 32) (0x30 : BitVec 32),
    .memHeapAllocate (0x1000 : BitVec 32)]

/-- The same calls in the monitor, which clears `EL3_PGTBL_SIZE` bytes before. -/
def Arm.smallMonitor : Arm.ImageRun :=
  { Arm.smallImage with
    ptClear := 0x40000 / 4
    boot :=
      { toInitUtil := { smallInit with nextL1Page := 0x80000 }, nextPa := 0x100000 } }

/-- A memory that holds one word. -/
def holding {width : Nat} (addr word : BitVec width) : BitVec width → BitVec width :=
  Function.update (fun _ => 0) addr word

theorem holding_of_ne {width : Nat} {addr word other : BitVec width}
    (different : other ≠ addr) : holding addr word other = 0 :=
  Function.update_of_ne different ..

/-- A clear root table and a clear pool are enough when the tables are the next pages
of the pool. -/
theorem clear_of_pool {arch : Arch} {base next : Word arch} {stop count : Nat}
    {left right : Word arch → Word arch} (pool : Pool arch next stop)
    (room : next.toNat + 0x1000 * count ≤ stop)
    (rootTable : ∀ va, left ((mapper arch).entryOf 0 base va) = (mapper arch).zero ∧
      right ((mapper arch).entryOf 0 base va) = (mapper arch).zero)
    (pages : ∀ addr ∈ (range next.toNat stop : Set (Word arch)),
      left addr = (mapper arch).zero ∧ right addr = (mapper arch).zero)
    (apart : ∀ va, (mapper arch).entryOf 0 base va ∉
      (range next.toNat stop : Set (Word arch))) :
    (mapper arch).Clear base left right ((mapper arch).pages count next) where
  rootTable := rootTable
  pages := by
    refine (pool.supply room ?_).1
    intro addr inside
    have inPool := range_mono (le_refl _) room inside
    obtain ⟨first, second⟩ := pages addr inPool
    refine ⟨first, second, ?_⟩
    rintro va rfl
    exact apart va inPool

theorem Aarch64.smallImage_root (va : BitVec 64) :
    (Aarch64.mapper.entryOf 0 0x1000 va).toNat < 0x2000 := by
  have isPage : Within (0x1000 : BitVec 64) 12 36 :=
    within_of_toNat (by decide) (by decide)
  obtain ⟨place, inside⟩ := Aarch64.slot_toNat isPage 0 va
  have small : (0x1000 : BitVec 64).toNat = 0x1000 := rfl
  change (Aarch64.slot 0 0x1000 (Aarch64.index 0 va)).toNat < 0x2000
  omega

theorem Aarch64.smallImage_clear :
    Aarch64.mapper.Clear Aarch64.smallImage.pgtblBase (fun _ => 0)
      (holding 0x100000 0x5443) (Aarch64.smallImage.tables 2 2 fun _ => 0) := by
  have tables : Aarch64.smallImage.tables 2 2 (fun _ => 0) =
      Aarch64.mapper.pages 3 0x2000 := by decide
  have far {addr : BitVec 64} (below : addr.toNat < 0x5000) :
      (0 : BitVec 64) = 0 ∧ holding 0x100000 0x5443 addr = 0 := by
    refine ⟨rfl, holding_of_ne ?_⟩
    rintro rfl
    exact absurd below (by decide)
  rw [tables]
  refine @clear_of_pool .aarch64 _ _ 0x5000 _ _ _ ⟨by decide, by decide⟩ (by decide) ?_ ?_ ?_
  · intro va
    exact far (lt_trans (Aarch64.smallImage_root va) (by decide))
  · intro addr inside
    exact far inside.2
  · intro va inside
    exact absurd inside.1 (not_le.mpr (Aarch64.smallImage_root va))

theorem Arm.smallMonitor_root (va : BitVec 32) :
    (Arm.mapper.entryOf 0 0x4000 va).toNat < 0x8000 := by
  obtain ⟨place, inside, _⟩ := Arm.l1Pte_toNat 0x4000 va
  have first : (Arm.firstLevel 0x4000).toNat = 0x4000 := by decide
  change (Arm.l1Pte 0x4000 va).toNat < 0x8000
  omega

theorem Arm.monitorPtClear_zero (words : Nat) (addr : BitVec 32) :
    Arm.monitorPtClear words addr (fun _ => 0) = fun _ => 0 := by
  funext other
  rw [Arm.monitorPtClear_apply, ite_self]

theorem Arm.smallMonitor_cleared (addr : BitVec 32) :
    Arm.smallMonitor.cleared (holding 0x4004 0x8001) addr = 0 := by
  unfold Arm.ImageRun.cleared
  rw [Arm.monitorPtClear_apply]
  split_ifs with inside
  · rfl
  · apply holding_of_ne
    rintro rfl
    exact inside ⟨1, by decide, by decide⟩

theorem Arm.smallMonitor_start :
    Arm.smallMonitor.start (fun _ => 0) =
      { Arm.smallMonitor.boot with mem := fun _ => 0, ttbr0 := 0x400B } := by
  unfold Arm.ImageRun.start Arm.ImageRun.cleared
  rw [Arm.monitorPtClear_zero]
  rfl

theorem Arm.smallMonitor_clear :
    Arm.mapper.Clear Arm.smallMonitor.pgtblBase (Arm.smallMonitor.cleared fun _ => 0)
      (Arm.smallMonitor.cleared (holding 0x4004 0x8001))
      (Arm.smallMonitor.tables 2 2 fun _ => 0) := by
  have tables : Arm.smallMonitor.tables 2 2 (fun _ => 0) =
      Arm.mapper.pages 1 0x80000 := by
    unfold Arm.ImageRun.tables
    rw [Arm.smallMonitor_start]
    decide
  have clear (addr : BitVec 32) : Arm.smallMonitor.cleared (fun _ => 0) addr = 0 :=
    congrFun (Arm.monitorPtClear_zero _ _) addr
  rw [tables]
  refine @clear_of_pool .arm _ _ 0x81000 _ _ _ ⟨by decide, by decide⟩ (by decide)
    (fun _ => ⟨clear _, Arm.smallMonitor_cleared _⟩)
    (fun addr _ => ⟨clear addr, Arm.smallMonitor_cleared addr⟩) ?_
  intro va inside
  have small := Arm.smallMonitor_root va
  exact absurd inside.1 (not_le.mpr (lt_trans small (by decide)))

/-- The small images in a clear memory, and in one that holds a word: elsewhere on
AArch64, and in the root table that the monitor clears on ARM. -/
theorem mapping_independent_of_ram_smallImage :
    (∃ first second, Aarch64.smallImage.run 2 2 (fun _ => 0) = some first ∧
      Aarch64.smallImage.run 2 2 (holding 0x100000 0x5443) = some second ∧
      ∀ va, Aarch64.hwWalk second.mem 0x1000 va = Aarch64.hwWalk first.mem 0x1000 va) ∧
    ∃ first second, Arm.smallMonitor.run 2 2 (fun _ => 0) = some first ∧
      Arm.smallMonitor.run 2 2 (holding 0x4004 0x8001) = some second ∧
      ∀ va, Arm.hwWalk second.mem 0x4000 va = Arm.hwWalk first.mem 0x4000 va := by
  constructor
  · have ends : (Aarch64.smallImage.run 2 2 fun _ => 0).isSome := by decide
    rcases Mapper.rel_cases ((mapping_independent_of_ram 2 2).1 Aarch64.smallImage _ _
        (by decide) Aarch64.smallImage_clear) with
      ⟨stuck, _⟩ | ⟨first, second, ran, ran', _, same⟩
    · rw [stuck] at ends
      cases ends
    · exact ⟨first, second, ran, ran', same⟩
  · have ends : (Arm.smallMonitor.run 2 2 fun _ => 0).isSome := by
      unfold Arm.ImageRun.run
      rw [Arm.smallMonitor_start]
      decide
    rcases Mapper.rel_cases ((mapping_independent_of_ram 2 2).2 Arm.smallMonitor _ _
        Arm.smallMonitor_clear) with
      ⟨stuck, _⟩ | ⟨first, second, ran, ran', _, same⟩
    · rw [stuck] at ends
      cases ends
    · exact ⟨first, second, ran, ran', same⟩

/-- One stale word in a page that becomes a table is a mapping. -/
theorem mapping_depends_on_ram :
    (∃ first second, Aarch64.smallImage.run 2 2 (fun _ => 0) = some first ∧
      Aarch64.smallImage.run 2 2 (holding 0x4008 0x5443) = some second ∧
      Aarch64.hwWalk first.mem 0x1000 0x1000 = none ∧
      (Aarch64.hwWalk second.mem 0x1000 0x1000).isSome) ∧
    ∃ first second, Arm.smallImage.run 2 2 (fun _ => 0) = some first ∧
      Arm.smallImage.run 2 2 (holding 0x8004 0x5032) = some second ∧
      Arm.hwWalk first.mem 0x4000 0x1000 = none ∧
      (Arm.hwWalk second.mem 0x4000 0x1000).isSome := by
  refine ⟨⟨_, _, rfl, rfl, ?_, ?_⟩, _, _, rfl, rfl, ?_, ?_⟩
  all_goals decide

end TzTest
