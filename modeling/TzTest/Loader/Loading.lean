import TzTest.Loader.Contents
import TzTest.Paging.TableCalls

/-!
# The pages of an image, one after another

The loader maps the pages of the file to themselves, and then a fresh page for
each page of a section, which it fills.  What it has mapped and copied stays.
-/

namespace TzTest.Loader

open Radix Logged

variable {arch : Arch}

/-- A page that the loader maps. -/
inductive Work (arch : Arch) where
  | window (k : Nat)
  | copy (target : Copy arch)

/-- The address of a page of the file. -/
def windowPage (elfbase : Word arch) (k : Nat) : Word arch :=
  elfbase + BitVec.ofNat arch.width (0x1000 * k)

namespace Work

variable (elfbase : Word arch)

def op : Work arch → MemOp arch
  | window k => .mapPa (windowPage elfbase k) (windowPage elfbase k) (pteUserRw arch)
  | copy target => .mapVa target.va (pteUserRw arch)

/-- The loop bodies of the loader. -/
def run (link : Linkage arch (MemUtil arch.width)) :
    Work arch → Run arch (MemUtil arch.width) Unit
  | window k => mapPa link (windowPage elfbase k)
  | copy target => do
      mapVa link target.va
      memcpy link target.va (elfbase + BitVec.ofNat arch.width target.src) 0x1000

/-- The pool has the pages that every call takes. -/
def RoomAll (base : Word arch) (link : Linkage arch (MemUtil arch.width)) (stop : Nat) :
    List (Work arch) → MemUtil arch.width → Prop
  | [], _ => True
  | work :: works, s =>
      s.memNextPa.toNat + 0x1000 * (work.op elfbase).pages base s ≤ stop ∧
        ∀ later, result (work.run elfbase link) s = some ((), later) →
          RoomAll base link stop works later

/-- The pages that the calls take for tables. -/
def tablesAll (base : Word arch) (link : Linkage arch (MemUtil arch.width)) :
    List (Work arch) → MemUtil arch.width → List (Word arch)
  | [], _ => []
  | work :: works, s =>
      (work.op elfbase).tables base s ++
        (result (work.run elfbase link) s).elim [] fun (_, later) =>
          tablesAll base link works later

end Work

namespace Image

variable (arch : Arch) (image : Image)

/-- The number of pages of the file. -/
def windowPages : Nat :=
  pageCount (image.length arch).toNat

def windowsFrom (first count : Nat) : List (Work arch) :=
  (List.range' first count).map .window

/-- All pages that the loader maps. -/
def works : List (Work arch) :=
  windowsFrom arch 0 (image.windowPages arch) ++ (image.copies arch).map .copy

/-- The copy of a last page reads beyond the pages of the file. -/
def Overruns : Prop :=
  ∃ copy ∈ image.copies arch, 0x1000 * image.windowPages arch < copy.src + 0x1000

end Image

/-- An access that faults, with an image whose copies read too far. -/
def Overrun (base : Word arch) (image : Image) (event : Event arch (MemUtil arch.width)) :
    Prop :=
  event.Faults base ∧ image.Overruns arch

/-- Tables with an empty pool in a region whose last-level table is there, and an
image in memory beside them.  Its pages and those of its sections are on none of
the addresses of the pool, and on none of each other's. -/
structure Placed (base : Word arch) (stop : Nat) (elfbase : Word arch) (image : Image)
    (s : MemUtil arch.width) : Prop where
  hosted : Hosted base stop s
  begins : s.memNextPa.toNat ≤ stop
  region : stop ≤ (s.memNextPa.toNat / regionSize arch + 1) * regionSize arch
  installed : Installed s.mem base s.memNextPa
  aligned : elfbase.toNat % 0x1000 = 0
  below : elfbase.toNat + 0x1000 * image.windowPages arch ≤ addressLimit arch
  bytes {offset : Nat} : offset < (image.length arch).toNat →
    s.byteAt (elfbase + BitVec.ofNat arch.width offset) = image offset
  beside {offset : Nat} : offset < (image.length arch).toNat →
    Beside base stop s (wordBase (elfbase + BitVec.ofNat arch.width offset))
  windowApart : elfbase.toNat + 0x1000 * image.windowPages arch ≤ s.memNextPa.toNat ∨
    stop ≤ elfbase.toNat
  copyBelow {copy : Copy arch} : copy ∈ image.copies arch →
    copy.va.toNat + 0x1000 ≤ addressLimit arch
  copyWindow {copy : Copy arch} : copy ∈ image.copies arch →
    copy.va.toNat + 0x1000 ≤ elfbase.toNat ∨
      elfbase.toNat + 0x1000 * image.windowPages arch ≤ copy.va.toNat
  copyApart {copy : Copy arch} : copy ∈ image.copies arch →
    copy.va.toNat + 0x1000 ≤ s.memNextPa.toNat ∨ stop ≤ copy.va.toNat
  distinct : ((image.copies arch).map Copy.va).Nodup

/-- A page of a section is mapped to a page beside the tables that holds its
bytes of the file. -/
def Copied (base : Word arch) (stop : Nat) (image : Image) (s : MemUtil arch.width)
    (copy : Copy arch) : Prop :=
  ∃ page attr, translate s.mem base copy.va = some ⟨page, attr⟩ ∧ PoolPage page ∧
    (∀ addr ∈ range page.toNat (page.toNat + 0x1000), Beside base stop s addr) ∧
    ∀ offset < 0x1000, copy.src + offset < (image.length arch).toNat →
      s.byteAt (page + BitVec.ofNat arch.width offset) = image (copy.src + offset)

/-- An address on no page of the image, of its sections and of the new tables. -/
structure Elsewhere (elfbase : Word arch) (image : Image) (tables : List (Word arch))
    (va : Word arch) : Prop where
  window {k : Nat} : k < image.windowPages arch →
    ¬(mapper arch).SamePage va (windowPage elfbase k)
  copies {copy : Copy arch} : copy ∈ image.copies arch →
    ¬(mapper arch).SamePage va copy.va
  tables {page : Word arch} : page ∈ tables → ¬(mapper arch).SamePage va page

/-- The first pages of the file are mapped, and some pages are copied. -/
structure Loading (base : Word arch) (stop : Nat) (elfbase : Word arch) (image : Image)
    (tables : List (Word arch)) (start s : MemUtil arch.width) (mapped : Nat)
    (copied : List (Copy arch)) : Prop where
  hosted : Hosted base stop s
  begins : s.memNextPa.toNat ≤ stop
  advances : start.memNextPa.toNat ≤ s.memNextPa.toNat
  installed {page : Word arch} : page ∈ range s.memNextPa.toNat stop →
    Installed s.mem base page
  bytes {offset : Nat} : offset < (image.length arch).toNat →
    s.byteAt (elfbase + BitVec.ofNat arch.width offset) = image offset
  beside {offset : Nat} : offset < (image.length arch).toNat →
    Beside base stop s (wordBase (elfbase + BitVec.ofNat arch.width offset))
  window {k : Nat} : k < mapped → ∃ attr,
    translate s.mem base (windowPage elfbase k) = some ⟨windowPage elfbase k, attr⟩
  copies {copy : Copy arch} : copy ∈ copied → Copied base stop image s copy
  frame {va : Word arch} : Elsewhere elfbase image tables va →
    translate s.mem base va = translate start.mem base va

section Apart

variable {base elfbase : Word arch} {stop : Nat} {image : Image}
variable {start : MemUtil arch.width}

theorem not_samePage_of_ne {left right : Word arch}
    (smallLeft : left.toNat < addressLimit arch)
    (smallRight : right.toNat < addressLimit arch)
    (different : left.toNat / 0x1000 ≠ right.toNat / 0x1000) :
    ¬(mapper arch).SamePage left right :=
  fun same => different ((samePage_iff smallLeft smallRight).mp same)

theorem and_pageMask_of_aligned {addr : Word arch} (aligned : addr.toNat % 0x1000 = 0)
    (below : addr.toNat < addressLimit arch) : addr &&& pageMask arch = addr := by
  cases arch with
  | aarch64 =>
      exact BitField.Within.and_mask (BitField.within_of_toNat aligned below)
        (by decide : BitField.IsMask Aarch64.outputAddress 12 48) (le_refl _) (le_refl _)
  | arm =>
      exact BitField.Within.and_mask (BitField.within_of_toNat aligned below)
        (by decide : BitField.IsMask Arm.outputAddress 12 32) (le_refl _) (le_refl _)

theorem Placed.windowPage_toNat (placed : Placed base stop elfbase image start)
    {k : Nat} (inside : k < image.windowPages arch) :
    (windowPage elfbase k).toNat = elfbase.toNat + 0x1000 * k := by
  have limit := width_limit arch
  have below := placed.below
  exact toNat_add_ofNat (by omega)

theorem Placed.pool_limit (placed : Placed base stop elfbase image start) :
    stop ≤ addressLimit arch :=
  le_trans placed.hosted.pool.limit (poolLimit_le arch)

theorem Placed.window_ne (placed : Placed base stop elfbase image start) {k k' : Nat}
    (inside : k < image.windowPages arch) (inside' : k' < image.windowPages arch)
    (different : k ≠ k') :
    ¬(mapper arch).SamePage (windowPage elfbase k) (windowPage elfbase k') := by
  have below := placed.below
  have place := placed.windowPage_toNat inside
  have place' := placed.windowPage_toNat inside'
  exact not_samePage_of_ne (by omega) (by omega) (by omega)

theorem Placed.window_pool (placed : Placed base stop elfbase image start) {k : Nat}
    (inside : k < image.windowPages arch) {page : Word arch}
    (pool : page ∈ range start.memNextPa.toNat stop) :
    ¬(mapper arch).SamePage (windowPage elfbase k) page := by
  have below := placed.below
  have place := placed.windowPage_toNat inside
  have aligned := placed.aligned
  have limit := placed.pool_limit
  obtain ⟨above, under⟩ := pool
  apply not_samePage_of_ne (by omega) (by omega)
  rcases placed.windowApart with before | after <;> omega

theorem Placed.copy_window (placed : Placed base stop elfbase image start)
    {copy : Copy arch} (member : copy ∈ image.copies arch) {k : Nat}
    (inside : k < image.windowPages arch) :
    ¬(mapper arch).SamePage copy.va (windowPage elfbase k) := by
  have below := placed.below
  have place := placed.windowPage_toNat inside
  have aligned := placed.aligned
  have small := placed.copyBelow member
  apply not_samePage_of_ne (by omega) (by omega)
  rcases placed.copyWindow member with before | after <;> omega

theorem Placed.copy_pool (placed : Placed base stop elfbase image start)
    {copy : Copy arch} (member : copy ∈ image.copies arch) {page : Word arch}
    (pool : page ∈ range start.memNextPa.toNat stop)
    (aligned : copy.va.toNat % 0x1000 = 0) :
    ¬(mapper arch).SamePage copy.va page := by
  have small := placed.copyBelow member
  have limit := placed.pool_limit
  obtain ⟨above, under⟩ := pool
  apply not_samePage_of_ne (by omega) (by omega)
  rcases placed.copyApart member with before | after <;> omega

theorem Placed.copy_ne (placed : Placed base stop elfbase image start)
    {left right : Copy arch} (member : left ∈ image.copies arch)
    (member' : right ∈ image.copies arch) (aligned : left.va.toNat % 0x1000 = 0)
    (aligned' : right.va.toNat % 0x1000 = 0) (different : left.va ≠ right.va) :
    ¬(mapper arch).SamePage left.va right.va := by
  have small := placed.copyBelow member
  have small' := placed.copyBelow member'
  have numbers : left.va.toNat ≠ right.va.toNat :=
    fun same => different (BitVec.eq_of_toNat_eq same)
  exact not_samePage_of_ne (by omega) (by omega) (by omega)

/-- The pages of the sections are aligned. -/
theorem Image.WellFormed.copies_aligned (wellFormed : image.WellFormed arch)
    {copy : Copy arch} (member : copy ∈ image.copies arch) :
    copy.va.toNat % 0x1000 = 0 := by
  obtain ⟨i, listed, inside⟩ := List.mem_flatMap.mp member
  have below : i < image.shnum arch := by
    have range := List.mem_range'_1.mp listed
    omega
  unfold Image.copiesOf at inside
  split at inside
  · next wanted =>
      obtain ⟨k, _, rfl⟩ := List.mem_map.mp inside
      have aligned := wellFormed.aligned below wanted
      have whole : 0x1000 ∣ 2 ^ arch.width := by cases arch <;> decide
      rw [BitVec.toNat_add, BitVec.toNat_ofNat, Nat.mod_mod_of_dvd _ whole,
        Nat.add_mod, Nat.mod_mod_of_dvd _ whole]
      omega
  · cases inside

end Apart

section Calls

variable {base elfbase : Word arch} {stop : Nat} {image : Image}
variable {tables : List (Word arch)} {start s later : MemUtil arch.width} {mapped : Nat}
variable {copied : List (Copy arch)}

/-- What a call changes: its own page, and pages taken for tables. -/
structure Changed (base : Word arch) (stop : Nat) (op : MemOp arch)
    (s later : MemUtil arch.width) : Prop where
  hosted : Hosted base stop later
  begins : later.memNextPa.toNat ≤ stop
  advances : s.memNextPa.toNat ≤ later.memNextPa.toNat
  installed {page : Word arch} : page ∈ range later.memNextPa.toNat stop →
    Installed later.mem base page
  beside {addr : Word arch} : Beside base stop s addr →
    Beside base stop later addr ∧ later.mem addr = s.mem addr
  here : translate later.mem base op.vaddr = (op.change s).leaf
  taken : ∀ page ∈ op.tables base s,
    page ∈ range s.memNextPa.toNat later.memNextPa.toNat
  kept {va : Word arch} : ¬(mapper arch).SamePage va op.vaddr →
    (∀ page ∈ op.tables base s, ¬(mapper arch).SamePage va page) →
    translate later.mem base va = translate s.mem base va

theorem Loading.fits (loading : Loading base stop elfbase image tables start s mapped copied)
    (op : MemOp arch) (room : s.memNextPa.toNat + 0x1000 * op.pages base s ≤ stop) :
    op.Fits base stop s := by
  refine ⟨room, fun page member => ?_⟩
  obtain ⟨_, above, below⟩ := op.mem_tables loading.hosted.pool room member
  exact loading.installed ⟨above, below⟩

theorem Loading.call (loading : Loading base stop elfbase image tables start s mapped copied)
    (op : MemOp arch) (room : s.memNextPa.toNat + 0x1000 * op.pages base s ≤ stop) :
    ∃ later, (∀ fuel, op.run base (fuel + 2) s = some later) ∧
      Changed base stop op s later := by
  have hosted := loading.hosted
  have fits := loading.fits op room
  obtain ⟨later, ran, rewrites⟩ := op.run_rewrites hosted fits
  have taken := op.run_taken hosted fits (ran 0)
  have own : (op.change s).vaddr = op.vaddr := by cases op <;> rfl
  refine ⟨later, ran, ?_⟩
  constructor
  · exact rewrites.hosted
  · omega
  · exact rewrites.advances
  · intro page inside
    exact rewrites.keeps _ (loading.installed (range_mono rewrites.advances (le_refl _) inside))
  · exact fun beside => beside.run hosted op fits (ran 0)
  · rw [rewrites.translated, MemOp.changes, List.foldl_append]
    refine (mapper arch).set_of_samePage ?_ _ _
    rw [own]
    exact Format.samePage_refl _ _
  · intro page listed
    obtain ⟨_, above, below⟩ := op.mem_tables_taken hosted.pool room listed
    exact ⟨above, by omega⟩
  · intro va different outside
    rw [rewrites.translated]
    apply foldl_apply_of_apart
    intro change member
    rcases List.mem_append.mp member with table | last
    · obtain ⟨page, listed, rfl⟩ := List.mem_map.mp table
      exact outside page listed
    · rw [List.mem_singleton.mp last, own]
      exact different

theorem Copied.call {op : MemOp arch} (changed : Changed base stop op s later)
    {copy : Copy arch} (there : Copied base stop image s copy)
    (different : ¬(mapper arch).SamePage copy.va op.vaddr)
    (outside : ∀ page ∈ op.tables base s, ¬(mapper arch).SamePage copy.va page) :
    Copied base stop image later copy := by
  obtain ⟨page, attr, mapped, isPage, free, bytes⟩ := there
  refine ⟨page, attr, (changed.kept different outside).trans mapped, isPage,
    fun addr inside => (changed.beside (free addr inside)).1, ?_⟩
  intro offset inside below
  have limit := isPage.below
  have room := poolLimit_lt arch
  have place : (page + BitVec.ofNat arch.width offset).toNat = page.toNat + offset :=
    toNat_add_ofNat (by omega)
  have word := (wordBase_page isPage.aligned (page + BitVec.ofNat arch.width offset)).mpr
    ⟨by omega, by omega⟩
  rw [byteAt_congr (changed.beside (free _ word)).2]
  exact bytes offset inside below

theorem Loading.taken
    (loading : Loading base stop elfbase image tables start s mapped copied)
    {op : MemOp arch} (changed : Changed base stop op s later) {page : Word arch}
    (listed : page ∈ op.tables base s) : page ∈ range start.memNextPa.toNat stop :=
  range_mono loading.advances changed.begins (changed.taken page listed)

/-- What a call leaves of the loading, beside its own page. -/
theorem Loading.after (placed : Placed base stop elfbase image start)
    (wellFormed : image.WellFormed arch)
    (loading : Loading base stop elfbase image tables start s mapped copied)
    {op : MemOp arch} (changed : Changed base stop op s later)
    (few : mapped ≤ image.windowPages arch) (listed : copied ⊆ image.copies arch)
    (within : op.tables base s ⊆ tables)
    (window : ∀ k < mapped, ¬(mapper arch).SamePage (windowPage elfbase k) op.vaddr)
    (apart : ∀ copy ∈ copied, ¬(mapper arch).SamePage copy.va op.vaddr)
    (own : ∀ va, Elsewhere elfbase image tables va →
      ¬(mapper arch).SamePage va op.vaddr) :
    Loading base stop elfbase image tables start later mapped copied where
  hosted := changed.hosted
  begins := changed.begins
  advances := le_trans loading.advances changed.advances
  installed := changed.installed
  bytes inside := by
    rw [byteAt_congr (changed.beside (loading.beside inside)).2]
    exact loading.bytes inside
  beside inside := (changed.beside (loading.beside inside)).1
  window {k} inside := by
    obtain ⟨attr, mapped⟩ := loading.window inside
    refine ⟨attr, (changed.kept (window k inside) ?_).trans mapped⟩
    intro page member
    exact placed.window_pool (by omega) (loading.taken changed member)
  copies {copy} member := by
    apply (loading.copies member).call changed (apart copy member)
    intro page inside
    exact placed.copy_pool (listed member) (loading.taken changed inside)
      (wellFormed.copies_aligned (listed member))
  frame {va} elsewhere := by
    refine (changed.kept (own va elsewhere) ?_).trans (loading.frame elsewhere)
    exact fun page inside => elsewhere.tables (within inside)

/-- One page more of the file is mapped. -/
theorem Loading.window_step (placed : Placed base stop elfbase image start)
    (wellFormed : image.WellFormed arch)
    (loading : Loading base stop elfbase image tables start s mapped [])
    (inside : mapped < image.windowPages arch)
    (room : s.memNextPa.toNat +
      0x1000 * ((Work.window mapped).op elfbase).pages base s ≤ stop)
    (within : ((Work.window mapped).op elfbase).tables base s ⊆ tables) :
    ∃ later,
      (∀ fuel, ((Work.window mapped).op elfbase).run base (fuel + 2) s = some later) ∧
      Loading base stop elfbase image tables start later (mapped + 1) [] := by
  obtain ⟨later, ran, changed⟩ := loading.call ((Work.window mapped).op elfbase) room
  have after : Loading base stop elfbase image tables start later mapped [] := by
    refine loading.after placed wellFormed changed (Nat.le_of_lt inside)
      (List.nil_subset _) within ?_ ?_ ?_
    · intro k below
      exact placed.window_ne (by omega) inside (Nat.ne_of_lt below)
    · intro copy member
      cases member
    · exact fun va elsewhere => elsewhere.window inside
  refine ⟨later, ran, { after with window := ?_ }⟩
  intro k below
  rcases Nat.lt_or_eq_of_le (Nat.le_of_lt_succ below) with before | rfl
  · exact after.window before
  · obtain ⟨attr, written⟩ := leaf_pageEntry (windowPage elfbase k)
      (.inr (rfl : pteUserRw arch = _))
    have place := placed.windowPage_toNat inside
    have limit := placed.below
    have aligned := placed.aligned
    rw [and_pageMask_of_aligned (by omega) (by omega)] at written
    exact ⟨attr, changed.here.trans written⟩

/-- The pages of the file are mapped to themselves. -/
theorem Loading.identity (placed : Placed base stop elfbase image start)
    (loading : Loading base stop elfbase image tables start s mapped copied)
    (few : mapped ≤ image.windowPages arch) {offset : Nat}
    (inside : offset < 0x1000 * mapped) :
    physical base (elfbase + BitVec.ofNat arch.width offset) s =
      some (elfbase + BitVec.ofNat arch.width offset) := by
  have page : offset / 0x1000 < mapped := by omega
  have rest : offset % 0x1000 < 0x1000 := Nat.mod_lt _ (by decide)
  have place := placed.windowPage_toNat (Nat.lt_of_lt_of_le page few)
  have below := placed.below
  have aligned := placed.aligned
  obtain ⟨attr, mapped⟩ := loading.window page
  have found := physical_of_aligned (by omega) (by omega) mapped rest
  have whole : windowPage elfbase (offset / 0x1000) +
      BitVec.ofNat arch.width (offset % 0x1000) =
        elfbase + BitVec.ofNat arch.width offset := by
    rw [windowPage, BitVec.add_assoc, ← BitVec.ofNat_add, Nat.div_add_mod]
  rwa [whole] at found

theorem Loading.reads (placed : Placed base stop elfbase image start)
    (loading : Loading base stop elfbase image tables start s mapped copied)
    (few : mapped ≤ image.windowPages arch) {size : Nat} (within : size ≤ 0x1000 * mapped)
    (inFile : size ≤ (image.length arch).toNat) :
    ReadsAs base elfbase image size s :=
  fun _ inside => ⟨loading.identity placed few (Nat.lt_of_lt_of_le inside within),
    loading.bytes (Nat.lt_of_lt_of_le inside inFile)⟩

theorem outside_of_beside {pa : Word arch} (aligned : s.memNextPa.toNat % 0x1000 = 0)
    (room : s.memNextPa.toNat + 0x1000 ≤ stop)
    (beside : Beside base stop s (wordBase pa)) :
    pa ∉ range s.memNextPa.toNat (s.memNextPa.toNat + 0x1000) := by
  intro inside
  obtain ⟨above, below⟩ := (wordBase_page aligned pa).mpr inside
  exact beside.pool ⟨above, by omega⟩

/-- What a new copy leaves of a page that was copied before. -/
theorem Copied.fill {middle : MemUtil arch.width} {copy : Copy arch}
    (there : Copied base stop image s copy) (moved : Copied base stop image middle copy)
    (kept : translate middle.mem base copy.va = translate s.mem base copy.va)
    (aligned : s.memNextPa.toNat % 0x1000 = 0)
    (room : s.memNextPa.toNat + 0x1000 ≤ stop)
    (fills : Fills base stop s.memNextPa middle later) :
    Copied base stop image later copy := by
  obtain ⟨page, attr, mapped, isPage, free, _⟩ := there
  obtain ⟨page', attr', mapped', _, free', bytes⟩ := moved
  have same : page = page' := by
    rw [kept, mapped] at mapped'
    exact congrArg Leaf.pa (Option.some.inj mapped')
  subst same
  refine ⟨page, attr', (fills.translated _).trans mapped', isPage,
    fun addr inside => fills.beside (free' addr inside), ?_⟩
  intro offset inside below
  have limit := isPage.below
  have small := poolLimit_lt arch
  have place : (page + BitVec.ofNat arch.width offset).toNat = page.toNat + offset :=
    toNat_add_ofNat (by omega)
  have word := (wordBase_page isPage.aligned (page + BitVec.ofNat arch.width offset)).mpr
    ⟨by omega, by omega⟩
  rw [fills.byteAt aligned (outside_of_beside aligned room (free _ word))]
  exact bytes offset inside below

/-- What a copy leaves of the loading, beside the pages of sections. -/
theorem Loading.fill {page : Word arch} {copied' : List (Copy arch)}
    (loading : Loading base stop elfbase image tables start s mapped copied)
    (fills : Fills base stop page s later) (aligned : page.toNat % 0x1000 = 0)
    (outside : ∀ offset < (image.length arch).toNat,
      elfbase + BitVec.ofNat arch.width offset ∉ range page.toNat (page.toNat + 0x1000))
    (copies : ∀ copy ∈ copied', Copied base stop image later copy) :
    Loading base stop elfbase image tables start later mapped copied' where
  hosted := fills.hosted loading.hosted
  begins := by
    rw [fills.next]
    exact loading.begins
  advances := by
    rw [fills.next]
    exact loading.advances
  installed inside := by
    rw [fills.next] at inside
    exact fills.installed (loading.installed inside)
  bytes inside := (fills.byteAt aligned (outside _ inside)).trans (loading.bytes inside)
  beside inside := fills.beside (loading.beside inside)
  window inside := by
    obtain ⟨attr, mapped⟩ := loading.window inside
    exact ⟨attr, (fills.translated _).trans mapped⟩
  copies member := copies _ member
  frame elsewhere := (fills.translated _).trans (loading.frame elsewhere)

/-- The page that a copy has filled holds the bytes of the file. -/
theorem Loading.brought (placed : Placed base stop elfbase image start)
    {copy : Copy arch} {page : Word arch} {attr : BitVec arch.width}
    (loading : Loading base stop elfbase image tables start s (image.windowPages arch) copied)
    (fills : Fills base stop page s later)
    (mapped : translate s.mem base copy.va = some ⟨page, attr⟩) (isPage : PoolPage page)
    (free : ∀ addr ∈ range page.toNat (page.toNat + 0x1000), Beside base stop s addr)
    (outside : ∀ offset < (image.length arch).toNat,
      elfbase + BitVec.ofNat arch.width offset ∉ range page.toNat (page.toNat + 0x1000))
    (brings : ∀ offset < 0x1000,
      Brings base (elfbase + BitVec.ofNat arch.width copy.src) page s later offset) :
    Copied base stop image later copy := by
  refine ⟨page, attr, (fills.translated _).trans mapped, isPage,
    fun addr inside => fills.beside (free addr inside), ?_⟩
  intro offset inside below
  have whole : (image.length arch).toNat ≤ 0x1000 * image.windowPages arch := by
    unfold Image.windowPages Image.pageCount
    omega
  obtain ⟨found, byte⟩ := loading.reads placed (le_refl _) whole (le_refl _) _ below
  have place : elfbase + BitVec.ofNat arch.width copy.src + BitVec.ofNat arch.width offset =
      elfbase + BitVec.ofNat arch.width (copy.src + offset) := by
    rw [BitVec.add_assoc, BitVec.ofNat_add]
  rw [brings offset inside _ (by rw [place]; exact found) (outside _ below)]
  exact byte

variable {fuel : Nat} {smcExit : MemUtil arch.width → Option (MemUtil arch.width)}

/-- One page more of a section is mapped and filled, unless its copy reads too far. -/
theorem Loading.copy_step (placed : Placed base stop elfbase image start)
    (wellFormed : image.WellFormed arch)
    (loading : Loading base stop elfbase image tables start s (image.windowPages arch) copied)
    (listed : copied ⊆ image.copies arch) {copy : Copy arch}
    (member : copy ∈ image.copies arch)
    (fresh : ∀ other ∈ copied, other.va ≠ copy.va)
    (room : s.memNextPa.toNat +
      0x1000 * ((Work.copy copy).op elfbase).pages base s ≤ stop)
    (within : ((Work.copy copy).op elfbase).tables base s ⊆ tables) :
    Attempts (Overrun base image)
      ((Work.copy copy).run elfbase (el1Linkage base (fuel + 2) smcExit)) s
      fun _ later => Loading base stop elfbase image tables start later
        (image.windowPages arch) (copied ++ [copy]) := by
  have aligned := wellFormed.copies_aligned member
  have small := placed.copyBelow member
  obtain ⟨middle, ran, changed⟩ := loading.call ((Work.copy copy).op elfbase) room
  have first : s.memNextPa.toNat + 0x1000 ≤ stop := by
    simp only [Work.op, MemOp.pages] at room
    omega
  have isPage := loading.hosted.pool.poolPage first
  have pageAligned := loading.hosted.pool.aligned
  have others : ∀ other ∈ copied, ¬(mapper arch).SamePage other.va copy.va :=
    fun other there => placed.copy_ne (listed there) member
      (wellFormed.copies_aligned (listed there)) aligned (fresh other there)
  have after : Loading base stop elfbase image tables start middle (image.windowPages arch)
      copied := by
    refine loading.after placed wellFormed changed (le_refl _) listed within ?_ others ?_
    · exact fun k below same => placed.copy_window member below
        fun level inside => (same level inside).symm
    · exact fun va elsewhere => elsewhere.copies member
  have mapped : ∃ attr, translate middle.mem base copy.va =
      some ⟨s.memNextPa, attr⟩ := by
    obtain ⟨attr, written⟩ := leaf_pageEntry s.memNextPa
      (.inr (rfl : pteUserRw arch = _))
    rw [page_and_pageMask isPage.page] at written
    exact ⟨attr, changed.here.trans written⟩
  obtain ⟨attr, mapped⟩ := mapped
  have free : ∀ addr ∈ range s.memNextPa.toNat (s.memNextPa.toNat + 0x1000),
      Beside base stop middle addr :=
    fun addr inside => Beside.of_mapVa loading.hosted
      (loading.fits ((Work.copy copy).op elfbase) room) (ran 0) inside
  have called : result (mapVa (el1Linkage base (fuel + 2) smcExit) copy.va) s =
      some ((), middle) := result_call (ran fuel)
  have cut : ∀ offset < 0x1000, ∀ now, Fills base stop s.memNextPa middle now →
      physical base (elfbase + BitVec.ofNat arch.width copy.src +
        BitVec.ofNat arch.width offset) middle = none →
      Overrun base image (.load (elfbase + BitVec.ofNat arch.width copy.src +
        BitVec.ofNat arch.width offset) now) := by
    intro offset inside now fills unmapped
    refine ⟨physical_none.mp ((fills.physical _).trans unmapped), copy, member, ?_⟩
    by_contra near
    rw [BitVec.add_assoc, ← BitVec.ofNat_add,
      after.identity placed (le_refl _) (by omega)] at unmapped
    cases unmapped
  have filled := @attempts_memcpy _ base stop (fuel + 2) middle smcExit copy.va
    (elfbase + BitVec.ofNat arch.width copy.src) s.memNextPa attr _ aligned small mapped
    isPage free cut 0x1000 0 rfl middle (.refl _ _ _ _)
    (fun offset none => absurd none (Nat.not_lt_zero _))
  have none (addr : Word arch) : addr + BitVec.ofNat arch.width 0 = addr := by simp
  rw [none, none] at filled
  apply Attempts.after called
  apply filled.mono
  rintro _ later ⟨fills, brings⟩
  have outside : ∀ offset < (image.length arch).toNat,
      elfbase + BitVec.ofNat arch.width offset ∉
        range s.memNextPa.toNat (s.memNextPa.toNat + 0x1000) :=
    fun offset inside => outside_of_beside pageAligned first (loading.beside inside)
  apply after.fill fills pageAligned outside
  intro other listed'
  rcases List.mem_append.mp listed' with earlier | last
  · apply (loading.copies earlier).fill (after.copies earlier) _ pageAligned first fills
    apply changed.kept (others other earlier)
    intro page inside
    exact placed.copy_pool (listed earlier) (loading.taken changed inside)
      (wellFormed.copies_aligned (listed earlier))
  · rw [List.mem_singleton.mp last]
    exact after.brought placed fills mapped isPage free outside brings

end Calls

end TzTest.Loader
