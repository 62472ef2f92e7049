import TzTest.Loader.Loading

/-!
# The loops of the loader

The file is mapped page by page, and the sections are copied page by page, as
long as no access faults.
-/

namespace TzTest.Loader

open Radix Logged

variable {arch : Arch}

section Pages

variable {σ : Type} {bad : Event arch σ → Prop} {len : Run arch σ (Word arch)}
variable {body : Word arch → Run arch σ Unit} {last : Word arch}
variable {invariant : Nat → σ → Prop}

/-- A loop over pages keeps an invariant that every turn keeps. -/
theorem attempts_pages (near : last.toNat ≤ 2 ^ arch.width - 0x1000)
    (bound : ∀ k s, invariant k s → result len s = some (last, s))
    (turn : ∀ k s, k < Image.pageCount last.toNat → invariant k s →
      Attempts bad (body (BitVec.ofNat arch.width (0x1000 * k))) s fun _ later =>
        invariant (k + 1) later)
    {rounds k : Nat} (enough : last.toNat + 0x1000 ≤ 0x1000 * (k + rounds))
    (upTo : k ≤ Image.pageCount last.toNat) {s : σ} (start : invariant k s) :
    Attempts bad (pages len body rounds (BitVec.ofNat arch.width (0x1000 * k))) s
      fun _ later => invariant (Image.pageCount last.toNat) later := by
  have wide : 0x1000 ≤ 2 ^ arch.width := by cases arch <;> decide
  induction rounds generalizing k s with
  | zero =>
      unfold Image.pageCount at upTo
      omega
  | succ rounds induction =>
      have small : 0x1000 * k < 2 ^ arch.width := by
        unfold Image.pageCount at upTo
        omega
      have place : (BitVec.ofNat arch.width (0x1000 * k)).toNat = 0x1000 * k := by
        rw [BitVec.toNat_ofNat, Nat.mod_eq_of_lt small]
      apply Attempts.after (bound k s start)
      by_cases more : k < Image.pageCount last.toNat
      · have below : BitVec.ofNat arch.width (0x1000 * k) < last := by
          rw [BitVec.lt_def, place]
          unfold Image.pageCount at more
          omega
        have next : BitVec.ofNat arch.width (0x1000 * k) + 0x1000 =
            BitVec.ofNat arch.width (0x1000 * (k + 1)) := by
          rw [Nat.mul_add, BitVec.ofNat_add]
          rfl
        rw [if_pos below, next]
        exact (turn k s more start).bind fun _ later kept =>
          induction (by omega) more kept
      · have all : k = Image.pageCount last.toNat := Nat.le_antisymm upTo (not_lt.mp more)
        have done : ¬BitVec.ofNat arch.width (0x1000 * k) < last := by
          rw [BitVec.lt_def, place]
          unfold Image.pageCount at all
          omega
        rw [if_neg done]
        subst all
        exact attempts_of_some rfl start

end Pages

/-- Some pages of the file are mapped and some pages of the sections are copied,
and the pool has room for what is left of them. -/
structure Progress (base : Word arch) (stop : Nat) (elfbase : Word arch) (image : Image)
    (link : Linkage arch (MemUtil arch.width)) (tables : List (Word arch))
    (start s : MemUtil arch.width) (mapped : Nat) (copied left : List (Copy arch)) :
    Prop where
  loading : Loading base stop elfbase image tables start s mapped copied
  room : Work.RoomAll elfbase base link stop
    (Image.windowsFrom arch mapped (image.windowPages arch - mapped) ++
      left.map .copy) s
  tables : Work.tablesAll elfbase base link
    (Image.windowsFrom arch mapped (image.windowPages arch - mapped) ++
      left.map .copy) s ⊆ tables
  few : mapped ≤ image.windowPages arch
  all : copied ++ left = image.copies arch

section Progress

variable {base elfbase : Word arch} {stop fuel : Nat} {image : Image}
variable {smcExit : MemUtil arch.width → Option (MemUtil arch.width)}
variable {tables : List (Word arch)} {start s : MemUtil arch.width} {mapped : Nat}
variable {copied left : List (Copy arch)}

/-- Nothing has been done yet. -/
theorem Placed.progress (placed : Placed base stop elfbase image start)
    {link : Linkage arch (MemUtil arch.width)}
    (room : Work.RoomAll elfbase base link stop (image.works arch) start) :
    Progress base stop elfbase image link
      (Work.tablesAll elfbase base link (image.works arch) start) start start 0 []
      (image.copies arch) where
  loading :=
    { hosted := placed.hosted
      begins := placed.begins
      advances := le_refl _
      installed := by
        intro page inside
        unfold Installed
        rw [tableAt_of_region (region_of_range placed.region inside.1 inside.2)]
        exact placed.installed
      bytes := placed.bytes
      beside := placed.beside
      window := fun none => absurd none (Nat.not_lt_zero _)
      copies := fun none => absurd none List.not_mem_nil
      frame := fun _ => rfl }
  room := room
  tables := List.Subset.refl _
  few := Nat.zero_le _
  all := rfl

theorem Progress.window_step (placed : Placed base stop elfbase image start)
    (wellFormed : image.WellFormed arch)
    (progress : Progress base stop elfbase image (el1Linkage base (fuel + 2) smcExit)
      tables start s mapped [] left)
    (inside : mapped < image.windowPages arch) :
    Attempts (Overrun base image)
      (mapPa (el1Linkage base (fuel + 2) smcExit) (windowPage elfbase mapped)) s
      fun _ later => Progress base stop elfbase image
        (el1Linkage base (fuel + 2) smcExit) tables start later (mapped + 1) [] left := by
  have rest : Image.windowsFrom arch mapped (image.windowPages arch - mapped) =
      .window mapped :: Image.windowsFrom arch (mapped + 1)
        (image.windowPages arch - (mapped + 1)) := by
    have count : image.windowPages arch - mapped =
        image.windowPages arch - (mapped + 1) + 1 := by omega
    rw [count, Image.windowsFrom, List.range'_succ]
    rfl
  have room := progress.room
  have within := progress.tables
  rw [rest] at room within
  obtain ⟨first, others⟩ := List.append_subset.mp within
  obtain ⟨later, ran, loading⟩ := progress.loading.window_step placed wellFormed inside
    room.1 first
  have called : result
      ((Work.window mapped).run elfbase (el1Linkage base (fuel + 2) smcExit)) s =
        some ((), later) := result_call (ran fuel)
  rw [called] at others
  exact attempts_of_some called
    ⟨loading, room.2 later called, others, inside, progress.all⟩

theorem Progress.copy_step (placed : Placed base stop elfbase image start)
    (wellFormed : image.WellFormed arch) {copy : Copy arch}
    (progress : Progress base stop elfbase image (el1Linkage base (fuel + 2) smcExit)
      tables start s (image.windowPages arch) copied (copy :: left)) :
    Attempts (Overrun base image)
      ((Work.copy copy).run elfbase (el1Linkage base (fuel + 2) smcExit)) s
      fun _ later => Progress base stop elfbase image
        (el1Linkage base (fuel + 2) smcExit) tables start later (image.windowPages arch)
        (copied ++ [copy]) left := by
  have room := progress.room
  have within := progress.tables
  rw [Nat.sub_self] at room within
  obtain ⟨first, others⟩ := List.append_subset.mp within
  have distinct := placed.distinct
  rw [← progress.all, List.map_append, List.map_cons] at distinct
  have fresh : ∀ other ∈ copied, other.va ≠ copy.va := by
    intro other there same
    exact List.disjoint_of_nodup_append distinct (List.mem_map_of_mem there)
      (List.mem_cons.mpr (.inl same))
  have listed : copied ⊆ image.copies arch := by
    rw [← progress.all]
    exact List.subset_append_left _ _
  have member : copy ∈ image.copies arch := by
    rw [← progress.all]
    exact List.mem_append_right _ (List.mem_cons_self ..)
  apply (progress.loading.copy_step placed wellFormed listed member fresh room.1
    first).reached.mono
  rintro _ later ⟨ended, loading⟩
  rw [ended] at others
  refine ⟨loading, ?_, ?_, le_refl _, ?_⟩
  · rw [Nat.sub_self]
    exact room.2 later ended
  · rw [Nat.sub_self]
    exact others
  · rw [List.append_assoc]
    exact progress.all

theorem l1Pte_zero_toNat (base : BitVec 32) : (Arm.l1Pte base 0).toNat % 0x4000 = 0 := by
  have place : Arm.l1Pte base 0 = base &&& 0xFFFFC000 := by
    unfold Arm.l1Pte
    rw [show Arm.l1idx 0 <<< 2 = 0#32 by decide]
    exact BitVec.or_zero
  rw [place]
  exact BitField.Within.toNat_mod
    (BitField.within_and_mask (by decide : BitField.IsMask 0xFFFFC000 14 32) base)

/-- No entry of a table lies in an image that begins at zero. -/
theorem Placed.entry_outside (placed : Placed base stop elfbase image start)
    (zero : elfbase.toNat = 0) {entry : Word arch}
    (aligned : entry.toNat % wordBytes arch = 0)
    (member : entry ∈ (mapper arch).Entries start.mem base) :
    (image.length arch).toNat ≤ entry.toNat := by
  by_contra inside
  have there : elfbase + BitVec.ofNat arch.width entry.toNat = entry := by
    rw [BitVec.eq_of_toNat_eq (zero.trans BitVec.toNat_zero.symm), BitVec.ofNat_toNat]
    simp
  have word : wordBase entry = entry := by
    apply BitVec.eq_of_toNat_eq
    rw [wordBase_toNat]
    exact Nat.div_mul_cancel (Nat.dvd_of_mod_eq_zero aligned)
  have outside := (placed.beside (not_le.mp inside)).entries
  rw [there, word] at outside
  exact outside member

/-- No image takes up all of memory, since the tables lie beside it. -/
theorem Placed.short (placed : Placed base stop elfbase image start) :
    (image.length arch).toNat ≤ 2 ^ arch.width - 0x1000 := by
  have below := placed.below
  have outside := @placed.entry_outside
  unfold Image.windowPages Image.pageCount at below
  cases arch with
  | aarch64 =>
      change _ ≤ 2 ^ 64 - 0x1000
      change _ ≤ 2 ^ 48 at below
      omega
  | arm =>
      change _ ≤ 2 ^ 32 - 0x1000
      change _ ≤ 2 ^ 32 at below
      by_contra long
      have aligned := l1Pte_zero_toNat base
      have limit := (Arm.l1Pte base 0).isLt
      have word : (Arm.l1Pte base 0).toNat % 4 = 0 := by omega
      have beyond : (Image.length .arm image).toNat ≤ (Arm.l1Pte base 0).toNat :=
        outside (by omega) word ⟨0, 0, base, Nat.zero_le _, rfl, rfl⟩
      omega

theorem Progress.reads (placed : Placed base stop elfbase image start)
    {link : Linkage arch (MemUtil arch.width)}
    (progress : Progress base stop elfbase image link tables start s (image.windowPages arch)
      copied left) :
    ReadsAs base elfbase image (image.length arch).toNat s := by
  apply progress.loading.reads placed (le_refl _) _ (le_refl _)
  unfold Image.windowPages Image.pageCount
  omega

theorem Image.WellFormed.header_inside (wellFormed : image.WellFormed arch) :
    ehdrSize arch ≤ (image.length arch).toNat := by
  have header := wellFormed.header
  have ends := wellFormed.ends
  omega

theorem Image.WellFormed.headerAt_inside (wellFormed : image.WellFormed arch) {i : Nat}
    (inside : i < image.shnum arch) :
    image.headerAt arch i + shdrSize arch ≤ (image.length arch).toNat := by
  have ends := wellFormed.ends
  have next : (i + 1) * shdrSize arch ≤ image.shnum arch * shdrSize arch :=
    Nat.mul_le_mul_right _ inside
  rw [Nat.add_mul] at next
  unfold Image.headerAt
  omega

theorem Progress.headerField (placed : Placed base stop elfbase image start)
    (wellFormed : image.WellFormed arch)
    {link : Linkage arch (MemUtil arch.width)}
    (progress : Progress base stop elfbase image link tables start s (image.windowPages arch)
      copied left) {field : Field} (within : field.offset + field.bytes ≤ ehdrSize arch) :
    result (loadField (el1Linkage base (fuel + 2) smcExit) elfbase field) s =
      some (image.field arch field, s) :=
  (progress.reads placed).headerField (le_trans within wellFormed.header_inside)

theorem Progress.sectionField (placed : Placed base stop elfbase image start)
    (wellFormed : image.WellFormed arch)
    {link : Linkage arch (MemUtil arch.width)}
    (progress : Progress base stop elfbase image link tables start s (image.windowPages arch)
      copied left) {i : Nat} (inside : i < image.shnum arch) {field : Field}
    (within : field.offset + field.bytes ≤ shdrSize arch) :
    result (loadField (el1Linkage base (fuel + 2) smcExit)
        (elfbase + BitVec.ofNat arch.width (image.headerAt arch i)) field) s =
      some (image.fieldAt arch (image.headerAt arch i) field, s) := by
  have header := wellFormed.headerAt_inside inside
  exact (progress.reads placed).loadField (by omega)

/-- The header is mapped and accepted. -/
theorem attempts_openImage (placed : Placed base stop elfbase image start)
    (wellFormed : image.WellFormed arch)
    (progress : Progress base stop elfbase image (el1Linkage base (fuel + 2) smcExit)
      tables start start 0 [] (image.copies arch)) :
    Attempts (Overrun base image)
      (openImage (el1Linkage base (fuel + 2) smcExit) elfbase) start
      fun len later => len = image.length arch ∧
        Progress base stop elfbase image (el1Linkage base (fuel + 2) smcExit) tables start later
          1 [] (image.copies arch) := by
  have header := wellFormed.header_inside
  have size : 20 ≤ ehdrSize arch ∧ ehdrSize arch ≤ 0x1000 := by cases arch <;> decide
  have some : 0 < image.windowPages arch := by
    unfold Image.windowPages Image.pageCount
    omega
  have first : windowPage elfbase 0 = elfbase := by simp [windowPage]
  have mapped := progress.window_step placed wellFormed some
  rw [first] at mapped
  apply mapped.bind
  intro _ later progress
  have reads : ReadsAs base elfbase image (ehdrSize arch) later :=
    progress.loading.reads placed some (by omega) header
  apply Attempts.after (reads.checkHeader wellFormed.accepted size.1)
  exact attempts_of_some (reads.elfLength (le_refl _)) ⟨rfl, progress⟩

/-- The rest of the file is mapped. -/
theorem attempts_windows (placed : Placed base stop elfbase image start)
    (wellFormed : image.WellFormed arch)
    (progress : Progress base stop elfbase image (el1Linkage base (fuel + 2) smcExit)
      tables start s 1 [] (image.copies arch))
    {rounds : Nat} (enough : 2 ^ arch.width ≤ rounds) :
    Attempts (Overrun base image)
      (pages (pure (image.length arch))
        (fun off => mapPa (el1Linkage base (fuel + 2) smcExit) (elfbase + off)) rounds
        0x1000) s
      fun _ later => Progress base stop elfbase image
        (el1Linkage base (fuel + 2) smcExit) tables start later (image.windowPages arch) []
        (image.copies arch) := by
  have short := placed.short
  have wide := (image.length arch).isLt
  exact @attempts_pages _ _ _ (pure (image.length arch)) _ _
    (fun k s => Progress base stop elfbase image (el1Linkage base (fuel + 2) smcExit)
      tables start s k [] (image.copies arch))
    short (fun _ _ _ => rfl)
    (fun _ _ more progress => progress.window_step placed wellFormed more)
    rounds 1 (by omega) progress.few s progress

theorem shdrAt_eq (elfbase : Word arch) (image : Image) (i : Nat) :
    shdrAt (elfbase + image.field arch (eShoff arch)) (BitVec.ofNat arch.width i) =
      elfbase + BitVec.ofNat arch.width (image.headerAt arch i) := by
  unfold shdrAt Image.headerAt Image.shoff
  rw [BitVec.ofNat_add, BitVec.ofNat_mul, BitVec.ofNat_toNat, BitVec.setWidth_eq,
    BitVec.add_assoc]

theorem nameAt_eq (elfbase : Word arch) (image : Image) (i : Nat) :
    elfbase + image.fieldAt arch (image.headerAt arch (image.shstrndx arch))
          (shOffset arch) +
        image.fieldAt arch (image.headerAt arch i) shName =
      elfbase + BitVec.ofNat arch.width (image.nameAt arch i) := by
  unfold Image.nameAt
  rw [BitVec.ofNat_add, BitVec.ofNat_toNat, BitVec.setWidth_eq, BitVec.ofNat_toNat,
    BitVec.setWidth_eq, BitVec.add_assoc]

theorem copiesFrom_succ (image : Image) (i first count : Nat) :
    image.copiesFrom arch i first (count + 1) =
      ⟨image.addrOf arch i + BitVec.ofNat arch.width (0x1000 * first),
        image.offsetOf arch i + 0x1000 * first⟩ ::
          image.copiesFrom arch i (first + 1) count := by
  unfold Image.copiesFrom
  rw [List.range'_succ, List.map_cons]

theorem copiesFrom_concat (image : Image) (i count : Nat) :
    image.copiesFrom arch i 0 (count + 1) =
      image.copiesFrom arch i 0 count ++
        [⟨image.addrOf arch i + BitVec.ofNat arch.width (0x1000 * count),
          image.offsetOf arch i + 0x1000 * count⟩] := by
  unfold Image.copiesFrom
  rw [List.range'_concat, List.map_append, List.map_singleton, Nat.zero_add, Nat.one_mul]

/-- The pages of a section are copied. -/
theorem attempts_copies (placed : Placed base stop elfbase image start)
    (wellFormed : image.WellFormed arch) {i : Nat} (inside : i < image.shnum arch)
    (wanted : image.wanted arch i)
    (progress : Progress base stop elfbase image (el1Linkage base (fuel + 2) smcExit)
      tables start s (image.windowPages arch) copied (image.copiesOf arch i ++ left))
    {rounds : Nat} (enough : 2 ^ arch.width ≤ rounds) :
    Attempts (Overrun base image)
      (pages (loadField (el1Linkage base (fuel + 2) smcExit)
          (elfbase + BitVec.ofNat arch.width (image.headerAt arch i)) (shSize arch))
        (fun off => do
          mapVa (el1Linkage base (fuel + 2) smcExit) (image.addrOf arch i + off)
          memcpy (el1Linkage base (fuel + 2) smcExit) (image.addrOf arch i + off)
            (elfbase + image.fieldAt arch (image.headerAt arch i) (shOffset arch) + off)
            0x1000) rounds 0) s
      fun _ later => Progress base stop elfbase image
        (el1Linkage base (fuel + 2) smcExit) tables start later (image.windowPages arch)
        (copied ++ image.copiesOf arch i) left := by
  have all : image.copiesOf arch i =
      image.copiesFrom arch i 0 (Image.pageCount (image.sizeOf arch i)) := if_pos wanted
  have short := placed.short
  have within := wellFormed.inside inside wanted
  have ends := wellFormed.ends
  rw [all] at progress ⊢
  refine (@attempts_pages _ _ (Overrun base image) _ _
    (image.fieldAt arch (image.headerAt arch i) (shSize arch))
    (fun k s => Progress base stop elfbase image (el1Linkage base (fuel + 2) smcExit)
      tables start s (image.windowPages arch) (copied ++ image.copiesFrom arch i 0 k)
      (image.copiesFrom arch i k (Image.pageCount (image.sizeOf arch i) - k) ++ left))
    ?near ?bound ?turn rounds 0 ?enough (Nat.zero_le _) s ?start).mono ?ended
  case near =>
    change image.sizeOf arch i ≤ _
    omega
  case bound =>
    intro k s progress
    exact progress.sectionField placed wellFormed inside (by cases arch <;> decide)
  case turn =>
    intro k s more progress
    have count : Image.pageCount (image.sizeOf arch i) - k =
        Image.pageCount (image.sizeOf arch i) - (k + 1) + 1 := by
      change k < Image.pageCount (image.sizeOf arch i) at more
      omega
    rw [count, copiesFrom_succ] at progress
    have copied := progress.copy_step placed wellFormed
    have source : elfbase + image.fieldAt arch (image.headerAt arch i) (shOffset arch) +
        BitVec.ofNat arch.width (0x1000 * k) =
          elfbase + BitVec.ofNat arch.width (image.offsetOf arch i + 0x1000 * k) := by
      unfold Image.offsetOf
      rw [BitVec.ofNat_add, BitVec.ofNat_toNat, BitVec.setWidth_eq, BitVec.add_assoc]
    rw [source, copiesFrom_concat, ← List.append_assoc]
    exact copied
  case enough =>
    have wide := (image.fieldAt arch (image.headerAt arch i) (shSize arch)).isLt
    have page : 0x1000 ≤ 2 ^ arch.width := by cases arch <;> decide
    omega
  case start =>
    change Progress _ _ _ _ _ _ _ _ _ (copied ++ []) _
    rw [List.append_nil]
    exact progress
  case ended =>
    intro _ later progress
    change Progress _ _ _ _ _ _ _ _ _ _
      (image.copiesFrom arch i (Image.pageCount (image.sizeOf arch i))
        (Image.pageCount (image.sizeOf arch i) - Image.pageCount (image.sizeOf arch i)) ++
          left) at progress
    rw [Nat.sub_self] at progress
    exact progress

/-- One section, which is passed over unless its name is one of the two. -/
theorem attempts_loadSection (placed : Placed base stop elfbase image start)
    (wellFormed : image.WellFormed arch) {i : Nat} (inside : i < image.shnum arch)
    (progress : Progress base stop elfbase image (el1Linkage base (fuel + 2) smcExit)
      tables start s (image.windowPages arch) copied (image.copiesOf arch i ++ left))
    {rounds : Nat} (enough : 2 ^ arch.width ≤ rounds) :
    Attempts (Overrun base image)
      (loadSection (el1Linkage base (fuel + 2) smcExit) rounds elfbase
        (elfbase + image.fieldAt arch (image.headerAt arch (image.shstrndx arch))
          (shOffset arch))
        (elfbase + BitVec.ofNat arch.width (image.headerAt arch i))) s
      fun _ later => Progress base stop elfbase image
        (el1Linkage base (fuel + 2) smcExit) tables start later (image.windowPages arch)
        (copied ++ image.copiesOf arch i) left := by
  have field {field : Field} (within : field.offset + field.bytes ≤ shdrSize arch) :=
    @Progress.sectionField _ base elfbase stop fuel image smcExit _ start s copied _ placed
      wellFormed _ progress i inside field within
  obtain ⟨last, named, terminator⟩ := wellFormed.named inside
  have name := @ReadsAs.isLoaded _ base elfbase image _ (fuel + 2) s smcExit
    (progress.reads placed) _ last terminator named
  rw [← nameAt_eq] at name
  apply Attempts.after (field (by cases arch <;> decide))
  apply Attempts.after name
  change Attempts _ (if image.wanted arch i then _ else pure ()) s _
  by_cases wanted : image.wanted arch i
  · rw [if_pos wanted]
    apply Attempts.after (field (by cases arch <;> decide))
    apply Attempts.after (field (by cases arch <;> decide))
    exact attempts_copies placed wellFormed inside wanted progress enough
  · rw [if_neg wanted]
    have none : image.copiesOf arch i = [] := if_neg wanted
    rw [none] at progress ⊢
    rw [List.append_nil]
    exact attempts_of_some rfl progress

/-- All sections from one on. -/
theorem attempts_loadSections (placed : Placed base stop elfbase image start)
    (wellFormed : image.WellFormed arch) {pageRounds : Nat}
    (enough : 2 ^ arch.width ≤ pageRounds) {rounds i : Nat}
    (upTo : i ≤ image.shnum arch) (more : image.shnum arch < i + rounds)
    (progress : Progress base stop elfbase image (el1Linkage base (fuel + 2) smcExit)
      tables start s (image.windowPages arch) copied
      (image.copiesAfter arch i (image.shnum arch - i))) :
    Attempts (Overrun base image)
      (loadSections (el1Linkage base (fuel + 2) smcExit) pageRounds elfbase
        (elfbase + image.fieldAt arch (image.headerAt arch (image.shstrndx arch))
          (shOffset arch))
        (elfbase + image.field arch (eShoff arch)) rounds i) s
      fun _ later => Progress base stop elfbase image
        (el1Linkage base (fuel + 2) smcExit) tables start later (image.windowPages arch)
        (image.copies arch) [] := by
  induction rounds generalizing i copied s with
  | zero => omega
  | succ rounds induction =>
      apply Attempts.after (progress.headerField placed wellFormed (by cases arch <;> decide))
      change Attempts _ (if i < image.shnum arch then _ else pure ()) s _
      by_cases inside : i < image.shnum arch
      · have count : image.shnum arch - i = image.shnum arch - (i + 1) + 1 := by omega
        have first : image.copiesAfter arch i (image.shnum arch - i) =
            image.copiesOf arch i ++
              image.copiesAfter arch (i + 1) (image.shnum arch - (i + 1)) := by
          rw [count, Image.copiesAfter, List.range'_succ, List.flatMap_cons]
          rfl
        rw [first] at progress
        rw [if_pos inside, shdrAt_eq]
        apply (attempts_loadSection placed wellFormed inside progress enough).bind
        intro _ later progress
        exact induction inside (by omega) progress
      · have last : image.shnum arch - i = 0 := by omega
        rw [last] at progress
        have whole : copied = image.copies arch := by
          rw [← progress.all]
          exact (List.append_nil copied).symm
        rw [if_neg inside]
        subst whole
        exact attempts_of_some rfl progress

/-- The image is mapped and its sections are copied. -/
theorem attempts_loadImage (placed : Placed base stop elfbase image start)
    (wellFormed : image.WellFormed arch)
    (progress : Progress base stop elfbase image (el1Linkage base (fuel + 2) smcExit)
      tables start s 1 [] (image.copies arch))
    {rounds : Nat} (enough : 2 ^ arch.width ≤ rounds) :
    Attempts (Overrun base image)
      (loadImage (el1Linkage base (fuel + 2) smcExit) rounds elfbase (image.length arch)) s
      fun _ later => Progress base stop elfbase image
        (el1Linkage base (fuel + 2) smcExit) tables start later (image.windowPages arch)
        (image.copies arch) [] := by
  have halfword : image.shnum arch < 2 ^ arch.width := (image.field arch _).isLt
  apply (attempts_windows placed wellFormed progress enough).bind
  intro _ mapped progress
  apply Attempts.after (progress.headerField placed wellFormed (by cases arch <;> decide))
  apply Attempts.after (progress.headerField placed wellFormed (by cases arch <;> decide))
  have strings := shdrAt_eq elfbase image (image.shstrndx arch)
  rw [Image.shstrndx, BitVec.ofNat_toNat, BitVec.setWidth_eq] at strings
  rw [strings]
  apply Attempts.after (progress.sectionField placed wellFormed wellFormed.strings
    (by cases arch <;> decide))
  exact attempts_loadSections placed wellFormed enough (Nat.zero_le _) (by omega) progress

end Progress

end TzTest.Loader
