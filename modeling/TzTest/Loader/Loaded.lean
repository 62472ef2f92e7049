import TzTest.Loader.Sections

/-!
# What the loader leaves behind

Where no access faults on the way, the sections are read at their addresses as
the image has them.  The loader then unmaps the file, and after that it reads the
entry point from it.
-/

namespace TzTest.Loader

open Radix Logged

variable {arch : Arch}

/-- Every byte of a `.text` or `.data` section is read as the image has it. -/
def SectionsRead (base : Word arch) (image : Image) (s : MemUtil arch.width) : Prop :=
  ∀ i < image.shnum arch, image.wanted arch i → ∀ offset < image.sizeOf arch i,
    (physical base (image.addrOf arch i + BitVec.ofNat arch.width offset) s).map
        s.byteAt =
      some (image (image.offsetOf arch i + offset))

/-- The first pages of the file are unmapped, and nothing else has changed. -/
structure Unmapped (base : Word arch) (stop : Nat) (elfbase : Word arch)
    (s later : MemUtil arch.width) (count : Nat) : Prop where
  hosted : Hosted base stop later
  next : later.memNextPa = s.memNextPa
  gone {k : Nat} {va : Word arch} : k < count →
    (mapper arch).SamePage va (windowPage elfbase k) →
    translate later.mem base va = none
  kept {va : Word arch} :
    (∀ k < count, ¬(mapper arch).SamePage va (windowPage elfbase k)) →
    translate later.mem base va = translate s.mem base va

/-- No page of the file is mapped, and every address on no page of the file, of the
sections and of the new tables is translated as at the start. -/
structure Withdrawn (base elfbase : Word arch) (image : Image) (tables : List (Word arch))
    (start later : MemUtil arch.width) : Prop where
  gone {k : Nat} {va : Word arch} : k < image.windowPages arch →
    (mapper arch).SamePage va (windowPage elfbase k) →
    translate later.mem base va = none
  kept {va : Word arch} : Elsewhere elfbase image tables va →
    translate later.mem base va = translate start.mem base va

section Loaded

variable {base elfbase : Word arch} {stop fuel : Nat} {image : Image}
variable {smcExit : MemUtil arch.width → Option (MemUtil arch.width)}
variable {tables : List (Word arch)} {start s later : MemUtil arch.width}

theorem copy_mem {i : Nat} (inside : i < image.shnum arch) (wanted : image.wanted arch i)
    {k : Nat} (below : k < Image.pageCount (image.sizeOf arch i)) :
    ⟨image.addrOf arch i + BitVec.ofNat arch.width (0x1000 * k),
      image.offsetOf arch i + 0x1000 * k⟩ ∈ image.copies arch := by
  apply List.mem_flatMap.mpr
  refine ⟨i, List.mem_range'_1.mpr ⟨Nat.zero_le _, by omega⟩, ?_⟩
  unfold Image.copiesOf
  rw [if_pos wanted]
  exact List.mem_map.mpr ⟨k, List.mem_range'_1.mpr ⟨Nat.zero_le _, by omega⟩, rfl⟩

/-- A byte of a section lies on one of the pages that were copied. -/
theorem Loading.sectionsRead (placed : Placed base stop elfbase image start)
    (wellFormed : image.WellFormed arch)
    (loading : Loading base stop elfbase image tables start s (image.windowPages arch)
      (image.copies arch)) : SectionsRead base image s := by
  intro i inside wanted offset within
  have page : offset / 0x1000 < Image.pageCount (image.sizeOf arch i) := by
    unfold Image.pageCount
    omega
  have rest : offset % 0x1000 < 0x1000 := Nat.mod_lt _ (by decide)
  have member := copy_mem inside wanted page
  have aligned := wellFormed.copies_aligned member
  have below := placed.copyBelow member
  have contents := wellFormed.inside inside wanted
  have ends := wellFormed.ends
  obtain ⟨pa, attr, mapped, _, _, bytes⟩ := loading.copies member
  have found := physical_of_aligned aligned below mapped rest
  have whole : image.addrOf arch i + BitVec.ofNat arch.width (0x1000 * (offset / 0x1000)) +
      BitVec.ofNat arch.width (offset % 0x1000) =
        image.addrOf arch i + BitVec.ofNat arch.width offset := by
    rw [BitVec.add_assoc, ← BitVec.ofNat_add, Nat.div_add_mod]
  have source : image.offsetOf arch i + 0x1000 * (offset / 0x1000) + offset % 0x1000 =
      image.offsetOf arch i + offset := by omega
  have byte := bytes (offset % 0x1000) rest (by rw [source]; omega)
  rw [source] at byte
  rw [whole] at found
  rw [found, ← byte]
  rfl

theorem Unmapped.refl (hosted : Hosted base stop s) :
    Unmapped base stop elfbase s s 0 where
  hosted := hosted
  next := rfl
  gone none := absurd none (Nat.not_lt_zero _)
  kept _ := rfl

/-- One page more. -/
theorem Unmapped.step {count : Nat} (begins : s.memNextPa.toNat ≤ stop)
    (unmapped : Unmapped base stop elfbase s later count) :
    ∃ next, result (unmapVa (el1Linkage base fuel smcExit) (windowPage elfbase count))
        later = some ((), next) ∧
      Unmapped base stop elfbase s next (count + 1) := by
  have room : later.memNextPa.toNat ≤ stop := by
    rw [unmapped.next]
    exact begins
  have fits : (MemOp.unmapVa (windowPage elfbase count)).Fits base stop later :=
    ⟨room, fun page none => absurd none List.not_mem_nil⟩
  obtain ⟨next, ran, rewrites⟩ := MemOp.run_rewrites unmapped.hosted _ fits
  have taken := MemOp.run_taken unmapped.hosted _ fits (ran 0)
  have same : next.memNextPa = later.memNextPa := BitVec.eq_of_toNat_eq taken
  have translated (va : Word arch) : translate next.mem base va =
      (mapper arch).set (windowPage elfbase count) none (translate later.mem base) va :=
    congrFun rewrites.translated va
  refine ⟨next, result_call (ran 0), rewrites.hosted, same.trans unmapped.next, ?_, ?_⟩
  · intro k va below there
    rw [translated]
    by_cases here : (mapper arch).SamePage va (windowPage elfbase count)
    · exact (mapper arch).set_of_samePage here _ _
    · rw [(mapper arch).set_of_not_samePage here]
      apply unmapped.gone _ there
      rcases Nat.lt_or_eq_of_le (Nat.le_of_lt_succ below) with before | rfl
      · exact before
      · exact absurd there here
  · intro va outside
    rw [translated, (mapper arch).set_of_not_samePage (outside count (Nat.lt_succ_self _))]
    exact unmapped.kept fun k below => outside k (Nat.lt_succ_of_lt below)

theorem attempts_unmapped (short : (image.length arch).toNat ≤ 2 ^ arch.width - 0x1000)
    (hosted : Hosted base stop s) (begins : s.memNextPa.toNat ≤ stop)
    {rounds : Nat} (enough : 2 ^ arch.width ≤ rounds) :
    Attempts (fun _ => False)
      (pages (pure (image.length arch))
        (fun off => unmapVa (el1Linkage base fuel smcExit) (elfbase + off)) rounds 0) s
      fun _ later => Unmapped base stop elfbase s later (image.windowPages arch) := by
  have wide := (image.length arch).isLt
  have page : 0x1000 ≤ 2 ^ arch.width := by cases arch <;> decide
  refine @attempts_pages _ _ _ (pure (image.length arch)) _ _
    (fun k later => Unmapped base stop elfbase s later k) short (fun _ _ _ => rfl) ?_
    rounds 0 (by omega) (Nat.zero_le _) s (.refl hosted)
  intro k later _ unmapped
  obtain ⟨next, ended, unmapped⟩ := unmapped.step begins
  exact attempts_of_some ended unmapped

/-- Where the tables of the pages of the file are there, the pool has the room that
is left for the rest. -/
theorem roomAll_windows (hosted : Hosted base stop s) (begins : s.memNextPa.toNat ≤ stop)
    {works : List (Work arch)} {first count : Nat}
    (installed : ∀ k, first ≤ k → k < first + count →
      Installed s.mem base (windowPage elfbase k))
    (rest : ∀ later : MemUtil arch.width, Hosted base stop later →
      later.memNextPa = s.memNextPa →
      (∀ va, Installed s.mem base va → Installed later.mem base va) →
      Work.RoomAll elfbase base (el1Linkage base (fuel + 2) smcExit) stop works later) :
    Work.RoomAll elfbase base (el1Linkage base (fuel + 2) smcExit) stop
      (Image.windowsFrom arch first count ++ works) s := by
  induction count generalizing first s with
  | zero => exact rest s hosted rfl fun _ => id
  | succ count induction =>
      have none : ((Work.window first : Work arch).op elfbase).pages base s = 0 :=
        Mapper.missing_of_installed (Nat.zero_add _) rfl
          (installed first (le_refl _) (by omega))
      have room : s.memNextPa.toNat +
          0x1000 * ((Work.window first : Work arch).op elfbase).pages base s ≤ stop := by
        rw [none]
        exact begins
      have fits : ((Work.window first : Work arch).op elfbase).Fits base stop s := by
        refine ⟨room, fun page listed => ?_⟩
        obtain ⟨_, above, below⟩ := MemOp.mem_tables_taken hosted.pool _ room listed
        omega
      obtain ⟨middle, ran, rewrites⟩ := MemOp.run_rewrites hosted _ fits
      have taken := MemOp.run_taken hosted _ fits (ran 0)
      have same : middle.memNextPa = s.memNextPa := by
        apply BitVec.eq_of_toNat_eq
        rw [taken, none, Nat.mul_zero, Nat.add_zero]
      rw [Image.windowsFrom, List.range'_succ]
      refine ⟨room, fun later ended => ?_⟩
      have called : result ((Work.window first).run elfbase
          (el1Linkage base (fuel + 2) smcExit)) s = some ((), middle) :=
        result_call (ran fuel)
      cases called.symm.trans ended
      apply induction rewrites.hosted (by rw [same]; exact begins)
      · intro k above below
        exact rewrites.keeps _ (installed k (by omega) (by omega))
      · intro later hosted next keeps
        exact rest later hosted (next.trans same) fun va there =>
          keeps va (rewrites.keeps va there)

theorem of_result_call {event : MemUtil arch.width → Event arch (MemUtil arch.width)}
    {effect : MemUtil arch.width → Option (MemUtil arch.width)} {out : Unit}
    (ended : result (call event effect) s = some (out, later)) : effect s = some later := by
  cases ran : effect s with
  | none =>
      rw [call, result_bind_of_some (result_tell event s), result_attempt, ran] at ended
      cases ended
  | some reached =>
      cases (result_call ran).symm.trans ended
      rfl

/-- A copy takes no page of the pool. -/
theorem memcpy_next {dest src : Word arch} {count : Nat} {out : Unit}
    (ended : result (memcpy (el1Linkage base fuel smcExit) dest src count) s =
      some (out, later)) : later.memNextPa = s.memNextPa := by
  induction count generalizing dest src s with
  | zero =>
      cases ended
      rfl
  | succ count induction =>
      rw [memcpy, result_bind] at ended
      obtain ⟨⟨byte, _⟩, loaded, stores⟩ := Option.bind_eq_some_iff.mp ended
      obtain ⟨_, _, same⟩ := Option.map_eq_some_iff.mp
        ((result_bind_of_some (result_tell _ s)).symm.trans loaded)
      cases same
      rw [result_bind] at stores
      obtain ⟨⟨_, stored⟩, called, rest⟩ := Option.bind_eq_some_iff.mp stores
      obtain ⟨pa, _, rfl⟩ := Option.map_eq_some_iff.mp (of_result_call called)
      have next := induction rest
      exact next

theorem copy_taken (hosted : Hosted base stop s) {target : Copy arch}
    (fits : ((Work.copy target).op elfbase).Fits base stop s) {out : Unit}
    (ended : result ((Work.copy target).run elfbase (el1Linkage base (fuel + 2) smcExit)) s =
      some (out, later)) :
    later.memNextPa.toNat =
      s.memNextPa.toNat + 0x1000 * ((Work.copy target).op elfbase).pages base s := by
  obtain ⟨middle, ran, _⟩ := MemOp.run_rewrites hosted _ fits
  have mapped : result (mapVa (el1Linkage base (fuel + 2) smcExit) target.va) s =
      some ((), middle) := result_call (ran fuel)
  rw [Work.run, result_bind_of_some mapped] at ended
  rw [memcpy_next ended]
  exact MemOp.run_taken hosted _ fits (ran 0)

/-- The words of a piece of a file. -/
def storeWords (s : MemUtil arch.width) (addr : Word arch) :
    List (Word arch) → MemUtil arch.width
  | [] => s
  | word :: words =>
      (storeWords s (addr + BitVec.ofNat arch.width (wordBytes arch)) words).write addr word

/-- All memory from an address on lies beside the tables. -/
structure Clear (base : Word arch) (stop low : Nat) (s : MemUtil arch.width) : Prop where
  hosted : Hosted base stop s
  beside (addr : Word arch) : low ≤ addr.toNat → Beside base stop s addr
  installed : Installed s.mem base s.memNextPa

theorem Clear.storeWords {low : Nat} (clear : Clear base stop low s)
    (words : List (Word arch)) {addr : Word arch} (above : low ≤ addr.toNat)
    (short : addr.toNat + wordBytes arch * words.length < 2 ^ arch.width) :
    Clear base stop low (storeWords s addr words) ∧
      (storeWords s addr words).memNextPa = s.memNextPa := by
  induction words generalizing addr with
  | nil => exact ⟨clear, rfl⟩
  | cons word words induction =>
      rw [List.length_cons, Nat.mul_add] at short
      have next : (addr + BitVec.ofNat arch.width (wordBytes arch)).toNat =
          addr.toNat + wordBytes arch := toNat_add_ofNat (by omega)
      obtain ⟨clear, same⟩ := @induction (addr + BitVec.ofNat arch.width (wordBytes arch))
        (by omega) (by omega)
      have beside := clear.beside addr above
      exact ⟨⟨clear.hosted.write beside word,
        fun other there => beside.write (clear.beside other there) word,
        (Installed.write beside word).mpr clear.installed⟩, same⟩

end Loaded

/-- The header of a file. -/
def smallHeader : List (Word .aarch64) :=
  [0x00010102464c457f, 0, 0x0000000100b70002, 0x140000, 0, 0x1010, 0x0000004000000000,
    0x0000000200400000]

/-- Its second page: two names, and the headers of two sections. -/
def smallContents : List (Word .aarch64) :=
  [0x642e00747865742e, 0x0000000000617461,
    0x0000000100000000, 0, 0x140000, 0x1000, 12, 0, 0, 0,
    0x0000000100000006, 0, 0x40000000, 0xFF8, 16, 0, 0, 0]

/-- A file whose section `.text` holds the names, and whose section `.data`, far from
it, begins on the page of the header. -/
def smallImage : Image := fun index =>
  BitVec.extractLsb' (8 * (index % 8)) 8
    (if index < 0x1000 then smallHeader.getD (index / 8) 0
      else smallContents.getD (index / 8 - 0x200) 0)

/-- The small tables with the image beside them. -/
def smallStart : MemUtil (Arch.width .aarch64) :=
  storeWords (storeWords Aarch64.smallTables (0x100000 : Word .aarch64) smallHeader)
    (0x101000 : Word .aarch64) smallContents

theorem smallTables_entry {key table : BitVec 64} {level : Nat} (inside : level ≤ 3)
    (here : Aarch64.mapper.tableAt Aarch64.smallTables.mem 0x1000 key level = some table) :
    (Aarch64.mapper.entryOf level table key).toNat < 0x5000 := by
  obtain ⟨place, _⟩ := Aarch64.smallTables_tableAt inside here
  have within : BitField.Within table 12 64 := by
    apply BitField.within_of_toNat _ table.isLt
    rw [place]
    exact Nat.mul_mod_right _ _
  have offset := Aarch64.offset_within level key
  have sum : (Aarch64.mapper.entryOf level table key).toNat =
      table.toNat + (Aarch64.index level key <<< 3).toNat :=
    within.toNat_or offset (.inr (le_refl _))
  have small := offset.toNat_lt
  omega

theorem smallTables_clear : @Clear .aarch64 0x1000 0x20000 0x20000 Aarch64.smallTables where
  hosted := Aarch64.smallTables_wellFormed.hosted
  beside addr above := by
    constructor
    · rintro ⟨key, level, table, inside, here, rfl⟩
      exact absurd (smallTables_entry inside here)
        (not_lt.mpr (le_trans (by decide : 0x5000 ≤ 0x20000) above))
    · rintro ⟨_, below⟩
      exact absurd below (not_lt.mpr above)
  installed := by
    change (Aarch64.mapper.tableAt Aarch64.smallTables.mem 0x1000 0x5000 3).isSome
    decide

theorem smallStart_clear : @Clear .aarch64 0x1000 0x20000 0x20000 smallStart ∧
    smallStart.memNextPa = 0x5000 := by
  obtain ⟨header, same⟩ := @Clear.storeWords _ _ _ _ _ smallTables_clear smallHeader
    (0x100000 : Word .aarch64) (by decide) (by decide)
  obtain ⟨contents, same'⟩ := @Clear.storeWords _ _ _ _ _ header smallContents
    (0x101000 : Word .aarch64) (by decide) (by decide)
  exact ⟨contents, same'.trans same⟩

theorem smallImage_wellFormed : smallImage.WellFormed .aarch64 := by
  have count : smallImage.shnum .aarch64 = 2 := by decide
  have each {i : Nat} (inside : i < smallImage.shnum .aarch64) : i = 0 ∨ i = 1 := by omega
  refine ⟨?_, by decide, by decide, by decide, ?_, ?_, ?_⟩
  · unfold Image.Rejected
    decide
  · intro i inside
    rcases each inside with rfl | rfl <;>
      exact ⟨5, by decide, by decide⟩
  · intro i inside _
    rcases each inside with rfl | rfl <;> decide
  · intro i inside _
    rcases each inside with rfl | rfl <;> decide

theorem smallStart_mem : ∀ index < 0x212, smallStart.mem
    ((0x100000 : BitVec 64) + BitVec.ofNat 64 (8 * index)) =
      (if index < 0x200 then smallHeader.getD index 0
        else smallContents.getD (index - 0x200) 0) := by
  decide +kernel

theorem smallImage_length : (smallImage.length .aarch64).toNat = 0x1090 := by
  decide

theorem smallImage_toNat {offset : Nat} (below : offset < 0x100000) :
    ((0x100000 : Word .aarch64) + BitVec.ofNat _ offset).toNat = 0x100000 + offset :=
  toNat_add_ofNat (by change 0x100000 + offset < 2 ^ 64; omega)

/-- The bytes of the file are in memory. -/
theorem smallStart_byteAt {offset : Nat} (inside : offset < 0x1090) :
    smallStart.byteAt ((0x100000 : Word .aarch64) + BitVec.ofNat _ offset) =
      smallImage offset := by
  have place := smallImage_toNat (by omega : offset < 0x100000)
  have word : wordBase ((0x100000 : Word .aarch64) + BitVec.ofNat _ offset) =
      (0x100000 : Word .aarch64) + BitVec.ofNat _ (8 * (offset / 8)) := by
    apply BitVec.eq_of_toNat_eq
    rw [wordBase_toNat, place, smallImage_toNat (by omega)]
    change (0x100000 + offset) / 8 * 8 = _
    omega
  have lane : byteLane ((0x100000 : Word .aarch64) + BitVec.ofNat _ offset) =
      offset % 8 := by
    unfold byteLane
    rw [place]
    change _ % 8 = _
    omega
  have page : offset / 8 < 0x200 ↔ offset < 0x1000 := by omega
  unfold MemUtil.byteAt smallImage
  rw [word, lane]
  have found := smallStart_mem (offset / 8) (by omega)
  simp only [page] at found
  exact congrArg (BitVec.extractLsb' (8 * (offset % 8)) 8) found

theorem smallImage_placed :
    Placed (0x1000 : Word .aarch64) 0x20000 (0x100000 : Word .aarch64) smallImage
      smallStart := by
  obtain ⟨clear, next⟩ := smallStart_clear
  have each {copy : Copy .aarch64} (member : copy ∈ smallImage.copies .aarch64) :
      copy = ⟨(0x140000 : BitVec 64), 0x1000⟩ ∨ copy = ⟨(0x40000000 : BitVec 64), 0xFF8⟩ := by
    rcases List.mem_cons.mp member with rfl | member
    · exact .inl rfl
    · exact .inr (List.mem_singleton.mp member)
  constructor
  · exact clear.hosted
  · rw [next]
    decide
  · rw [next]
    decide
  · exact clear.installed
  · decide
  · decide
  · intro offset inside
    rw [smallImage_length] at inside
    exact smallStart_byteAt inside
  · intro offset inside
    rw [smallImage_length] at inside
    apply clear.beside
    rw [wordBase_toNat, smallImage_toNat (by omega)]
    change 0x20000 ≤ (0x100000 + offset) / 8 * 8
    omega
  · exact .inr (by decide)
  · intro copy member
    rcases each member with rfl | rfl <;> decide
  · intro copy member
    rcases each member with rfl | rfl <;>
      exact .inr (by decide)
  · intro copy member
    rcases each member with rfl | rfl <;>
      exact .inr (by decide)
  · decide

theorem smallImage_room {smcExit : MemUtil 64 → Option (MemUtil 64)} :
    @Work.RoomAll .aarch64 (0x100000 : Word .aarch64) (0x1000 : Word .aarch64)
      (el1Linkage (0x1000 : Word .aarch64) 2 smcExit) 0x20000 (smallImage.works .aarch64)
      smallStart := by
  obtain ⟨clear, next⟩ := smallStart_clear
  have there (va : Word .aarch64) (low : va.toNat < 2 ^ 21) :
      Installed smallStart.mem (0x1000 : Word .aarch64) va := by
    have same : va.toNat / regionSize .aarch64 =
        smallStart.memNextPa.toNat / regionSize .aarch64 := by
      rw [next]
      exact Nat.div_eq_of_lt low
    unfold Installed
    rw [tableAt_of_region same]
    exact clear.installed
  apply @roomAll_windows .aarch64 (0x1000 : Word .aarch64) (0x100000 : Word .aarch64)
    0x20000 0 smcExit smallStart clear.hosted smallImage_placed.begins
  · intro k _ below
    apply there
    change k < 2 at below
    rw [windowPage, smallImage_toNat (by omega)]
    omega
  · intro later hosted same keeps
    let first : Work .aarch64 := .copy ⟨(0x140000 : BitVec 64), 0x1000⟩
    let op := first.op (0x100000 : Word .aarch64)
    have none : tablesMissing (0x1000 : Word .aarch64) (0x140000 : Word .aarch64) later = 0 :=
      Mapper.missing_of_installed (Nat.zero_add _) rfl (keeps _ (there _ (by decide)))
    have count : op.pages 0x1000 later = 1 := congrArg (1 + ·) none
    have room : later.memNextPa.toNat + 0x1000 * op.pages 0x1000 later ≤ 0x20000 := by
      rw [count, same, next]
      decide
    refine ⟨room, fun last ran => ⟨?_, fun _ _ => trivial⟩⟩
    have fits : op.Fits (0x1000 : Word .aarch64) 0x20000 later := by
      refine ⟨room, fun page listed => keeps _ (there page ?_)⟩
      obtain ⟨_, _, below⟩ := MemOp.mem_tables hosted.pool op room listed
      exact lt_trans below (by decide)
    have taken := copy_taken hosted fits ran
    have depth : tablesMissing (0x1000 : Word .aarch64) (0x40000000 : Word .aarch64) last ≤
        3 := Mapper.missing_le ..
    change last.memNextPa.toNat + 0x1000 * (1 + tablesMissing (0x1000 : Word .aarch64)
      (0x40000000 : Word .aarch64) last) ≤ _
    rw [taken, count, same, next]
    change 0x6000 + _ ≤ _
    omega

section Whole

variable {base elfbase : Word arch} {stop fuel : Nat} {image : Image}
variable {smcExit : MemUtil arch.width → Option (MemUtil arch.width)}
variable {start s : MemUtil arch.width}

/-- The sections are read as the image has them when their loop is done, unless a copy
has read beyond the file.  Unmapping the file undoes the rest. -/
theorem loadImage_loads (placed : Placed base stop elfbase image start)
    (wellFormed : image.WellFormed arch)
    (room : Work.RoomAll elfbase base (el1Linkage base (fuel + 2) smcExit) stop
      (image.works arch) start)
    {rounds : Nat} (enough : 2 ^ arch.width ≤ rounds) :
    Attempts (Overrun base image)
      (do
        let elfLen ← openImage (el1Linkage base (fuel + 2) smcExit) elfbase
        loadImage (el1Linkage base (fuel + 2) smcExit) rounds elfbase elfLen
        pure elfLen) start
      fun elfLen loaded => SectionsRead base image loaded ∧
        ∃ closed,
          result (pages (pure elfLen)
            (fun off => unmapVa (el1Linkage base (fuel + 2) smcExit) (elfbase + off))
            rounds 0) loaded = some ((), closed) ∧
          Withdrawn base elfbase image
            (Work.tablesAll elfbase base (el1Linkage base (fuel + 2) smcExit)
              (image.works arch) start) start closed := by
  apply (attempts_openImage placed wellFormed (placed.progress room)).bind
  rintro _ opened ⟨rfl, progress⟩
  apply (attempts_loadImage placed wellFormed progress enough).bind
  intro _ loaded progress
  have loading := progress.loading
  refine attempts_of_some rfl ⟨loading.sectionsRead placed wellFormed, ?_⟩
  obtain ⟨_, _, _, none⟩ | ⟨_, closed, ended, unmapped⟩ :=
    @attempts_unmapped _ base elfbase stop (fuel + 2) image smcExit loaded placed.short
      loading.hosted loading.begins rounds enough
  · exact none.elim
  · refine ⟨closed, ended, unmapped.gone, ?_⟩
    intro va elsewhere
    exact (unmapped.kept fun k below => elsewhere.window below).trans
      (loading.frame elsewhere)

/-- The small image is loaded. -/
theorem loadImage_loads_smallImage :
    ∃ elfLen loaded closed,
      result (do
        let elfLen ← openImage (el1Linkage (0x1000 : Word .aarch64) 2 fun _ => none)
          0x100000
        loadImage (el1Linkage (0x1000 : Word .aarch64) 2 fun _ => none) (2 ^ 64) 0x100000
          elfLen
        pure elfLen) smallStart = some (elfLen, loaded) ∧
      SectionsRead 0x1000 smallImage loaded ∧
      result (pages (pure elfLen)
        (fun off => unmapVa (el1Linkage (0x1000 : Word .aarch64) 2 fun _ => none)
          (0x100000 + off)) (2 ^ 64) 0) loaded = some ((), closed) := by
  have near : ¬smallImage.Overruns .aarch64 := by
    unfold Image.Overruns
    decide
  obtain ⟨_, _, _, _, overruns⟩ | ⟨elfLen, loaded, ended, sections, closed, unmapped, _⟩ :=
    @loadImage_loads .aarch64 0x1000 0x100000 0x20000 0 smallImage (fun _ => none)
      smallStart smallImage_placed smallImage_wellFormed smallImage_room (2 ^ 64)
      (le_refl _)
  · exact absurd overruns near
  · exact ⟨elfLen, loaded, closed, ended, sections, unmapped⟩

theorem attempts_fault {va : Word arch} (unmapped : translate s.mem base va = none) :
    Attempts (Event.Faults base) (load (el1Linkage base fuel smcExit) va) s
      fun _ _ => False := by
  apply (attempts_load fun _ => unmapped).mono
  rintro _ _ ⟨rfl, pa, mapped, _⟩
  rw [physical_none.mpr unmapped] at mapped
  cases mapped

/-- The entry point is read from the header when its page is no longer mapped. -/
theorem attempts_closeImage (placed : Placed base stop elfbase image start)
    (wellFormed : image.WellFormed arch) (hosted : Hosted base stop s)
    (begins : s.memNextPa.toNat ≤ stop) {rounds : Nat} (enough : 2 ^ arch.width ≤ rounds) :
    Attempts (Event.Faults base)
      (closeImage (el1Linkage base fuel smcExit) rounds elfbase (image.length arch)) s
      fun _ _ => False := by
  have header := wellFormed.header_inside
  have below := placed.below
  have aligned := placed.aligned
  have some : 0 < image.windowPages arch := by
    have size : 1 ≤ ehdrSize arch := by cases arch <;> decide
    unfold Image.windowPages Image.pageCount
    omega
  have same : (mapper arch).SamePage (elfbase + BitVec.ofNat arch.width 24)
      (windowPage elfbase 0) := by
    have first : windowPage elfbase 0 = elfbase := by simp [windowPage]
    rw [first]
    exact samePage_of_aligned aligned (by omega) (by decide)
  apply ((attempts_unmapped placed.short hosted begins enough).widen
    fun _ => False.elim).bind
  intro _ closed unmapped
  have gone := unmapped.gone some same
  cases arch with
  | aarch64 =>
      exact (((attempts_fault gone).bind fun _ _ => False.elim).bind
        fun _ _ => False.elim).bind fun _ _ => False.elim
  | arm =>
      exact (((attempts_fault gone).bind fun _ _ => False.elim).bind
        fun _ _ => False.elim).bind fun _ _ => False.elim

/-- Every run of the loader faults. -/
theorem attempts_el1LoadEl0 (placed : Placed base stop elfbase image start)
    (wellFormed : image.WellFormed arch)
    (room : Work.RoomAll elfbase base (el1Linkage base (fuel + 2) smcExit) stop
      (image.works arch) start)
    {rounds : Nat} (enough : 2 ^ arch.width ≤ rounds) :
    Attempts (Event.Faults base)
      (el1LoadEl0 (el1Linkage base (fuel + 2) smcExit) rounds elfbase) start
      fun _ _ => False := by
  apply ((attempts_openImage placed wellFormed (placed.progress room)).widen
    fun _ => And.left).bind
  rintro _ opened ⟨rfl, progress⟩
  apply ((attempts_loadImage placed wellFormed progress enough).widen
    fun _ => And.left).bind
  intro _ loaded progress
  exact (attempts_closeImage placed wellFormed progress.loading.hosted
    progress.loading.begins enough).bind fun _ _ => False.elim

/-- No access of a run of the loader is to an unmapped page. -/
def Safe (base : Word arch) (link : Linkage arch (MemUtil arch.width)) (rounds : Nat)
    (elfbase : Word arch) (s : MemUtil arch.width) : Prop :=
  ∀ event ∈ log (el1LoadEl0 link rounds elfbase) s, ¬event.Faults base

/-- No image is loaded safely. -/
theorem el1LoadEl0_not_safe (placed : Placed base stop elfbase image start)
    (wellFormed : image.WellFormed arch)
    (room : Work.RoomAll elfbase base (el1Linkage base (fuel + 2) smcExit) stop
      (image.works arch) start)
    {rounds : Nat} (enough : 2 ^ arch.width ≤ rounds) :
    ¬Safe base (el1Linkage base (fuel + 2) smcExit) rounds elfbase start := by
  intro safe
  rcases attempts_el1LoadEl0 placed wellFormed room enough with
    ⟨_, event, member, fault⟩ | ⟨_, _, _, none⟩
  · exact safe event member fault
  · exact none

/-- The entry point of the small image is read from an unmapped page. -/
theorem el1LoadEl0_not_safe_smallImage :
    ¬Safe 0x1000 (el1Linkage (0x1000 : Word .aarch64) 2 fun _ => none) (2 ^ 64) 0x100000
      smallStart :=
  el1LoadEl0_not_safe smallImage_placed smallImage_wellFormed smallImage_room (le_refl _)

/-- A well-formed image need not be loaded safely. -/
theorem el1LoadEl0_unsafe :
    ¬∀ (arch : Arch) (base elfbase : Word arch) (stop fuel rounds : Nat) (image : Image)
      (smcExit : MemUtil arch.width → Option (MemUtil arch.width))
      (start : MemUtil arch.width),
      Placed base stop elfbase image start → image.WellFormed arch →
      Work.RoomAll elfbase base (el1Linkage base (fuel + 2) smcExit) stop
        (image.works arch) start →
      2 ^ arch.width ≤ rounds →
      Safe base (el1Linkage base (fuel + 2) smcExit) rounds elfbase start := by
  intro safe
  obtain ⟨_, event, member, fault⟩ | ⟨_, _, _, none⟩ :=
    @attempts_el1LoadEl0 .aarch64 0x1000 0x100000 0x20000 0 smallImage (fun _ => none)
      smallStart smallImage_placed smallImage_wellFormed smallImage_room (2 ^ 64)
      (le_refl _)
  · exact safe .aarch64 0x1000 0x100000 0x20000 0 (2 ^ 64) smallImage (fun _ => none)
      smallStart smallImage_placed smallImage_wellFormed smallImage_room (le_refl _) event
      member fault
  · exact none

end Whole

end TzTest.Loader
