import TzTest.Loader.El1Loader

/-!
# Images that the loader should refuse

What happens to an image whose magic bytes, machine or class are wrong.  The
checks only ask EL3 for a shutdown, which may come back; the class is not looked
at.
-/

namespace TzTest.Loader

open Logged

variable {arch : Arch} {σ α β : Type}

/-- The bytes of a file. -/
abbrev Image := Nat → BitVec 8

namespace Image

def bytesAt (image : Image) : (offset size : Nat) → BitVec (8 * size)
  | _, 0 => 0#0
  | offset, size + 1 => bytesAt image (offset + 1) size ++ image offset

/-- A field of the file header. -/
def field (arch : Arch) (image : Image) (field : Field) : Word arch :=
  (image.bytesAt field.offset field.bytes).setWidth arch.width

/-- The magic bytes from an offset on. -/
def hasMagic (image : Image) : (offset : Nat) → List (BitVec 8) → Bool
  | _, [] => true
  | offset, byte :: rest =>
      if image offset = byte then image.hasMagic (offset + 1) rest else false

/-- The image fails a check of the loader. -/
def Rejected (arch : Arch) (image : Image) : Prop :=
  image.hasMagic 0 elfMag = false ∨
    (image.field arch eMachine ≠ BitVec.ofNat arch.width emArm ∧
      image.field arch eMachine ≠ BitVec.ofNat arch.width emAarch64)

/-- The image is of another class than the loader parses. -/
def Foreign (arch : Arch) (image : Image) : Prop :=
  image eiClass ≠ elfClass arch

/-- `elf_len` -/
def length (arch : Arch) (image : Image) : Word arch :=
  image.field arch (eShoff arch) +
    tableLength (image.field arch (eShentsize arch))
      (image.field arch (eShnum arch))

/-- No offset that is a multiple of the page size reaches the length. -/
def Endless (arch : Arch) (image : Image) : Prop :=
  2 ^ arch.width - 0x1000 < (image.length arch).toNat

end Image

/-- Wherever the header page is read, it reads as the image. -/
def Shows (link : Linkage arch σ) (elfbase : Word arch) (image : Image) : Prop :=
  ∀ offset s byte, offset < 0x1000 →
    link.load (elfbase + BitVec.ofNat arch.width offset) s = some byte →
    byte = image offset

/-- A section is mapped or copied, an entry point is produced, or control is
passed on. -/
def Event.Trusts : Event arch σ → Prop
  | .load _ _ => False
  | .store _ _ => True
  | .mapPa _ => False
  | .mapVa _ => True
  | .unmapVa _ => False
  | .smcExit => False
  | .entry _ => True
  | .exceptionReturn _ => True

/-- Whatever the loader is linked with, nothing of the image is trusted. -/
def Guarded (elfbase : Word arch) (image : Image) (returns : Bool) : Prop :=
  ∀ (σ : Type) (link : Linkage arch σ) (rounds : Nat) (s : σ),
    Shows link elfbase image →
    (∀ s, (link.smcExit s).isSome = returns) →
    ∀ event ∈ log (el1InitEl0 link rounds elfbase) s, ¬event.Trusts

/-- Nothing is trusted on the way. -/
def Wary (run : Run arch σ α) : Prop :=
  ∀ s, ∀ event ∈ log run s, ¬event.Trusts

section Wary

variable {link : Linkage arch σ}

theorem wary_pure (a : α) : Wary (pure a : Run arch σ α) := by
  intro s event member
  cases member

theorem wary_attempt (compute : σ → Option (α × σ)) :
    Wary (attempt compute : Run arch σ α) := by
  intro s event member
  cases member

theorem Wary.bind {first : Run arch σ α} {next : α → Run arch σ β}
    (before : Wary first) (after : ∀ a, Wary (next a)) :
    Wary (first >>= next) := by
  intro s
  exact forall_log_bind (before s) fun a later _ => after a later

theorem wary_tell {event : σ → Event arch σ} (quiet : ∀ s, ¬(event s).Trusts) :
    Wary (tell event) := by
  intro s other member
  cases List.mem_singleton.mp member
  exact quiet s

theorem wary_call {event : σ → Event arch σ} (quiet : ∀ s, ¬(event s).Trusts)
    (effect : σ → Option σ) : Wary (call event effect) :=
  (wary_tell quiet).bind fun _ => wary_attempt _

theorem wary_load (va : Word arch) : Wary (load link va) :=
  (wary_tell fun _ => id).bind fun _ => wary_attempt _

theorem wary_loadBytes (va : Word arch) (size : Nat) :
    Wary (loadBytes link va size) := by
  induction size generalizing va with
  | zero => exact wary_pure _
  | succ size induction =>
      exact (wary_load va).bind fun _ => (induction (va + 1)).bind fun _ =>
        wary_pure _

theorem wary_loadField (base : Word arch) (field : Field) :
    Wary (loadField link base field) :=
  (wary_loadBytes _ _).bind fun _ => wary_pure _

theorem wary_magic (elfbase : Word arch) (bytes : List (BitVec 8)) :
    Wary (magic link elfbase bytes) := by
  induction bytes generalizing elfbase with
  | nil => exact wary_pure _
  | cons byte rest induction =>
      apply (wary_load elfbase).bind
      intro found
      by_cases same : found = byte
      · rw [if_pos same]
        exact induction (elfbase + 1)
      · rw [if_neg same]
        exact wary_pure _

theorem wary_checkHeader (elfbase : Word arch) : Wary (checkHeader link elfbase) := by
  apply (wary_magic elfbase elfMag).bind
  intro valid
  cases valid with
  | false => exact wary_call (fun _ => id) _
  | true =>
      apply (wary_loadField elfbase eMachine).bind
      intro machine
      split_ifs
      · exact wary_call (fun _ => id) _
      · exact wary_pure _

theorem wary_openImage (elfbase : Word arch) : Wary (openImage link elfbase) := by
  apply (wary_call (fun _ => id) _).bind
  intro _
  apply (wary_checkHeader elfbase).bind
  intro _
  apply (wary_loadField _ _).bind
  intro _
  apply (wary_loadField _ _).bind
  intro _
  exact (wary_loadField _ _).bind fun _ => wary_pure _

theorem Wary.pages {len : Run arch σ (Word arch)}
    {body : Word arch → Run arch σ Unit} (bound : Wary len)
    (turn : ∀ off, Wary (body off)) (rounds : Nat) (off : Word arch) :
    Wary (pages len body rounds off) := by
  induction rounds generalizing off with
  | zero => exact wary_attempt _
  | succ rounds induction =>
      apply bound.bind
      intro last
      split_ifs
      · exact (turn off).bind fun _ => induction (off + 0x1000)
      · exact wary_pure _

end Wary

/-- Where the run comes to an end, this is its value. -/
def Reads (run : Run arch σ α) (value : α) : Prop :=
  ∀ s a later, result run s = some (a, later) → a = value

/-- The run does not come to an end. -/
def Never (run : Run arch σ α) : Prop :=
  ∀ s, result run s = none

theorem reads_pure (a : α) : Reads (pure a : Run arch σ α) a := by
  intro s value later ended
  exact (Prod.mk.inj (Option.some.inj ended)).1.symm

theorem Reads.bind {first : Run arch σ α} {next : α → Run arch σ β} {a : α}
    {b : β} (before : Reads first a) (after : Reads (next a) b) :
    Reads (first >>= next) b := by
  intro s value later ended
  rw [result_bind] at ended
  obtain ⟨⟨found, middle⟩, reached, rest⟩ := Option.bind_eq_some_iff.mp ended
  rw [before s found middle reached] at rest
  exact after middle value later rest

theorem Reads.after {first : Run arch σ α} {next : α → Run arch σ β} {b : β}
    (last : ∀ a, Reads (next a) b) : Reads (first >>= next) b := by
  intro s value later ended
  rw [result_bind] at ended
  obtain ⟨⟨a, middle⟩, _, rest⟩ := Option.bind_eq_some_iff.mp ended
  exact last a middle value later rest

theorem Wary.bind_reads {first : Run arch σ α} {next : α → Run arch σ β} {a : α}
    (before : Wary first) (reads : Reads first a) (after : Wary (next a)) :
    Wary (first >>= next) := by
  intro s
  apply forall_log_bind (before s)
  intro found later ended
  rw [reads s found later ended]
  exact after later

theorem Wary.bind_never {first : Run arch σ α} (before : Wary first)
    (never : Never first) (next : α → Run arch σ β) : Wary (first >>= next) := by
  intro s
  apply forall_log_bind (before s)
  intro a later ended
  rw [never s] at ended
  cases ended

theorem Reads.never {first : Run arch σ α} {next : α → Run arch σ β} {a : α}
    (before : Reads first a) (after : Never (next a)) : Never (first >>= next) := by
  intro s
  cases ended : result first s with
  | none => exact result_bind_of_none ended
  | some out =>
      rw [result_bind_of_some ended, before s out.1 out.2 ended]
      exact after out.2

theorem Never.bind_left {first : Run arch σ α} (before : Never first)
    (next : α → Run arch σ β) : Never (first >>= next) := fun s =>
  result_bind_of_none (before s)

theorem Never.bind_right {next : α → Run arch σ β} (after : ∀ a, Never (next a))
    (first : Run arch σ α) : Never (first >>= next) := by
  intro s
  cases ended : result first s with
  | none => exact result_bind_of_none ended
  | some out =>
      rw [result_bind_of_some ended]
      exact after out.1 out.2

section Header

variable {link : Linkage arch σ} {elfbase : Word arch} {image : Image}

theorem add_ofNat_succ (base : Word arch) (offset : Nat) :
    base + BitVec.ofNat arch.width offset + 1 =
      base + BitVec.ofNat arch.width (offset + 1) := by
  rw [BitVec.ofNat_add, BitVec.add_assoc]
  rfl

theorem Shows.reads_load (shows : Shows link elfbase image) {offset : Nat}
    (inside : offset < 0x1000) :
    Reads (load link (elfbase + BitVec.ofNat arch.width offset))
      (image offset) := by
  intro s byte later ended
  change result (tell _ >>= fun _ => attempt _) s = _ at ended
  rw [result_bind_of_some (result_tell _ s), result_attempt] at ended
  obtain ⟨found, loaded, same⟩ := Option.map_eq_some_iff.mp ended
  rw [← (Prod.mk.inj same).1]
  exact shows offset s found inside loaded

theorem Shows.reads_loadBytes (shows : Shows link elfbase image)
    {offset size : Nat} (inside : offset + size ≤ 0x1000) :
    Reads (loadBytes link (elfbase + BitVec.ofNat arch.width offset) size)
      (image.bytesAt offset size) := by
  induction size generalizing offset with
  | zero => exact reads_pure _
  | succ size induction =>
      apply (shows.reads_load (by omega)).bind
      rw [add_ofNat_succ]
      exact (induction (by omega)).bind (reads_pure _)

theorem Shows.reads_loadField (shows : Shows link elfbase image) {field : Field}
    (inside : field.offset + field.bytes ≤ 0x1000) :
    Reads (loadField link elfbase field) (image.field arch field) :=
  (shows.reads_loadBytes inside).bind (reads_pure _)

theorem Shows.reads_magic (shows : Shows link elfbase image) {offset : Nat}
    (bytes : List (BitVec 8)) (inside : offset + bytes.length ≤ 0x1000) :
    Reads (magic link (elfbase + BitVec.ofNat arch.width offset) bytes)
      (image.hasMagic offset bytes) := by
  induction bytes generalizing offset with
  | nil => exact reads_pure _
  | cons byte rest induction =>
      rw [List.length_cons] at inside
      apply (shows.reads_load (by omega)).bind
      rw [Image.hasMagic]
      split_ifs
      · rw [add_ofNat_succ]
        exact induction (by omega)
      · exact reads_pure _

theorem Shows.reads_valid (shows : Shows link elfbase image) :
    Reads (magic link elfbase elfMag) (image.hasMagic 0 elfMag) := by
  have start : elfbase + BitVec.ofNat arch.width 0 = elfbase := by simp
  rw [← start]
  exact shows.reads_magic elfMag (by decide)

theorem Shows.reads_elfLength (shows : Shows link elfbase image) :
    Reads (elfLength link elfbase) (image.length arch) := by
  apply (shows.reads_loadField (by cases arch <;> decide)).bind
  apply (shows.reads_loadField (by cases arch <;> decide)).bind
  exact (shows.reads_loadField (by cases arch <;> decide)).bind (reads_pure _)

theorem never_smcExit (stays : ∀ s, link.smcExit s = none) :
    Never (smcExit link) := by
  intro s
  change result (tell _ >>= fun _ => attempt _) s = _
  rw [result_bind_of_some (result_tell _ s), result_attempt, stays]
  rfl

/-- A rejected image is not looked at any further, unless the shutdown comes
back. -/
theorem Shows.never_checkHeader (shows : Shows link elfbase image)
    (rejected : image.Rejected arch) (stays : ∀ s, link.smcExit s = none) :
    Never (checkHeader link elfbase) := by
  apply shows.reads_valid.never
  rcases rejected with noMagic | machine
  · rw [noMagic]
    exact never_smcExit stays
  · split_ifs
    · apply (shows.reads_loadField (by decide)).never
      rw [if_pos machine]
      exact never_smcExit stays
    · exact never_smcExit stays

/-- An offset in pages never gets past the last page of the address space. -/
theorem never_pages {last : Word arch} (far : 2 ^ arch.width - 0x1000 < last.toNat)
    (body : Word arch → Run arch σ Unit) (rounds : Nat) {off : Word arch}
    (aligned : off.toNat % 0x1000 = 0) :
    Never (pages (pure last) body rounds off) := by
  induction rounds generalizing off with
  | zero => exact fun _ => rfl
  | succ rounds induction =>
      have wide := off.isLt
      have whole : 2 ^ arch.width % 0x1000 = 0 := by cases arch <;> rfl
      have below : off < last := by
        rw [BitVec.lt_def]
        omega
      have next : (off + 0x1000).toNat % 0x1000 = 0 := by
        have page : (0x1000 : Word arch).toNat = 0x1000 := by cases arch <;> rfl
        rw [BitVec.toNat_add, page, Nat.mod_mod_of_dvd _ (Nat.dvd_of_mod_eq_zero whole)]
        omega
      apply (reads_pure last).never
      rw [if_pos below]
      exact Never.bind_right (fun _ => induction next) _

end Header

/-- All of memory reads as the image, and every call comes back but for the
shutdown. -/
def flat (elfbase : Word arch) (image : Image) (returns : Bool) :
    Linkage arch Unit where
  load va _ := some (image (va - elfbase).toNat)
  store _ _ s := some s
  memMapPa _ _ s := some s
  memMapVa _ s := some s
  memUnmapVa _ s := some s
  smcExit s := if returns then some s else none

/-- Something of the image is trusted. -/
def Tempted (run : Run arch Unit α) : Prop :=
  ∃ event ∈ log run (), event.Trusts

/-- The run comes to an end, unless something is trusted. -/
def Goes (run : Run arch Unit α) : Prop :=
  Tempted run ∨ (result run ()).isSome

theorem goes_pure (a : α) : Goes (pure a : Run arch Unit α) :=
  .inr rfl

theorem Tempted.bind {first : Run arch Unit α} (tempted : Tempted first)
    (next : α → Run arch Unit β) : Tempted (first >>= next) := by
  obtain ⟨event, member, trusts⟩ := tempted
  exact ⟨event, log_bind_left member, trusts⟩

theorem Goes.tempted {first : Run arch Unit α} {next : α → Run arch Unit β}
    (goes : Goes first) (after : ∀ a, Tempted (next a)) :
    Tempted (first >>= next) := by
  rcases goes with tempted | ends
  · exact tempted.bind next
  · obtain ⟨⟨a, later⟩, ended⟩ := Option.isSome_iff_exists.mp ends
    obtain ⟨event, member, trusts⟩ := after a
    exact ⟨event, log_bind_right ended member, trusts⟩

theorem Goes.bind_reads {first : Run arch Unit α} {next : α → Run arch Unit β}
    {a : α} (goes : Goes first) (reads : Reads first a) (after : Goes (next a)) :
    Goes (first >>= next) := by
  rcases goes with tempted | ends
  · exact .inl (tempted.bind next)
  · obtain ⟨⟨found, later⟩, ended⟩ := Option.isSome_iff_exists.mp ends
    have same : found = a := reads () found later ended
    subst same
    rcases after with ⟨event, member, trusts⟩ | ends
    · exact .inl ⟨event, log_bind_right ended member, trusts⟩
    · right
      rw [result_bind_of_some ended]
      exact ends

theorem Goes.bind {first : Run arch Unit α} {next : α → Run arch Unit β}
    (goes : Goes first) (after : ∀ a, Goes (next a)) : Goes (first >>= next) := by
  cases ended : result first () with
  | none =>
      rcases goes with tempted | ends
      · exact .inl (tempted.bind next)
      · rw [ended] at ends
        cases ends
  | some out =>
      apply goes.bind_reads _ (after out.1)
      intro s a later other
      rw [ended] at other
      exact congrArg Prod.fst (Option.some.inj other).symm

theorem goes_call {event : Unit → Event arch Unit} {effect : Unit → Option Unit}
    (comesBack : (effect ()).isSome) : Goes (call event effect) := by
  right
  change (result (tell _ >>= fun _ => attempt _) ()).isSome
  rw [result_bind_of_some (result_tell _ _), result_attempt, Option.isSome_map]
  exact comesBack

section Flat

variable {elfbase : Word arch} {image : Image} {returns : Bool}

theorem shows_flat : Shows (flat elfbase image returns) elfbase image := by
  intro offset s byte inside loaded
  have wide : 0x1000 < 2 ^ arch.width := by cases arch <;> decide
  have index : (elfbase + BitVec.ofNat arch.width offset - elfbase).toNat =
      offset := by
    have cancelled : elfbase + BitVec.ofNat arch.width offset - elfbase =
        BitVec.ofNat arch.width offset := by grind
    rw [cancelled, BitVec.toNat_ofNat]
    exact Nat.mod_eq_of_lt (lt_trans inside wide)
  change some (image (elfbase + BitVec.ofNat arch.width offset - elfbase).toNat) =
    some byte at loaded
  rw [index] at loaded
  exact (Option.some.inj loaded).symm

theorem goes_load (va : Word arch) : Goes (load (flat elfbase image returns) va) :=
  .inr rfl

theorem goes_loadBytes (va : Word arch) (size : Nat) :
    Goes (loadBytes (flat elfbase image returns) va size) := by
  induction size generalizing va with
  | zero => exact goes_pure _
  | succ size induction =>
      exact (goes_load va).bind fun _ => (induction (va + 1)).bind fun _ =>
        goes_pure _

theorem goes_loadField (base : Word arch) (field : Field) :
    Goes (loadField (flat elfbase image returns) base field) :=
  (goes_loadBytes _ _).bind fun _ => goes_pure _

theorem goes_magic (va : Word arch) (bytes : List (BitVec 8)) :
    Goes (magic (flat elfbase image returns) va bytes) := by
  induction bytes generalizing va with
  | nil => exact goes_pure _
  | cons byte rest induction =>
      apply (goes_load va).bind
      intro found
      by_cases same : found = byte
      · rw [if_pos same]
        exact induction (va + 1)
      · rw [if_neg same]
        exact goes_pure _

theorem goes_strcmp (va : Word arch) (bytes : List (BitVec 8)) :
    Goes (strcmp (flat elfbase image returns) va bytes) := by
  induction bytes generalizing va with
  | nil => exact goes_pure _
  | cons byte rest induction =>
      apply (goes_load va).bind
      intro found
      by_cases same : found = byte
      · rw [if_pos same]
        exact induction (va + 1)
      · rw [if_neg same]
        exact goes_pure _

theorem goes_checkHeader (passes : image.Rejected arch → returns = true) :
    Goes (checkHeader (flat elfbase image returns) elfbase) := by
  have exits (rejected : image.Rejected arch) :
      Goes (smcExit (flat elfbase image returns)) := by
    apply goes_call
    change (if returns then some () else none).isSome = true
    rw [if_pos (passes rejected)]
    rfl
  apply (goes_magic _ _).bind_reads shows_flat.reads_valid
  split_ifs with valid
  · apply (goes_loadField _ _).bind_reads (shows_flat.reads_loadField (by decide))
    split_ifs with wrong
    · exact exits (.inr wrong)
    · exact goes_pure _
  · exact exits (.inl (Bool.not_eq_true _ ▸ valid))

theorem goes_pages {last : Word arch} (near : last.toNat ≤ 2 ^ arch.width - 0x1000)
    {body : Word arch → Run arch Unit Unit} (turn : ∀ off, Goes (body off))
    {rounds : Nat} {off : Word arch}
    (enough : last.toNat ≤ off.toNat + 0x1000 * rounds) :
    Goes (pages (pure last) body (rounds + 1) off) := by
  induction rounds generalizing off with
  | zero =>
      apply (goes_pure last).bind_reads (reads_pure last)
      have done : ¬off < last := by
        rw [BitVec.lt_def]
        omega
      change Goes (if off < last then _ else pure ())
      rw [if_neg done]
      exact goes_pure _
  | succ rounds induction =>
      apply (goes_pure last).bind_reads (reads_pure last)
      split_ifs with below
      · rw [BitVec.lt_def] at below
        have page : (0x1000 : Word arch).toNat = 0x1000 := by cases arch <;> rfl
        have next : (off + 0x1000).toNat = off.toNat + 0x1000 := by
          rw [BitVec.toNat_add, page]
          exact Nat.mod_eq_of_lt (by omega)
        exact (turn off).bind fun _ => induction (by omega)
      · exact goes_pure _

/-- A section with contents is mapped. -/
theorem goes_loadSection (rounds : Nat) (strsec header : Word arch) :
    Goes (loadSection (flat elfbase image returns) (rounds + 1) elfbase strsec
      header) := by
  apply (goes_loadField _ _).bind
  intro name
  have named : Goes (isLoaded (flat elfbase image returns) (strsec + name)) := by
    apply (goes_strcmp _ _).bind
    intro text
    split_ifs
    · exact goes_pure _
    · exact goes_strcmp _ _
  apply named.bind
  intro wanted
  split_ifs
  · apply (goes_loadField _ _).bind
    intro offset
    apply (goes_loadField _ _).bind
    intro baseVa
    apply (goes_loadField _ _).bind
    intro size
    split_ifs
    · left
      apply Tempted.bind
      apply Tempted.bind
      exact ⟨.mapVa (baseVa + 0), List.mem_cons_self .., trivial⟩
    · exact goes_pure _
  · exact goes_pure _

theorem goes_loadSections (pageRounds : Nat) (strsec shdr : Word arch)
    {rounds i : Nat} (enough : 2 ^ arch.width ≤ i + rounds) :
    Goes (loadSections (flat elfbase image returns) (pageRounds + 1) elfbase strsec
      shdr (rounds + 1) i) := by
  induction rounds generalizing i with
  | zero =>
      apply (goes_loadField _ _).bind
      intro shnum
      have wide := shnum.isLt
      rw [if_neg (by omega)]
      exact goes_pure _
  | succ rounds induction =>
      apply (goes_loadField _ _).bind
      intro shnum
      split_ifs
      · exact (goes_loadSection _ _ _).bind fun _ => induction (by omega)
      · exact goes_pure _

/-- With nothing in its way, the loader gets to the sections or to the entry
point. -/
theorem tempted_el1InitEl0 (passes : image.Rejected arch → returns = true)
    (near : (image.length arch).toNat ≤ 2 ^ arch.width - 0x1000) :
    Tempted (el1InitEl0 (flat elfbase image returns) (2 ^ arch.width + 1)
      elfbase) := by
  have enough (off : Word arch) :
      (image.length arch).toNat ≤ off.toNat + 0x1000 * 2 ^ arch.width := by
    have wide := (image.length arch).isLt
    omega
  have length : Goes (elfLength (flat elfbase image returns) elfbase) :=
    (goes_loadField _ _).bind fun _ => (goes_loadField _ _).bind fun _ =>
      (goes_loadField _ _).bind fun _ => goes_pure _
  have opened : Goes (openImage (flat elfbase image returns) elfbase) :=
    (goes_call rfl).bind fun _ => (goes_checkHeader passes).bind fun _ => length
  have reads : Reads (openImage (flat elfbase image returns) elfbase)
      (image.length arch) :=
    Reads.after fun _ => Reads.after fun _ => shows_flat.reads_elfLength
  have loaded : Goes (loadImage (flat elfbase image returns) (2 ^ arch.width + 1)
      elfbase (image.length arch)) := by
    apply (goes_pages near (fun _ => goes_call rfl) (enough _)).bind
    intro _
    apply (goes_loadField _ _).bind
    intro shoff
    apply (goes_loadField _ _).bind
    intro shstrndx
    apply (goes_loadField _ _).bind
    intro offset
    exact goes_loadSections _ _ _ (by omega)
  have closed : Goes (closeImage (flat elfbase image returns) (2 ^ arch.width + 1)
      elfbase (image.length arch)) := by
    apply (goes_pages near (fun _ => goes_call rfl) (enough _)).bind
    intro _
    apply (goes_loadField _ _).bind
    intro entry
    exact .inr rfl
  have called : Goes (el1LoadEl0 (flat elfbase image returns) (2 ^ arch.width + 1)
      elfbase) :=
    opened.bind_reads reads (loaded.bind fun _ => closed.bind fun _ => goes_pure _)
  apply called.tempted
  rintro ⟨main, _⟩
  exact ⟨.exceptionReturn main, List.mem_singleton.mpr rfl, trivial⟩

theorem not_guarded (passes : image.Rejected arch → returns = true)
    (near : (image.length arch).toNat ≤ 2 ^ arch.width - 0x1000) :
    ¬Guarded elfbase image returns := by
  intro guarded
  obtain ⟨event, member, trusts⟩ := tempted_el1InitEl0 passes near
  refine guarded Unit (flat elfbase image returns) _ () shows_flat ?_ event member
    trusts
  intro s
  cases returns <;> rfl

end Flat

/-- Nothing of the image is trusted where the image is rejected and the machine
shuts down, or where the image is never mapped to its end; else the sections or
the entry point are. -/
theorem el1InitEl0_guarded_iff (elfbase : Word arch) (image : Image)
    (returns : Bool) :
    Guarded elfbase image returns ↔
      (image.Rejected arch ∧ returns = false) ∨ image.Endless arch := by
  constructor
  · intro guarded
    by_contra trusted
    rw [not_or, not_and] at trusted
    obtain ⟨halts, near⟩ := trusted
    have passes : image.Rejected arch → returns = true := by
      intro rejected
      cases returns with
      | false => exact absurd rfl (halts rejected)
      | true => rfl
    exact not_guarded passes (not_lt.mp near) guarded
  · rintro (⟨rejected, rfl⟩ | endless) σ link rounds s shows exits
    · have stays : ∀ s, link.smcExit s = none := fun s =>
        Option.not_isSome_iff_eq_none.mp (by rw [exits s]; exact Bool.false_ne_true)
      have checked : Never (checkHeader link elfbase) :=
        shows.never_checkHeader rejected stays
      have opened : Never (openImage link elfbase) :=
        Never.bind_right (fun _ => checked.bind_left _) _
      have called : Wary (el1LoadEl0 link rounds elfbase) :=
        (wary_openImage elfbase).bind_never opened _
      exact called.bind_never (opened.bind_left _) _ s
    · have mapped : Never (pages (pure (image.length arch))
          (fun off => mapPa link (elfbase + off)) rounds 0x1000) :=
        never_pages endless _ rounds (by cases arch <;> rfl)
      have loaded : Never (loadImage link rounds elfbase (image.length arch)) :=
        mapped.bind_left _
      have wary : Wary (loadImage link rounds elfbase (image.length arch)) :=
        ((wary_pure _).pages (fun _ => wary_call (fun _ => id) _) rounds _).bind_never
          mapped _
      have reads : Reads (openImage link elfbase) (image.length arch) :=
        Reads.after fun _ => Reads.after fun _ => shows.reads_elfLength
      have called : Wary (el1LoadEl0 link rounds elfbase) :=
        (wary_openImage elfbase).bind_reads reads (wary.bind_never loaded _)
      exact called.bind_never (reads.never (loaded.bind_left _)) _ s

/-- A file of 32-bit class for the machine that both loaders accept. -/
def armImage : Image := fun index =>
  [0x7f, 0x45, 0x4c, 0x46, 1, 1, 1, 0, 0, 0, 0, 0, 0, 0, 0, 0, 2, 0, 40][index]?.getD
    0

/-- The AArch64 loader takes a 32-bit file for its own, and a file without the
magic bytes is used when the shutdown comes back. -/
theorem el1InitEl0_trusts :
    (armImage.Foreign .aarch64 ∧ ¬@Guarded .aarch64 (0x30000 : BitVec 64) armImage
        false) ∧
      Image.Rejected .aarch64 (fun _ => 0) ∧
        ¬@Guarded .aarch64 (0x30000 : BitVec 64) (fun _ => 0) true := by
  have accepted : ¬armImage.Rejected .aarch64 := by
    rintro (noMagic | ⟨machine, -⟩)
    · exact absurd noMagic (by decide)
    · exact machine (by decide)
  have foreign : armImage eiClass ≠ elfClass .aarch64 := by decide
  refine ⟨⟨foreign, not_guarded (fun rejected => absurd rejected accepted) ?_⟩,
    .inl (by decide), not_guarded (fun _ => rfl) ?_⟩
  · decide
  · decide

end TzTest.Loader
