import TzTest.Loader.Copy

/-!
# What the loader reads of an image

The sections of an image, and the pages that the loader copies.  Where the bytes
of an image are mapped to themselves, the fields and the names that are read are
those of the image.
-/

namespace TzTest.Loader

open Radix Logged

variable {arch : Arch}

/-- `sizeof(Elf64_Ehdr)` and `sizeof(Elf32_Ehdr)`. -/
def ehdrSize : Arch → Nat
  | .aarch64 => 64
  | .arm => 52

/-- A page of a section: where it goes and where the file has it. -/
structure Copy (arch : Arch) where
  va : Word arch
  src : Nat

namespace Image

/-- A field of the structure at an offset. -/
def fieldAt (arch : Arch) (image : Image) (offset : Nat) (field : Field) : Word arch :=
  (image.bytesAt (offset + field.offset) field.bytes).setWidth arch.width

variable (arch : Arch) (image : Image)

def shoff : Nat := (image.field arch (eShoff arch)).toNat
def shnum : Nat := (image.field arch (eShnum arch)).toNat
def shstrndx : Nat := (image.field arch (eShstrndx arch)).toNat

/-- The offset of a section header. -/
def headerAt (i : Nat) : Nat :=
  image.shoff arch + i * shdrSize arch

def nameAt (i : Nat) : Nat :=
  (image.fieldAt arch (image.headerAt arch (image.shstrndx arch)) (shOffset arch)).toNat +
    (image.fieldAt arch (image.headerAt arch i) shName).toNat

def addrOf (i : Nat) : Word arch := image.fieldAt arch (image.headerAt arch i) (shAddr arch)
def offsetOf (i : Nat) : Nat :=
  (image.fieldAt arch (image.headerAt arch i) (shOffset arch)).toNat
def sizeOf (i : Nat) : Nat :=
  (image.fieldAt arch (image.headerAt arch i) (shSize arch)).toNat

/-- A `.text` or `.data` section. -/
def wanted (i : Nat) : Bool :=
  image.hasMagic (image.nameAt arch i) textName ||
    image.hasMagic (image.nameAt arch i) dataName

/-- The pages of a section from `first` on. -/
def copiesFrom (i first count : Nat) : List (Copy arch) :=
  (List.range' first count).map fun k =>
    ⟨image.addrOf arch i + BitVec.ofNat arch.width (0x1000 * k),
      image.offsetOf arch i + 0x1000 * k⟩

def pageCount (size : Nat) : Nat :=
  (size + 0xFFF) / 0x1000

def copiesOf (i : Nat) : List (Copy arch) :=
  if image.wanted arch i then
    image.copiesFrom arch i 0 (pageCount (image.sizeOf arch i))
  else []

/-- The pages of all sections from `first` on. -/
def copiesAfter (first count : Nat) : List (Copy arch) :=
  (List.range' first count).flatMap (image.copiesOf arch)

def copies : List (Copy arch) :=
  image.copiesAfter arch 0 (image.shnum arch)

/-- An image that the loader accepts, with its section headers at its end. -/
structure WellFormed : Prop where
  accepted : ¬image.Rejected arch
  header : ehdrSize arch ≤ image.shoff arch
  ends : (image.length arch).toNat = image.shoff arch + image.shnum arch * shdrSize arch
  strings : image.shstrndx arch < image.shnum arch
  named {i : Nat} : i < image.shnum arch →
    ∃ k, image.nameAt arch i + k < (image.length arch).toNat ∧
      image (image.nameAt arch i + k) = 0
  inside {i : Nat} : i < image.shnum arch → image.wanted arch i →
    image.offsetOf arch i + image.sizeOf arch i ≤ image.shoff arch
  aligned {i : Nat} : i < image.shnum arch → image.wanted arch i →
    (image.addrOf arch i).toNat % 0x1000 = 0

end Image

/-- The first bytes of the image are mapped to themselves and are in the memory. -/
def ReadsAs (base elfbase : Word arch) (image : Image) (size : Nat)
    (s : MemUtil arch.width) : Prop :=
  ∀ offset < size,
    physical base (elfbase + BitVec.ofNat arch.width offset) s =
        some (elfbase + BitVec.ofNat arch.width offset) ∧
      s.byteAt (elfbase + BitVec.ofNat arch.width offset) = image offset

section Reading

variable {base elfbase : Word arch} {image : Image} {size fuel : Nat}
variable {s : MemUtil arch.width}
variable {smcExit : MemUtil arch.width → Option (MemUtil arch.width)}

theorem ReadsAs.load (reads : ReadsAs base elfbase image size s) {offset : Nat}
    (inside : offset < size) :
    result (load (el1Linkage base fuel smcExit)
        (elfbase + BitVec.ofNat arch.width offset)) s = some (image offset, s) := by
  obtain ⟨mapped, byte⟩ := reads offset inside
  rw [result_load mapped, byte]

theorem ReadsAs.loadBytes (reads : ReadsAs base elfbase image size s)
    {offset count : Nat} (inside : offset + count ≤ size) :
    result (loadBytes (el1Linkage base fuel smcExit)
        (elfbase + BitVec.ofNat arch.width offset) count) s =
      some (image.bytesAt offset count, s) := by
  induction count generalizing offset with
  | zero => rfl
  | succ count induction =>
      have rest := induction (by omega : offset + 1 + count ≤ size)
      rw [← add_ofNat_succ] at rest
      rw [Loader.loadBytes, result_bind_of_some (reads.load (by omega)),
        result_bind_of_some rest]
      rfl

theorem ReadsAs.loadField (reads : ReadsAs base elfbase image size s) {offset : Nat}
    {field : Field} (inside : offset + field.offset + field.bytes ≤ size) :
    result (loadField (el1Linkage base fuel smcExit)
        (elfbase + BitVec.ofNat arch.width offset) field) s =
      some (image.fieldAt arch offset field, s) := by
  have place : elfbase + BitVec.ofNat arch.width offset +
      BitVec.ofNat arch.width field.offset =
        elfbase + BitVec.ofNat arch.width (offset + field.offset) := by
    rw [BitVec.add_assoc, BitVec.ofNat_add]
  rw [Loader.loadField, place, result_bind_of_some (reads.loadBytes inside)]
  rfl

theorem ReadsAs.headerField (reads : ReadsAs base elfbase image size s) {field : Field}
    (inside : field.offset + field.bytes ≤ size) :
    result (Loader.loadField (el1Linkage base fuel smcExit) elfbase field) s =
      some (image.field arch field, s) := by
  have found := @ReadsAs.loadField _ base elfbase image size fuel s smcExit reads 0 field
    (by omega)
  have start : elfbase + BitVec.ofNat arch.width 0 = elfbase := by simp
  rw [start] at found
  rw [found, Image.fieldAt, Nat.zero_add]
  rfl

/-- A name whose last byte alone is the terminator. -/
def Terminated : List (BitVec 8) → Prop
  | [] => True
  | [_] => True
  | byte :: next :: rest => byte ≠ 0 ∧ Terminated (next :: rest)

/-- A comparison stops at the terminator of the image. -/
theorem ReadsAs.strcmp (reads : ReadsAs base elfbase image size s)
    {name : List (BitVec 8)} (ends : Terminated name) {offset last : Nat}
    (stop : image (offset + last) = 0) (inside : offset + last < size) :
    result (strcmp (el1Linkage base fuel smcExit)
        (elfbase + BitVec.ofNat arch.width offset) name) s =
      some (image.hasMagic offset name, s) := by
  induction name generalizing offset last with
  | nil => rfl
  | cons byte rest induction =>
      rw [Loader.strcmp, result_bind_of_some (reads.load (by omega)), Image.hasMagic]
      by_cases same : image offset = byte
      · rw [if_pos same, if_pos same, add_ofNat_succ]
        cases rest with
        | nil => rfl
        | cons next rest =>
            cases last with
            | zero => exact absurd (same.symm.trans stop) ends.1
            | succ last =>
                have further : offset + 1 + last = offset + (last + 1) := by omega
                exact induction ends.2 (by rw [further]; exact stop) (by omega)
      · rw [if_neg same, if_neg same]
        rfl

theorem ReadsAs.isLoaded (reads : ReadsAs base elfbase image size s) {offset last : Nat}
    (stop : image (offset + last) = 0) (inside : offset + last < size) :
    result (isLoaded (el1Linkage base fuel smcExit)
        (elfbase + BitVec.ofNat arch.width offset)) s =
      some (image.hasMagic offset textName || image.hasMagic offset dataName, s) := by
  have text := @ReadsAs.strcmp _ base elfbase image size fuel s smcExit reads textName
    (by simp [textName, Terminated]) offset last stop inside
  have data := @ReadsAs.strcmp _ base elfbase image size fuel s smcExit reads dataName
    (by simp [dataName, Terminated]) offset last stop inside
  rw [Loader.isLoaded, result_bind_of_some text]
  cases image.hasMagic offset textName with
  | true => rfl
  | false => exact data

theorem ReadsAs.magic (reads : ReadsAs base elfbase image size s)
    (bytes : List (BitVec 8)) {offset : Nat} (inside : offset + bytes.length ≤ size) :
    result (magic (el1Linkage base fuel smcExit)
        (elfbase + BitVec.ofNat arch.width offset) bytes) s =
      some (image.hasMagic offset bytes, s) := by
  induction bytes generalizing offset with
  | nil => rfl
  | cons byte rest induction =>
      rw [List.length_cons] at inside
      rw [Loader.magic, result_bind_of_some (reads.load (by omega)), Image.hasMagic]
      by_cases same : image offset = byte
      · rw [if_pos same, if_pos same, add_ofNat_succ]
        exact induction (by omega)
      · rw [if_neg same, if_neg same]
        rfl

theorem ReadsAs.checkHeader (reads : ReadsAs base elfbase image size s)
    (accepted : ¬image.Rejected arch) (inside : 20 ≤ size) :
    result (checkHeader (el1Linkage base fuel smcExit) elfbase) s = some ((), s) := by
  obtain ⟨noMagic, known⟩ := not_or.mp accepted
  have valid : image.hasMagic 0 elfMag = true := Bool.not_eq_false _ ▸ noMagic
  have start : elfbase + BitVec.ofNat arch.width 0 = elfbase := by simp
  have found := @ReadsAs.magic _ base elfbase image size fuel s smcExit reads elfMag 0
    (by rw [Nat.zero_add]; exact le_trans (by decide) inside)
  rw [start, valid] at found
  have machine := @ReadsAs.headerField _ base elfbase image size fuel s smcExit reads
    eMachine (le_trans (by decide) inside)
  rw [Loader.checkHeader, result_bind_of_some found, if_pos rfl,
    result_bind_of_some machine, if_neg known]
  rfl

theorem ReadsAs.elfLength (reads : ReadsAs base elfbase image size s)
    (inside : ehdrSize arch ≤ size) :
    result (elfLength (el1Linkage base fuel smcExit) elfbase) s =
      some (image.length arch, s) := by
  have field {field : Field} (within : field.offset + field.bytes ≤ ehdrSize arch) :=
    @ReadsAs.headerField _ base elfbase image size fuel s smcExit reads field
      (le_trans within inside)
  rw [Loader.elfLength,
    result_bind_of_some (field (by cases arch <;> decide)),
    result_bind_of_some (field (by cases arch <;> decide)),
    result_bind_of_some (field (by cases arch <;> decide))]
  rfl

end Reading

end TzTest.Loader
