import TzTest.Bytes
import TzTest.Library.Logged

/-!
# The loader of the EL0 images

`el1_load_el0` of both architectures and its caller `el1_init_el0`, over the
routines that they are linked with.  An ELF image is read byte by byte, at the
offsets of the class that the architecture's loader parses.  Loops carry a bound
on their rounds and have no result where it is reached.
-/

namespace TzTest.Loader

variable {arch : Arch} {σ : Type}

/-- The identification bytes. -/
def eiClass : Nat := 4
def elfMag : List (BitVec 8) := [0x7f, 0x45, 0x4c, 0x46]

/-- `ELFCLASS64` and `ELFCLASS32`. -/
def elfClass : Arch → BitVec 8
  | .aarch64 => 2
  | .arm => 1

def emArm : Nat := 40
def emAarch64 : Nat := 183

/-- A field: its offset and its bytes. -/
structure Field where
  offset : Nat
  bytes : Nat

def eMachine : Field := ⟨18, 2⟩

def eEntry : Arch → Field
  | .aarch64 => ⟨24, 8⟩
  | .arm => ⟨24, 4⟩

def eShoff : Arch → Field
  | .aarch64 => ⟨40, 8⟩
  | .arm => ⟨32, 4⟩

def eShentsize : Arch → Field
  | .aarch64 => ⟨58, 2⟩
  | .arm => ⟨46, 2⟩

def eShnum : Arch → Field
  | .aarch64 => ⟨60, 2⟩
  | .arm => ⟨48, 2⟩

def eShstrndx : Arch → Field
  | .aarch64 => ⟨62, 2⟩
  | .arm => ⟨50, 2⟩

/-- `sizeof(Elf64_Shdr)` and `sizeof(Elf32_Shdr)`. -/
def shdrSize : Arch → Nat
  | .aarch64 => 64
  | .arm => 40

def shName : Field := ⟨0, 4⟩

def shAddr : Arch → Field
  | .aarch64 => ⟨16, 8⟩
  | .arm => ⟨12, 4⟩

def shOffset : Arch → Field
  | .aarch64 => ⟨24, 8⟩
  | .arm => ⟨16, 4⟩

def shSize : Arch → Field
  | .aarch64 => ⟨32, 8⟩
  | .arm => ⟨20, 4⟩

/-- `".text"` and `".data"`. -/
def textName : List (BitVec 8) := [0x2e, 0x74, 0x65, 0x78, 0x74, 0x00]
def dataName : List (BitVec 8) := [0x2e, 0x64, 0x61, 0x74, 0x61, 0x00]

inductive Event (arch : Arch) (σ : Type) where
  | load (va : Word arch) (s : σ)
  | store (va : Word arch) (s : σ)
  | mapPa (va : Word arch)
  | mapVa (va : Word arch)
  | unmapVa (va : Word arch)
  | smcExit
  | entry (pc : Word arch)
  | exceptionReturn (pc : Word arch)

/-- What the loader is linked with.  Where an access aborts, or a call does not
come back, there is no result. -/
structure Linkage (arch : Arch) (σ : Type) where
  load : Word arch → σ → Option (BitVec 8)
  store : Word arch → BitVec 8 → σ → Option σ
  memMapPa : (vaddr paddr : Word arch) → σ → Option σ
  memMapVa : (addr : Word arch) → σ → Option σ
  memUnmapVa : (addr : Word arch) → σ → Option σ
  smcExit : σ → Option σ

abbrev Run (arch : Arch) (σ α : Type) := Logged σ (Event arch σ) α

/-- An event and its effect, in this order. -/
def call (event : σ → Event arch σ) (effect : σ → Option σ) : Run arch σ Unit := do
  Logged.tell event
  Logged.attempt fun s => (effect s).map fun later => ((), later)

section Loader

variable (link : Linkage arch σ)

def load (va : Word arch) : Run arch σ (BitVec 8) := do
  Logged.tell (.load va)
  Logged.attempt fun s => (link.load va s).map fun byte => (byte, s)

def loadBytes (va : Word arch) : (size : Nat) → Run arch σ (BitVec (8 * size))
  | 0 => pure 0#0
  | size + 1 => do
      let low ← load link va
      let high ← loadBytes (va + 1) size
      pure (high ++ low)

/-- A field of the structure at an address. -/
def loadField (base : Word arch) (field : Field) : Run arch σ (Word arch) := do
  let value ← loadBytes link (base + BitVec.ofNat arch.width field.offset)
    field.bytes
  pure (value.setWidth arch.width)

/-- `!strcmp(a, name)`; the name ends with its terminator. -/
def strcmp (a : Word arch) : List (BitVec 8) → Run arch σ Bool
  | [] => pure true
  | byte :: name => do
      let found ← load link a
      if found = byte then strcmp (a + 1) name else pure false

/-- `memcpy` of `libcflat`. -/
def memcpy (dest src : Word arch) : (count : Nat) → Run arch σ Unit
  | 0 => pure ()
  | count + 1 => do
      let byte ← load link src
      call (.store dest) (link.store dest byte)
      memcpy (dest + 1) (src + 1) count

/-- The rest of `for (; off < len; off += 0x1000)`. -/
def pages (len : Run arch σ (Word arch)) (body : Word arch → Run arch σ Unit) :
    (rounds : Nat) → (off : Word arch) → Run arch σ Unit
  | 0, _ => Logged.attempt fun _ => none
  | rounds + 1, off => do
      let bound ← len
      if off < bound then
        body off
        pages len body rounds (off + 0x1000)
      else
        pure ()

def mapPa (va : Word arch) : Run arch σ Unit :=
  call (fun _ => .mapPa va) (link.memMapPa va va)

def mapVa (va : Word arch) : Run arch σ Unit :=
  call (fun _ => .mapVa va) (link.memMapVa va)

def unmapVa (va : Word arch) : Run arch σ Unit :=
  call (fun _ => .unmapVa va) (link.memUnmapVa va)

def smcExit : Run arch σ Unit :=
  call (fun _ => .smcExit) link.smcExit

/-- The magic bytes, as far as they are compared. -/
def magic (elfbase : Word arch) : List (BitVec 8) → Run arch σ Bool
  | [] => pure true
  | byte :: rest => do
      let found ← load link elfbase
      if found = byte then magic (elfbase + 1) rest else pure false

/-- The checks.  What they do about a wrong image is the call of `SMC_EXIT`. -/
def checkHeader (elfbase : Word arch) : Run arch σ Unit := do
  let valid ← magic link elfbase elfMag
  if valid then
    let machine ← loadField link elfbase eMachine
    if machine ≠ BitVec.ofNat arch.width emArm ∧
        machine ≠ BitVec.ofNat arch.width emAarch64 then
      smcExit link
  else
    smcExit link

/-- The product of the two halfwords is an `int`. -/
def tableLength (shentsize shnum : Word arch) : Word arch :=
  (shentsize.setWidth 32 * shnum.setWidth 32 : BitVec 32).signExtend arch.width

/-- `elf_len` -/
def elfLength (elfbase : Word arch) : Run arch σ (Word arch) := do
  let shoff ← loadField link elfbase (eShoff arch)
  let shentsize ← loadField link elfbase (eShentsize arch)
  let shnum ← loadField link elfbase (eShnum arch)
  pure (shoff + tableLength shentsize shnum)

/-- `&shdr[i]` -/
def shdrAt (shdr : Word arch) (i : Word arch) : Word arch :=
  shdr + i * BitVec.ofNat arch.width (shdrSize arch)

/-- `!strcmp(secname, ".text") || !strcmp(secname, ".data")` -/
def isLoaded (secname : Word arch) : Run arch σ Bool := do
  let text ← strcmp link secname textName
  if text then pure true else strcmp link secname dataName

/-- The body of the loop over the sections. -/
def loadSection (rounds : Nat) (elfbase strsec header : Word arch) :
    Run arch σ Unit := do
  let name ← loadField link header shName
  let wanted ← isLoaded link (strsec + name)
  if wanted then
    let offset ← loadField link header (shOffset arch)
    let sect := elfbase + offset
    let baseVa ← loadField link header (shAddr arch)
    pages (loadField link header (shSize arch))
      (fun off => do
        mapVa link (baseVa + off)
        memcpy link (baseVa + off) (sect + off) 0x1000)
      rounds 0

/-- The loop over the sections from `i` on. -/
def loadSections (pageRounds : Nat) (elfbase strsec shdr : Word arch) :
    (rounds i : Nat) → Run arch σ Unit
  | 0, _ => Logged.attempt fun _ => none
  | rounds + 1, i => do
      let shnum ← loadField link elfbase (eShnum arch)
      if i < shnum.toNat then
        loadSection link pageRounds elfbase strsec
          (shdrAt shdr (BitVec.ofNat arch.width i))
        loadSections pageRounds elfbase strsec shdr rounds (i + 1)
      else
        pure ()

/-- `el1_load_el0` up to its checks and the length of the image. -/
def openImage (elfbase : Word arch) : Run arch σ (Word arch) := do
  mapPa link elfbase
  checkHeader link elfbase
  elfLength link elfbase

/-- The rest of the image is mapped and the sections are loaded. -/
def loadImage (rounds : Nat) (elfbase elfLen : Word arch) : Run arch σ Unit := do
  pages (pure elfLen) (fun off => mapPa link (elfbase + off)) rounds 0x1000
  let shoff ← loadField link elfbase (eShoff arch)
  let shdr := elfbase + shoff
  let shstrndx ← loadField link elfbase (eShstrndx arch)
  let offset ← loadField link (shdrAt shdr shstrndx) (shOffset arch)
  loadSections link rounds elfbase (elfbase + offset) shdr rounds 0

/-- The flash image is unmapped and the entry point read. -/
def closeImage (rounds : Nat) (elfbase elfLen : Word arch) :
    Run arch σ (Word arch) := do
  pages (pure elfLen) (fun off => unmapVa link (elfbase + off)) rounds 0
  let entry ← loadField link elfbase (eEntry arch)
  Logged.tell fun _ => .entry entry
  pure entry

/-- `el1_load_el0`: the entry point, and the value that it returns. -/
def el1LoadEl0 (rounds : Nat) (elfbase : Word arch) :
    Run arch σ (Word arch × Bool) := do
  let elfLen ← openImage link elfbase
  loadImage link rounds elfbase elfLen
  let entry ← closeImage link rounds elfbase elfLen
  pure (entry, arch = .arm)

/-- `el1_init_el0`, which does not look at the returned value. -/
def el1InitEl0 (rounds : Nat) (elfbase : Word arch) : Run arch σ Unit := do
  let (main, _) ← el1LoadEl0 link rounds elfbase
  Logged.tell fun _ => .exceptionReturn main

end Loader

end TzTest.Loader
