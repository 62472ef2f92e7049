import TzTest.Library.BitField
import TzTest.Library.RadixMap
import TzTest.Paging.MemUtil

/-!
# The ARM table format

The short descriptors: a first-level table of 4096 entries and second-level
tables of 256 entries.  Sections and large pages, which no routine writes, do
not occur.
-/

namespace TzTest.Arm

open BitField

def index : Nat → BitVec 32 → BitVec 32
  | 0, vaddr => l1idx vaddr
  | _ + 1, vaddr => l2idx vaddr

def slot : Nat → (table index : BitVec 32) → BitVec 32
  | 0, table, index => (table &&& 0xFFFFC000) ||| (index <<< 2)
  | _ + 1, table, index => table ||| (index <<< 2)

def tableAddress : BitVec 32 := 0xFFFFFC00

def outputAddress : BitVec 32 := 0xFFFFF000

def next (entry : BitVec 32) : Option (BitVec 32) :=
  if entry &&& 0x3 = 0x1 then some (entry &&& tableAddress) else none

def leaf (entry : BitVec 32) : Option (Leaf 32) :=
  if entry &&& 0x2 = 0 then none
  else some ⟨entry &&& outputAddress, entry &&& ~~~outputAddress⟩

/-- The last-level entry that `mem_map_pa` writes. -/
def pageEntry (paddr pgattr : BitVec 32) : BitVec 32 :=
  (paddr &&& ~~~0xFFF) ||| (ptePage ||| pteAccess ||| pgattr)

/-- What `mem_map_pa` reads from an entry above the last level. -/
def soft (entry : BitVec 32) : Option (BitVec 32) :=
  if entry &&& 0x3 = 0 then none else some (entry &&& tableAddress)

def Good (entry : BitVec 32) : Prop :=
  entry &&& 0x3 = 0 ∨ entry &&& 0x3 = 0x1

/-- A first-level table lies where its register says, a second-level table at a
multiple of its size. -/
def Table (level : Nat) (table : BitVec 32) : Prop :=
  level = 0 ∨ Within table 10 32

theorem offset_within (level : Nat) (vaddr : BitVec 32) :
    Within (index (level + 1) vaddr <<< 2) 2 10 := by
  have inside : Within (index (level + 1) vaddr) 0 8 :=
    within_and_mask (by decide) _
  exact inside.shiftLeft 2

theorem slot_inj {level : Nat} {table left right : BitVec 32}
    (aligned : Table level table)
    (same : slot level table (index level left) =
      slot level table (index level right)) :
    index level left = index level right := by
  cases level with
  | zero =>
      have inside (vaddr : BitVec 32) : Within (index 0 vaddr) 0 12 :=
        within_and_mask (by decide) _
      have above : Within (table &&& 0xFFFFC000) 14 32 :=
        within_and_mask (by decide) _
      apply (inside left).shiftLeft_inj (inside right) (by decide : 12 + 2 ≤ 32)
      exact above.or_cancel ((inside left).shiftLeft 2)
        ((inside right).shiftLeft 2) (le_refl _) (le_refl _) same
  | succ level =>
      have inside (vaddr : BitVec 32) : Within (index (level + 1) vaddr) 0 8 :=
        within_and_mask (by decide) _
      rcases aligned with absurdly | aligned
      · cases absurdly
      · apply (inside left).shiftLeft_inj (inside right) (by decide : 8 + 2 ≤ 32)
        exact aligned.or_cancel (offset_within level left)
          (offset_within level right) (le_refl _) (le_refl _) same

theorem link_type {page : BitVec 32} (isPage : Within page 12 32) :
    (page ||| 0x1) &&& 0x3 = 0x1 := by
  have type : IsMask (0x3 : BitVec 32) 0 2 := by decide
  rw [BitVec.and_or_distrib_right,
    isPage.and_eq_zero type.within (.inr (by decide))]
  rfl

theorem link_tableAddress {page : BitVec 32} (isPage : Within page 12 32) :
    (page ||| 0x1) &&& tableAddress = page := by
  rw [BitVec.and_or_distrib_right,
    isPage.and_mask (by decide : IsMask tableAddress 10 32) (by decide)
      (le_refl _)]
  exact BitVec.or_zero

theorem next_link {page : BitVec 32} (isPage : Within page 12 32) :
    next (page ||| 0x1) = some page := by
  unfold next
  rw [if_pos (link_type isPage), link_tableAddress isPage]

theorem next_page {page : BitVec 32} (isPage : Within page 12 32) :
    next page = none := by
  have type : IsMask (0x3 : BitVec 32) 0 2 := by decide
  have noType : page &&& 0x3 = 0 :=
    isPage.and_eq_zero type.within (.inr (by decide))
  unfold next
  rw [noType]
  rfl

theorem soft_eq {entry : BitVec 32} (good : Good entry) :
    soft entry = next entry := by
  unfold soft next
  rcases good with invalid | valid
  · rw [invalid]
    rfl
  · rw [valid]
    rfl

/-- The table format and the table routine. -/
def mapper : Radix.Mapper (BitVec 32) (BitVec 32) (BitVec 32) (BitVec 32)
    (Leaf 32) where
  depth := 1
  index := index
  slot := slot
  next := next
  leaf := leaf
  zero := 0
  Good := Good
  Table := Table
  next_zero := by decide
  leaf_zero := by decide
  good_zero := .inl (by decide)
  slot_inj := slot_inj
  soft := soft
  asKey page := page
  own page := pageEntry page pteUserRw
  linkTo page := page ||| 0x1
  enter page := (page ||| 0x1) &&& tableAddress
  bump page := page + 0x1000
  Page page := Within page 12 32
  soft_eq := soft_eq
  next_linkTo := next_link
  good_linkTo isPage := .inr (link_type isPage)
  enter_eq := link_tableAddress
  table_of_page isPage := .inr (isPage.mono (by decide) (le_refl _))

/-- The hardware finds the page that was written, with attributes that hold no
address bit. -/
theorem leaf_pageEntry (paddr : BitVec 32) {pgattr : BitVec 32}
    (type : (ptePage ||| pteAccess ||| pgattr) &&& 0x2 = 0x2)
    (noAddress : (ptePage ||| pteAccess ||| pgattr) &&& outputAddress = 0) :
    ∃ attr, leaf (pageEntry paddr pgattr) =
      some ⟨paddr &&& outputAddress, attr⟩ := by
  have valid : pageEntry paddr pgattr &&& 0x2 = 0x2 := by
    unfold pageEntry
    rw [BitVec.and_or_distrib_right, type, BitVec.and_assoc,
      show (~~~0xFFF : BitVec 32) &&& 0x2 = 0#32 by decide, BitVec.and_zero]
    exact BitVec.zero_or
  have address : pageEntry paddr pgattr &&& outputAddress =
      paddr &&& outputAddress := by
    unfold pageEntry
    rw [BitVec.and_or_distrib_right, noAddress, BitVec.and_assoc,
      show (~~~0xFFF : BitVec 32) &&& outputAddress = outputAddress by decide]
    exact BitVec.or_zero
  unfold leaf
  rw [if_neg (by rw [valid]; decide), address]
  exact ⟨_, rfl⟩

theorem leaf_pa {entry : BitVec 32} {found : Leaf 32}
    (translated : leaf entry = some found) :
    found.pa &&& outputAddress = found.pa := by
  unfold leaf at translated
  split at translated
  · cases translated
  · cases translated
    change (entry &&& outputAddress) &&& outputAddress = _
    rw [BitVec.and_assoc, BitVec.and_self]

theorem slot_toNat {page : BitVec 32} (isPage : Within page 12 32)
    (level : Nat) (vaddr : BitVec 32) :
    (slot (level + 1) page (index (level + 1) vaddr)).toNat =
        page.toNat + (index (level + 1) vaddr <<< 2).toNat ∧
      (index (level + 1) vaddr <<< 2).toNat < 2 ^ 12 := by
  have offset := (offset_within level vaddr).mono (le_refl _)
    (by decide : 10 ≤ 12)
  exact ⟨isPage.toNat_or offset (.inr (le_refl _)), offset.toNat_lt⟩

/-- `mem_map_pa` is the table routine of the format. -/
theorem memMapPa_eq (memPgtblBase : BitVec 32) (fuel : Nat)
    (vaddr paddr pgattr : BitVec 32) (s : MemUtil 32) :
    memMapPa memPgtblBase fuel vaddr paddr 0 pgattr s =
      (mapper.map memPgtblBase fuel vaddr (pageEntry paddr pgattr) s.store).map
        s.withStore := by
  induction fuel generalizing vaddr paddr pgattr s with
  | zero => rfl
  | succ fuel induction =>
      have entry : mapper.entryOf 0 memPgtblBase vaddr =
          l1Pte memPgtblBase vaddr := rfl
      have depth : mapper.depth = 1 := rfl
      have read : ∀ word, mapper.soft word = soft word := fun _ => rfl
      simp only [memMapPa, Radix.Mapper.map, depth, Radix.Mapper.descend, entry,
        read, soft, memAllocatePa, induction]
      by_cases missing : s.mem (l1Pte memPgtblBase vaddr) &&& 0x3 = 0
      · have absent : s.store.mem (l1Pte memPgtblBase vaddr) &&& 0x3 = 0 :=
          missing
        rw [if_pos missing, if_pos absent]
        change Option.bind (Option.map _ (mapper.map memPgtblBase fuel s.memNextPa
            (pageEntry s.memNextPa pteUserRw) ⟨s.mem, s.memNextPa + 0x1000⟩)) _ =
          Option.map _ (Option.bind (Option.bind
            (mapper.map memPgtblBase fuel s.memNextPa
              (pageEntry s.memNextPa pteUserRw)
              ⟨s.mem, s.memNextPa + 0x1000⟩) _) _)
        cases mapper.map memPgtblBase fuel s.memNextPa
            (pageEntry s.memNextPa pteUserRw) ⟨s.mem, s.memNextPa + 0x1000⟩ with
        | none => rfl
        | some mapped =>
            simp only [Option.map_some, Option.bind_eq_bind, Option.bind_some,
              MemUtil.writeOr_eq, MemUtil.mem_write, Function.update_self]
            rfl
      · have present : ¬s.store.mem (l1Pte memPgtblBase vaddr) &&& 0x3 = 0 :=
          missing
        rw [if_neg missing, if_neg present]
        simp only [Option.bind_eq_bind, Option.bind_some, MemUtil.writeOr_eq]
        rfl

theorem tableAt_one_of_good {mem : BitVec 32 → BitVec 32} {base va : BitVec 32}
    (good : Good (mem (l1Pte base va))) :
    mapper.tableAt mem base va 1 = soft (mem (l1Pte base va)) := by
  rw [soft_eq good]
  rfl

section Forest

variable {Root : Type} {roots : Root → BitVec 32} {root : Root}
variable {free : Set (BitVec 32)} {s : MemUtil 32}

theorem tableAt_one (forest : Radix.Forest mapper.toFormat roots s.mem free)
    (va : BitVec 32) :
    mapper.tableAt s.mem (roots root) va 1 =
      soft (s.mem (l1Pte (roots root) va)) := by
  have here : mapper.tableAt s.mem (roots root) va 0 = some (roots root) := rfl
  exact tableAt_one_of_good (forest.good (by decide : 0 < 1) here)

/-- What `mem_unmap_va` does to the memory. -/
theorem memUnmapVa_cases
    (forest : Radix.Forest mapper.toFormat roots s.mem free) (addr : BitVec 32) :
    (memUnmapVa (roots root) addr s).2 = s ∨
      ∃ last, mapper.tableAt s.mem (roots root) addr 1 = some last ∧
        (memUnmapVa (roots root) addr s).2 =
          s.write (mapper.entryOf 1 last addr) 0 := by
  have bottom :
      mapper.tableAt s.mem (roots root) addr 1 =
        soft (s.mem (l1Pte (roots root) addr)) :=
    tableAt_one forest addr
  unfold memUnmapVa
  unfold soft at bottom
  by_cases missing : s.mem (l1Pte (roots root) addr) &&& 0x3 = 0x0
  · rw [if_pos missing]
    exact .inl rfl
  · rw [if_neg missing] at bottom ⊢
    exact .inr ⟨_, bottom, rfl⟩

theorem memUnmapVa_becomes [DecidableEq Root]
    (forest : Radix.Forest mapper.toFormat roots s.mem free) (addr : BitVec 32) :
    ∃ mem, (memUnmapVa (roots root) addr s).2 = { s with mem := mem } ∧
      mapper.Becomes roots root s.mem mem free
        (mapper.set addr none (mapper.translate s.mem (roots root))) := by
  have bottom :
      mapper.tableAt s.mem (roots root) addr 1 =
        soft (s.mem (l1Pte (roots root) addr)) :=
    tableAt_one forest addr
  unfold memUnmapVa
  unfold soft at bottom
  by_cases missing : s.mem (l1Pte (roots root) addr) &&& 0x3 = 0x0
  · rw [if_pos missing] at bottom ⊢
    refine ⟨s.mem, rfl, ?_⟩
    apply Radix.Mapper.becomes_remove_missing forest
    change Option.bind (mapper.tableAt s.mem (roots root) addr 1) _ = none
    rw [bottom]
    rfl
  · rw [if_neg missing] at bottom ⊢
    refine ⟨_, rfl, ?_⟩
    exact @Radix.Mapper.becomes_setLeaf _ _ _ _ _ _ mapper roots free s.store
      root addr _ _ _ forest 0 _ bottom

theorem memLookupPa_eq
    (forest : Radix.Forest mapper.toFormat roots s.mem free) {va : BitVec 32}
    {found : Leaf 32}
    (translated : mapper.translate s.mem (roots root) va = some found) :
    memLookupPa (roots root) va s = found.pa ||| (va &&& 0xFFF) := by
  obtain ⟨last, bottom, atLeaf⟩ := Option.bind_eq_some_iff.mp translated
  change mapper.tableAt s.mem (roots root) va 1 = some last at bottom
  rw [tableAt_one forest] at bottom
  unfold soft at bottom
  unfold memLookupPa
  by_cases missing : s.mem (l1Pte (roots root) va) &&& 0x3 = 0x0
  · rw [if_pos missing] at bottom
    cases bottom
  · rw [if_neg missing] at bottom ⊢
    cases bottom
    change leaf (s.mem (l2Pte (s.mem (l1Pte (roots root) va)) va)) = some found
      at atLeaf
    unfold leaf at atLeaf
    by_cases invalid :
        s.mem (l2Pte (s.mem (l1Pte (roots root) va)) va) &&& 0x2 = 0
    · rw [if_pos invalid] at atLeaf
      cases atLeaf
    · rw [if_neg invalid] at atLeaf
      cases atLeaf
      rfl

theorem memLookupPa_mask
    (forest : Radix.Forest mapper.toFormat roots s.mem free) {va : BitVec 32}
    {found : Leaf 32}
    (translated : mapper.translate s.mem (roots root) va = some found) :
    memLookupPa (roots root) va s &&& outputAddress = found.pa := by
  obtain ⟨_, _, atLeaf⟩ := Option.bind_eq_some_iff.mp translated
  have offset : (va &&& 0xFFF) &&& outputAddress = 0#32 := by
    rw [BitVec.and_assoc,
      show (0xFFF : BitVec 32) &&& outputAddress = 0#32 by decide]
    exact BitVec.and_zero
  rw [memLookupPa_eq forest translated, BitVec.and_or_distrib_right, offset]
  exact BitVec.or_zero.trans (leaf_pa atLeaf)

end Forest

end TzTest.Arm
