import TzTest.Library.BitField
import TzTest.Library.RadixMap
import TzTest.Paging.MemUtil

/-!
# The AArch64 table format

Four levels of 512 entries.  The hardware takes bits 12 to 47 of an entry as an
address, the routines take bits 12 to 35.
-/

namespace TzTest.Aarch64

open BitField

/-- The address bits of a descriptor. -/
def outputAddress : BitVec 64 := 0x0000FFFFFFFFF000

/-- The address bits that the routines read. -/
def tableAddress : BitVec 64 := 0x000FFFFFF000

def index (level : Nat) (vaddr : BitVec 64) : BitVec 64 :=
  (vaddr >>> (39 - level * 9)) &&& 0x1FF

def slot (_level : Nat) (table index : BitVec 64) : BitVec 64 :=
  table ||| (index <<< 3)

def next (entry : BitVec 64) : Option (BitVec 64) :=
  if entry &&& 0x3 = 0x3 then some (entry &&& outputAddress) else none

def leaf (entry : BitVec 64) : Option (Leaf 64) :=
  if entry &&& 0x3 = 0x3 then
    some ⟨entry &&& outputAddress, entry &&& ~~~outputAddress⟩
  else
    none

/-- The last-level entry that `mem_map_pa` writes. -/
def pageEntry (paddr pgattr : BitVec 64) : BitVec 64 :=
  (paddr &&& ~~~0xFFF) ||| (ptePage ||| pteAccess ||| pgattr)

/-- What `mem_map_pa` reads from an entry above the last level. -/
def soft (entry : BitVec 64) : Option (BitVec 64) :=
  if entry &&& 0x1 = 0 then none else some (entry &&& tableAddress)

/-- Invalid entries, and links that the routines read as the hardware does. -/
def Good (entry : BitVec 64) : Prop :=
  entry &&& 0x1 = 0 ∨
    entry &&& 0x3 = 0x3 ∧ entry &&& outputAddress = entry &&& tableAddress

theorem index_within (level : Nat) (vaddr : BitVec 64) :
    Within (index level vaddr) 0 9 :=
  within_and_mask (by decide) _

theorem offset_within (level : Nat) (vaddr : BitVec 64) :
    Within (index level vaddr <<< 3) 3 12 :=
  (index_within level vaddr).shiftLeft 3

theorem type_within : Within (0x3 : BitVec 64) 0 2 :=
  IsMask.within (by decide)

theorem slot_inj {level : Nat} {table left right : BitVec 64}
    (aligned : Within table 12 64)
    (same : slot level table (index level left) =
      slot level table (index level right)) :
    index level left = index level right := by
  apply (index_within level left).shiftLeft_inj (index_within level right)
    (by decide : 9 + 3 ≤ 64)
  exact aligned.or_cancel (offset_within level left) (offset_within level right)
    (le_refl _) (le_refl _) same

theorem link_valid {page : BitVec 64} (isPage : Within page 12 36) :
    (page ||| 0x3) &&& 0x3 = 0x3 := by
  rw [BitVec.and_or_distrib_right,
    isPage.and_eq_zero type_within (.inr (by decide))]
  rfl

theorem link_outputAddress {page : BitVec 64} (isPage : Within page 12 36) :
    (page ||| 0x3) &&& outputAddress = page := by
  rw [BitVec.and_or_distrib_right,
    isPage.and_mask (by decide : IsMask outputAddress 12 48) (le_refl _)
      (by decide)]
  exact BitVec.or_zero

theorem link_tableAddress {page : BitVec 64} (isPage : Within page 12 36) :
    (page ||| 0x3) &&& tableAddress = page := by
  rw [BitVec.and_or_distrib_right,
    isPage.and_mask (by decide : IsMask tableAddress 12 36) (le_refl _)
      (le_refl _)]
  exact BitVec.or_zero

theorem next_link {page : BitVec 64} (isPage : Within page 12 36) :
    next (page ||| 0x3) = some page := by
  unfold next
  rw [if_pos (link_valid isPage), link_outputAddress isPage]

theorem next_page {page : BitVec 64} (isPage : Within page 12 36) :
    next page = none := by
  have noType : page &&& 0x3 = 0 :=
    isPage.and_eq_zero type_within (.inr (by decide))
  unfold next
  rw [noType]
  rfl

theorem not_link_of_invalid {entry : BitVec 64} (invalid : entry &&& 0x1 = 0) :
    entry &&& 0x3 ≠ 0x3 := by
  intro valid
  have bit : entry &&& 0x1 = (entry &&& 0x3) &&& 0x1 := by
    rw [BitVec.and_assoc]
    rfl
  rw [valid, invalid] at bit
  exact absurd bit (by decide)

theorem soft_eq {entry : BitVec 64} (good : Good entry) :
    soft entry = next entry := by
  unfold soft next
  by_cases invalid : entry &&& 0x1 = 0
  · rw [if_pos invalid, if_neg (not_link_of_invalid invalid)]
  · rcases good with absent | ⟨valid, address⟩
    · exact absurd absent invalid
    · rw [if_neg invalid, if_pos valid, address]

/-- The table format and the table routine. -/
def mapper : Radix.Mapper (BitVec 64) (BitVec 64) (BitVec 64) (BitVec 64)
    (Leaf 64) where
  depth := 3
  index := index
  slot := slot
  next := next
  leaf := leaf
  zero := 0
  Good := Good
  Table _ table := Within table 12 64
  next_zero := by decide
  leaf_zero := by decide
  good_zero := .inl (by decide)
  slot_inj := slot_inj
  soft := soft
  asKey page := page
  own page := pageEntry page pteUserRw
  linkTo page := page ||| 0x3
  enter page := page
  bump page := page + 0x1000
  Page page := Within page 12 36
  soft_eq := soft_eq
  next_linkTo := next_link
  good_linkTo isPage := .inr ⟨link_valid isPage,
    (link_outputAddress isPage).trans (link_tableAddress isPage).symm⟩
  enter_eq _ := rfl
  table_of_page isPage := isPage.mono (le_refl _) (by decide)

/-- The hardware finds the page that was written, with attributes that hold no
address bit. -/
theorem leaf_pageEntry (paddr : BitVec 64) {pgattr : BitVec 64}
    (type : (ptePage ||| pteAccess ||| pgattr) &&& 0x3 = 0x3)
    (noAddress : (ptePage ||| pteAccess ||| pgattr) &&& outputAddress = 0) :
    ∃ attr, leaf (pageEntry paddr pgattr) =
      some ⟨paddr &&& outputAddress, attr⟩ := by
  have valid : pageEntry paddr pgattr &&& 0x3 = 0x3 := by
    unfold pageEntry
    rw [BitVec.and_or_distrib_right, type, BitVec.and_assoc,
      show (~~~0xFFF : BitVec 64) &&& 0x3 = 0#64 by decide, BitVec.and_zero]
    exact BitVec.zero_or
  have address : pageEntry paddr pgattr &&& outputAddress =
      paddr &&& outputAddress := by
    unfold pageEntry
    rw [BitVec.and_or_distrib_right, noAddress, BitVec.and_assoc,
      show (~~~0xFFF : BitVec 64) &&& outputAddress = outputAddress by decide]
    exact BitVec.or_zero
  unfold leaf
  rw [if_pos valid, address]
  exact ⟨_, rfl⟩

theorem slot_toNat {page : BitVec 64} (isPage : Within page 12 36)
    (level : Nat) (vaddr : BitVec 64) :
    (slot level page (index level vaddr)).toNat =
        page.toNat + (index level vaddr <<< 3).toNat ∧
      (index level vaddr <<< 3).toNat < 2 ^ 12 :=
  ⟨isPage.toNat_or (offset_within level vaddr) (.inr (le_refl _)),
    (offset_within level vaddr).toNat_lt⟩

/-- One level of `mem_map_pa` is one level of the table routine. -/
theorem mapLevel_eq {mapTable : BitVec 64 → MemUtil 64 → Option (MemUtil 64)}
    {mapPage : BitVec 64 → Radix.Store (BitVec 64) (BitVec 64) →
      Option (Radix.Store (BitVec 64) (BitVec 64))}
    (agree : ∀ pa s, mapTable pa s = (mapPage pa s.store).map s.withStore)
    (vaddr pa : BitVec 64) (i : Nat) (s : MemUtil 64) :
    mapLevel mapTable vaddr 0 i pa s =
      (mapper.descend mapPage vaddr 1 i pa s.store).map fun result =>
        (result.1, s.withStore result.2) := by
  have entry : mapper.entryOf i pa vaddr = pa ||| off vaddr i := rfl
  have memory : s.store.mem = s.mem := rfl
  have pool : s.store.next = s.memNextPa := rfl
  have read : ∀ word, mapper.soft word = soft word := fun _ => rfl
  simp only [Radix.Mapper.descend, entry, memory, pool, read, mapLevel, soft]
  by_cases invalid : s.mem (pa ||| off vaddr i) &&& 0x1 = 0
  · rw [if_pos invalid, if_pos invalid]
    simp only [memAllocatePa, agree, Option.bind_eq_bind]
    change Option.bind (Option.map _
        (mapPage s.memNextPa ⟨s.mem, s.memNextPa + 0x1000⟩)) _ =
      Option.map _ (Option.bind
        (mapPage s.memNextPa ⟨s.mem, s.memNextPa + 0x1000⟩) _)
    cases mapPage s.memNextPa ⟨s.mem, s.memNextPa + 0x1000⟩ with
    | none => rfl
    | some later =>
        simp only [Option.map_some, Option.bind_some, MemUtil.writeOr_eq]
        rfl
  · rw [if_neg invalid, if_neg invalid]
    rfl

/-- `mem_map_pa` is the table routine of the format. -/
theorem memMapPa_eq (memPgtblBase : BitVec 64) (fuel : Nat)
    (vaddr paddr pgattr : BitVec 64) (s : MemUtil 64) :
    memMapPa memPgtblBase fuel vaddr paddr 0 pgattr s =
      (mapper.map memPgtblBase fuel vaddr (pageEntry paddr pgattr) s.store).map
        s.withStore := by
  induction fuel generalizing vaddr paddr pgattr s with
  | zero => rfl
  | succ fuel induction =>
      let mapPage := fun page =>
        mapper.map memPgtblBase fuel page (pageEntry page pteUserRw)
      have agree (pa : BitVec 64) (s : MemUtil 64) :
          memMapPa memPgtblBase fuel pa pa 0 pteUserRw s =
            (mapPage pa s.store).map s.withStore :=
        induction pa pa pteUserRw s
      simp only [memMapPa, mapLevel_eq agree]
      change _ = Option.map _ (Option.bind
        (mapper.descend mapPage vaddr 3 0 memPgtblBase s.store) _)
      rw [mapper.descend_succ _ _ 2]
      cases mapper.descend mapPage vaddr 1 0 memPgtblBase s.store with
      | none => rfl
      | some first =>
          simp only [Option.map_some, Option.bind_some, Option.bind_eq_bind]
          rw [mapper.descend_succ _ _ 1]
          change Option.bind (Option.map _
            (mapper.descend mapPage vaddr 1 1 first.1 first.2)) _ = _
          cases mapper.descend mapPage vaddr 1 1 first.1 first.2 with
          | none => rfl
          | some second =>
              simp only [Option.map_some, Option.bind_some]
              change Option.bind (Option.map _
                (mapper.descend mapPage vaddr 1 2 second.1 second.2)) _ = _
              cases mapper.descend mapPage vaddr 1 2 second.1 second.2 with
              | none => rfl
              | some third =>
                  simp only [Option.map_some, Option.bind_some,
                    MemUtil.writeOr_eq]
                  rfl

/-- The loop of `mem_unmap_va` and `mem_lookup_pa` comes to the last-level entry
when every table is in place and that entry is valid. -/
theorem walk_eq {mem : BitVec 64 → BitVec 64} {base addr : BitVec 64}
    (links : ∀ {level table}, level < 3 →
      mapper.tableAt mem base addr level = some table →
      Good (mem (mapper.entryOf level table addr)))
    {remaining level : Nat} {table : BitVec 64}
    (total : level + remaining = 3) (pte : BitVec 64)
    (here : mapper.tableAt mem base addr level = some table) :
    walk mem addr (remaining + 1) level pte table =
      (mapper.tableAt mem base addr 3).bind fun last =>
        if mem (mapper.entryOf 3 last addr) &&& 0x1 = 0 then none
        else some (mapper.entryOf 3 last addr,
          mem (mapper.entryOf 3 last addr) &&& tableAddress) := by
  induction remaining generalizing level table pte with
  | zero =>
      have atDepth : level = 3 := total
      subst atDepth
      rw [here]
      rfl
  | succ remaining induction =>
      have below : level < 3 := by omega
      have read : soft (mem (table ||| off addr level)) =
          next (mem (table ||| off addr level)) :=
        soft_eq (links below here)
      have step : mapper.tableAt mem base addr (level + 1) =
          next (mem (table ||| off addr level)) :=
        mapper.tableAt_succ here
      rw [← read] at step
      unfold walk
      unfold soft at step
      by_cases invalid : mem (table ||| off addr level) &&& 0x1 = 0
      · rw [if_pos invalid] at step ⊢
        cases bottom : mapper.tableAt mem base addr 3 with
        | none => rfl
        | some last =>
            obtain ⟨above, found⟩ := mapper.exists_tableAt below bottom
            rw [step] at found
            cases found
      · rw [if_neg invalid] at step ⊢
        exact induction (by omega) _ step

section Forest

variable {Root : Type} {roots : Root → BitVec 64} {root : Root}
variable {free : Set (BitVec 64)} {s : MemUtil 64}

/-- What `mem_unmap_va` does to the memory. -/
theorem memUnmapVa_cases
    (forest : Radix.Forest mapper.toFormat roots s.mem free) (addr : BitVec 64) :
    (memUnmapVa (roots root) addr s).2 = s ∨
      ∃ last, mapper.tableAt s.mem (roots root) addr 3 = some last ∧
        (memUnmapVa (roots root) addr s).2 =
          s.write (mapper.entryOf 3 last addr) 0 := by
  have walked := walk_eq forest.good (Nat.zero_add 3) 0
    (rfl : mapper.tableAt s.mem (roots root) addr 0 = some (roots root))
  unfold memUnmapVa
  rw [walked]
  cases bottom : mapper.tableAt s.mem (roots root) addr 3 with
  | none => exact .inl rfl
  | some last =>
      rw [Option.bind_some]
      by_cases invalid : s.mem (mapper.entryOf 3 last addr) &&& 0x1 = 0
      · rw [if_pos invalid]
        exact .inl rfl
      · rw [if_neg invalid]
        exact .inr ⟨last, rfl, rfl⟩

theorem memUnmapVa_becomes [DecidableEq Root]
    (forest : Radix.Forest mapper.toFormat roots s.mem free) (addr : BitVec 64) :
    ∃ mem, (memUnmapVa (roots root) addr s).2 = { s with mem := mem } ∧
      mapper.Becomes roots root s.mem mem free
        (mapper.set addr none (mapper.translate s.mem (roots root))) := by
  have walked := walk_eq forest.good (Nat.zero_add 3) 0
    (rfl : mapper.tableAt s.mem (roots root) addr 0 = some (roots root))
  unfold memUnmapVa
  rw [walked]
  cases bottom : mapper.tableAt s.mem (roots root) addr 3 with
  | none =>
      refine ⟨s.mem, rfl, ?_⟩
      apply Radix.Mapper.becomes_remove_missing forest
      change Option.bind (mapper.tableAt s.mem (roots root) addr 3) _ = none
      rw [bottom]
      rfl
  | some last =>
      have translated := mapper.translate_of_tableAt bottom
      change _ = leaf (s.mem (mapper.entryOf 3 last addr)) at translated
      rw [Option.bind_some]
      by_cases invalid : s.mem (mapper.entryOf 3 last addr) &&& 0x1 = 0
      · rw [if_pos invalid]
        refine ⟨s.mem, rfl, ?_⟩
        apply Radix.Mapper.becomes_remove_missing forest
        unfold leaf at translated
        rw [if_neg (not_link_of_invalid invalid)] at translated
        exact translated
      · rw [if_neg invalid]
        refine ⟨_, rfl, ?_⟩
        exact @Radix.Mapper.becomes_setLeaf _ _ _ _ _ _ mapper roots free s.store
          root addr _ _ _ forest 0 _ bottom

/-- For a page that the hardware translates the routine finds the address bits
that it can read. -/
theorem memLookupPa_eq
    (forest : Radix.Forest mapper.toFormat roots s.mem free) {va : BitVec 64}
    {found : Leaf 64}
    (translated : mapper.translate s.mem (roots root) va = some found) :
    memLookupPa (roots root) va s = found.pa &&& tableAddress := by
  obtain ⟨last, bottom, atLeaf⟩ := Option.bind_eq_some_iff.mp translated
  have walked := walk_eq forest.good (Nat.zero_add 3) 0
    (rfl : mapper.tableAt s.mem (roots root) va 0 = some (roots root))
  change mapper.tableAt s.mem (roots root) va 3 = some last at bottom
  change leaf (s.mem (mapper.entryOf 3 last va)) = some found at atLeaf
  unfold leaf at atLeaf
  by_cases valid : s.mem (mapper.entryOf 3 last va) &&& 0x3 = 0x3
  · rw [if_pos valid] at atLeaf
    cases atLeaf
    unfold memLookupPa
    rw [walked, bottom, Option.bind_some,
      if_neg fun invalid => not_link_of_invalid invalid valid]
    change _ = (_ &&& outputAddress) &&& tableAddress
    rw [BitVec.and_assoc]
    rfl
  · rw [if_neg valid] at atLeaf
    cases atLeaf

theorem memLookupPa_mask
    (forest : Radix.Forest mapper.toFormat roots s.mem free) {va : BitVec 64}
    {found : Leaf 64}
    (translated : mapper.translate s.mem (roots root) va = some found) :
    memLookupPa (roots root) va s &&& outputAddress =
      found.pa &&& tableAddress := by
  rw [memLookupPa_eq forest translated, BitVec.and_assoc]
  rfl

end Forest

end TzTest.Aarch64
