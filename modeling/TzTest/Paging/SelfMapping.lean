import TzTest.Paging.Accesses
import TzTest.Paging.ArmRefinement

/-!
# Tables that the routines reach through themselves

With the MMU on, an entry is found at its physical address as long as the tables
map all their pages to themselves.  Calls on other addresses keep it so, and
every entry that they access is mapped at the moment of the access.
-/

namespace TzTest

open Radix BitField

variable {arch : Arch}

/-- The page that an address lies in. -/
def pageBase (addr : Word arch) : Word arch :=
  addr &&& ~~~0xFFF

theorem pageBase_toNat (addr : Word arch) :
    (pageBase addr).toNat = addr.toNat / 0x1000 * 0x1000 := by
  have split {width : Nat} (wide : 12 ≤ width) (addr : BitVec width)
      (high : IsMask (~~~0xFFF : BitVec width) 12 width)
      (low : IsMask (0xFFF : BitVec width) 0 12)
      (all : (~~~0xFFF : BitVec width) ||| 0xFFF = BitVec.allOnes width) :
      (addr &&& ~~~0xFFF).toNat = addr.toNat / 0x1000 * 0x1000 := by
    have above : Within (addr &&& ~~~0xFFF) 12 width := within_and_mask high addr
    have below : Within (addr &&& 0xFFF) 0 12 := within_and_mask low addr
    have sum : addr = (addr &&& ~~~0xFFF) ||| (addr &&& 0xFFF) := by
      rw [← BitVec.and_or_distrib_left, all, BitVec.and_allOnes]
    have total := congrArg BitVec.toNat sum
    rw [above.toNat_or below (.inr (le_refl _))] at total
    have small := below.toNat_lt
    have aligned := above.toNat_mod
    omega
  cases arch with
  | aarch64 => exact split (by decide) addr (by decide) (by decide) (by decide)
  | arm => exact split (by decide) addr (by decide) (by decide) (by decide)

/-- The addresses that a table can translate apart. -/
def addressLimit : Arch → Nat
  | .aarch64 => 2 ^ 48
  | .arm => 2 ^ 32

theorem samePage_iff {left right : Word arch}
    (smallLeft : left.toNat < addressLimit arch)
    (smallRight : right.toNat < addressLimit arch) :
    (mapper arch).SamePage left right ↔
      left.toNat / 0x1000 = right.toNat / 0x1000 := by
  have shifted {width : Nat} (left right : BitVec width) :
      left >>> 12 = right >>> 12 ↔ left.toNat / 0x1000 = right.toNat / 0x1000 := by
    rw [← BitVec.toNat_inj, BitVec.toNat_ushiftRight, BitVec.toNat_ushiftRight,
      Nat.shiftRight_eq_div_pow, Nat.shiftRight_eq_div_pow]
  cases arch with
  | aarch64 =>
      exact (Aarch64.samePage_iff smallLeft smallRight).trans (shifted left right)
  | arm => exact (Arm.samePage_iff left right).trans (shifted left right)

theorem not_samePage_of_range {low high : Nat} {page va : Word arch}
    (inside : page ∈ range low high) (small : va.toNat < addressLimit arch)
    (beyond : high ≤ va.toNat / 0x1000 * 0x1000) :
    ¬(mapper arch).SamePage page va := by
  have below : page.toNat < high := inside.2
  rw [samePage_iff (by omega) small]
  omega

theorem page_aligned {page : Word arch} (isPage : (mapper arch).Page page) :
    page.toNat % 0x1000 = 0 := by
  cases arch with
  | aarch64 => exact Within.toNat_mod (isPage : Within page 12 36)
  | arm => exact Within.toNat_mod (isPage : Within page 12 32)

theorem page_below {page : Word arch} (isPage : (mapper arch).Page page) :
    page.toNat + 0x1000 ≤ addressLimit arch := by
  have aligned := page_aligned isPage
  cases arch with
  | aarch64 =>
      have small : page.toNat < 2 ^ 36 :=
        Within.toNat_lt (isPage : Within page 12 36)
      change page.toNat + 0x1000 ≤ 2 ^ 48
      omega
  | arm =>
      have small : page.toNat < 2 ^ 32 := page.isLt
      change page.toNat + 0x1000 ≤ 2 ^ 32
      omega

theorem page_and_pageMask {page : Word arch} (isPage : (mapper arch).Page page) :
    page &&& pageMask arch = page := by
  cases arch with
  | aarch64 =>
      exact Within.and_mask (isPage : Within page 12 36)
        (by decide : IsMask Aarch64.outputAddress 12 48) (le_refl _) (by decide)
  | arm =>
      exact Within.and_mask (isPage : Within page 12 32)
        (by decide : IsMask Arm.outputAddress 12 32) (le_refl _) (le_refl _)

theorem leaf_own {page : Word arch} (isPage : (mapper arch).Page page) :
    ∃ attr, (mapper arch).leaf ((mapper arch).own page) = some ⟨page, attr⟩ := by
  obtain ⟨attr, found⟩ := leaf_pageEntry page (.inr (rfl : pteUserRw arch = _))
  rw [page_and_pageMask isPage] at found
  exact ⟨attr, (congrArg _ (own_eq page)).trans found⟩

theorem next_page {page : Word arch} (isPage : (mapper arch).Page page) :
    (mapper arch).next page = none := by
  cases arch with
  | aarch64 => exact Aarch64.next_page isPage
  | arm => exact Arm.next_page isPage

/-- An address is at home where it is translated to itself. -/
def homing (arch : Arch) : Homing (mapper arch) where
  Home addr leaf := leaf.pa = pageBase addr
  span page := range page.toNat (page.toNat + 0x1000)
  halfLink page := page
  halfOwn page := page &&& ~~~0xFFF
  next_halfLink := next_page
  own_home {page addr} isPage inside := by
    obtain ⟨attr, found⟩ := leaf_own isPage
    have aligned := page_aligned isPage
    obtain ⟨above, below⟩ := inside
    have base : page = pageBase addr := by
      apply BitVec.eq_of_toNat_eq
      rw [pageBase_toNat]
      omega
    exact ⟨_, found, base⟩
  same_of_span {page addr} isPage inside := by
    have aligned := page_aligned isPage
    have limit := page_below isPage
    obtain ⟨above, below⟩ := inside
    rw [asKey_eq, asKey_eq, samePage_iff (by omega) (by omega)]
    omega
  slots_span := pageSlots_page

theorem append_subset_append {α : Type} {first first' last last' : List α}
    (left : first ⊆ first') (right : last ⊆ last') :
    first ++ last ⊆ first' ++ last' :=
  List.append_subset.mpr ⟨List.subset_append_of_subset_left _ left,
    List.subset_append_of_subset_right _ right⟩

namespace Aarch64

variable {h : Homing mapper} (link : ∀ page, h.halfLink page = page)
  (own : ∀ page, h.halfOwn page = page &&& ~~~0xFFF)

include link in
theorem mapLevelAccesses_subset
    {mapTable : BitVec 64 → MemUtil 64 → Option (MemUtil 64)}
    {mapPage : BitVec 64 → Store (BitVec 64) (BitVec 64) →
      Option (Store (BitVec 64) (BitVec 64))}
    (agree : ∀ pa s, mapTable pa s = (mapPage pa s.store).map s.withStore)
    {tableAccesses : BitVec 64 → MemUtil 64 → List (PteAccess 64)}
    {pageReads : BitVec 64 → Store (BitVec 64) (BitVec 64) → List (PteAccess 64)}
    (reads : ∀ pa s, tableAccesses pa s ⊆ pageReads pa s.store)
    (vaddr pa : BitVec 64) (i : Nat) (s : MemUtil 64) :
    mapLevelAccesses mapTable tableAccesses vaddr i pa s ⊆
      h.descendReads mapPage pageReads vaddr 1 i pa s.store := by
  have entry : mapper.entryOf i pa vaddr = pa ||| off vaddr i := rfl
  have memory : s.store.mem = s.mem := rfl
  have pool : s.store.next = s.memNextPa := rfl
  have read : ∀ word, mapper.soft word = soft word := fun _ => rfl
  have bump : ∀ page, mapper.bump page = page + 0x1000 := fun _ => rfl
  simp only [Homing.descendReads, entry, memory, pool, read, bump, mapLevelAccesses,
    soft]
  by_cases invalid : s.mem (pa ||| off vaddr i) &&& 0x1 = 0
  · rw [if_pos invalid, if_pos invalid]
    apply List.cons_subset_cons
    have inner := reads s.memNextPa (memAllocatePa s).2
    have mapped := agree s.memNextPa (memAllocatePa s).2
    simp only [memAllocatePa, MemUtil.store] at inner mapped ⊢
    rw [mapped]
    cases mapPage s.memNextPa ⟨s.mem, s.memNextPa + 0x1000⟩ with
    | none =>
        simp only [Option.map_none, Option.elim_none, List.append_nil]
        exact inner
    | some later =>
        simp only [Option.map_some, Option.elim_some, List.append_nil]
        refine List.append_subset.mpr ⟨List.subset_append_of_subset_left _ inner, ?_⟩
        apply List.subset_append_of_subset_right
        rw [link]
        intro access member
        simp only [MemUtil.writeOrAccesses, List.mem_cons, List.not_mem_nil,
          or_false] at member
        rcases member with rfl | rfl
        · exact List.mem_cons_self ..
        · exact List.mem_cons_of_mem _ (List.mem_cons_self ..)
  · rw [if_neg invalid, if_neg invalid]
    intro access member
    simp only [List.mem_cons, List.not_mem_nil, or_false, or_self] at member
    rw [member]
    exact List.mem_cons_self ..

include link own in
theorem memMapPaAccesses_subset (memPgtblBase : BitVec 64) (fuel : Nat)
    (vaddr paddr pgattr : BitVec 64) (s : MemUtil 64) :
    memMapPaAccesses memPgtblBase fuel vaddr paddr 0 s ⊆
      h.mapReads memPgtblBase fuel vaddr (paddr &&& ~~~0xFFF)
        (pageEntry paddr pgattr) s.store := by
  induction fuel generalizing vaddr paddr pgattr s with
  | zero => exact List.Subset.refl _
  | succ fuel induction =>
      have agree (pa : BitVec 64) (s : MemUtil 64) :
          memMapPa memPgtblBase fuel pa pa 0 pteUserRw s =
            (mapper.map memPgtblBase fuel (mapper.asKey pa) (mapper.own pa)
              s.store).map s.withStore :=
        memMapPa_eq memPgtblBase fuel pa pa pteUserRw s
      have reads (pa : BitVec 64) (s : MemUtil 64) :
          memMapPaAccesses memPgtblBase fuel pa pa 0 s ⊆
            h.mapReads memPgtblBase fuel (mapper.asKey pa) (h.halfOwn pa)
              (mapper.own pa) s.store := by
        rw [own]
        exact induction pa pa pteUserRw s
      have level := mapLevelAccesses_subset link agree reads vaddr
      simp only [memMapPaAccesses, mapLevel_eq agree, Homing.mapReads]
      have depth : mapper.depth = 3 := rfl
      have again (later : Store (BitVec 64) (BitVec 64)) :
          (s.withStore later).store = later := rfl
      rw [depth, h.descendReads_succ _ _ _ 2, mapper.descend_succ _ _ 2,
        List.append_assoc]
      apply append_subset_append (level memPgtblBase 0 s)
      cases mapper.descend (fun page => mapper.map memPgtblBase fuel
          (mapper.asKey page) (mapper.own page)) vaddr 1 0 memPgtblBase s.store with
      | none => exact List.nil_subset _
      | some first =>
          simp only [Option.map_some, Option.elim_some, Option.bind_some, again]
          rw [h.descendReads_succ _ _ _ 1, mapper.descend_succ _ _ 1,
            List.append_assoc]
          apply append_subset_append (level first.1 1 (s.withStore first.2))
          cases mapper.descend (fun page => mapper.map memPgtblBase fuel
              (mapper.asKey page) (mapper.own page)) vaddr 1 1 first.1 first.2 with
          | none => exact List.nil_subset _
          | some second =>
              simp only [Option.map_some, Option.elim_some, Option.bind_some]
              apply append_subset_append (level second.1 2 (s.withStore second.2))
              have memory (later later' : Store (BitVec 64) (BitVec 64)) :
                  ((s.withStore later).withStore later').store = later' := rfl
              simp only [memory]
              cases mapper.descend (fun page => mapper.map memPgtblBase fuel
                  (mapper.asKey page) (mapper.own page)) vaddr 1 2 second.1
                  second.2 with
              | none => exact List.nil_subset _
              | some third =>
                  simp only [Option.map_some, Option.elim_some]
                  intro access member
                  simp only [MemUtil.writeOrAccesses, List.mem_cons, List.not_mem_nil,
                    or_false] at member
                  rcases member with rfl | rfl
                  · exact List.mem_cons_self ..
                  · exact List.mem_cons_of_mem _ (List.mem_cons_self ..)

/-- The loop reads entries on the way of the address. -/
theorem walkAccesses_home {root : Unit → BitVec 64} {free : Set (BitVec 64)}
    {mem : BitVec 64 → BitVec 64}
    (forest : Forest mapper.toFormat root mem free)
    (self : h.SelfMapped mem (root ())) (addr : BitVec 64)
    {remaining level : Nat} (total : level + remaining = 4) {pa : BitVec 64}
    (here : 0 < remaining → mapper.tableAt mem (root ()) addr level = some pa) :
    ∀ access ∈ walkAccesses mem addr remaining level pa,
      h.AtHome access.mem (root ()) access.addr := by
  induction remaining generalizing level pa with
  | zero =>
      intro access member
      cases member
  | succ remaining induction =>
      have inside : level ≤ 3 := by omega
      have found := here (Nat.succ_pos remaining)
      have home : h.AtHome mem (root ()) (pa ||| off addr level) :=
        self _ _ _ inside found
      intro access member
      rw [walkAccesses] at member
      rcases List.mem_cons.mp member with rfl | later
      · exact home
      · by_cases invalid : mem (pa ||| off addr level) &&& 0x1 = 0
        · rw [if_pos invalid] at later
          cases later
        · rw [if_neg invalid] at later
          rcases List.mem_cons.mp later with rfl | rest
          · exact home
          · refine induction (by omega) ?_ access rest
            intro more
            have below : level < 3 := by omega
            have read : soft (mem (pa ||| off addr level)) =
                next (mem (pa ||| off addr level)) :=
              soft_eq (forest.good below found)
            have step : mapper.tableAt mem (root ()) addr (level + 1) =
                next (mem (pa ||| off addr level)) :=
              mapper.tableAt_succ found
            rw [step, ← read, soft, if_neg invalid]
            rfl

theorem memUnmapVaAccesses_home {root : Unit → BitVec 64} {free : Set (BitVec 64)}
    {s : MemUtil 64} (forest : Forest mapper.toFormat root s.mem free)
    (self : h.SelfMapped s.mem (root ())) (addr : BitVec 64) :
    ∀ access ∈ memUnmapVaAccesses (root ()) addr s,
      h.AtHome access.mem (root ()) access.addr := by
  have walked := walk_eq forest.good (Nat.zero_add 3) 0
    (rfl : mapper.tableAt s.mem (root ()) addr 0 = some (root ()))
  intro access member
  rw [memUnmapVaAccesses, walked] at member
  rcases List.mem_append.mp member with above | last
  · exact walkAccesses_home forest self addr rfl (fun _ => rfl) access above
  · cases bottom : mapper.tableAt s.mem (root ()) addr 3 with
    | none =>
        rw [bottom] at last
        cases last
    | some table =>
        rw [bottom, Option.bind_some] at last
        by_cases invalid : s.mem (mapper.entryOf 3 table addr) &&& 0x1 = 0
        · rw [if_pos invalid] at last
          cases last
        · rw [if_neg invalid] at last
          rw [List.mem_singleton.mp last]
          exact self _ _ _ (le_refl 3) bottom

end Aarch64

namespace Arm

variable {h : Homing mapper} (link : ∀ page, h.halfLink page = page)
  (own : ∀ page, h.halfOwn page = page &&& ~~~0xFFF)

include link own in
theorem memMapPaAccesses_subset (memPgtblBase : BitVec 32) (fuel : Nat)
    (vaddr paddr pgattr : BitVec 32) (s : MemUtil 32) :
    memMapPaAccesses memPgtblBase fuel vaddr paddr 0 s ⊆
      h.mapReads memPgtblBase fuel vaddr (paddr &&& ~~~0xFFF)
        (pageEntry paddr pgattr) s.store := by
  induction fuel generalizing vaddr paddr pgattr s with
  | zero => exact List.Subset.refl _
  | succ fuel induction =>
      have agree (pa : BitVec 32) (s : MemUtil 32) :
          memMapPa memPgtblBase fuel pa pa 0 pteUserRw s =
            (mapper.map memPgtblBase fuel (mapper.asKey pa) (mapper.own pa)
              s.store).map s.withStore :=
        memMapPa_eq memPgtblBase fuel pa pa pteUserRw s
      have reads (pa : BitVec 32) (s : MemUtil 32) :
          memMapPaAccesses memPgtblBase fuel pa pa 0 s ⊆
            h.mapReads memPgtblBase fuel (mapper.asKey pa) (h.halfOwn pa)
              (mapper.own pa) s.store := by
        rw [own]
        exact induction pa pa pteUserRw s
      have entry : mapper.entryOf 0 memPgtblBase vaddr =
          l1Pte memPgtblBase vaddr := rfl
      have depth : mapper.depth = 1 := rfl
      have read : ∀ word, mapper.soft word = soft word := fun _ => rfl
      have bump : ∀ page, mapper.bump page = page + 0x1000 := fun _ => rfl
      have memory : s.store.mem = s.mem := rfl
      have pool : s.store.next = s.memNextPa := rfl
      simp only [memMapPaAccesses, Homing.mapReads, depth, Homing.descendReads,
        Mapper.descend, entry, read, soft, memory, pool, bump]
      by_cases missing : s.mem (l1Pte memPgtblBase vaddr) &&& 0x3 = 0
      · rw [if_pos missing, if_pos missing]
        have inner := reads s.memNextPa (memAllocatePa s).2
        have mapped := agree s.memNextPa (memAllocatePa s).2
        simp only [memAllocatePa, MemUtil.store] at inner mapped ⊢
        rw [mapped]
        cases mapper.map memPgtblBase fuel (mapper.asKey s.memNextPa)
            (mapper.own s.memNextPa) ⟨s.mem, s.memNextPa + 0x1000⟩ with
        | none =>
            apply List.subset_append_of_subset_left
            apply List.cons_subset_cons
            exact append_subset_append inner (List.nil_subset _)
        | some later =>
            simp only [Option.map_some, Option.elim_some, Option.bind_eq_bind,
              Option.bind_some, MemUtil.writeOr_eq, MemUtil.mem_write,
              Function.update_self, link]
            intro access member
            simp only [List.mem_cons, List.mem_append, MemUtil.writeOrAccesses,
              List.not_mem_nil, or_false] at member ⊢
            rcases member with first | within | (half | linked) | again | last | last
            · exact .inl (.inl first)
            · exact .inl (.inr (.inl (inner within)))
            · exact .inl (.inr (.inr (.inl half)))
            · exact .inl (.inr (.inr (.inr (.inl linked))))
            · exact .inl (.inr (.inr (.inr (.inr again))))
            · exact .inr (.inl last)
            · exact .inr (.inr (.inl last))
      · rw [if_neg missing, if_neg missing]
        intro access member
        simp only [List.mem_cons, List.mem_append, MemUtil.writeOrAccesses,
          List.not_mem_nil, or_false, Option.elim_some] at member ⊢
        rcases member with first | again | last | last
        · exact .inl first
        · exact .inl again
        · exact .inr (.inl last)
        · exact .inr (.inr (.inl last))

section Home

variable {root : Unit → BitVec 32} {free : Set (BitVec 32)} {s : MemUtil 32}

theorem walk_home (forest : Forest mapper.toFormat root s.mem free)
    (self : h.SelfMapped s.mem (root ())) (addr : BitVec 32) :
    h.AtHome s.mem (root ()) (l1Pte (root ()) addr) ∧
      (s.mem (l1Pte (root ()) addr) &&& 0x3 ≠ 0x0 →
        h.AtHome s.mem (root ())
          (l2Pte (s.mem (l1Pte (root ()) addr)) addr)) := by
  refine ⟨self addr 0 _ (Nat.zero_le _) rfl, ?_⟩
  intro present
  have bottom : mapper.tableAt s.mem (root ()) addr 1 =
      soft (s.mem (l1Pte (root ()) addr)) :=
    tableAt_one forest addr
  rw [soft, if_neg present] at bottom
  exact self addr 1 _ (le_refl 1) bottom

theorem memUnmapVaAccesses_home
    (forest : Forest mapper.toFormat root s.mem free)
    (self : h.SelfMapped s.mem (root ())) (addr : BitVec 32) :
    ∀ access ∈ memUnmapVaAccesses (root ()) addr s,
      h.AtHome access.mem (root ()) access.addr := by
  obtain ⟨first, second⟩ := walk_home forest self addr
  intro access member
  rw [memUnmapVaAccesses] at member
  by_cases missing : s.mem (l1Pte (root ()) addr) &&& 0x3 = 0x0
  · rw [if_pos missing] at member
    rw [List.mem_singleton.mp member]
    exact first
  · rw [if_neg missing] at member
    simp only [List.mem_cons, List.not_mem_nil, or_false] at member
    rcases member with rfl | rfl | rfl
    · exact first
    · exact first
    · exact second missing

end Home

end Arm

section Both

variable {base : Word arch} {s : MemUtil arch.width}

theorem memMapPaAccesses_subset (base : Word arch) (fuel : Nat)
    (vaddr paddr pgattr : Word arch) (s : MemUtil arch.width) :
    memMapPaAccesses base fuel vaddr paddr 0 s ⊆
      (homing arch).mapReads base fuel vaddr (pageBase paddr)
        (pageEntry paddr pgattr) s.store := by
  cases arch with
  | aarch64 =>
      exact @Aarch64.memMapPaAccesses_subset (homing .aarch64) (fun _ => rfl)
        (fun _ => rfl) base fuel vaddr paddr pgattr s
  | arm =>
      exact @Arm.memMapPaAccesses_subset (homing .arm) (fun _ => rfl)
        (fun _ => rfl) base fuel vaddr paddr pgattr s

variable {free : Set (Word arch)}
  (forest : Forest (mapper arch).toFormat (fun _ : Unit => base) s.mem free)
  (self : (homing arch).SelfMapped s.mem base)

include forest self

theorem memUnmapVaAccesses_home (addr : Word arch) :
    ∀ access ∈ memUnmapVaAccesses base addr s,
      (homing arch).AtHome access.mem base access.addr := by
  cases arch with
  | aarch64 =>
      exact @Aarch64.memUnmapVaAccesses_home (homing .aarch64) _ free s forest self addr
  | arm => exact @Arm.memUnmapVaAccesses_home (homing .arm) _ free s forest self addr

theorem memLookupPaAccesses_home (va : Word arch) :
    ∀ access ∈ memLookupPaAccesses base va s,
      (homing arch).AtHome access.mem base access.addr := by
  cases arch with
  | aarch64 =>
      exact @Aarch64.walkAccesses_home (homing .aarch64) _ free s.mem forest self va 4
        0 rfl base (fun _ => rfl)
  | arm => exact @Arm.memUnmapVaAccesses_home (homing .arm) _ free s forest self va

end Both

/-- Tables that are all mapped to themselves, beside an empty pool whose pages
have their last-level tables. -/
structure Homed (base : Word arch) (stop : Nat) (s : MemUtil arch.width) : Prop where
  hosted : Hosted base stop s
  self : (homing arch).SelfMapped s.mem base
  installed {page : Word arch} : page ∈ range s.memNextPa.toNat stop →
    Installed s.mem base page

/-- No address of a table, and none of a page of the pool. -/
structure Outside (base : Word arch) (stop : Nat) (s : MemUtil arch.width)
    (va : Word arch) : Prop where
  apart : (mapper arch).Apart s.mem base va
  pool {page : Word arch} : page ∈ range s.memNextPa.toNat stop →
    ¬(mapper arch).SamePage page va

theorem leaf_pa_lt {entry : Word arch} {found : Leaf arch.width}
    (translated : (mapper arch).leaf entry = some found) :
    found.pa.toNat < addressLimit arch := by
  cases arch with
  | aarch64 =>
      change Aarch64.leaf entry = some found at translated
      unfold Aarch64.leaf at translated
      split at translated
      · cases translated
        exact Within.toNat_lt (within_and_mask
          (by decide : IsMask Aarch64.outputAddress 12 48) _)
      · cases translated
  | arm => exact found.pa.isLt

theorem atHome_lt {mem : Word arch → Word arch} {base addr : Word arch}
    (atHome : (homing arch).AtHome mem base addr) :
    addr.toNat < addressLimit arch := by
  obtain ⟨found, translated, home⟩ := atHome
  obtain ⟨_, _, atLeaf⟩ := Option.bind_eq_some_iff.mp translated
  have small := leaf_pa_lt atLeaf
  rw [show found.pa = pageBase addr from home, pageBase_toNat] at small
  have pages : addressLimit arch % 0x1000 = 0 := by cases arch <;> rfl
  omega

theorem poolLimit_le (arch : Arch) : poolLimit arch ≤ addressLimit arch := by
  cases arch <;> decide

variable {base : Word arch} {stop : Nat} {s : MemUtil arch.width}

theorem Homed.apart (homed : Homed base stop s) {page : Word arch}
    (aligned : page.toNat % 0x1000 = 0) (above : s.memNextPa.toNat ≤ page.toNat)
    (below : page.toNat + 0x1000 ≤ stop) : (mapper arch).Apart s.mem base page := by
  intro other level table inside here same
  have small := atHome_lt (homed.self other level table inside here)
  have unused : (mapper arch).entryOf level table other ∉
      range s.memNextPa.toNat stop :=
    @Forest.unused _ _ _ _ _ _ _ _ _ _ homed.hosted.forest () _ _ _ inside here
  have limit := le_trans homed.hosted.pool.limit (poolLimit_le arch)
  rw [asKey_eq, samePage_iff small (by omega)] at same
  apply unused
  constructor <;> omega

theorem Pool.pages_distinct {next : Word arch} {count : Nat}
    (pool : Pool arch next stop) (room : next.toNat + 0x1000 * count ≤ stop) :
    ((mapper arch).pages count next).Pairwise fun left right =>
      ¬(mapper arch).SamePage ((mapper arch).asKey left)
        ((mapper arch).asKey right) := by
  have limit := le_trans pool.limit (poolLimit_le arch)
  induction count generalizing next with
  | zero => exact .nil
  | succ count induction =>
      have first : next.toNat + 0x1000 ≤ stop := by lia
      have place := pool.toNat_bump first
      have rest := pool.bump first
      refine .cons ?_ (induction rest (by lia))
      intro page member
      obtain ⟨aligned, above, below⟩ := rest.mem_pages (by lia) member
      rw [asKey_eq, asKey_eq, samePage_iff (by lia) (by lia)]
      lia

theorem mapPa_home (homed : Homed base stop s) {vaddr : Word arch}
    (paddr pgattr : Word arch) (outside : Outside base stop s vaddr)
    (room : s.memNextPa.toNat + 0x1000 * tablesMissing base vaddr s ≤ stop) :
    ∃ later,
      (∀ fuel, memMapPa base (fuel + 2) vaddr paddr 0 pgattr s = some later) ∧
      (∀ fuel, ∀ access ∈ memMapPaAccesses base (fuel + 2) vaddr paddr 0 s,
        (homing arch).AtHome access.mem base access.addr) ∧
      Homed base stop later ∧
      later.memNextPa.toNat =
        s.memNextPa.toNat + 0x1000 * tablesMissing base vaddr s ∧
      later.memHeapPool = s.memHeapPool := by
  have forest := homed.hosted.forest
  have pool := homed.hosted.pool
  have taken {page : Word arch} (member : page ∈ tablesTaken base vaddr s) :
      page ∈ range s.memNextPa.toNat stop ∧ page.toNat % 0x1000 = 0 ∧
        page.toNat + 0x1000 ≤ stop := by
    obtain ⟨aligned, above, below⟩ := pool.mem_pages room member
    have start := pool.aligned
    exact ⟨⟨above, by omega⟩, aligned, by omega⟩
  have clear : Homing.Clear (mapper arch) s.mem base vaddr
      (tablesTaken base vaddr s) := by
    refine ⟨outside.apart, ?_, ?_, pool.pages_distinct room⟩
    · intro page member
      obtain ⟨inPool, aligned, below⟩ := taken member
      rw [asKey_eq]
      exact homed.apart aligned inPool.1 below
    · intro page member
      rw [asKey_eq]
      exact outside.pool (taken member).1
  have installed {page : Word arch} (member : page ∈ tablesTaken base vaddr s) :
      Installed s.mem base page :=
    homed.installed (taken member).1
  obtain ⟨mem, next, ran, rest, reached, becomes, _⟩ := memMapPa_becomes () forest
    vaddr paddr pgattr pool room (le_refl _) fun _ => installed
  have supply := (pool.supply room (range_mono (le_refl _) room)).1
  have home := @Homing.map_home _ _ _ _ _ _ (mapper arch) (homing arch)
    (fun _ : Unit => base) () _ vaddr _ s.store _ _ forest (pageBase paddr)
    (pageEntry paddr pgattr) _ rfl supply
    (fun page member => by
      rw [asKey_eq]
      exact installed member)
    homed.self clear
  have atRest : Homing.Keeps (homing arch) base s.mem mem
      (tablesTaken base vaddr s) := by
    have mapped := ran 0
    rw [memMapPa_eq] at mapped
    obtain ⟨later, found, same⟩ := Option.map_eq_some_iff.mp mapped
    have kept := (home 0).2 later found
    have sameMem : later.mem = mem := congrArg MemUtil.mem same
    rw [sameMem] at kept
    exact kept
  have advances : s.memNextPa.toNat ≤ next.toNat := by
    rw [reached]
    exact Nat.le_add_right _ _
  refine ⟨_, ran, ?_, ⟨⟨becomes.forest.shrink ?_, rest⟩, atRest.self, ?_⟩, reached,
    rfl⟩
  · intro fuel access member
    exact (home fuel).1 access
      (memMapPaAccesses_subset base (fuel + 2) vaddr paddr pgattr s member)
  · intro addr inside
    refine ⟨range_mono advances (le_refl _) inside, ?_⟩
    intro gone
    exact absurd gone.2 (not_lt.mpr inside.1)
  · intro page inside
    exact @Mapper.Becomes.installed _ _ _ _ _ _ (mapper arch) _ _ _ page _ _ _
      becomes () (homed.installed (range_mono advances (le_refl _) inside))

namespace MemOp

variable (base)

def vaddr : MemOp arch → Word arch
  | mapPa vaddr _ _ => vaddr
  | mapVa addr _ => addr
  | unmapVa addr => addr

/-- The entries that a call accesses. -/
def accesses (fuel : Nat) : MemOp arch → MemUtil arch.width →
    List (PteAccess arch.width)
  | mapPa vaddr paddr _, s => memMapPaAccesses base fuel vaddr paddr 0 s
  | mapVa addr _, s => memMapVaAccesses base fuel addr 0 s
  | unmapVa addr, s => memUnmapVaAccesses base addr s

/-- A call on an address outside, while the pool has the pages. -/
structure Allowed (stop : Nat) (op : MemOp arch) (s : MemUtil arch.width) : Prop where
  outside : Outside base stop s op.vaddr
  room : s.memNextPa.toNat + 0x1000 * op.pages base s ≤ stop

/-- Every call of the sequence is allowed where it is made. -/
def AllowedAll (stop : Nat) : List (MemOp arch) → MemUtil arch.width → Prop
  | [], _ => True
  | op :: ops, s =>
      op.Allowed base stop s ∧
        ∀ later, op.run base 2 s = some later → AllowedAll stop ops later

/-- The entries that a sequence of calls accesses. -/
def accessesAll (fuel : Nat) : List (MemOp arch) → MemUtil arch.width →
    List (PteAccess arch.width)
  | [], _ => []
  | op :: ops, s =>
      op.accesses base fuel s ++ (op.run base fuel s).elim [] (accessesAll fuel ops)

variable {base}

/-- An allowed call comes back, has accessed mapped entries only, and leaves the
tables mapped to themselves. -/
theorem run_home (homed : Homed base stop s) (op : MemOp arch)
    (allowed : op.Allowed base stop s) :
    ∃ later,
      (∀ fuel, op.run base (fuel + 2) s = some later) ∧
      (∀ fuel, ∀ access ∈ op.accesses base (fuel + 2) s,
        (homing arch).AtHome access.mem base access.addr) ∧
      Homed base stop later ∧
      later.memNextPa.toNat = s.memNextPa.toNat + 0x1000 * op.pages base s ∧
      later.memHeapPool = s.memHeapPool := by
  obtain ⟨outside, room⟩ := allowed
  cases op with
  | mapPa vaddr paddr pgattr => exact mapPa_home homed paddr pgattr outside room
  | mapVa addr pgattr =>
      simp only [pages] at room
      have first : s.memNextPa.toNat + 0x1000 ≤ stop := by lia
      have place := homed.hosted.pool.toNat_bump first
      have bumped := homed.hosted.pool.bump first
      rw [bump_eq] at place bumped
      have fewer : (range (s.memNextPa + 0x1000).toNat stop : Set (Word arch)) ⊆
          range s.memNextPa.toNat stop :=
        range_mono (by lia) (le_refl _)
      have homed' : Homed base stop (memAllocatePa s).2 :=
        ⟨⟨homed.hosted.forest.shrink fewer, bumped⟩, homed.self,
          fun inside => homed.installed (fewer inside)⟩
      have outside' : Outside base stop (memAllocatePa s).2 addr :=
        ⟨outside.apart, fun inside => outside.pool (fewer inside)⟩
      obtain ⟨later, ran, home, again, reached, heap⟩ := mapPa_home homed'
        s.memNextPa pgattr outside' (by
          change (s.memNextPa + 0x1000).toNat + 0x1000 * tablesMissing base addr s ≤ stop
          lia)
      refine ⟨later, ran, home, again, ?_, heap⟩
      have reached' : later.memNextPa.toNat =
          (s.memNextPa + 0x1000).toNat + 0x1000 * tablesMissing base addr s := reached
      rw [reached', pages]
      lia
  | unmapVa addr =>
      have forest := homed.hosted.forest
      have written := memUnmapVa_cases () forest addr
      have home := memUnmapVaAccesses_home forest homed.self addr
      obtain ⟨later, ran, rewritten⟩ := run_rewrites homed.hosted (.unmapVa addr)
        ⟨room, fun _ member => absurd member List.not_mem_nil⟩
      have done : (memUnmapVa base addr s).2 = later := Option.some.inj (ran 0)
      rw [done] at written
      have same : later.memNextPa = s.memNextPa := by
        rcases written with same | ⟨_, _, wrote⟩
        · rw [same]
        · rw [wrote]
          rfl
      have self : (homing arch).SelfMapped later.mem base := by
        rcases written with same | ⟨last, there, wrote⟩
        · rw [same]
          exact homed.self
        · rw [wrote]
          exact (@Homing.keeps_setLeaf _ _ _ _ _ _ (mapper arch) (homing arch) _ ()
            _ _ _ _ _ _ forest _ there 0 homed.self outside.apart).self
      refine ⟨later, ran, fun _ => home, ⟨rewritten.hosted, self, ?_⟩, ?_,
        rewritten.heapPool⟩
      · intro page inside
        rw [same] at inside
        exact rewritten.keeps page (homed.installed inside)
      · rw [same]
        rfl

/-- What an allowed sequence of calls does. -/
theorem runAll_home (homed : Homed base stop s) (ops : List (MemOp arch))
    (allowed : AllowedAll base stop ops s) :
    ∃ later,
      (∀ fuel, runAll base (fuel + 2) ops s = some later) ∧
      (∀ fuel, ∀ access ∈ accessesAll base (fuel + 2) ops s,
        (homing arch).AtHome access.mem base access.addr) ∧
      Homed base stop later := by
  induction ops generalizing s with
  | nil => exact ⟨s, fun _ => rfl, fun _ _ member => absurd member List.not_mem_nil, homed⟩
  | cons op ops induction =>
      obtain ⟨first, rest⟩ := allowed
      obtain ⟨middle, ran, home, homed', _⟩ := op.run_home homed first
      obtain ⟨later, ranRest, homeRest, final⟩ :=
        induction homed' (rest middle (ran 0))
      refine ⟨later, ?_, ?_, final⟩
      · intro fuel
        exact Option.bind_eq_some_iff.mpr ⟨middle, ran fuel, ranRest fuel⟩
      · intro fuel access member
        rw [accessesAll, ran fuel, Option.elim_some] at member
        rcases List.mem_append.mp member with here | later
        · exact home fuel access here
        · exact homeRest fuel access later

end MemOp

end TzTest
