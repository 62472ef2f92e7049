import TzTest.InitUtil.MappedCopy

/-!
# Tables in use while pages are taken away

While the image is moved to its place the tables stay where they are.  A copy
writes to pages that are no tables, and `unmap_va_range` clears last-level entries
of the pages that it is given.
-/

namespace TzTest.Aarch64

open Radix BitField

/-- The tables of before, less some pages. -/
structure Moving (base : BitVec 64) (before : BitVec 64 → BitVec 64)
    (gone : List (BitVec 64)) (mem : BitVec 64 → BitVec 64) : Prop where
  forest : Forest initMapper.toFormat (fun _ : Unit => base) mem ∅
  tables {va : BitVec 64} {level : Nat} : level ≤ 3 →
    initMapper.tableAt mem base va level = initMapper.tableAt before base va level
  removed {va page : BitVec 64} : page ∈ gone → initMapper.SamePage va page →
    initMapper.translate mem base va = none
  kept {va : BitVec 64} : (∀ page ∈ gone, ¬initMapper.SamePage va page) →
    initMapper.translate mem base va = initMapper.translate before base va

theorem entry_page {table va : BitVec 64} (isTable : Within table 12 36) (level : Nat) :
    (initMapper.entryOf level table va).toNat / 0x1000 = table.toNat / 0x1000 := by
  obtain ⟨place, inside⟩ := slot_toNat isTable level va
  have aligned : table.toNat % 0x1000 = 0 := isTable.toNat_mod
  change (slot level table (index level va)).toNat / 0x1000 = _
  omega

namespace Moving

variable {base : BitVec 64} {before mem : BitVec 64 → BitVec 64} {gone : List (BitVec 64)}
variable {va : BitVec 64}

theorem refl {free : Set (BitVec 64)}
    (forest : Forest initMapper.toFormat (fun _ : Unit => base) before free) :
    Moving base before [] before where
  forest := forest.shrink (Set.empty_subset _)
  tables _ := rfl
  removed := nofun
  kept _ := rfl

theorem entries (moving : Moving base before gone mem) :
    initMapper.Entries mem base = initMapper.Entries before base := by
  ext addr
  constructor
  · rintro ⟨va, level, table, inside, there, rfl⟩
    exact ⟨va, level, table, inside, (moving.tables inside).symm.trans there, rfl⟩
  · rintro ⟨va, level, table, inside, there, rfl⟩
    exact ⟨va, level, table, inside, (moving.tables inside).trans there, rfl⟩

theorem identity (moving : Moving base before gone mem) (identity : Identity before base va)
    (stays : ∀ page ∈ gone, ¬initMapper.SamePage va page) : Identity mem base va := by
  obtain ⟨page, attr, translated, place⟩ := identity
  exact ⟨page, attr, (moving.kept stays).trans translated, place⟩

theorem write (moving : Moving base before gone mem) {addr : BitVec 64}
    (beside : addr ∉ initMapper.Entries before base) (value : BitVec 64) :
    Moving base before gone (Function.update mem addr value) := by
  rw [← moving.entries] at beside
  refine
    { forest := Mapper.forest_update moving.forest (fun _ => beside) (fun member => member) value
      tables := ?_
      removed := ?_
      kept := ?_ }
  · intro va level inside
    exact (Mapper.tableAt_update beside value va inside).trans (moving.tables inside)
  · intro va page member same
    exact (Mapper.translate_update beside value va).trans (moving.removed member same)
  · intro va stays
    exact (Mapper.translate_update beside value va).trans (moving.kept stays)

end Moving

/-- What `unmap_va` leaves when it finds every table. -/
def withoutPage (base va : BitVec 64) (store : Store (BitVec 64) (BitVec 64)) :
    Store (BitVec 64) (BitVec 64) :=
  (initMapper.tableAt store.mem base va 3).elim store fun last =>
    store.write (initMapper.entryOf 3 last va) 0

theorem withoutPage_next (base va : BitVec 64) (store : Store (BitVec 64) (BitVec 64)) :
    (withoutPage base va store).next = store.next := by
  unfold withoutPage
  cases initMapper.tableAt store.mem base va 3 with
  | none => rfl
  | some last => rfl

theorem Moving.remove {base : BitVec 64} {before : BitVec 64 → BitVec 64}
    {gone : List (BitVec 64)} {store : Store (BitVec 64) (BitVec 64)}
    (moving : Moving base before gone store.mem) (va : BitVec 64) :
    Moving base before (va :: gone) (withoutPage base va store).mem ∧
      ∀ addr ∉ initMapper.Entries before base,
        (withoutPage base va store).mem addr = store.mem addr := by
  unfold withoutPage
  cases there : initMapper.tableAt store.mem base va 3 with
  | none =>
      have missing : initMapper.translate store.mem base va = none := by
        change Option.bind (initMapper.tableAt store.mem base va 3) _ = none
        rw [there]
        rfl
      refine ⟨⟨moving.forest, moving.tables, ?_, ?_⟩, fun _ _ => rfl⟩
      · intro va' page member same
        rcases List.mem_cons.mp member with rfl | earlier
        · exact (same.translate store.mem base).trans missing
        · exact moving.removed earlier same
      · intro va' stays
        exact moving.kept fun page member => stays page (List.mem_cons_of_mem _ member)
  | some last =>
      have becomes := @Mapper.becomes_setLeaf _ _ _ _ _ _ initMapper
        (fun _ : Unit => base) ∅ store () va _ _ _ moving.forest 0 _ there
      have entry : initMapper.entryOf 3 last va ∈ initMapper.Entries before base :=
        ⟨va, 3, last, le_refl _, (moving.tables (le_refl _)).symm.trans there, rfl⟩
      refine ⟨⟨becomes.forest, ?_, ?_, ?_⟩, ?_⟩
      · intro va' level inside
        have same := @Forest.tableAt_setLeaf _ _ _ _ _ _ _ _ _ _ _ () va last 0 moving.forest
          there () va' level inside
        exact same.trans (moving.tables inside)
      · intro va' page member same
        refine (becomes.translated va').trans ?_
        by_cases here : initMapper.SamePage va' va
        · exact (initMapper.set_of_samePage here _ _).trans initMapper.leaf_zero
        · rcases List.mem_cons.mp member with rfl | earlier
          · exact absurd same here
          · exact (initMapper.set_of_not_samePage here _ _).trans (moving.removed earlier same)
      · intro va' stays
        refine (becomes.translated va').trans ?_
        rw [initMapper.set_of_not_samePage (stays va (List.mem_cons_self ..))]
        exact moving.kept fun page member => stays page (List.mem_cons_of_mem _ member)
      · intro addr beside
        have other : addr ≠ initMapper.entryOf 3 last va := by
          rintro rfl
          exact beside entry
        exact Function.update_of_ne other ..

namespace InitUtil

variable {ttbr0 base : BitVec 64} {caller s : InitUtil} {level : Nat} {table : BitVec 64}
variable {store : Store (BitVec 64) (BitVec 64)}

/-- The entries on the way of an address are translated to themselves. -/
def Reached (base va : BitVec 64) (mem : BitVec 64 → BitVec 64) : Prop :=
  ∀ level table, level ≤ 3 → initMapper.tableAt mem base va level = some table →
    access base mem (initMapper.entryOf level table va) =
      some (initMapper.entryOf level table va)

/-- The loop comes to the last-level entry, or to a missing table. -/
theorem unmapWalk_ends
    (links : ∀ {level : Nat} {table : BitVec 64}, level < 3 →
      initMapper.tableAt store.mem base caller.x0 level = some table →
      Plain (store.mem (initMapper.entryOf level table caller.x0)))
    (reached : Reached base caller.x0 store.mem)
    {remaining : Nat} (total : level + remaining = 3)
    (here : AtLevel caller level table store s)
    (found : initMapper.tableAt store.mem base caller.x0 level = some table) :
    ∃ bottom, unmapWalk base (remaining + 1) s = some bottom ∧
      caller.leave bottom = caller.withStore (withoutPage base caller.x0 store) := by
  have inside : level ≤ 3 := by omega
  have pte : access base s.descriptorAddress.mem s.descriptorAddress.x10 =
      some (initMapper.entryOf level table caller.x0) := by
    rw [here.x10 inside]
    change access base s.mem _ = _
    rw [here.mem]
    exact reached level table inside found
  have leaves (bottom : InitUtil) (x0 : bottom.x0 = caller.x0) (x1 : bottom.x1 = caller.x1)
      (x2 : bottom.x2 = caller.x2) :
      caller.leave bottom = caller.withStore bottom.store := by
    unfold leave withStore InitUtil.store
    rw [x0, x1, x2]
  induction remaining generalizing level table s with
  | zero =>
      have atDepth : level = 3 := total
      subst atDepth
      have last : s.descriptorAddress.x13 = 0 :=
        (here.x13_eq_zero (le_refl _)).mpr rfl
      refine ⟨_, Option.bind_eq_some_iff.mpr ⟨_, pte, if_pos last⟩, ?_⟩
      refine (leaves _ ?_ ?_ ?_).trans (congrArg _ ?_)
      · exact here.x0
      · exact here.x1
      · exact here.x2
      unfold withoutPage
      rw [found]
      change Store.mk (Function.update s.mem _ 0) s.nextPa = _
      rw [here.mem, here.nextPa]
      rfl
  | succ remaining induction =>
      have below : level < 3 := by omega
      have goes : s.descriptorAddress.x13 ≠ 0 :=
        mt (here.x13_eq_zero (Nat.le_of_lt below)).mp (Nat.ne_of_lt below)
      have read : s.descriptorAddress.mem (initMapper.entryOf level table caller.x0) =
          store.mem (initMapper.entryOf level table caller.x0) :=
        congrFun here.mem _
      have step : initMapper.tableAt store.mem base caller.x0 (level + 1) =
          next (store.mem (initMapper.entryOf level table caller.x0)) :=
        initMapper.tableAt_succ found
      rw [← initSoft_eq (links below found)] at step
      unfold initSoft at step
      have fetched : ({ s.descriptorAddress with
          x12 := s.descriptorAddress.mem (initMapper.entryOf level table caller.x0)
          x11 := s.descriptorAddress.mem (initMapper.entryOf level table caller.x0) &&& 0x1 }
            : InitUtil) = s.descriptorAddress.fetch := by
        rw [← here.x10 inside]
        rfl
      have turned : unmapWalk base (remaining + 1 + 1) s =
          if s.descriptorAddress.fetch.x11 = 0 then some s.descriptorAddress.fetch
          else unmapWalk base (remaining + 1) s.descriptorAddress.fetch := by
        rw [unmapWalk, ← fetched]
        change Option.bind (access base s.descriptorAddress.mem s.descriptorAddress.x10) _ = _
        rw [pte, Option.bind_some, if_neg goes]
        rfl
      have valid : s.descriptorAddress.fetch.x11 =
          store.mem (initMapper.entryOf level table caller.x0) &&& 0x1 := by
        rw [← fetched, ← read]
      rw [turned, valid]
      by_cases invalid : store.mem (initMapper.entryOf level table caller.x0) &&& 0x1 = 0
      · rw [if_pos invalid] at step ⊢
        refine ⟨_, rfl, ?_⟩
        refine (leaves _ ?_ ?_ ?_).trans (congrArg _ ?_)
        · exact here.x0
        · exact here.x1
        · exact here.x2
        unfold withoutPage
        cases bottom : initMapper.tableAt store.mem base caller.x0 3 with
        | none => exact here.store
        | some last =>
            obtain ⟨above, there⟩ := initMapper.exists_tableAt below bottom
            rw [step] at there
            cases there
      · rw [if_neg invalid] at step ⊢
        have entered := here.entered below
        refine induction (by omega) entered step (by omega) ?_
        rw [entered.x10 below]
        change access base s.mem _ = _
        rw [here.mem]
        exact reached _ _ below step

theorem unmapMapped_eq
    (forest : Forest initMapper.toFormat (fun _ : Unit => base) s.mem ∅)
    (reached : Reached base s.x0 s.mem) :
    s.unmapMapped base base = some (s.withStore (withoutPage base s.x0 s.store)) := by
  have links {level : Nat} {table : BitVec 64} (below : level < 3)
      (there : initMapper.tableAt s.mem base s.x0 level = some table) :
      Plain (s.mem (initMapper.entryOf level table s.x0)) :=
    @Forest.good _ _ _ _ _ _ _ _ _ _ forest () _ _ _ below there
  obtain ⟨bottom, walked, left⟩ := @unmapWalk_ends base s (s.enter base) 0 base s.store
    links reached 3 rfl (atLevel_enter (root_within forest ()) s) rfl
  exact Option.bind_eq_some_iff.mpr ⟨bottom, walked, congrArg some left⟩

end InitUtil

/-- The entries on the way of an address lie in mapped tables of the pool. -/
def Home (base : BitVec 64) (before : BitVec 64 → BitVec 64) (va : BitVec 64) : Prop :=
  ∀ level table, level ≤ 3 → initMapper.tableAt before base va level = some table →
    Within table 12 36 ∧ base.toNat ≤ table.toNat ∧
      Identity before base (initMapper.entryOf level table va)

section Range

variable {base : BitVec 64} {before : BitVec 64 → BitVec 64} {gone : List (BitVec 64)}

theorem Moving.reached {mem : BitVec 64 → BitVec 64} {va : BitVec 64}
    (moving : Moving base before gone mem) (aligned : base.toNat % 0x1000 = 0)
    (low : ∀ page ∈ gone, page.toNat < base.toNat) (home : Home base before va) :
    InitUtil.Reached base va mem := by
  intro level table inside there
  rw [moving.tables inside] at there
  obtain ⟨isTable, above, identity⟩ := home level table inside there
  apply (moving.identity identity _).access
  intro page member same
  have place := @entry_page table va isTable level
  have small : table.toNat < 2 ^ 36 := isTable.toNat_lt
  have below := low page member
  have pages := (Span.samePage_iff_div (by omega) (by omega)).mp same
  omega

theorem InitUtil.unmapRangeLoop_ends {count : Nat} {s : InitUtil}
    (moving : Moving base before gone s.mem) (aligned : base.toNat % 0x1000 = 0)
    (low : ∀ page ∈ gone, page.toNat < base.toNat)
    (length : s.x1.toNat = 0x1000 * count)
    (pages : ∀ number < count,
      (Span.page ⟨s.x0, count⟩ number).toNat < base.toNat ∧
        Home base before (Span.page ⟨s.x0, count⟩ number)) :
    ∃ last, unmapRangeLoop (unmapMapped base base) (count + 1) s = some last ∧
      last.nextPa = s.nextPa ∧
      (∃ gone', Moving base before gone' last.mem ∧
        ∀ page, page ∈ gone' ↔
          page ∈ gone ∨ ∃ number < count, page = Span.page ⟨s.x0, count⟩ number) ∧
      ∀ addr ∉ initMapper.Entries before base, last.mem addr = s.mem addr := by
  induction count generalizing s gone with
  | zero =>
      have done : s.x1 = 0 := BitVec.eq_of_toNat_eq length
      refine ⟨s, if_pos done, rfl, ⟨gone, moving, ?_⟩, fun _ _ => rfl⟩
      intro page
      exact ⟨.inl, fun either => either.elim id fun ⟨_, below, _⟩ => absurd below (by omega)⟩
  | succ count induction =>
      have more : s.x1 ≠ 0 := by
        intro done
        rw [done] at length
        cases length
      have shift (number : Nat) : Span.page ⟨s.x0 + 0x1000, count⟩ number =
          Span.page ⟨s.x0, count + 1⟩ (number + 1) :=
        add_page s.x0 number
      have first : Span.page ⟨s.x0, count + 1⟩ 0 = s.x0 := BitVec.add_zero _
      obtain ⟨below, home⟩ := pages 0 (Nat.succ_pos count)
      rw [first] at below home
      have page := unmapMapped_eq moving.forest (moving.reached aligned low home)
      obtain ⟨removed, frame⟩ := @Moving.remove _ _ _ s.store moving s.x0
      have next := withoutPage_next base s.x0 s.store
      obtain ⟨last, ran, nextPa, ⟨gone', after, members⟩, rest⟩ := @induction (s.x0 :: gone)
        { s.withStore (withoutPage base s.x0 s.store) with
          x0 := s.x0 + 0x1000, x1 := s.x1 - 0x1000 }
        removed
        (by
          intro other member
          rcases List.mem_cons.mp member with rfl | earlier
          · exact below
          · exact low other earlier)
        (toNat_sub_page length)
        (by
          intro number inside
          change (Span.page ⟨s.x0 + 0x1000, count⟩ number).toNat < _ ∧
            Home base before (Span.page ⟨s.x0 + 0x1000, count⟩ number)
          rw [shift]
          exact pages (number + 1) (Nat.succ_lt_succ inside))
      refine ⟨last, ?_, nextPa.trans next, ⟨gone', after, ?_⟩, ?_⟩
      · rw [unmapRangeLoop, if_neg more]
        exact Option.bind_eq_some_iff.mpr ⟨_, page, ran⟩
      · intro other
        rw [members, List.mem_cons]
        change (other = s.x0 ∨ other ∈ gone) ∨
          (∃ number < count, other = Span.page ⟨s.x0 + 0x1000, count⟩ number) ↔ _
        constructor
        · rintro ((rfl | earlier) | ⟨number, inside, rfl⟩)
          · exact .inr ⟨0, Nat.succ_pos count, first.symm⟩
          · exact .inl earlier
          · exact .inr ⟨number + 1, Nat.succ_lt_succ inside, shift number⟩
        · rintro (earlier | ⟨number, inside, rfl⟩)
          · exact .inl (.inr earlier)
          · cases number with
            | zero => exact .inl (.inl first)
            | succ number =>
                exact .inr ⟨number, Nat.lt_of_succ_lt_succ inside, (shift number).symm⟩
      · intro addr beside
        exact (rest addr beside).trans (frame addr beside)

theorem InitUtil.unmapVaRange_ends {s : InitUtil} (moving : Moving base before gone s.mem)
    (aligned : base.toNat % 0x1000 = 0)
    (low : ∀ page ∈ gone, page.toNat < base.toNat)
    (pages : ∀ number < pageCount s.x1,
      (Span.page ⟨s.x0, pageCount s.x1⟩ number).toNat < base.toNat ∧
        Home base before (Span.page ⟨s.x0, pageCount s.x1⟩ number)) :
    ∃ last, s.unmapVaRange base base = some last ∧ last.nextPa = s.nextPa ∧
      (∃ gone', Moving base before gone' last.mem ∧
        ∀ page, page ∈ gone' ↔ page ∈ gone ∨
          ∃ number < pageCount s.x1, page = Span.page ⟨s.x0, pageCount s.x1⟩ number) ∧
      ∀ addr ∉ initMapper.Entries before base, last.mem addr = s.mem addr := by
  obtain ⟨last, ran, nextPa, ends⟩ := @unmapRangeLoop_ends base before gone (pageCount s.x1)
    { s with x1 := (s.x1 + 0xFFF) &&& ~~~0xFFF } moving aligned low (rounded_toNat s.x1) pages
  exact ⟨_, Option.bind_eq_some_iff.mpr ⟨last, ran, rfl⟩, nextPa, ends⟩

end Range

end TzTest.Aarch64
