import TzTest.Paging.SelfMapping

/-!
# AArch64 tables given by their entries

A memory of finitely many entries, and conditions on the lists of its entries
from which its tables are a tree and mapped to themselves.
-/

namespace TzTest.Aarch64

open BitField

/-- Entries with their addresses, those above the last level apart, and the
tables that they lie in with their levels. -/
structure Listing where
  links : List (BitVec 64 × BitVec 64)
  leaves : List (BitVec 64 × BitVec 64)
  tables : List (BitVec 64 × Nat)

/-- The addresses lie on one page. -/
def OnPage (left right : BitVec 64) : Prop :=
  left.toNat / 0x1000 = right.toNat / 0x1000

instance (left right : BitVec 64) : Decidable (OnPage left right) :=
  inferInstanceAs (Decidable (_ = _))

namespace Listing

def entries (l : Listing) : List (BitVec 64 × BitVec 64) :=
  l.links ++ l.leaves

def mem (l : Listing) (addr : BitVec 64) : BitVec 64 :=
  l.entries.foldr (fun entry rest => if addr = entry.1 then entry.2 else rest) 0

theorem mem_cases (l : Listing) (addr : BitVec 64) :
    l.mem addr = 0 ∨ (addr, l.mem addr) ∈ l.entries := by
  unfold mem
  induction l.entries with
  | nil => exact .inl rfl
  | cons entry entries induction =>
      rw [List.foldr_cons]
      split
      · rename_i same
        subst same
        exact .inr (List.mem_cons_self ..)
      · rcases induction with zero | member
        · exact .inl zero
        · exact .inr (List.mem_cons_of_mem _ member)

variable {l : Listing} {base : BitVec 64}

theorem mem_of_next {addr table : BitVec 64}
    (linked : next (l.mem addr) = some table) : (addr, l.mem addr) ∈ l.entries := by
  rcases l.mem_cases addr with zero | member
  · rw [zero] at linked
    cases linked
  · exact member

theorem forall_of_all {α : Type} {list : List α} {holds : α → Prop}
    [DecidablePred holds] (all : list.all fun member => holds member) :
    ∀ member ∈ list, holds member := by
  intro member listed
  exact of_decide_eq_true (List.all_eq_true.mp all member listed)

/-- The addresses lie outside the pool. -/
def Beside (low high : Nat) (addrs : List (BitVec 64)) : Prop :=
  addrs.all fun addr => addr.toNat < low ∨ high ≤ addr.toNat

instance (low high : Nat) (addrs : List (BitVec 64)) :
    Decidable (Beside low high addrs) :=
  inferInstanceAs (Decidable (_ = true))

theorem mem_pool {low high : Nat} (beside : Beside low high (l.entries.map Prod.fst)) :
    ∀ addr ∈ @range .aarch64 low high, l.mem addr = 0 := by
  intro addr free
  have above : low ≤ BitVec.toNat addr := free.1
  have below : BitVec.toNat addr < high := free.2
  rcases l.mem_cases addr with zero | member
  · exact zero
  · have outside : BitVec.toNat addr < low ∨ high ≤ BitVec.toNat addr :=
      forall_of_all beside addr (List.mem_map_of_mem member)
    omega

/-- Every table has one level, and every table but the root is linked once. -/
structure Tree (l : Listing) (base : BitVec 64) : Prop where
  root : (base, 0) ∈ l.tables
  aligned : l.tables.all fun table => table.1.toNat % 0x1000 = 0
  levels : l.tables.all fun table => l.tables.all fun other =>
    table.1 = other.1 → table.2 = other.2
  good : l.links.all fun link => link.2 &&& 0x3 = 0x3 ∧
    link.2 &&& outputAddress = link.2 &&& tableAddress
  below : l.tables.all fun table => l.links.all fun link => OnPage link.1 table.1 →
    (next link.2).all fun target => (target, table.2 + 1) ∈ l.tables
  once : (l.links.map fun link => next link.2).Nodup
  leaf : l.tables.all fun table => l.leaves.all fun leaf =>
    OnPage leaf.1 table.1 → 3 ≤ table.2

namespace Tree

variable (tree : l.Tree base)

include tree

theorem onPage {table va : BitVec 64} {level level' : Nat}
    (listed : (table, level') ∈ l.tables) :
    OnPage (mapper.entryOf level table va) table :=
  entryOf_toNat (within_of_toNat (forall_of_all tree.aligned _ listed) table.isLt)
    level va

theorem link_of_next {table target va : BitVec 64} {level : Nat} (above : level < 3)
    (listed : (table, level) ∈ l.tables)
    (linked : next (l.mem (mapper.entryOf level table va)) = some target) :
    (mapper.entryOf level table va, l.mem (mapper.entryOf level table va)) ∈
      l.links := by
  rcases List.mem_append.mp (mem_of_next linked) with link | leaf
  · exact link
  · have last := forall_of_all (List.all_eq_true.mp tree.leaf _ listed) _ leaf
      (tree.onPage listed)
    exact absurd above (not_lt.mpr last)

theorem tableAt_mem {va table : BitVec 64} {level : Nat} (inside : level ≤ 3)
    (here : mapper.tableAt l.mem base va level = some table) :
    (table, level) ∈ l.tables := by
  induction level generalizing table with
  | zero =>
      cases here
      exact tree.root
  | succ level induction =>
      obtain ⟨above, found, linked⟩ := Option.bind_eq_some_iff.mp here
      have listed := induction (Nat.le_of_succ_le inside) found
      have link := tree.link_of_next inside listed linked
      have targets := forall_of_all (List.all_eq_true.mp tree.below _ listed) _ link
        (tree.onPage listed)
      exact of_decide_eq_true ((Option.all_eq_true _ _).mp targets _ linked)

theorem distinct {left right table : BitVec 64} {level level' : Nat}
    (inside : level ≤ 3) (inside' : level' ≤ 3)
    (here : mapper.tableAt l.mem base left level = some table)
    (there : mapper.tableAt l.mem base right level' = some table) :
    level = level' ∧ mapper.Agree level left right := by
  have same : level = level' :=
    forall_of_all (List.all_eq_true.mp tree.levels _ (tree.tableAt_mem inside here)) _
      (tree.tableAt_mem inside' there) rfl
  subst same
  refine ⟨rfl, ?_⟩
  induction level generalizing table with
  | zero => exact fun _ below => absurd below (Nat.not_lt_zero _)
  | succ level induction =>
      obtain ⟨above, found, linked⟩ := Option.bind_eq_some_iff.mp here
      obtain ⟨above', found', linked'⟩ := Option.bind_eq_some_iff.mp there
      have shallow : level ≤ 3 := Nat.le_of_succ_le inside
      have listed := tree.tableAt_mem shallow found
      have listed' := tree.tableAt_mem shallow found'
      have link := tree.link_of_next inside listed linked
      have link' := tree.link_of_next inside listed' linked'
      have entry := List.inj_on_of_nodup_map tree.once link link'
        (linked.trans linked'.symm)
      have aligned : above.toNat % 0x1000 = 0 := forall_of_all tree.aligned _ listed
      have aligned' : above'.toNat % 0x1000 = 0 := forall_of_all tree.aligned _ listed'
      have within : Within above 12 64 := within_of_toNat aligned above.isLt
      have within' : Within above' 12 64 := within_of_toNat aligned' above'.isLt
      have samePlace : mapper.entryOf level above left =
          mapper.entryOf level above' right := congrArg Prod.fst entry
      have sameTable := table_eq_of_entryOf_eq within within' samePlace
      subst sameTable
      intro lower under
      rcases Nat.lt_or_eq_of_le (Nat.le_of_lt_succ under) with earlier | last
      · exact induction shallow found shallow found' lower earlier
      · subst last
        exact slot_inj within samePlace

theorem descriptor_good {va table : BitVec 64} {level : Nat} (above : level < 3)
    (here : mapper.tableAt l.mem base va level = some table) :
    Good (descriptor l.mem level table va) := by
  have listed := tree.tableAt_mem (Nat.le_of_lt above) here
  rcases l.mem_cases (mapper.entryOf level table va) with zero | member
  · left
    change l.mem (mapper.entryOf level table va) &&& 0x1 = 0
    rw [zero]
    decide
  · right
    rcases List.mem_append.mp member with link | leaf
    · exact forall_of_all tree.good _ link
    · have last := forall_of_all (List.all_eq_true.mp tree.leaf _ listed) _ leaf
        (tree.onPage listed)
      exact absurd above (not_lt.mpr last)

theorem hosted {s : MemUtil 64} {stop : Nat} (memory : s.mem = l.mem)
    (tables : Beside s.memNextPa.toNat stop (l.tables.map Prod.fst))
    (entries : Beside s.memNextPa.toNat stop (l.entries.map Prod.fst))
    (nextAligned : s.memNextPa.toNat % 0x1000 = 0) (stopAligned : stop % 0x1000 = 0)
    (limit : stop ≤ 2 ^ 36) : @Hosted .aarch64 base stop s := by
  refine ⟨?_, nextAligned, limit⟩
  rw [memory]
  apply forest_of_pages (fun _ => forall_of_all tree.aligned _ tree.root)
    tree.descriptor_good
  · intro _ _ left right level level' table inside inside' here there
    exact ⟨rfl, tree.distinct inside inside' here there⟩
  · intro addr free
    exact mem_pool entries addr free
  · intro _ va level table inside here addr free
    have listed := tree.tableAt_mem inside here
    have aligned : table.toNat % 0x1000 = 0 := forall_of_all tree.aligned _ listed
    have outside : table.toNat < s.memNextPa.toNat ∨ stop ≤ table.toNat :=
      forall_of_all tables table (List.mem_map_of_mem listed)
    have above : s.memNextPa.toNat ≤ addr.toNat := free.1
    have below : addr.toNat < stop := free.2
    rcases outside with before | after <;> omega

end Tree

/-- Whatever an entry leads to is mapped to itself. -/
structure Closed (l : Listing) (base : BitVec 64) : Prop where
  root : base ∈ l.tables.map Prod.fst
  targets : l.entries.all fun entry =>
    (next entry.2).all fun target => target ∈ l.tables.map Prod.fst
  home : ∀ table ∈ l.tables.map Prod.fst, table.toNat % 0x1000 = 0 ∧
    ∃ attr, mapper.translate l.mem base table = some ⟨table, attr⟩

theorem Closed.listed (closed : l.Closed base) {key table : BitVec 64} {level : Nat}
    (here : mapper.tableAt l.mem base key level = some table) :
    table ∈ l.tables.map Prod.fst := by
  cases level with
  | zero =>
      cases here
      exact closed.root
  | succ level =>
      obtain ⟨above, _, linked⟩ := Option.bind_eq_some_iff.mp here
      have targets := List.all_eq_true.mp closed.targets _ (mem_of_next linked)
      exact of_decide_eq_true ((Option.all_eq_true _ _).mp targets _ linked)

theorem Closed.entry (closed : l.Closed base) {key table : BitVec 64} {level : Nat}
    (here : mapper.tableAt l.mem base key level = some table) :
    (∃ attr, mapper.translate l.mem base table = some ⟨table, attr⟩) ∧
      table.toNat = (mapper.entryOf level table key).toNat / 0x1000 * 0x1000 ∧
      table.toNat < 2 ^ 48 ∧ (mapper.entryOf level table key).toNat < 2 ^ 48 := by
  obtain ⟨aligned, attr, found⟩ := closed.home table (closed.listed here)
  have onPage := entryOf_toNat (within_of_toNat aligned table.isLt) level key
  obtain ⟨_, _, atLeaf⟩ := Option.bind_eq_some_iff.mp found
  have small : table.toNat < 2 ^ 48 := @leaf_pa_lt .aarch64 _ _ atLeaf
  exact ⟨⟨attr, found⟩, by omega, small, by omega⟩

theorem Closed.selfMapped (closed : l.Closed base) :
    (homing .aarch64).SelfMapped l.mem base := by
  intro key level table _ here
  obtain ⟨⟨attr, found⟩, value, small, within⟩ := closed.entry here
  refine ⟨⟨table, attr⟩, ?_, ?_⟩
  · have onPage := congrArg (· / 0x1000) value
    simp only [Nat.mul_div_cancel _ (by decide : 0 < 0x1000)] at onPage
    have same : mapper.SamePage (mapper.entryOf level table key) table :=
      (@TzTest.samePage_iff .aarch64 _ _ within small).mpr onPage.symm
    exact (same.translate l.mem base).trans found
  · apply BitVec.eq_of_toNat_eq
    have place := @pageBase_toNat .aarch64 (mapper.entryOf level table key)
    exact value.trans place.symm

theorem Closed.apart (closed : l.Closed base) {va : BitVec 64}
    (small : va.toNat < 2 ^ 48)
    (outside : ∀ table ∈ l.tables.map Prod.fst, ¬OnPage table va) :
    mapper.Apart l.mem base va := by
  intro key level table _ here same
  obtain ⟨_, value, _, within⟩ := closed.entry here
  have samePage := (@TzTest.samePage_iff .aarch64 _ _ within small).mp same
  apply outside table (closed.listed here)
  have onPage := congrArg (· / 0x1000) value
  simp only [Nat.mul_div_cancel _ (by decide : 0 < 0x1000)] at onPage
  exact onPage.trans samePage

end Listing

end TzTest.Aarch64
