import TzTest.InitUtil.El1Init
import TzTest.InitUtil.FirstTables
import TzTest.Paging.SelfMapping

/-!
# The address ranges of an image

The start-up code maps rows of pages.  When no two of them overlap, every address
of a row is translated as its own call asked for.
-/

namespace TzTest.Aarch64

open Radix BitField

/-- A number of pages from an address on. -/
structure Span where
  base : BitVec 64
  pages : Nat

namespace Span

variable {span : Span} {number : Nat} {va : BitVec 64}

def stop (span : Span) : Nat :=
  span.base.toNat + 0x1000 * span.pages

def Covers (span : Span) (va : BitVec 64) : Prop :=
  span.base.toNat ≤ va.toNat ∧ va.toNat < span.stop

structure Fits (span : Span) : Prop where
  aligned : span.base.toNat % 0x1000 = 0
  limit : span.stop ≤ 2 ^ 48

def Apart (left right : Span) : Prop :=
  ∀ va, left.Covers va → ¬right.Covers va

def page (span : Span) (number : Nat) : BitVec 64 :=
  span.base + BitVec.ofNat 64 (0x1000 * number)

theorem Fits.page_toNat (fits : span.Fits) (inside : number < span.pages) :
    (span.page number).toNat = span.base.toNat + 0x1000 * number := by
  have limit := fits.limit
  unfold stop at limit
  unfold page
  rw [BitVec.toNat_add, BitVec.toNat_ofNat]
  lia

theorem Fits.covers_page (fits : span.Fits) (inside : number < span.pages) :
    span.Covers (span.page number) := by
  have place := fits.page_toNat inside
  unfold Covers stop
  lia

theorem Fits.covers_lt (fits : span.Fits) (covers : span.Covers va) : va.toNat < 2 ^ 48 :=
  lt_of_lt_of_le covers.2 fits.limit

theorem Fits.page_lt (fits : span.Fits) (inside : number < span.pages) :
    (span.page number).toNat < 2 ^ 48 :=
  fits.covers_lt (fits.covers_page inside)

theorem samePage_iff_div {left right : BitVec 64} (small : left.toNat < 2 ^ 48)
    (small' : right.toNat < 2 ^ 48) :
    initMapper.SamePage left right ↔ left.toNat / 0x1000 = right.toNat / 0x1000 :=
  @TzTest.samePage_iff .aarch64 left right small small'

theorem apart_of_stop {left right : Span}
    (order : left.stop ≤ right.base.toNat ∨ right.stop ≤ left.base.toNat) :
    left.Apart right := by
  rintro va ⟨above, below⟩ ⟨above', below'⟩
  omega

theorem Fits.exists_page (fits : span.Fits) (covers : span.Covers va) :
    ∃ number < span.pages, initMapper.SamePage va (span.page number) ∧
      (span.page number).toNat = va.toNat / 0x1000 * 0x1000 := by
  have aligned := fits.aligned
  have limit := fits.limit
  obtain ⟨above, below⟩ := covers
  unfold stop at limit below
  have inside : (va.toNat - span.base.toNat) / 0x1000 < span.pages := by omega
  have place := fits.page_toNat inside
  refine ⟨_, inside, ?_, by omega⟩
  apply (samePage_iff_div (by omega) (fits.page_lt inside)).mpr
  omega

end Span

namespace MapCall

def span : MapCall → Span
  | mapVaToPa va _ _ => ⟨va, 1⟩
  | mapVa va _ => ⟨va, 1⟩
  | mapPa pa _ => ⟨pa, 1⟩
  | mapVaRange va _ len => ⟨va, pageCount len⟩
  | mapPaRange pa _ len => ⟨pa, pageCount len⟩

def pgprop : MapCall → BitVec 64
  | mapVaToPa _ pgprop _ => pgprop
  | mapVa _ pgprop => pgprop
  | mapPa _ pgprop => pgprop
  | mapVaRange _ pgprop _ => pgprop
  | mapPaRange _ pgprop _ => pgprop

/-- The address that a page is mapped to, unless that is a page of the pool. -/
def pa? (call : MapCall) (va : BitVec 64) : Option (BitVec 64) :=
  match call with
  | mapVaToPa _ _ pa => some pa
  | mapVa _ _ => none
  | mapPa _ _ => some va
  | mapVaRange _ _ _ => none
  | mapPaRange _ _ _ => some va

def place (call : MapCall) (va : BitVec 64) : Placement :=
  ⟨va, call.pgprop, call.pa? va⟩

end MapCall

theorem add_page (va : BitVec 64) (number : Nat) :
    va + 0x1000 + BitVec.ofNat 64 (0x1000 * number) =
      va + BitVec.ofNat 64 (0x1000 * (number + 1)) := by
  rw [BitVec.add_assoc]
  apply congrArg (va + ·)
  apply BitVec.eq_of_toNat_eq
  rw [BitVec.toNat_add, BitVec.toNat_ofNat, BitVec.toNat_ofNat, Nat.mul_succ]
  have page : (0x1000 : BitVec 64).toNat = 0x1000 := rfl
  lia

theorem Placement.range_eq_map (place : BitVec 64 → Placement) (count : Nat)
    (va : BitVec 64) :
    Placement.range place count va =
      (List.range count).map fun number =>
        place (va + BitVec.ofNat 64 (0x1000 * number)) := by
  induction count generalizing va with
  | zero => rfl
  | succ count induction =>
      have first : va + BitVec.ofNat 64 (0x1000 * 0) = va := BitVec.add_zero va
      rw [Placement.range, List.range_succ_eq_map, List.map_cons, List.map_map, first,
        induction (va + 0x1000)]
      apply congrArg (List.cons (place va))
      apply List.map_congr_left
      intro number _
      apply congrArg place
      exact add_page va number

theorem MapCall.placements_eq (call : MapCall) :
    call.placements =
      (List.range call.span.pages).map fun number => call.place (call.span.page number) := by
  have single (place : BitVec 64 → Placement) (va : BitVec 64) :
      [place va] = (List.range 1).map fun number =>
        place (va + BitVec.ofNat 64 (0x1000 * number)) :=
    Placement.range_eq_map place 1 va
  cases call with
  | mapVaToPa va pgprop pa => exact single (fun va => ⟨va, pgprop, some pa⟩) va
  | mapVa va pgprop => exact single (fun va => ⟨va, pgprop, none⟩) va
  | mapPa pa pgprop => exact single (fun pa => ⟨pa, pgprop, some pa⟩) pa
  | mapVaRange va pgprop len => exact Placement.range_eq_map ..
  | mapPaRange pa pgprop len => exact Placement.range_eq_map ..

theorem MapCall.mem_placements {call : MapCall} {place : Placement} :
    place ∈ call.placements ↔
      ∃ number < call.span.pages, place = call.place (call.span.page number) := by
  rw [call.placements_eq, List.mem_map]
  constructor
  · rintro ⟨number, member, rfl⟩
    exact ⟨number, List.mem_range.mp member, rfl⟩
  · rintro ⟨number, inside, rfl⟩
    exact ⟨number, List.mem_range.mpr inside, rfl⟩

/-- Calls whose rows do not overlap map every page once. -/
theorem MapCall.placements_apart {calls : List MapCall}
    (fits : ∀ call ∈ calls, call.span.Fits)
    (apart : calls.Pairwise fun earlier later => earlier.span.Apart later.span) :
    (calls.flatMap placements).Pairwise fun earlier later =>
      ¬initMapper.SamePage later.va earlier.va := by
  apply List.pairwise_flatMap.mpr
  constructor
  · intro call member
    rw [call.placements_eq]
    apply List.pairwise_map.mpr
    refine List.Pairwise.imp_of_mem ?_ List.pairwise_lt_range
    intro first second inside inside' less same
    have fit := fits call member
    rw [List.mem_range] at inside inside'
    have pages := (Span.samePage_iff_div (fit.page_lt inside') (fit.page_lt inside)).mp same
    rw [fit.page_toNat inside, fit.page_toNat inside'] at pages
    have aligned := fit.aligned
    omega
  · refine List.Pairwise.imp_of_mem ?_ apart
    intro earlier later member member' separate first mine second mine' same
    obtain ⟨number, inside, rfl⟩ := mem_placements.mp mine
    obtain ⟨number', inside', rfl⟩ := mem_placements.mp mine'
    have fit := fits earlier member
    have fit' := fits later member'
    have pages := (Span.samePage_iff_div (fit'.page_lt inside') (fit.page_lt inside)).mp same
    have covers := fit.covers_page inside
    have covers' := fit'.covers_page inside'
    have aligned := fit.aligned
    have aligned' := fit'.aligned
    have place := fit.page_toNat inside
    have place' := fit'.page_toNat inside'
    have one : earlier.span.page number = later.span.page number' := by
      apply BitVec.eq_of_toNat_eq
      omega
    exact separate _ covers (one ▸ covers')

/-- Attributes that make a page, and rows of whole pages. -/
structure MapCall.Proper (call : MapCall) : Prop where
  fits : call.span.Fits
  type : call.pgprop &&& 0x3 = 0x3
  noAddress : call.pgprop &&& outputAddress = 0
  pa {va pa : BitVec 64} : call.span.Covers va → va.toNat % 0x1000 = 0 →
    call.pa? va = some pa → pa = va

theorem MapCall.Proper.placement {call : MapCall} (proper : call.Proper)
    {place : Placement} (member : place ∈ call.placements) : place.Fits := by
  obtain ⟨number, inside, rfl⟩ := mem_placements.mp member
  have covers := proper.fits.covers_page inside
  have small := proper.fits.page_lt inside
  have address := proper.fits.page_toNat inside
  have aligned := proper.fits.aligned
  have whole : (call.span.page number).toNat % 0x1000 = 0 := by omega
  refine ⟨small, proper.type, proper.noAddress, ?_⟩
  intro pa asked
  rw [proper.pa covers whole asked]
  exact within_of_toNat whole small

/-- The pages that calls have mapped, the last one first. -/
def placedBy (calls : List MapCall) : List Placement :=
  (calls.flatMap MapCall.placements).reverse

section Booting

variable {base : BitVec 64} {stop : Nat} {ram : BitVec 64 → BitVec 64}
variable {calls : List MapCall} {call call' : MapCall}
variable {store : Store (BitVec 64) (BitVec 64)} {va va' : BitVec 64}

theorem mem_placedBy (member : call ∈ calls) {number : Nat}
    (inside : number < call.span.pages) :
    call.place (call.span.page number) ∈ placedBy calls :=
  List.mem_reverse.mpr
    (List.mem_flatMap.mpr ⟨call, member, MapCall.mem_placements.mpr ⟨number, inside, rfl⟩⟩)

theorem MapCall.pages_le (calls : List MapCall) (fits : ∀ call ∈ calls, call.span.Fits) :
    (calls.flatMap placements).length ≤ 2 ^ 36 * calls.length := by
  induction calls with
  | nil => exact Nat.zero_le _
  | cons call calls induction =>
      have limit := (fits call (List.mem_cons_self ..)).limit
      unfold Span.stop at limit
      have rest := induction fun other member => fits other (List.mem_cons_of_mem _ member)
      rw [List.flatMap_cons, List.length_append, call.placements_eq, List.length_map,
        List.length_range, List.length_cons]
      lia

namespace Booting

variable (booting : Booting base stop ram (placedBy calls) store)
include booting

theorem identity (proper : call.Proper) (member : call ∈ calls)
    (given : ∀ va, (call.pa? va).isSome) (covers : call.span.Covers va) :
    ∃ page attr, initMapper.translate store.mem base va = some ⟨page, attr⟩ ∧
      page.toNat = va.toNat / 0x1000 * 0x1000 := by
  obtain ⟨number, inside, same, place⟩ := proper.fits.exists_page covers
  obtain ⟨page, attr, found, backs⟩ := booting.mapped (mem_placedBy member inside)
  refine ⟨page, attr, (same.translate store.mem base).trans found, ?_⟩
  rcases backs with asked | ⟨missing, _⟩
  · rw [proper.pa (proper.fits.covers_page inside) (by omega) asked, place]
  · have present := given (call.span.page number)
    change call.pa? _ = none at missing
    rw [missing] at present
    cases present

theorem pooled (fits : call.span.Fits) (member : call ∈ calls)
    (fresh : ∀ va, call.pa? va = none) (covers : call.span.Covers va) :
    ∃ page attr, initMapper.translate store.mem base va = some ⟨page, attr⟩ ∧
      Taken base store.next page ∧
      ∀ {va level table}, level ≤ 3 →
        initMapper.tableAt store.mem base va level = some table → table ≠ page := by
  obtain ⟨number, inside, same, place⟩ := fits.exists_page covers
  obtain ⟨page, attr, found, backs⟩ := booting.mapped (mem_placedBy member inside)
  refine ⟨page, attr, (same.translate store.mem base).trans found, ?_⟩
  rcases backs with asked | ⟨_, taken⟩
  · cases (fresh _).symm.trans asked
  · exact taken

/-- No page of the pool is behind two pages of the rows. -/
theorem pooled_distinct (fits : call.span.Fits) (fits' : call'.span.Fits)
    (member : call ∈ calls) (member' : call' ∈ calls) (fresh : ∀ va, call.pa? va = none)
    (fresh' : ∀ va, call'.pa? va = none) (covers : call.span.Covers va)
    (covers' : call'.span.Covers va') {found found' : Leaf 64}
    (translated : initMapper.translate store.mem base va = some found)
    (translated' : initMapper.translate store.mem base va' = some found')
    (samePage : found.pa = found'.pa) : va.toNat / 0x1000 = va'.toNat / 0x1000 := by
  obtain ⟨number, inside, same, place⟩ := fits.exists_page covers
  obtain ⟨number', inside', same', place'⟩ := fits'.exists_page covers'
  rw [same.translate] at translated
  rw [same'.translate] at translated'
  have one := booting.distinct (mem_placedBy member inside) (mem_placedBy member' inside')
    (fresh _) (fresh' _) translated translated' samePage
  have addresses := congrArg BitVec.toNat one
  change (call.span.page number).toNat = (call'.span.page number').toNat at addresses
  omega

theorem uncovered (fits : ∀ call ∈ calls, call.span.Fits) (small : va.toNat < 2 ^ 48)
    (outside : ∀ call ∈ calls, ¬call.span.Covers va) :
    initMapper.translate store.mem base va = none := by
  apply booting.unmapped
  intro place member same
  obtain ⟨call, listed, mine⟩ := List.mem_flatMap.mp (List.mem_reverse.mp member)
  obtain ⟨number, inside, rfl⟩ := MapCall.mem_placements.mp mine
  have fit := fits call listed
  have pages := (Span.samePage_iff_div small (fit.page_lt inside)).mp same
  have place := fit.page_toNat inside
  have aligned := fit.aligned
  apply outside call listed
  unfold Span.Covers Span.stop
  change va.toNat / 0x1000 = (call.span.page number).toNat / 0x1000 at pages
  omega

end Booting

/-- The calls were run from an empty root table on, and the pages that became tables
were clear. -/
structure Built (base : BitVec 64) (stop : Nat) (ram : BitVec 64 → BitVec 64)
    (calls : List MapCall) (store : Store (BitVec 64) (BitVec 64)) : Prop where
  aligned : base.toNat % 0x1000 = 0
  limit : stop ≤ 2 ^ 36
  room : base.toNat + 0x1000 ≤ stop
  proper : ∀ call ∈ calls, call.Proper
  apart : calls.Pairwise fun earlier later => earlier.span.Apart later.span
  few : calls.length ≤ 2 ^ 10
  ran : Placement.runAll base (calls.flatMap MapCall.placements) ⟨ram, base + 0x1000⟩ =
    some store
  below : store.next.toNat ≤ stop
  rootTable : ClearPages ram [base]
  clear : ClearPages ram
    (Placement.tablesAll base (calls.flatMap MapCall.placements) ⟨ram, base + 0x1000⟩)

namespace Built

variable (built : Built base stop ram calls store)
include built

theorem fits (member : call ∈ calls) : call.span.Fits :=
  (built.proper call member).fits

theorem placements_fit : ∀ place ∈ calls.flatMap MapCall.placements, place.Fits := by
  intro place member
  obtain ⟨call, listed, mine⟩ := List.mem_flatMap.mp member
  exact (built.proper call listed).placement mine

theorem enough : (base + 0x1000).toNat +
    0x4000 * (calls.flatMap MapCall.placements).length < 2 ^ 64 := by
  have limit := built.limit
  have room := built.room
  have few := built.few
  have pages := MapCall.pages_le calls fun call => built.fits
  have next : (base + 0x1000).toNat = base.toNat + 0x1000 := toNat_bump (by omega)
  omega

theorem start : Booting base stop ram [] ⟨ram, base + 0x1000⟩ :=
  Booting.start built.aligned built.limit built.room built.rootTable

theorem booting : Booting base stop ram (placedBy calls) store := by
  have mapped := built.start.mapAll built.placements_fit (fun _ _ _ => nofun)
    (MapCall.placements_apart (fun call => built.fits) built.apart) built.ran built.below
    built.enough built.clear
  exact mapped.1

/-- The calls in front of the others were run in the same way. -/
theorem split {first rest : List MapCall} (parts : calls = first ++ rest) :
    ∃ middle, Built base stop ram first middle ∧
      initMapper.Keeps (fun _ : Unit => base) middle.mem store.mem := by
  have enough := built.enough
  obtain ⟨aligned, limit, room, proper, apart, few, ran, below, rootTable, clear⟩ := built
  subst parts
  obtain ⟨firstApart, restApart, between⟩ := List.pairwise_append.mp apart
  rw [List.flatMap_append, List.length_append] at enough
  rw [List.flatMap_append, Placement.runAll_append] at ran
  obtain ⟨middle, firstRan, restRan⟩ := Option.bind_eq_some_iff.mp ran
  rw [List.flatMap_append, Placement.tablesAll_append, firstRan] at clear
  obtain ⟨_, reached⟩ := Placement.runAll_next firstRan (by
    change (base + 0x1000).toNat + _ < _
    omega)
  change middle.next.toNat ≤ (base + 0x1000).toNat + _ at reached
  obtain ⟨advance, _⟩ := Placement.runAll_next restRan (by omega)
  have built : Built base stop ram first middle :=
    { aligned := aligned
      limit := limit
      room := room
      proper := fun call member => proper call (List.mem_append_left _ member)
      apart := firstApart
      few := by
        rw [List.length_append] at few
        omega
      ran := firstRan
      below := le_trans advance below
      rootTable := rootTable
      clear := fun page member => clear page (List.mem_append_left _ member) }
  refine ⟨middle, built, ?_⟩
  have fits : ∀ call ∈ rest, call.span.Fits :=
    fun call member => (proper call (List.mem_append_right _ member)).fits
  have mapped : ∀ place ∈ rest.flatMap MapCall.placements, place.Fits := by
    intro place member
    obtain ⟨call, listed, mine⟩ := List.mem_flatMap.mp member
    exact (proper call (List.mem_append_right _ listed)).placement mine
  have new : ∀ place ∈ rest.flatMap MapCall.placements, ∀ other ∈ placedBy first,
      ¬initMapper.SamePage place.va other.va := by
    have whole := MapCall.placements_apart
      (fun call member => (proper call member).fits) apart
    rw [List.flatMap_append] at whole
    intro place member other earlier
    exact (List.pairwise_append.mp whole).2.2 other (List.mem_reverse.mp earlier) place member
  exact (built.booting.mapAll mapped new (MapCall.placements_apart fits restApart) restRan
    below (by omega) fun page member => clear page (List.mem_append_right _ member)).2.1

/-- The tables of the first rows, when these are low and mapped to themselves. -/
theorem lowTables {first rest : List MapCall} (parts : calls = first ++ rest)
    (given : ∀ call ∈ first, ∀ va, (call.pa? va).isSome)
    (low : ∀ call ∈ first, call.span.stop ≤ 61 * 2 ^ 21) (member : call ∈ first)
    (covers : call.span.Covers va) {level : Nat} {table : BitVec 64} (inside : level ≤ 3)
    (there : initMapper.tableAt store.mem base va level = some table) :
    base.toNat ≤ table.toNat ∧ table.toNat + 0x1000 ≤ base.toNat + 0x40000 := by
  obtain ⟨middle, earlier, keeps⟩ := built.split parts
  have booting := earlier.booting
  have limit := built.limit
  have room := built.room
  have only : OnlyTables base (61 * 2 ^ 21) middle := by
    have mapped := earlier.start.mapAll earlier.placements_fit (fun _ _ _ => nofun)
      (MapCall.placements_apart (fun call => earlier.fits) earlier.apart) earlier.ran
      earlier.below earlier.enough earlier.clear
    refine mapped.2.2 _ ?_ (OnlyTables.start _ (by omega))
    intro place listed
    obtain ⟨other, mine, placed⟩ := List.mem_flatMap.mp listed
    obtain ⟨number, atMost, rfl⟩ := MapCall.mem_placements.mp placed
    have within := ((earlier.fits mine).covers_page atMost).2
    exact ⟨given other mine _, lt_of_lt_of_le within (low other mine)⟩
  have whole : middle.next.toNat % 0x1000 = 0 := booting.pool.aligned
  have few := only.next_le built.aligned whole (by omega)
  obtain ⟨page, attr, translated, _⟩ :=
    booting.identity (earlier.proper call member) member (given call member) covers
  obtain ⟨last, bottom, _⟩ := Option.bind_eq_some_iff.mp translated
  obtain ⟨above, found⟩ := initMapper.exists_tableAt inside bottom
  cases there.symm.trans (keeps () va level above inside found)
  have taken := booting.tables inside found
  exact ⟨taken.above, le_trans taken.below few⟩

end Built

end Booting

end TzTest.Aarch64
