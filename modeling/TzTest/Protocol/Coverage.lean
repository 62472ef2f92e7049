import TzTest.Paging.Truthful
import TzTest.Protocol.SharedMap

/-!
# The address spaces of a map request

The type of a map request names address spaces, and its length a range.  Which
handler maps what is decided on the bits of EL3 and of secure EL1, and every
handler maps the one page of the address.
-/

namespace TzTest

open Coroutine (Local)
open Radix

variable {arch : Arch}

/-- The `OP_MAP_*` bit of a space. -/
def Space.opMap : Space → U32
  | .el3 => opMapEl3
  | .el1 .secure => opMapSecEl1
  | .el1 .nonsecure => opMapNsecEl1

/-- The request has the bit of the space. -/
def OpMapMem.Asks (map : OpMapMem arch) (space : Space) : Prop :=
  map.type &&& space.opMap = space.opMap

instance (map : OpMapMem arch) (space : Space) : Decidable (map.Asks space) :=
  inferInstanceAs (Decidable (_ = _))

/-- The addresses from `va` up to `va + len`. -/
def OpMapMem.Spans (map : OpMapMem arch) (addr : Word arch) : Prop :=
  map.va.toNat ≤ addr.toNat ∧ addr.toNat < map.va.toNat + map.len.toNat

/-- Every space of the request translates the range to the pages of the
requester, and the other spaces keep the translations that they had. -/
structure Covers (memPgtblBase : Space → Word arch) (map : OpMapMem arch)
    (before after : Spaces arch) : Prop where
  installed {space : Space} {addr : Word arch} : map.Asks space → map.Spans addr →
    ∃ leaf attr,
      hardwareWalk before.mem (memPgtblBase (.el1 .nonsecure)) addr = some leaf ∧
      hardwareWalk after.mem (memPgtblBase space) addr = some ⟨leaf.pa, attr⟩
  untouched {space : Space} {addr : Word arch} {leaf : Leaf arch.width} :
    ¬map.Asks space →
    hardwareWalk before.mem (memPgtblBase space) addr = some leaf →
    hardwareWalk after.mem (memPgtblBase space) addr = some leaf

section Handlers

variable {Root : Type} [DecidableEq Root] (tree : Space → Root)
variable (memPgtblBase : Space → Word arch)

/-- The space whose handler first maps the page in the tree of a space. -/
def OpMapMem.mapper? (map : OpMapMem arch) (space : Space) : Option Space :=
  if map.Asks .el3 then
    if tree space = tree .el3 then some .el3
    else if map.Asks (.el1 .secure) ∧ tree space = tree (.el1 .secure) then
      some (.el1 .secure)
    else none
  else if tree space = tree (.el1 .nonsecure) then some (.el1 .nonsecure)
  else none

/-- The attributes that the page is left with. -/
def OpMapMem.pgattr (map : OpMapMem arch) (space : Space) : Word arch :=
  if map.Asks .el3 ∧
      ¬(map.Asks (.el1 .secure) ∧ tree space = tree (.el1 .secure)) then
    ptePrivRw arch
  else
    pteUserRw arch

/-- The physical address that the handlers map: nonsecure EL1 looks it up for
EL3 when the request holds some address already. -/
def OpMapMem.sent (map : OpMapMem arch) (before : Spaces arch) : Word arch :=
  if map.Asks .el3 ∧ map.pa ≠ 0 then
    memLookupPa (memPgtblBase (.el1 .nonsecure)) map.va
      (before.image (.el1 .nonsecure))
  else
    map.pa

/-- The translations of a space when the tables that the page needs, the next
pages of the pool, are mapped to themselves. -/
def Spaces.withTables (before : Spaces arch) (map : OpMapMem arch) (space : Space) :
    Word arch → Option (Leaf arch.width) :=
  match map.mapper? tree space with
  | none => translate before.mem (memPgtblBase space)
  | some pool =>
      (mapper arch).identities
        (tablesTaken (memPgtblBase pool) map.va (before.image pool))
        (translate before.mem (memPgtblBase space))

/-- What is left of a request in a space. -/
def Spaces.served (before : Spaces arch) (map : OpMapMem arch) (space : Space)
    (addr : Word arch) : Option (Leaf arch.width) :=
  if (map.mapper? tree space).isSome ∧ (mapper arch).SamePage addr map.va then
    (mapper arch).leaf
      (pageEntry (map.sent memPgtblBase before) (map.pgattr tree space))
  else
    before.withTables tree memPgtblBase map space addr

/-- A request does what it should when the one page that is mapped is enough,
and is the requester's. -/
structure Coverable (map : OpMapMem arch) (before : Spaces arch) : Prop where
  /-- The requester has mapped the range. -/
  held {space : Space} {addr : Word arch} : map.Asks space → map.Spans addr →
    (hardwareWalk before.mem (memPgtblBase (.el1 .nonsecure)) addr).isSome
  /-- Its page goes to the spaces of the request that a handler maps, -/
  page {space : Space} {addr : Word arch} {leaf : Leaf arch.width} :
    map.Asks space → map.Spans addr → (map.mapper? tree space).isSome →
    (mapper arch).SamePage addr map.va →
    hardwareWalk before.mem (memPgtblBase (.el1 .nonsecure)) addr = some leaf →
    map.sent memPgtblBase before &&& pageMask arch = leaf.pa
  /-- and every other page of the range is there already. -/
  beyond {space : Space} {addr : Word arch} {leaf : Leaf arch.width} :
    map.Asks space → map.Spans addr →
    ¬((map.mapper? tree space).isSome ∧ (mapper arch).SamePage addr map.va) →
    hardwareWalk before.mem (memPgtblBase (.el1 .nonsecure)) addr = some leaf →
    ∃ attr, before.withTables tree memPgtblBase map space addr =
      some ⟨leaf.pa, attr⟩
  /-- A space that is mapped without its bit does not have the page that the
  handlers take `va` for, or has it just so. -/
  kept {space : Space} {addr : Word arch} {leaf : Leaf arch.width} :
    ¬map.Asks space → (map.mapper? tree space).isSome →
    (mapper arch).SamePage addr map.va →
    hardwareWalk before.mem (memPgtblBase space) addr = some leaf →
    (mapper arch).leaf
      (pageEntry (map.sent memPgtblBase before) (map.pgattr tree space)) = some leaf
  /-- No page that becomes a table there was mapped to another one. -/
  tables {space : Space} {addr : Word arch} {leaf : Leaf arch.width} :
    ¬map.Asks space → ¬(mapper arch).SamePage addr map.va →
    hardwareWalk before.mem (memPgtblBase space) addr = some leaf →
    before.withTables tree memPgtblBase map space addr = some leaf

end Handlers

section Request

variable {Root : Type} [DecidableEq Root] {roots : Root → Word arch}
variable {tree : Space → Root} {stop : Space → Nat}
variable {memPgtblBase : Space → Word arch} {map : OpMapMem arch}
variable {before after : Spaces arch}

theorem leaf_sent (map : OpMapMem arch) (tree : Space → Root) (sent : Word arch)
    (space : Space) :
    ∃ attr, (mapper arch).leaf (pageEntry sent (map.pgattr tree space)) =
      some ⟨sent &&& pageMask arch, attr⟩ := by
  apply leaf_pageEntry
  unfold OpMapMem.pgattr
  split
  · exact .inl rfl
  · exact .inr rfl

theorem Spaces.withTables_of_none {space : Space}
    (none : map.mapper? tree space = none) :
    before.withTables tree memPgtblBase map space =
      translate before.mem (memPgtblBase space) := by
  unfold withTables
  rw [none]

/-- The outcome of a request, judged by what the handlers leave. -/
theorem covers_iff
    (found : ∀ space addr, translate after.mem (memPgtblBase space) addr =
      before.served tree memPgtblBase map space addr) :
    Covers memPgtblBase map before after ↔
      Coverable tree memPgtblBase map before := by
  -- What the hardware finds afterwards where it has found something before.
  have walks {base addr : Word arch} {leaf : Leaf arch.width}
      (own : hardwareWalk before.mem base addr = some leaf) (space : Space) :
      hardwareWalk after.mem (memPgtblBase space) addr =
        before.served tree memPgtblBase map space addr :=
    (hardwareWalk_eq (walked_of_some own) _ _).trans (found space addr)
  constructor
  · intro covers
    constructor
    · intro space addr asks spans
      obtain ⟨leaf, _, own, _⟩ := covers.installed asks spans
      rw [own]
      rfl
    · intro space addr leaf asks spans written same own
      obtain ⟨leaf', attr, own', shown⟩ := covers.installed asks spans
      obtain ⟨attr', sent⟩ := leaf_sent map tree (map.sent memPgtblBase before) space
      rw [walks own, Spaces.served, if_pos ⟨written, same⟩, sent] at shown
      rw [own] at own'
      cases own'
      exact congrArg Leaf.pa (Option.some.inj shown)
    · intro space addr leaf asks spans other own
      obtain ⟨leaf', attr, own', shown⟩ := covers.installed asks spans
      rw [walks own, Spaces.served, if_neg other] at shown
      rw [own] at own'
      cases own'
      exact ⟨attr, shown⟩
    · intro space addr leaf clear written same own
      have shown := covers.untouched clear own
      rwa [walks own, Spaces.served, if_pos ⟨written, same⟩] at shown
    · intro space addr leaf clear different own
      have shown := covers.untouched clear own
      rwa [walks own, Spaces.served, if_neg fun both => different both.2] at shown
  · intro coverable
    constructor
    · intro space addr asks spans
      obtain ⟨leaf, own⟩ := Option.isSome_iff_exists.mp (coverable.held asks spans)
      by_cases both : (map.mapper? tree space).isSome ∧
          (mapper arch).SamePage addr map.va
      · obtain ⟨attr, sent⟩ :=
          leaf_sent map tree (map.sent memPgtblBase before) space
        refine ⟨leaf, attr, own, ?_⟩
        rw [walks own, Spaces.served, if_pos both, sent,
          coverable.page asks spans both.1 both.2 own]
      · obtain ⟨attr, shown⟩ := coverable.beyond asks spans both own
        refine ⟨leaf, attr, own, ?_⟩
        rw [walks own, Spaces.served, if_neg both, shown]
    · intro space addr leaf clear own
      rw [walks own, Spaces.served]
      by_cases same : (mapper arch).SamePage addr map.va
      · by_cases written : (map.mapper? tree space).isSome
        · rw [if_pos ⟨written, same⟩]
          exact coverable.kept clear written same own
        · rw [if_neg fun both => written both.1, Spaces.withTables_of_none
            (Option.not_isSome_iff_eq_none.mp written)]
          exact (hardwareWalk_eq (walked_of_some own) _ _).symm.trans own
      · rw [if_neg fun both => same both.2]
        exact coverable.tables clear same own

/-- What a map request relies on, with room for a table of nonsecure EL1 too. -/
structure CoverReady {Root : Type} (roots : Root → Word arch) (tree : Space → Root)
    (stop : Space → Nat) (memPgtblBase : Space → Word arch)
    (spaces : Spaces arch) : Prop
    extends MapReady roots tree stop memPgtblBase spaces where
  own : (spaces.memNextPa (.el1 .nonsecure)).toNat + 0x1000 * (mapper arch).depth ≤
    stop (.el1 .nonsecure)

/-- One handler maps the page. -/
theorem Spaces.Rebuilds.served (space : Space)
    (bases : ∀ space, memPgtblBase space = roots (tree space))
    (rebuilds : before.Rebuilds roots tree space after map.va
      ((mapper arch).leaf (pageEntry (map.sent memPgtblBase before)
        (map.pgattr tree space))))
    (written : ∀ other, map.mapper? tree other =
      if tree other = tree space then some space else none)
    (other : Space) (addr : Word arch) :
    translate after.mem (memPgtblBase other) addr =
      before.served tree memPgtblBase map other addr := by
  rw [Spaces.served, Spaces.withTables, written other]
  by_cases same : tree other = tree space
  · have attributes : map.pgattr tree other = map.pgattr tree space := by
      unfold OpMapMem.pgattr
      rw [same]
    rw [if_pos same, bases other, same, rebuilds.translated, attributes]
    simp only [Option.isSome_some, true_and, bases]
    rfl
  · rw [if_neg same, bases other, rebuilds.others same]
    simp only [Option.isSome_none, Bool.false_eq_true, false_and, if_false]

/-- EL3 and then secure EL1 map the page. -/
theorem served_both {middle : Spaces arch}
    (bases : ∀ space, memPgtblBase space = roots (tree space))
    (atEl3 : map.Asks .el3) (atEl1 : map.Asks (.el1 .secure))
    (first : before.Rebuilds roots tree .el3 middle map.va
      ((mapper arch).leaf (pageEntry (map.sent memPgtblBase before)
        (ptePrivRw arch))))
    (last : middle.Rebuilds roots tree (.el1 .secure) after map.va
      ((mapper arch).leaf (pageEntry (map.sent memPgtblBase before)
        (pteUserRw arch))))
    (other : Space) (addr : Word arch) :
    translate after.mem (memPgtblBase other) addr =
      before.served tree memPgtblBase map other addr := by
  have written : map.mapper? tree other =
      if tree other = tree .el3 then some .el3
      else if tree other = tree (.el1 .secure) then some (.el1 .secure) else none := by
    simp only [OpMapMem.mapper?, if_pos atEl3, atEl1, true_and]
  rw [Spaces.served, Spaces.withTables, written, bases other]
  by_cases secure : tree other = tree (.el1 .secure)
  · have attributes : map.pgattr tree other = pteUserRw arch :=
      if_neg fun both => both.2 ⟨atEl1, secure⟩
    rw [attributes, secure, last.translated]
    by_cases shared : tree (.el1 .secure) = tree .el3
    · -- The tree that EL3 has mapped the page in already.
      have none := first.tablesTaken_self shared
      have before' : translate middle.mem (roots (tree (.el1 .secure))) =
          (mapper arch).set map.va _
            ((mapper arch).identities _ (translate before.mem (roots (tree .el3)))) :=
        funext fun va => by rw [shared, first.translated]
      rw [if_pos shared, none, before']
      simp only [Option.isSome_some, true_and, bases, shared]
      by_cases same : (mapper arch).SamePage addr map.va
      · rw [(mapper arch).set_of_samePage same, if_pos same]
      · rw [(mapper arch).set_of_not_samePage same, if_neg same, Mapper.identities,
          (mapper arch).set_of_not_samePage same]
    · rw [if_neg shared, if_pos rfl, first.tablesTaken_other shared]
      have before' : translate middle.mem (roots (tree (.el1 .secure))) =
          translate before.mem (roots (tree (.el1 .secure))) :=
        funext fun va => first.others shared va
      rw [before']
      simp only [Option.isSome_some, true_and, bases]
      rfl
  · by_cases monitor : tree other = tree .el3
    · have attributes : map.pgattr tree other = ptePrivRw arch :=
        if_pos ⟨atEl3, fun both => secure both.2⟩
      rw [last.others secure, if_pos monitor, attributes, monitor, first.translated]
      simp only [Option.isSome_some, true_and, bases]
      rfl
    · rw [last.others secure, first.others monitor, if_neg monitor, if_neg secure]
      simp only [Option.isSome_none, Bool.false_eq_true, false_and, if_false]

section Returned

variable {fuel rounds : Nat} {env : Env arch (Spaces arch)}
variable {sys : Sys arch (Spaces arch)}

theorem mapPa_eq_sent (sys : Sys arch (Spaces arch))
    (mmu : env.mmu = imagesMmu memPgtblBase fuel rounds) {desc : Desc arch} (atEl3 : desc.map.Asks .el3) :
    mapPa env desc sys = desc.map.sent memPgtblBase sys.paging := by
  unfold mapPa OpMapMem.sent
  rw [mmu]
  by_cases zero : desc.map.pa = 0
  · rw [if_neg (not_not.mpr zero), if_neg fun both => both.2 zero]
  · rw [if_pos zero, if_pos ⟨atEl3, zero⟩]
    rfl

/-- Every map request comes back, and leaves in each space what its handlers
have mapped. -/
theorem map_served (mmu : env.mmu = imagesMmu memPgtblBase (fuel + 2) rounds)
    (ready : CoverReady roots tree stop memPgtblBase sys.paging) (desc : Desc arch) :
    ∃ value after rest,
      Returns env (svc env .nonsecure SvcOp.map.code desc) sys waiting
        value after rest ∧
      ∀ space addr, translate after.paging.mem (memPgtblBase space) addr =
        sys.paging.served tree memPgtblBase desc.map space addr := by
  have monitor : Space.el3 ≠ .el1 .nonsecure := by decide
  have secure : Space.el1 .secure ≠ .el1 .nonsecure := by decide
  by_cases atEl3 : desc.map.Asks .el3
  · have sent := mapPa_eq_sent sys mmu atEl3
    obtain ⟨middle, ranEl3, readyEl3, first⟩ := ready.ready.memMapPa_rebuilds
      ready.bases .el3 (ready.room monitor) desc.map.va (mapPa env desc sys)
      (ptePrivRw arch)
    by_cases atEl1 : desc.map.Asks (.el1 .secure)
    · have room : (middle.memNextPa (.el1 .secure)).toNat +
          0x1000 * (mapper arch).depth ≤ stop (.el1 .secure) := by
        rw [first.next (by decide)]
        exact ready.room secure
      obtain ⟨last, ranEl1, _, second⟩ := readyEl3.memMapPa_rebuilds ready.bases
        (.el1 .secure) room desc.map.va (mapPa env desc sys) (pteUserRw arch)
      have calls : MapCalls env desc sys middle last := by
        constructor
        · rw [mmu]
          exact ranEl3 fuel rounds
        · rw [mmu]
          exact ranEl1 fuel rounds
      rw [sent] at first second
      refine ⟨_, _, _, returns_map_secure desc ⟨atEl3, atEl1⟩ calls, ?_⟩
      rw [paging_mapServed]
      exact served_both ready.bases atEl3 atEl1 first second
    · have request := map_mapRequested env desc sys
      have paging := (quiet_mapRequested env desc sys).paging
      have answer := @el3Answer_map_stay _ _ env .el1MapSecure
        (mapRequested env desc sys) middle (by rw [request]; exact atEl3)
        (by rw [request]; exact atEl1)
        (by
          rw [request, paging, mmu]
          exact ranEl3 fuel rounds)
      have run : Local (el3Answer env) (svc env .nonsecure SvcOp.map.code desc sys)
          (0, desc) { mapRequested env desc sys with paging := middle } := by
        rw [svc_map_forward env desc sys atEl3]
        exact .call answer (.done _ _)
      refine ⟨_, _, _, Returns.of_local waiting run, ?_⟩
      rw [sent] at first
      refine Spaces.Rebuilds.served .el3 ready.bases ?_ ?_
      · have attributes : desc.map.pgattr tree .el3 = ptePrivRw arch :=
          if_pos ⟨atEl3, fun both => atEl1 both.1⟩
        rw [attributes]
        exact first
      · intro other
        simp only [OpMapMem.mapper?, if_pos atEl3, atEl1, false_and, if_false]
  · obtain ⟨later, ran, _, rebuilds⟩ := ready.ready.memMapPa_rebuilds ready.bases
      (.el1 .nonsecure) ready.own desc.map.va desc.map.pa (pteUserRw arch)
    have done := svc_map_local env desc sys .nonsecure atEl3
    rw [mmu, ran fuel rounds] at done
    have run : Local (el3Answer env) (svc env .nonsecure SvcOp.map.code desc sys)
        (0, desc) { sys with paging := later } := by
      rw [done]
      exact .done _ _
    refine ⟨_, _, _, Returns.of_local waiting run, ?_⟩
    refine Spaces.Rebuilds.served (.el1 .nonsecure) ready.bases ?_ ?_
    · have attributes : desc.map.pgattr tree (.el1 .nonsecure) = pteUserRw arch :=
        if_neg fun both => atEl3 both.1
      have sent : desc.map.sent memPgtblBase sys.paging = desc.map.pa :=
        if_neg fun both => atEl3 both.1
      rw [attributes, sent]
      exact rebuilds
    · intro other
      simp only [OpMapMem.mapper?, if_neg atEl3]

/-- A map request covers what it asks for exactly when the one page that its
handlers map is enough. -/
theorem map_covers_iff (mmu : env.mmu = imagesMmu memPgtblBase (fuel + 2) rounds)
    (ready : CoverReady roots tree stop memPgtblBase sys.paging) (desc : Desc arch) :
    (∃ value after rest,
      Returns env (svc env .nonsecure SvcOp.map.code desc) sys waiting
        value after rest ∧
      Covers memPgtblBase desc.map sys.paging after.paging) ↔
      Coverable tree memPgtblBase desc.map sys.paging := by
  obtain ⟨value, after, rest, returned, found⟩ := map_served mmu ready desc
  constructor
  · rintro ⟨_, _, _, returned', covers⟩
    cases Coroutine.Steps.final_unique returned rfl returned' rfl
    exact (covers_iff found).mp covers
  · intro coverable
    exact ⟨value, after, rest, returned, (covers_iff found).mpr coverable⟩

end Returned

end Request

section Small

open Aarch64

theorem smallSys_coverReady :
    @CoverReady .aarch64 Space smallBase id smallStop smallBase smallSys.paging :=
  { smallSys_ready with own := by decide }

theorem smallDesc_samePage {pa addr : BitVec 64}
    (spans : (@Desc.map .aarch64 (smallDesc pa)).Spans addr) :
    Aarch64.mapper.SamePage addr 0x1000 := by
  obtain ⟨above, below⟩ := spans
  change 0x1000 ≤ addr.toNat at above
  change addr.toNat < 0x1000 + 0x1000 at below
  have small : addr.toNat < 2 ^ 48 := by omega
  refine (Aarch64.samePage_iff small (by decide)).mpr (BitVec.eq_of_toNat_eq ?_)
  change (addr >>> 12).toNat = 1
  rw [BitVec.toNat_ushiftRight, Nat.shiftRight_eq_div_pow]
  omega

theorem smallDesc_found {addr : BitVec 64}
    (spans : (@Desc.map .aarch64 (smallDesc 1)).Spans addr) :
    @hardwareWalk .aarch64 smallSys.paging.mem (smallBase (.el1 .nonsecure)) addr =
      some smallLeaf := by
  have walked : addr.toNat < 2 ^ 48 :=
    lt_trans spans.2 (by decide : 0x1000 + 0x1000 < 2 ^ 48)
  exact (Aarch64.hwWalk_eq walked _ _).trans
    (((smallDesc_samePage spans).translate _ _).trans (smallSys_found 1))

theorem smallDesc_asks (space : Space) : (smallDesc 1).map.Asks space := by
  rcases space with _ | _ | _ <;> decide

theorem smallDesc_coverable :
    @Coverable .aarch64 Space _ id smallBase (smallDesc 1).map smallSys.paging where
  held _ spans := congrArg Option.isSome (smallDesc_found spans)
  page {space addr leaf} _ spans _ _ own := by
    cases (smallDesc_found spans).symm.trans own
    decide
  beyond {space addr leaf} _ spans other own := by
    have same := smallDesc_samePage spans
    rcases space with _ | _ | _
    · exact absurd ⟨by decide, same⟩ other
    · exact absurd ⟨by decide, same⟩ other
    · exact ⟨leaf.attr, (hardwareWalk_eq (walked_of_some own) _ _).symm.trans own⟩
  kept clear := absurd (smallDesc_asks _) clear
  tables clear := absurd (smallDesc_asks _) clear

theorem map_covers_iff_all :
    ∃ value after rest,
      Returns smallEnv (svc smallEnv .nonsecure SvcOp.map.code (smallDesc 1))
        smallSys waiting value after rest ∧
      @Covers .aarch64 smallBase (smallDesc 1).map smallSys.paging after.paging :=
  (map_covers_iff smallSys_mmu smallSys_coverReady (smallDesc 1)).mpr
    smallDesc_coverable

/-- A request for secure EL1 alone is kept by nonsecure EL1. -/
def secureOnly : Desc .aarch64 :=
  { smallDesc 0x80000 with word0 := 4#64 }

theorem map_secureOnly_not_covers :
    @hardwareWalk .aarch64 smallSys.paging.mem (smallBase (.el1 .nonsecure)) 0x1000 =
        some smallLeaf ∧
      ¬∃ value after rest,
        Returns smallEnv (svc smallEnv .nonsecure SvcOp.map.code secureOnly)
          smallSys waiting value after rest ∧
        @Covers .aarch64 smallBase secureOnly.map smallSys.paging after.paging := by
  refine ⟨(Aarch64.hwWalk_eq (by decide) _ _).trans (smallSys_found 0), ?_⟩
  rintro ⟨_, after, _, returned, covers⟩
  obtain ⟨_, _, _, returned', found⟩ :=
    map_served smallSys_mmu smallSys_coverReady secureOnly
  cases Coroutine.Steps.final_unique returned' rfl returned rfl
  have asks : secureOnly.map.Asks (.el1 .secure) := by decide
  have spans : secureOnly.map.Spans (0x1000 : BitVec 64) := ⟨by decide, by decide⟩
  obtain ⟨leaf, attr, _, shown⟩ := covers.installed asks spans
  have none : @Spaces.served .aarch64 Space _ id smallBase smallSys.paging
      secureOnly.map (.el1 .secure) 0x1000 = none := by decide
  have shown := (Aarch64.hwWalk_eq (by decide) _ _).symm.trans shown
  cases none.symm.trans ((found _ _).symm.trans shown)

end Small

end TzTest
