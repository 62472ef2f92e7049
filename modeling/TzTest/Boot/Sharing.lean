import TzTest.Boot.El1Start

/-!
# All levels share the two pages

EL3 boots first, then secure EL1, then nonsecure EL1, and other code runs in between.
As long as that leaves the tables and the two fields, all three find the same pages
behind `syscntl` and `smc_interop_buf`.
-/

namespace TzTest.Aarch64.Boot

open Radix BitField

/-- The tables are as they were. -/
def KeepsTables (base : BitVec 64) (before after : BitVec 64 → BitVec 64) : Prop :=
  ∀ addr ∈ mapper.Entries before base, after addr = before addr

/-- The tables of EL3 and the fields of `syscntl->smc_interop` are as EL3 left them. -/
structure Carried (el3 : El3Started) (mem : BitVec 64 → BitVec 64) : Prop where
  tables : KeepsTables el3PgtblBase el3.s.mem mem
  bufPa : mem (bufPaAt el3.syscntlPa) = el3.s.mem (bufPaAt el3.syscntlPa)
  bufVa : mem (bufVaAt el3.syscntlPa) = el3.s.mem (bufVaAt el3.syscntlPa)

/-- The level with these tables has the pages of EL3, of which it knows the second one
by the same address. -/
structure HasPages (base : BitVec 64) (mem : BitVec 64 → BitVec 64) (el3 : El3Started)
    (cntl buf : BitVec 64) : Prop where
  syscntl : PageAt base mem cntl el3.syscntlPa
  smcInteropBuf : PageAt base mem buf (el3.s.mem (bufPaAt el3.syscntlPa))
  sameAddress : buf = el3.smcInteropBuf

theorem KeepsTables.trans {base : BitVec 64} {before middle after : BitVec 64 → BitVec 64}
    (first : KeepsTables base before middle)
    (last : ∀ addr ∈ mapper.Entries before base, after addr = middle addr) :
    KeepsTables base before after :=
  fun addr member => (last addr member).trans (first addr member)

theorem HasPages.kept {base : BitVec 64} {before after : BitVec 64 → BitVec 64}
    {el3 : El3Started} {cntl buf : BitVec 64} (pages : HasPages base before el3 cntl buf)
    (kept : KeepsTables base before after)
    (cntlPlace : cntl.toNat % 0x1000 = 0 ∧ cntl.toNat < 2 ^ 48)
    (bufPlace : buf.toNat % 0x1000 = 0 ∧ buf.toNat < 2 ^ 48) :
    HasPages base after el3 cntl buf where
  syscntl := pages.syscntl.congr cntlPlace.1 cntlPlace.2
    (Mapper.translate_of_entries kept _)
  smcInteropBuf := pages.smcInteropBuf.congr bufPlace.1 bufPlace.2
    (Mapper.translate_of_entries kept _)
  sameAddress := pages.sameAddress

section Levels

variable {init : Span} {before : MemUtil 64} {el3 : El3Started}

theorem El3Ready.hasPages (ready : El3Ready init before el3)
    {mem : BitVec 64 → BitVec 64} (carried : Carried el3 mem) :
    HasPages el3PgtblBase mem el3 el3.syscntl el3.smcInteropBuf := by
  obtain ⟨place, place'⟩ := ready.place
  have own : HasPages el3PgtblBase el3.s.mem el3 el3.syscntl el3.smcInteropBuf :=
    ⟨ready.syscntl, ready.smcInteropBuf, rfl⟩
  apply own.kept carried.tables
  · rw [place]
    decide
  · rw [place']
    decide

/-- The tables of EL3 and its page lie between its root and the tables of EL1. -/
theorem El3Ready.below (ready : El3Ready init before el3) (world : World) :
    (∀ addr ∈ mapper.Entries el3.s.mem el3PgtblBase,
      el3PgtblBase.toNat ≤ addr.toNat ∧ addr.toNat < (el1PgtblBase world).toNat) ∧
      el3PgtblBase.toNat ≤ el3.syscntlPa.toNat ∧
      el3.syscntlPa.toNat + 0x1000 ≤ (el1PgtblBase world).toNat := by
  have far : el3RegionEnd ≤ (el1PgtblBase world).toNat := by cases world <;> decide
  have next : el3.s.memNextPa.toNat ≤ el3RegionEnd := ready.settled.below
  obtain ⟨page, unused, order⟩ := ready.syscntlPage
  obtain ⟨page', inside⟩ := ready.bufPage
  have aligned := page.aligned
  have aligned' := page'.aligned
  refine ⟨?_, le_trans ready.start unused, by omega⟩
  intro addr member
  obtain ⟨lower, upper⟩ := ready.settled.inside member
  change addr.toNat < el3.s.memNextPa.toNat at upper
  exact ⟨lower, by omega⟩

end Levels

/-- What EL1 needs where it starts: its image, clear RAM, and what EL3 has left. -/
structure El1Joins (el3 : El3Started) (world : World) (image : ImageSymbols)
    (s : InitUtil) : Prop where
  starts : (image.el1Layout world).Starts (image.el1Calls world) s
  few : (image.el1Layout world).Few (image.el1Calls world) s
  carried : Carried el3 s.mem

section Joining

variable {init : Span} {before : MemUtil 64} {el3 : El3Started} {world : World}
variable {image : ImageSymbols} {s : InitUtil} {start : El1Start} {el1 : El1Started}

theorem El3Ready.join (ready : El3Ready init before el3) (laid : image.El1Laid world)
    (joins : El1Joins el3 world image s) :
    ∃ start el1,
      El1Booted world image el3.syscntlPa (el3.s.mem (bufPaAt el3.syscntlPa)) s start el1 := by
  obtain ⟨starts, few, carried⟩ := joins
  obtain ⟨_, above, apart⟩ := ready.below world
  exact bootEl1_ends laid starts few ready.syscntlPage.1 ready.bufPage.1 above apart
    carried.bufPa
    (carried.bufVa.trans (ready.bufVa.trans ready.place.2))

variable (ready : El3Ready init before el3)
variable (boots :
  El1Booted world image el3.syscntlPa (el3.s.mem (bufPaAt el3.syscntlPa)) s start el1)
include ready boots

theorem El3Ready.carry (carried : Carried el3 s.mem) : Carried el3 el1.s.mem := by
  obtain ⟨tables, above, apart⟩ := ready.below world
  obtain ⟨page, _⟩ := ready.syscntlPage
  have field {offset : BitVec 64} (small : offset.toNat < 0x1000) :
      el1.s.mem (el3.syscntlPa + offset) = s.mem (el3.syscntlPa + offset) := by
    have wide := page.small
    have number := @add_toNat el3.syscntlPa offset (by omega) small
    exact boots.frame (.inl ⟨by omega, not_startUpWord_of_el3 (by omega)⟩)
  have kept : ∀ addr ∈ mapper.Entries el3.s.mem el3PgtblBase,
      el1.s.mem addr = s.mem addr := by
    intro addr member
    obtain ⟨lower, upper⟩ := tables addr member
    exact boots.frame (.inl ⟨upper, not_startUpWord_of_el3 lower⟩)
  exact ⟨carried.tables.trans kept, (field (by decide)).trans carried.bufPa,
    (field (by decide)).trans carried.bufVa⟩

theorem El3Ready.joined {mem : BitVec 64 → BitVec 64}
    (kept : KeepsTables (el1PgtblBase world) el1.s.mem mem) :
    HasPages (el1PgtblBase world) mem el3 el1.syscntl el1.smcInteropBuf := by
  obtain ⟨place, place'⟩ := boots.ready.place
  have own : HasPages (el1PgtblBase world) el1.s.mem el3 el1.syscntl el1.smcInteropBuf :=
    ⟨boots.ready.syscntl, boots.ready.smcInteropBuf, place'.trans ready.place.2.symm⟩
  apply own.kept kept
  · rw [place]
    cases world <;> decide
  · rw [place']
    decide

end Joining

/-- Nonsecure EL1 leaves the tables of secure EL1 alone. -/
theorem keepsTables_secure {init : Span} {syscntlPa bufPa syscntlPa' bufPa' : BitVec 64}
    {image : ImageSymbols} {s : InitUtil} {start : El1Start} {secure nonsecure : El1Started}
    {before : MemUtil 64}
    (ready : El1Ready .secure init syscntlPa bufPa before secure)
    (boots : El1Booted .nonsecure image syscntlPa' bufPa' s start nonsecure)
    (kept : KeepsTables (el1PgtblBase .secure) secure.s.mem s.mem) :
    KeepsTables (el1PgtblBase .secure) secure.s.mem nonsecure.s.mem := by
  have far : el1RegionEnd .secure ≤ (el1PgtblBase .nonsecure).toNat ∧
      el3PgtblBase.toNat ≤ (el1PgtblBase .secure).toNat := by
    decide
  have next : secure.s.memNextPa.toNat ≤ el1RegionEnd .secure := ready.settled.below
  apply kept.trans
  intro addr member
  obtain ⟨lower, upper⟩ := ready.settled.inside member
  change addr.toNat < secure.s.memNextPa.toNat at upper
  exact boots.frame
    (.inl ⟨by omega, not_startUpWord_of_el3 (le_trans far.2 lower)⟩)

/-- From reset on, EL3, secure and nonsecure EL1 come to their main code, each in its own
address space without the init segment, and all with the two pages of EL3, whatever else
was written to the memory before secure and before nonsecure EL1 start. -/
theorem boot_shares {el3Image secureImage nonsecureImage : ImageSymbols} {first : InitUtil}
    (el3Laid : el3Image.El3Laid)
    (init : (Span.mk el3Image.initBase (pageCount el3Image.initSize)).stop ≤
      el3PgtblBase.toNat)
    (starts : el3Image.el3Layout.Starts el3Image.el3Calls first)
    (few : el3Image.el3Layout.Few el3Image.el3Calls first)
    (secureLaid : secureImage.El1Laid .secure)
    (nonsecureLaid : nonsecureImage.El1Laid .nonsecure) :
    ∃ booted el3, El3Booted el3Image first booted el3 ∧
      ∀ second, El1Joins el3 .secure secureImage second → ∃ start secure,
        El1Booted .secure secureImage el3.syscntlPa (el3.s.mem (bufPaAt el3.syscntlPa))
          second start secure ∧
        Carried el3 secure.s.mem ∧
        ∀ third, El1Joins el3 .nonsecure nonsecureImage third →
          KeepsTables (el1PgtblBase .secure) secure.s.mem third.mem →
          ∃ start' nonsecure,
            El1Booted .nonsecure nonsecureImage el3.syscntlPa
              (el3.s.mem (bufPaAt el3.syscntlPa)) third start' nonsecure ∧
            HasPages el3PgtblBase nonsecure.s.mem el3 el3.syscntl el3.smcInteropBuf ∧
            HasPages (el1PgtblBase .secure) nonsecure.s.mem el3 secure.syscntl
              secure.smcInteropBuf ∧
            HasPages (el1PgtblBase .nonsecure) nonsecure.s.mem el3 nonsecure.syscntl
              nonsecure.smcInteropBuf := by
  obtain ⟨booted, el3, boots⟩ := bootEl3_ends el3Laid init starts few
  have ready := boots.ready
  refine ⟨booted, el3, boots, ?_⟩
  intro second joins
  obtain ⟨start, secure, boots'⟩ := ready.join secureLaid joins
  refine ⟨start, secure, boots', ready.carry boots' joins.carried, ?_⟩
  intro third joins' kept
  obtain ⟨start', nonsecure, boots''⟩ := ready.join nonsecureLaid joins'
  refine ⟨start', nonsecure, boots'', ?_, ?_, ?_⟩
  · exact ready.hasPages (ready.carry boots'' joins'.carried)
  · exact ready.joined boots' (keepsTables_secure boots'.ready boots'' kept)
  · exact ready.joined boots'' fun _ _ => rfl

/-- Each of the small images starts in the memory that the one before it has left. -/
theorem boot_shares_small :
    ∃ el3 secure nonsecure,
      bootEl3 smallEl3 2 3 smallReset = some el3 ∧
      bootEl1 .secure smallEl1 2 3 el3.syscntlPa { smallInit with mem := el3.s.mem } =
        some secure ∧
      bootEl1 .nonsecure smallNonsecure 2 3 el3.syscntlPa
        { smallInit with mem := secure.s.mem } = some nonsecure ∧
      HasPages el3PgtblBase nonsecure.s.mem el3 el3.syscntl el3.smcInteropBuf ∧
      HasPages (el1PgtblBase .secure) nonsecure.s.mem el3 secure.syscntl
        secure.smcInteropBuf ∧
      HasPages (el1PgtblBase .nonsecure) nonsecure.s.mem el3 nonsecure.syscntl
        nonsecure.smcInteropBuf := by
  have empty (addr : BitVec 64) (above : el3PgtblBase.toNat ≤ addr.toNat) :
      smallReset.mem addr = 0 := by
    have high : 0x20000 ≤ el3PgtblBase.toNat := by decide
    exact if_neg (by omega)
  obtain ⟨_, el3, boots, rest⟩ := boot_shares smallEl3_laid (by decide)
    smallReset_starts (smallEl3_few fun addr above _ => empty addr above)
    (smallImage_laid .secure) (smallImage_laid .nonsecure)
  have clear (addr : BitVec 64) (above : el3RegionEnd ≤ addr.toNat) :
      el3.s.mem addr = 0 := by
    have base : el3PgtblBase.toNat ≤ el3RegionEnd := by decide
    exact (boots.frame (.inr above)).trans (empty addr (le_trans base above))
  have secureBase : el3RegionEnd ≤ (el1PgtblBase .secure).toNat := by decide
  have nonsecureBase : el1RegionEnd .secure ≤ (el1PgtblBase .nonsecure).toNat ∧
      el3RegionEnd ≤ (el1PgtblBase .nonsecure).toNat := by
    decide
  have clear' (addr : BitVec 64) (above : (el1PgtblBase .secure).toNat ≤ addr.toNat)
      (_ : addr.toNat < (nextRamBase .secure).toNat) : el3.s.mem addr = 0 :=
    clear addr (le_trans secureBase above)
  have joins : El1Joins el3 .secure smallEl1 { smallInit with mem := el3.s.mem } :=
    ⟨@smallImage_starts .secure { smallInit with mem := el3.s.mem } clear',
      @smallImage_few .secure { smallInit with mem := el3.s.mem } clear',
      ⟨fun _ _ => rfl, rfl, rfl⟩⟩
  obtain ⟨_, secure, boots', carried, rest'⟩ := rest _ joins
  have clear'' (addr : BitVec 64) (above : (el1PgtblBase .nonsecure).toNat ≤ addr.toNat)
      (_ : addr.toNat < (nextRamBase .nonsecure).toNat) : secure.s.mem addr = 0 :=
    (boots'.frame (.inr (le_trans nonsecureBase.1 above))).trans
      (clear addr (le_trans nonsecureBase.2 above))
  have joins' : El1Joins el3 .nonsecure smallNonsecure
      { smallInit with mem := secure.s.mem } :=
    ⟨@smallImage_starts .nonsecure { smallInit with mem := secure.s.mem } clear'',
      @smallImage_few .nonsecure { smallInit with mem := secure.s.mem } clear'',
      carried⟩
  obtain ⟨_, nonsecure, boots'', pages⟩ := rest' _ joins' fun _ _ => rfl
  exact ⟨el3, secure, nonsecure, boots.ran 0 0, boots'.ran 0 0, boots''.ran 0 0, pages⟩

end TzTest.Aarch64.Boot
