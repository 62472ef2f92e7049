import TzTest.Paging.Spaces

/-!
# The page pools of the three images

On AArch64 an image takes pages with `allocate_pa` while it starts up and with
`mem_allocate_pa` afterwards.  The start-up allocators of the images keep their
next page in one word, at `RAM_BASE + 0x2000`; each image sets it, and moves it
to its own `mem_next_pa` before the next image starts.  No allocator has an end.
-/

namespace TzTest.InitUtil

/-- `EL3_PGTBL_BASE`, `EL1_S_PGTBL_BASE` and `EL1_NS_PGTBL_BASE`. -/
def pgtblBase (ramBase : BitVec 64) : Space → BitVec 64
  | .el3 => ramBase + 512 * 1024 - 0x40000
  | .el1 .secure => ramBase + 0x1000000 + 512 * 1024 - 0x40000
  | .el1 .nonsecure => ramBase + 0x2000000 + 512 * 1024 - 0x40000

/-- What the allocators keep. -/
structure Pools where
  /-- The word at `RAM_BASE + 0x2000`. -/
  nextPa : BitVec 64
  /-- The image that is in its start-up code. -/
  starting : Option Space
  started : Space → Bool
  /-- The image has its next page in `mem_next_pa`. -/
  running : Space → Bool
  spaces : Spaces .aarch64

inductive PoolStep where
  /-- The start-up code sets the word to the page behind the root table. -/
  | start (space : Space)
  | allocatePa
  /-- `mem_next_pa` gets the word. -/
  | handOff
  | memAllocatePa (space : Space)

namespace Pools

/-- `allocate_pa` of the image that is starting. -/
def allocatePa (pools : Pools) : BitVec 64 × Pools :=
  (pools.nextPa, { pools with nextPa := pools.nextPa + 0x1000 })

/-- One step: the page that it hands out, to which image, and the next state.
An image starts once, and not while another one does. -/
def step (ramBase : BitVec 64) (pools : Pools) :
    PoolStep → Option (Option (Space × BitVec 64) × Pools)
  | .start space =>
      if pools.starting = none ∧ pools.started space = false then
        some (none,
          { pools with
            nextPa := pgtblBase ramBase space + 0x1000
            starting := some space
            started := Function.update pools.started space true })
      else
        none
  | .allocatePa =>
      pools.starting.map fun space =>
        (some (space, pools.allocatePa.1), pools.allocatePa.2)
  | .handOff =>
      pools.starting.map fun space =>
        (none,
          { pools with
            starting := none
            running := Function.update pools.running space true
            spaces := pools.spaces.setImage space
              { pools.spaces.image space with memNextPa := pools.nextPa } })
  | .memAllocatePa space =>
      if pools.running space = true then
        let (pa, s) := memAllocatePa (pools.spaces.image space)
        some (some (space, pa),
          { pools with spaces := pools.spaces.setImage space s })
      else
        none

/-- The pages that a run hands out, in their order. -/
def run (ramBase : BitVec 64) :
    List PoolStep → Pools → Option (List (Space × BitVec 64) × Pools)
  | [], pools => some ([], pools)
  | action :: actions, pools => do
      let (page, later) ← pools.step ramBase action
      let (pages, last) ← run ramBase actions later
      return (page.toList ++ pages, last)

/-- Before any image has started. -/
structure Reset (pools : Pools) : Prop where
  starting : pools.starting = none
  started : ∀ space, pools.started space = false
  running : ∀ space, pools.running space = false

end Pools

/-- Pages of the 64-bit address space. -/
def pagesTotal : Nat := 2 ^ 52

/-- A page, counted from the first pool page of EL3 on. -/
def poolPage (ramBase : BitVec 64) (number : Nat) : BitVec 64 :=
  ramBase + 0x41000 + BitVec.ofNat 64 (0x1000 * number)

/-- Where the pools begin, counted likewise. -/
def poolStart : Space → Nat
  | .el3 => 0
  | .el1 .secure => 0x1000
  | .el1 .nonsecure => 0x2000

/-- Two pools of which the second begins `distance` pages later. -/
def PoolsApart (distance count other : Nat) : Prop :=
  count = 0 ∨ other = 0 ∨ (count ≤ distance ∧ other ≤ pagesTotal - distance)

/-- The pages that each image gets leave the pools of the others alone, and do
not come round to their beginning. -/
structure WithinPools (count : Space → Nat) : Prop where
  once : ∀ space, count space ≤ pagesTotal
  el3Secure : PoolsApart 0x1000 (count .el3) (count (.el1 .secure))
  secureNonsecure :
    PoolsApart 0x1000 (count (.el1 .secure)) (count (.el1 .nonsecure))
  el3Nonsecure : PoolsApart 0x2000 (count .el3) (count (.el1 .nonsecure))

theorem poolPage_inj_iff {ramBase : BitVec 64} {left right : Nat} :
    poolPage ramBase left = poolPage ramBase right ↔
      left % pagesTotal = right % pagesTotal := by
  unfold poolPage pagesTotal
  rw [BitVec.add_right_inj, ← BitVec.toNat_inj, BitVec.toNat_ofNat,
    BitVec.toNat_ofNat]
  omega

theorem pgtblBase_add_page (ramBase : BitVec 64) (space : Space) :
    pgtblBase ramBase space + 0x1000 = poolPage ramBase (poolStart space) := by
  rcases space with _ | _ | _ <;>
    simp only [pgtblBase, poolPage, poolStart] <;> bv_omega

theorem poolPage_succ (ramBase : BitVec 64) (number : Nat) :
    poolPage ramBase number + 0x1000 = poolPage ramBase (number + 1) := by
  unfold poolPage
  rw [BitVec.add_assoc, Nat.mul_succ, BitVec.ofNat_add]
  rfl

/-- Every image that has started goes on behind the pages that it got. -/
structure Counted (ramBase : BitVec 64) (pools : Pools) (count : Space → Nat) :
    Prop where
  starting {space : Space} : pools.starting = some space →
    pools.started space = true ∧
      pools.nextPa = poolPage ramBase (poolStart space + count space)
  running {space : Space} : pools.running space = true →
    pools.started space = true ∧ pools.starting ≠ some space ∧
      pools.spaces.memNextPa space =
        poolPage ramBase (poolStart space + count space)
  fresh {space : Space} : pools.started space = false → count space = 0

/-- The pages of one image. -/
def pagesOf (space : Space) (pages : List (Space × BitVec 64)) :
    List (BitVec 64) :=
  (pages.filter fun page => page.1 = space).map Prod.snd

def countOf (pages : List (Space × BitVec 64)) (space : Space) : Nat :=
  (pagesOf space pages).length

/-- The counts after one more page, where there is one. -/
def counted (count : Space → Nat) : Option (Space × BitVec 64) → Space → Nat
  | none => count
  | some (space, _) => Function.update count space (count space + 1)

section Run

variable {ramBase : BitVec 64} {pools later : Pools} {count : Space → Nat}

theorem Pools.Reset.counted (reset : pools.Reset) :
    Counted ramBase pools fun _ => 0 := by
  constructor
  · intro space starting
    rw [reset.starting] at starting
    cases starting
  · intro space running
    rw [reset.running] at running
    cases running
  · intro space _
    rfl

theorem Counted.start (state : Counted ramBase pools count) {space : Space}
    (fresh : pools.started space = false) :
    Counted ramBase
      { pools with
        nextPa := pgtblBase ramBase space + 0x1000
        starting := some space
        started := Function.update pools.started space true } count := by
  constructor
  · intro other same
    cases same
    rw [state.fresh fresh, Nat.add_zero]
    exact ⟨Function.update_self .., pgtblBase_add_page ramBase space⟩
  · intro other running
    dsimp only at running
    obtain ⟨started, _, next⟩ := state.running running
    have different : other ≠ space := by
      intro same
      rw [same, fresh] at started
      cases started
    refine ⟨?_, fun same => different (Option.some.inj same).symm, next⟩
    exact (Function.update_of_ne different ..).trans started
  · intro other notStarted
    by_cases same : other = space
    · subst same
      exact state.fresh fresh
    · exact state.fresh ((Function.update_of_ne same ..).symm.trans notStarted)

theorem Counted.allocatePa (state : Counted ramBase pools count) {space : Space}
    (starting : pools.starting = some space) :
    Counted ramBase pools.allocatePa.2
      (Function.update count space (count space + 1)) := by
  obtain ⟨started, next⟩ := state.starting starting
  constructor
  · intro other same
    dsimp only [Pools.allocatePa] at same
    cases starting.symm.trans same
    refine ⟨started, ?_⟩
    rw [Function.update_self, ← Nat.add_assoc, ← poolPage_succ, ← next]
    rfl
  · intro other running
    dsimp only [Pools.allocatePa] at running
    obtain ⟨otherStarted, idle, otherNext⟩ := state.running running
    have different : other ≠ space := by
      intro same
      exact idle (same ▸ starting)
    rw [Function.update_of_ne different]
    dsimp only [Pools.allocatePa]
    exact ⟨otherStarted, idle, otherNext⟩
  · intro other fresh
    dsimp only [Pools.allocatePa] at fresh
    have different : other ≠ space := by
      intro same
      rw [same] at fresh
      cases started.symm.trans fresh
    rw [Function.update_of_ne different]
    exact state.fresh fresh

theorem Counted.handOff (state : Counted ramBase pools count) {space : Space}
    (starting : pools.starting = some space) :
    Counted ramBase
      { pools with
        starting := none
        running := Function.update pools.running space true
        spaces := pools.spaces.setImage space
          { pools.spaces.image space with memNextPa := pools.nextPa } } count := by
  obtain ⟨started, next⟩ := state.starting starting
  constructor
  · intro other none
    cases none
  · intro other running
    by_cases same : other = space
    · subst same
      exact ⟨started, nofun, (Function.update_self ..).trans next⟩
    · have before : pools.running other = true :=
        (Function.update_of_ne same ..).symm.trans running
      obtain ⟨otherStarted, _, otherNext⟩ := state.running before
      exact ⟨otherStarted, nofun, (Function.update_of_ne same ..).trans otherNext⟩
  · exact state.fresh

theorem Counted.memAllocatePa (state : Counted ramBase pools count)
    {space : Space} (running : pools.running space = true) :
    Counted ramBase
      { pools with
        spaces := pools.spaces.setImage space
          (memAllocatePa (pools.spaces.image space)).2 }
      (Function.update count space (count space + 1)) := by
  obtain ⟨started, idle, next⟩ := state.running running
  constructor
  · intro other starting
    dsimp only at starting
    have different : other ≠ space := by
      intro same
      exact idle (same ▸ starting)
    rw [Function.update_of_ne different]
    exact state.starting starting
  · intro other otherRunning
    dsimp only at otherRunning
    obtain ⟨otherStarted, otherIdle, otherNext⟩ := state.running otherRunning
    refine ⟨otherStarted, otherIdle, ?_⟩
    by_cases same : other = space
    · subst same
      have advanced : (pools.spaces.setImage other
          (TzTest.memAllocatePa (pools.spaces.image other)).2).memNextPa other =
            pools.spaces.memNextPa other + 0x1000 := Function.update_self ..
      change (pools.spaces.setImage other
        (TzTest.memAllocatePa (pools.spaces.image other)).2).memNextPa other = _
      rw [advanced, Function.update_self, ← Nat.add_assoc, ← poolPage_succ, ← next]
      rfl
    · rw [Function.update_of_ne same]
      exact (Function.update_of_ne same ..).trans otherNext
  · intro other fresh
    dsimp only at fresh
    have different : other ≠ space := by
      intro same
      rw [same] at fresh
      cases started.symm.trans fresh
    rw [Function.update_of_ne different]
    exact state.fresh fresh

/-- A step hands out the next page of an image, or none. -/
theorem Counted.step (state : Counted ramBase pools count) {action : PoolStep}
    {page : Option (Space × BitVec 64)}
    (stepped : pools.step ramBase action = some (page, later)) :
    Counted ramBase later (counted count page) ∧
      ∀ space pa, page = some (space, pa) →
        pa = poolPage ramBase (poolStart space + count space) := by
  cases action with
  | start space =>
      change ite _ _ _ = _ at stepped
      split_ifs at stepped with free
      obtain ⟨rfl, rfl⟩ := Prod.mk.inj (Option.some.inj stepped)
      exact ⟨state.start free.2, nofun⟩
  | allocatePa =>
      obtain ⟨space, starting, out⟩ := Option.map_eq_some_iff.mp stepped
      obtain ⟨rfl, rfl⟩ := Prod.mk.inj out
      refine ⟨state.allocatePa starting, ?_⟩
      rintro _ _ ⟨⟩
      exact (state.starting starting).2
  | handOff =>
      obtain ⟨space, starting, out⟩ := Option.map_eq_some_iff.mp stepped
      obtain ⟨rfl, rfl⟩ := Prod.mk.inj out
      exact ⟨state.handOff starting, nofun⟩
  | memAllocatePa space =>
      change ite _ _ _ = _ at stepped
      split_ifs at stepped with running
      obtain ⟨rfl, rfl⟩ := Prod.mk.inj (Option.some.inj stepped)
      refine ⟨state.memAllocatePa running, ?_⟩
      rintro _ _ ⟨⟩
      exact (state.running running).2.2

/-- A run hands out consecutive pages to each image. -/
theorem Counted.run (state : Counted ramBase pools count)
    {actions : List PoolStep} {pages : List (Space × BitVec 64)}
    (ran : Pools.run ramBase actions pools = some (pages, later)) (space : Space) :
    pagesOf space pages =
      (List.range' (poolStart space + count space) (countOf pages space)).map
        (poolPage ramBase) := by
  induction actions generalizing pools count pages with
  | nil =>
      obtain ⟨rfl, -⟩ := Prod.mk.inj (Option.some.inj ran)
      rfl
  | cons action actions induction =>
      obtain ⟨⟨page, middle⟩, stepped, rest⟩ := Option.bind_eq_some_iff.mp ran
      obtain ⟨⟨more, last⟩, reached, out⟩ := Option.bind_eq_some_iff.mp rest
      obtain ⟨rfl, rfl⟩ := Prod.mk.inj (Option.some.inj out)
      obtain ⟨next, address⟩ := state.step stepped
      have tail := induction next reached
      cases page with
      | none => exact tail
      | some first =>
          obtain ⟨owner, pa⟩ := first
          by_cases own : owner = space
          · subst own
            have split : pagesOf owner (Option.toList (some (owner, pa)) ++ more) =
                pa :: pagesOf owner more := by simp [pagesOf]
            have number : countOf (Option.toList (some (owner, pa)) ++ more) owner =
                countOf more owner + 1 := by
              unfold countOf
              rw [split]
              rfl
            change _ = List.map _ (List.range' (poolStart owner +
              Function.update count owner (count owner + 1) owner) _) at tail
            rw [Function.update_self, ← Nat.add_assoc] at tail
            rw [split, number, List.range'_succ, List.map_cons, tail,
              address owner pa rfl]
          · have split : pagesOf space (Option.toList (some (owner, pa)) ++ more) =
                pagesOf space more := by simp [pagesOf, own]
            have number : countOf (Option.toList (some (owner, pa)) ++ more) space =
                countOf more space := congrArg List.length split
            change _ = List.map _ (List.range' (poolStart space +
              Function.update count owner (count owner + 1) space) _) at tail
            rw [Function.update_of_ne (Ne.symm own)] at tail
            rw [split, number, tail]

end Run

theorem perm_pagesOf (pages : List (Space × BitVec 64)) :
    (pages.map Prod.snd).Perm
      (pagesOf .el3 pages ++
        (pagesOf (.el1 .secure) pages ++ pagesOf (.el1 .nonsecure) pages)) := by
  induction pages with
  | nil => exact .nil
  | cons page pages induction =>
      obtain ⟨space, pa⟩ := page
      rcases space with _ | _ | _
      · exact induction.cons pa
      · have step := (induction.cons pa).trans List.perm_middle.symm
        simpa [pagesOf] using step
      · rw [← List.append_assoc] at induction
        have step := (induction.cons pa).trans List.perm_middle.symm
        simpa [pagesOf] using step

section Distinct

variable {ramBase : BitVec 64}

theorem nodup_pool_iff (start count : Nat) :
    ((List.range' start count).map (poolPage ramBase)).Nodup ↔
      count ≤ pagesTotal := by
  rw [List.nodup_map_iff_inj_on List.nodup_range']
  simp only [List.mem_range'_1, poolPage_inj_iff]
  constructor
  · intro distinct
    by_contra more
    have again := distinct start ⟨le_refl _, by omega⟩ (start + pagesTotal)
      ⟨by omega, by omega⟩ (Nat.add_mod_right ..).symm
    unfold pagesTotal at again
    omega
  · intro within left leftInside right rightInside same
    unfold pagesTotal at within same
    omega

theorem disjoint_pools_iff {start distance : Nat} (near : distance < pagesTotal)
    (count other : Nat) :
    ((List.range' start count).map (poolPage ramBase)).Disjoint
        ((List.range' (start + distance) other).map (poolPage ramBase)) ↔
      PoolsApart distance count other := by
  unfold PoolsApart
  constructor
  · intro apart
    by_contra crossing
    simp only [not_or, not_and_or, not_le] at crossing
    obtain ⟨some, someOther, beyond | behind⟩ := crossing
    · apply apart (List.mem_map_of_mem (f := poolPage ramBase)
        (List.mem_range'_1.mpr (⟨by omega, by omega⟩ :
          start ≤ start + distance ∧ start + distance < start + count)))
      exact List.mem_map_of_mem (List.mem_range'_1.mpr ⟨le_refl _, by omega⟩)
    · apply apart (List.mem_map_of_mem (f := poolPage ramBase)
        (List.mem_range'_1.mpr (⟨le_refl _, by omega⟩ :
          start ≤ start ∧ start < start + count)))
      refine List.mem_map.mpr ⟨start + pagesTotal,
        List.mem_range'_1.mpr ⟨by omega, by omega⟩, ?_⟩
      exact poolPage_inj_iff.mpr (Nat.add_mod_right ..)
  · rintro within page left right
    obtain ⟨number, inside, rfl⟩ := List.mem_map.mp left
    obtain ⟨number', inside', same⟩ := List.mem_map.mp right
    rw [poolPage_inj_iff] at same
    rw [List.mem_range'_1] at inside inside'
    unfold pagesTotal at *
    omega

end Distinct

/-- The pages of a run are distinct when the images stay within their pools. -/
theorem nodup_pages_iff {ramBase : BitVec 64} {pages : List (Space × BitVec 64)}
    (consecutive : ∀ space, pagesOf space pages =
      (List.range' (poolStart space) (countOf pages space)).map
        (poolPage ramBase)) :
    (pages.map Prod.snd).Nodup ↔ WithinPools (countOf pages) := by
  have near : 0x1000 < pagesTotal ∧ 0x2000 < pagesTotal := by
    unfold pagesTotal
    omega
  have el3Secure := @disjoint_pools_iff ramBase 0 0x1000 near.1
    (countOf pages .el3) (countOf pages (.el1 .secure))
  have secureNonsecure := @disjoint_pools_iff ramBase 0x1000 0x1000 near.1
    (countOf pages (.el1 .secure)) (countOf pages (.el1 .nonsecure))
  have el3Nonsecure := @disjoint_pools_iff ramBase 0 0x2000 near.2
    (countOf pages .el3) (countOf pages (.el1 .nonsecure))
  rw [(perm_pagesOf pages).nodup_iff, List.nodup_append', List.nodup_append',
    List.disjoint_append_right]
  rw [consecutive .el3, consecutive (.el1 .secure), consecutive (.el1 .nonsecure),
    nodup_pool_iff, nodup_pool_iff, nodup_pool_iff]
  change (_ ∧ (_ ∧ _ ∧ List.Disjoint _ (List.map _ (List.range' (0x1000 + 0x1000) _))) ∧
    List.Disjoint _ (List.map _ (List.range' (0 + 0x1000) _)) ∧
    List.Disjoint _ (List.map _ (List.range' (0 + 0x2000) _))) ↔ _
  rw [show poolStart .el3 = 0 from rfl, show poolStart (.el1 .secure) = 0x1000 from rfl,
    el3Secure, secureNonsecure, el3Nonsecure]
  constructor
  · rintro ⟨first, ⟨second, third, middle⟩, lower, upper⟩
    refine ⟨?_, lower, middle, upper⟩
    rintro (_ | _ | _)
    · exact first
    · exact second
    · exact third
  · rintro ⟨once, lower, middle, upper⟩
    exact ⟨once _, ⟨once _, once _, middle⟩, lower, upper⟩

theorem Pools.Reset.consecutive {ramBase : BitVec 64} {pools last : Pools}
    (reset : pools.Reset) {actions : List PoolStep}
    {pages : List (Space × BitVec 64)}
    (ran : Pools.run ramBase actions pools = some (pages, last)) (space : Space) :
    pagesOf space pages =
      (List.range' (poolStart space) (countOf pages space)).map
        (poolPage ramBase) := by
  have ranges := reset.counted.run ran space
  rwa [Nat.add_zero] at ranges

/-- No page is handed out twice, to one image or to two, exactly as long as the
images stay within their pools. -/
theorem pools_distinct_iff {ramBase : BitVec 64} {pools last : Pools}
    (reset : pools.Reset) {actions : List PoolStep}
    {pages : List (Space × BitVec 64)}
    (ran : Pools.run ramBase actions pools = some (pages, last)) :
    (pages.map Prod.snd).Nodup ↔ WithinPools (countOf pages) :=
  nodup_pages_iff (reset.consecutive ran)

def offPools : Pools where
  nextPa := 0
  starting := none
  started _ := false
  running _ := false
  spaces :=
    { mem := fun _ => (0 : BitVec 64)
      memNextPa := fun _ => (0 : BitVec 64)
      memHeapPool := fun _ => (0 : BitVec 64) }

theorem offPools_reset : offPools.Reset :=
  ⟨rfl, fun _ => rfl, fun _ => rfl⟩

/-- EL3 and secure EL1 start and take a page each. -/
def startTwo : List PoolStep :=
  [.start .el3, .allocatePa, .handOff, .start (.el1 .secure), .allocatePa,
    .handOff]

theorem run_startTwo :
    ∃ last, Pools.run 0x80000000 startTwo offPools =
        some ([(.el3, 0x80041000), (.el1 .secure, 0x81041000)], last) ∧
      last.running .el3 = true :=
  ⟨_, rfl, rfl⟩

section Longer

variable {ramBase : BitVec 64}

theorem run_append {first rest : List PoolStep} {pools middle last : Pools}
    {pages more : List (Space × BitVec 64)}
    (ran : Pools.run ramBase first pools = some (pages, middle))
    (goes : Pools.run ramBase rest middle = some (more, last)) :
    Pools.run ramBase (first ++ rest) pools = some (pages ++ more, last) := by
  induction first generalizing pools pages with
  | nil =>
      obtain ⟨rfl, rfl⟩ := Prod.mk.inj (Option.some.inj ran)
      exact goes
  | cons action actions induction =>
      obtain ⟨⟨page, next⟩, stepped, ran⟩ := Option.bind_eq_some_iff.mp ran
      obtain ⟨⟨later, end'⟩, reached, out⟩ := Option.bind_eq_some_iff.mp ran
      obtain ⟨rfl, rfl⟩ := Prod.mk.inj (Option.some.inj out)
      apply Option.bind_eq_some_iff.mpr
      refine ⟨(page, next), stepped, Option.bind_eq_some_iff.mpr
        ⟨(later ++ more, last), induction reached, ?_⟩⟩
      exact congrArg (fun pages => some (pages, last)) (List.append_assoc ..).symm

theorem pagesOf_cons_self (space : Space) (page : BitVec 64)
    (pages : List (Space × BitVec 64)) :
    pagesOf space ((space, page) :: pages) = page :: pagesOf space pages := by
  simp [pagesOf]

/-- A running image gets as many pages as it asks for. -/
theorem run_replicate {space : Space} (count : Nat) {pools : Pools}
    (running : pools.running space = true) :
    ∃ pages last,
      Pools.run ramBase (List.replicate count (.memAllocatePa space)) pools =
        some (pages, last) ∧
      countOf pages space = count := by
  induction count generalizing pools with
  | zero => exact ⟨[], pools, rfl, rfl⟩
  | succ count induction =>
      let page : BitVec 64 := (memAllocatePa (pools.spaces.image space)).1
      let later : Pools :=
        { pools with
          spaces := pools.spaces.setImage space
            (memAllocatePa (pools.spaces.image space)).2 }
      have stepped : pools.step ramBase (.memAllocatePa space) =
          some (some (space, page), later) := if_pos running
      obtain ⟨pages, last, ran, counted⟩ := @induction later running
      refine ⟨(space, page) :: pages, last, ?_, ?_⟩
      · exact Option.bind_eq_some_iff.mpr ⟨_, stepped,
          Option.bind_eq_some_iff.mpr ⟨_, ran, rfl⟩⟩
      · have front := pagesOf_cons_self space page pages
        exact (congrArg List.length front).trans (congrArg (· + 1) counted)

end Longer

/-- All images start, and take pages at runtime while the next ones do. -/
def startThree : List PoolStep :=
  [.start .el3, .allocatePa, .handOff, .memAllocatePa .el3,
    .start (.el1 .secure), .allocatePa, .memAllocatePa .el3, .handOff,
    .memAllocatePa (.el1 .secure),
    .start (.el1 .nonsecure), .memAllocatePa .el3, .allocatePa, .handOff,
    .memAllocatePa (.el1 .nonsecure), .memAllocatePa (.el1 .secure)]

theorem run_startThree :
    ∃ last, Pools.run 0x40000000 startThree offPools =
      some ([(.el3, 0x40041000), (.el3, 0x40042000), (.el1 .secure, 0x41041000),
        (.el3, 0x40043000), (.el1 .secure, 0x41042000), (.el3, 0x40044000),
        (.el1 .nonsecure, 0x42041000), (.el1 .nonsecure, 0x42042000),
        (.el1 .secure, 0x41043000)], last) :=
  ⟨_, rfl⟩

theorem pools_distinct_iff_startThree :
    ∃ pages last, Pools.run 0x40000000 startThree offPools = some (pages, last) ∧
      pages.length = 9 ∧ ((pages.map Prod.snd).Nodup ↔ WithinPools (countOf pages)) := by
  obtain ⟨last, ran⟩ := run_startThree
  exact ⟨_, last, ran, rfl, pools_distinct_iff offPools_reset ran⟩

/-- After 4096 pages more, EL3 hands out the first page of secure EL1. -/
theorem pools_not_distinct :
    ∃ pages last,
      Pools.run 0x80000000
        (startTwo ++ List.replicate 0x1000 (.memAllocatePa .el3)) offPools =
          some (pages, last) ∧
      ¬(pages.map Prod.snd).Nodup := by
  obtain ⟨middle, ran, running⟩ := run_startTwo
  obtain ⟨more, last, goes, counted⟩ := run_replicate 0x1000 running
  have whole := run_append ran goes
  refine ⟨_, last, whole, ?_⟩
  rw [nodup_pages_iff (offPools_reset.consecutive whole)]
  intro within
  have el3 : countOf ([(.el3, 0x80041000), (.el1 .secure, 0x81041000)] ++ more)
      .el3 = 0x1000 + 1 := by
    rw [← counted]
    simp [countOf, pagesOf]
  have secure : 0 < countOf
      ([(.el3, 0x80041000), (.el1 .secure, 0x81041000)] ++ more)
      (.el1 .secure) := by
    simp [countOf, pagesOf]
  have apart := within.el3Secure
  unfold PoolsApart at apart
  rw [el3] at apart
  omega

end TzTest.InitUtil
