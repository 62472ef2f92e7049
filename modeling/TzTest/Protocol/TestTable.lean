import TzTest.Protocol.Requests

/-!
# The test table

`tztest_start` runs the interop test and then every entry of the table.  Each
entry is run once, in the image of its exception level and security state, and
the two worlds are back at their resting point after each.
-/

namespace TzTest

open Coroutine (Local Outcome)

variable {arch : Arch} {Paging : Type}

/-- The image with the exception level and the security state. -/
def imageOf? (el : U32) (world : World) : Option Image :=
  if el = 0 then some (.el0 world)
  else if el = 1 then some (.el1 world)
  else if el = 3 then some .el3
  else none

/-- The security state that a number stands for. -/
def World.ofState? (state : U32) : Option World :=
  if state = World.secure.state then some .secure
  else if state = World.nonsecure.state then some .nonsecure
  else none

theorem World.ofState?_state (world : World) :
    World.ofState? world.state = some world := by
  cases world <;> rfl

namespace TztestCase

/-- The call that the entry asks for. -/
def call? (entry : TztestCase) : Option Executed := do
  let world ← World.ofState? entry.state
  let image ← imageOf? entry.el world
  return ⟨image, entry.fid, entry.arg⟩

/-- An entry of the table: its test function is registered in the image that
it names and keeps `SCR.NS`. -/
structure Valid (env : Env arch Paging) (entry : TztestCase) (image : Image)
    (world : World) : Prop where
  state : entry.state = world.state
  named : imageOf? entry.el world = some image
  fid : entry.fid ≠ 0
  registered : (env.testFunc image entry.fid).isSome
  keeps : env.KeepsNs image entry.fid entry.arg world

/-- `TEST_END` -/
def testEnd : TztestCase :=
  { fid := 0, el := 0, state := 0, arg := 0 }

theorem Valid.call? {env : Env arch Paging} {entry : TztestCase} {image : Image}
    {world : World} (valid : entry.Valid env image world) :
    entry.call? = some ⟨image, entry.fid, entry.arg⟩ := by
  simp [TztestCase.call?, valid.state, World.ofState?_state, valid.named]

theorem Valid.entryCalls {env : Env arch Paging} {entry : TztestCase}
    {image : Image} {world : World} (valid : entry.Valid env image world) :
    entryCalls env image entry.fid entry.arg =
      [⟨image, entry.fid, entry.arg⟩] := by
  obtain ⟨test, found⟩ := Option.isSome_iff_exists.mp valid.registered
  simp [TzTest.entryCalls, found]

end TztestCase

/-- A table entry's dispatch comes to the image that the entry names. -/
theorem dispatchImage?_dispatchDesc (env : Env arch Paging)
    (fid el arg : U32) {world : World} {image : Image}
    (named : imageOf? el world = some image)
    (foreign : image ≠ .el0 .nonsecure) :
    dispatchImage? (dispatchDesc env fid el world.state arg) = some image := by
  simp only [dispatchImage?, el1Owns_dispatchDesc, el3Owns_dispatchDesc,
    disp_dispatchDesc, Word.low_word]
  unfold imageOf? at named
  cases world with
  | secure =>
      have away : ∀ level : U32,
          ¬(el = level ∧ World.secure.state = World.nonsecure.state) :=
        fun level both => absurd both.2 (by decide)
      rw [if_neg (away 1), if_neg (away 3), secureImage?, if_pos rfl]
      exact named
  | nonsecure =>
      by_cases atEl0 : el = 0
      · rw [if_pos atEl0] at named
        cases named
        exact absurd rfl foreign
      rw [if_neg atEl0] at named
      by_cases atEl1 : el = 1
      · rw [if_pos atEl1] at named
        rw [if_pos ⟨atEl1, rfl⟩]
        exact named
      rw [if_neg atEl1] at named
      rw [if_neg fun both => atEl1 both.1]
      by_cases atEl3 : el = 3
      · rw [if_pos atEl3] at named
        rw [if_pos ⟨atEl3, rfl⟩]
        exact named
      · rw [if_neg atEl3] at named
        cases named

section Table

variable {env : Env arch Paging} {sys : Sys arch Paging}

/-- One entry of the table. -/
theorem returns_el0RunTest {entry : TztestCase} {image : Image} {world : World}
    (valid : entry.Valid env image world) (inStep : sys.InStep .nonsecure) :
    ∃ after ops,
      Returns env
        (el0RunTest env .nonsecure entry.fid entry.el entry.state entry.arg) sys
        waiting () after waiting ∧
      after.InStep .nonsecure ∧
      sys.Grows after [⟨image, entry.fid, entry.arg⟩] ops := by
  rw [← valid.entryCalls, valid.state]
  by_cases here : image = .el0 .nonsecure
  · have named := valid.named
    have own : entry.el = 0 ∧ world = .nonsecure := by
      subst here
      unfold imageOf? at named
      split at named
      · cases named
        exact ⟨by assumption, rfl⟩
      · split at named
        · cases named
        · split at named <;> cases named
    obtain ⟨level, worlds⟩ := own
    subst worlds here
    rw [level]
    exact ⟨_, [], Returns.of_local waiting
      (local_el0RunTest env entry.fid entry.arg sys .nonsecure),
      inStep_runEntry _ _ _ _ _ valid.keeps inStep,
      Sys.grows_runEntry env _ _ _ sys⟩
  · have owner := dispatchImage?_dispatchDesc env entry.fid entry.el entry.arg
      valid.named here
    have disp := disp_dispatchDesc env entry.fid entry.el world.state entry.arg
    have keeps : env.DispatchKeepsNs
        (dispatchDesc env entry.fid entry.el world.state entry.arg) := by
      intro candidate found other states
      rw [owner] at found
      cases found
      simp only [disp, Word.low_word, World.state_inj] at states
      subst states
      simpa [disp] using valid.keeps
    obtain ⟨value, after, returned, handled⟩ :=
      handled_dispatch (dispatchDesc env entry.fid entry.el world.state
        entry.arg) inStep keeps
    rw [owner, if_neg (by simp)] at returned
    have foreign : ¬(entry.el = (Image.el0 .nonsecure).exceptionLevel ∧
        world.state = World.nonsecure.state) := by
      rintro ⟨level, states⟩
      have named := valid.named
      rw [level, World.state_inj.mp states] at named
      exact here (Option.some.inj named).symm
    have grown := handled.grows
    simp only [Request.calls, owner, disp, Word.low_word] at grown
    refine ⟨after, _, ?_, handled.inStep, grown⟩
    unfold Returns
    rw [el0RunTest_foreign env _ _ sys .nonsecure foreign]
    exact Coroutine.Steps.bind returned (Coroutine.Steps.refl _)

/-- The `while` loop: the induction is on the table, and between two entries
nonsecure EL0 is in step and secure EL0 waits. -/
theorem returns_tztestLoop (table rest : List TztestCase)
    (valid : ∀ entry ∈ table, ∃ image world, entry.Valid env image world)
    (inStep : sys.InStep .nonsecure) :
    ∃ after calls ops,
      Returns env (tztestLoop env (table ++ TztestCase.testEnd :: rest)) sys
        waiting () after waiting ∧
      after.InStep .nonsecure ∧
      sys.Grows after calls ops ∧
      calls.map some = table.map TztestCase.call? := by
  induction table generalizing sys with
  | nil =>
      exact ⟨sys, [], [], Coroutine.Steps.refl _, inStep,
        .of_eq rfl rfl rfl, rfl⟩
  | cons entry table induction =>
      obtain ⟨image, world, first⟩ := valid entry (by simp)
      obtain ⟨middle, ops, returned, midStep, grown⟩ :=
        returns_el0RunTest first inStep
      obtain ⟨after, calls, laterOps, later, lastStep, laterGrown, listed⟩ :=
        induction (fun entry member => valid entry (by simp [member])) midStep
      refine ⟨after, ⟨image, entry.fid, entry.arg⟩ :: calls, ops ++ laterOps,
        ?_, lastStep, grown.trans laterGrown, ?_⟩
      · simp only [List.cons_append, tztestLoop, ne_eq, first.fid,
          not_false_eq_true, if_true]
        exact returned.bind later
      · simp [listed, first.call?]

theorem returns_interopTest (inStep : sys.InStep .nonsecure) :
    ∃ after ops,
      Returns env (interopTest env) sys waiting () after waiting ∧
      after.InStep .nonsecure ∧ sys.Grows after [] ops := by
  have handled := @handled_test _ _ env sys (interopTestDesc env) inStep
  exact ⟨_, _,
    (returns_test (interopTestDesc env)).bind (Coroutine.Steps.refl _),
    handled.inStep.congr rfl rfl,
    handled.grows.trans (.of_eq rfl rfl rfl)⟩

end Table

section Example

/-- Every image has one test function, which writes CPACR. -/
def cpacrEnv : Env .aarch64 Unit :=
  { bareEnv .aarch64 with
    testFunc := fun _ fid =>
      if fid = 1 then some fun _ => .setReg (3 : BitVec 64) 1 0 .done else none }

theorem keepsNs_cpacrEnv (image : Image) (world : World) :
    cpacrEnv.KeepsNs image 1 0 world := by
  intro test found sys _
  cases found
  refine ⟨?_, trivial⟩
  cases image with
  | el3 => rfl
  | el1 world =>
      have regs := regs_setReg_el1 cpacrEnv world (3 : BitVec 64) 0 sys
        (by decide : (1 : U32) ≠ 3)
      exact congrArg (fun regs => regs.scr.nsBit) regs
  | el0 world => rfl

/-- One entry for every exception level and security state. -/
def cpacrTable : List TztestCase :=
  [⟨1, 0, 1, 0⟩, ⟨1, 0, 0, 0⟩, ⟨1, 1, 1, 0⟩, ⟨1, 1, 0, 0⟩, ⟨1, 3, 1, 0⟩, ⟨1, 3, 0, 0⟩]

theorem valid_cpacrTable :
    ∀ entry ∈ cpacrTable, ∃ image world, entry.Valid cpacrEnv image world := by
  have entryValid : ∀ (el : U32) (image : Image) (world : World),
      imageOf? el world = some image →
      (⟨1, el, world.state, 0⟩ : TztestCase).Valid cpacrEnv image world :=
    fun el image world named =>
      ⟨rfl, named, (by decide : (1 : U32) ≠ 0), rfl,
        keepsNs_cpacrEnv image world⟩
  intro entry member
  simp only [cpacrTable, List.mem_cons, List.not_mem_nil, or_false] at member
  rcases member with rfl | rfl | rfl | rfl | rfl | rfl
  · exact ⟨_, _, entryValid 0 (.el0 .nonsecure) .nonsecure rfl⟩
  · exact ⟨_, _, entryValid 0 (.el0 .secure) .secure rfl⟩
  · exact ⟨_, _, entryValid 1 (.el1 .nonsecure) .nonsecure rfl⟩
  · exact ⟨_, _, entryValid 1 (.el1 .secure) .secure rfl⟩
  · exact ⟨_, _, entryValid 3 .el3 .nonsecure rfl⟩
  · exact ⟨_, _, entryValid 3 .el3 .secure rfl⟩

end Example

end TzTest
