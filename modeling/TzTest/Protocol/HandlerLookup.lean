import TzTest.Protocol.Session

/-!
# The lookup of a test function

`run_test` reads `test_func[fid]` in the image that owns the test, for any
`fid` that EL0 has asked for.  The tables are arrays with designated
initialisers, each as long as its image and architecture make it.
-/

namespace TzTest

variable {arch : Arch} {Paging : Type}

/-- `tztest_func_id_t` -/
inductive TztestFuncId where
  | smc
  | regAccess
  | cpacrTrap
  | wfxTrap
  | fpTrap
  | maskBits
  deriving DecidableEq, Repr

def TztestFuncId.code : TztestFuncId → Nat
  | .smc => 1
  | .regAccess => 2
  | .cpacrTrap => 3
  | .wfxTrap => 4
  | .fpTrap => 5
  | .maskBits => 6

/-- The test functions that the tables name. -/
inductive TestFunction where
  | el0CheckSmc
  | el0CheckRegisterAccess
  | el0CheckCpacrTrap
  | el0CheckWfxTrap
  | el0CheckFpTrap
  | el1CheckSmc
  | el1CheckRegisterAccess
  | el1CheckCpacrTrap
  | el1CheckWfxTrap
  | el1CheckFpTrap
  | checkMaskBits
  | el3CheckSmc
  deriving DecidableEq, Repr

/-- The initialisers of `test_func` that the two EL0 images share. -/
def el0Initialisers : Arch → List (TztestFuncId × TestFunction)
  | .aarch64 =>
      [(.smc, .el0CheckSmc), (.regAccess, .el0CheckRegisterAccess),
        (.cpacrTrap, .el0CheckCpacrTrap), (.wfxTrap, .el0CheckWfxTrap),
        (.fpTrap, .el0CheckFpTrap)]
  | .arm => [(.smc, .el0CheckSmc), (.regAccess, .el0CheckRegisterAccess)]

/-- Those that the two EL1 images share. -/
def el1Initialisers : Arch → List (TztestFuncId × TestFunction)
  | .aarch64 =>
      [(.smc, .el1CheckSmc), (.regAccess, .el1CheckRegisterAccess),
        (.cpacrTrap, .el1CheckCpacrTrap), (.wfxTrap, .el1CheckWfxTrap),
        (.fpTrap, .el1CheckFpTrap)]
  | .arm => [(.smc, .el1CheckSmc), (.regAccess, .el1CheckRegisterAccess)]

/-- The initialisers of the image's `test_func`. -/
def initialisers : Arch → Image → List (TztestFuncId × TestFunction)
  | arch, .el0 _ => el0Initialisers arch
  | arch, .el1 .secure => el1Initialisers arch
  | .aarch64, .el1 .nonsecure => el1Initialisers .aarch64
  | .arm, .el1 .nonsecure => el1Initialisers .arm ++ [(.maskBits, .checkMaskBits)]
  | .aarch64, .el3 => []
  | .arm, .el3 => [(.smc, .el3CheckSmc)]

/-- The array that designated initialisers make: it ends with the largest index,
and the entries without an initialiser are null. -/
def designated (entries : List (TztestFuncId × TestFunction)) :
    List (Option TestFunction) :=
  let length := (entries.map fun entry => entry.1.code + 1).foldr max 0
  (List.range length).map fun index =>
    (entries.find? fun entry => entry.1.code == index).map Prod.snd

/-- `test_func` -/
def testFuncTable (arch : Arch) (image : Image) : List (Option TestFunction) :=
  designated (initialisers arch image)

/-- The images as they are linked: an index beyond the table reads what is
behind it in memory. -/
def Env.linked (env : Env arch Paging)
    (code : TestFunction → U32 → Handler arch)
    (behind : Image → U32 → Option (U32 → Handler arch)) : Env arch Paging :=
  { env with
    testFunc := fun image fid =>
      match (testFuncTable arch image)[fid.toNat]? with
      | some entry => entry.map code
      | none => behind image fid }

/-- A dispatch descriptor of nonsecure EL0, with the exception level and the
security state of an image. -/
structure Asked (arch : Arch) where
  desc : Desc arch
  world : World
  image : Image
  el : desc.disp.el = U32.word arch image.exceptionLevel
  state : desc.disp.state = U32.word arch world.state
  owner : image ∈ [.el0 world, .el1 world, .el3]

namespace Asked

variable (asked : Asked arch)

def fid : U32 := asked.desc.disp.fid

def arg : U32 := asked.desc.disp.arg.low

/-- `run_test` at nonsecure EL0 calls its own tests; the others take the
descriptor along. -/
def program (env : Env arch Paging) : Code arch Paging Unit :=
  if asked.image = .el0 .nonsecure then
    el0RunTest env .nonsecure asked.fid asked.desc.disp.el.low
      asked.desc.disp.state.low asked.arg
  else do
    let _ ← svc env .nonsecure SvcOp.dispatch.code asked.desc

/-- The calls of test functions that are registered for the request. -/
def registered : List Executed :=
  match (testFuncTable arch asked.image)[asked.fid.toNat]? with
  | some (some _) => [⟨asked.image, asked.fid, asked.arg⟩]
  | _ => []

/-- Whatever is behind the tables in memory, the request is answered, and its
image has called the function that is registered, or nothing.  Test functions
are to keep `SCR.NS`. -/
def Safe (env : Env arch Paging) (code : TestFunction → U32 → Handler arch)
    (sys : Sys arch Paging) : Prop :=
  ∀ behind,
    (env.linked code behind).KeepsNs asked.image asked.fid asked.arg asked.world →
    ∃ after,
      Returns (env.linked code behind) (asked.program (env.linked code behind))
        sys waiting () after waiting ∧
      after.executed = sys.executed ++ asked.registered

theorem dispatchImage?_desc (foreign : asked.image ≠ .el0 .nonsecure) :
    dispatchImage? asked.desc = some asked.image := by
  obtain ⟨desc, world, image, el, state, owner⟩ := asked
  have one : (1 : Word arch) = U32.word arch 1 := by cases arch <;> rfl
  have three : (3 : Word arch) = U32.word arch 3 := by cases arch <;> rfl
  simp only [dispatchImage?, El1Owns, El3Owns, secureImage?, el, state, one, three,
    U32.word_inj, Word.low_word]
  simp only [List.mem_cons, List.not_mem_nil, or_false] at owner
  rcases owner with rfl | rfl | rfl <;> cases world <;>
    first
      | rfl
      | exact absurd rfl foreign

/-- The request comes back, with the calls of `run_test` in the image. -/
theorem returns {env : Env arch Paging} {sys : Sys arch Paging}
    (inStep : sys.InStep .nonsecure)
    (keeps : env.KeepsNs asked.image asked.fid asked.arg asked.world) :
    ∃ after,
      Returns env (asked.program env) sys waiting () after waiting ∧
      after.executed = sys.executed ++
        entryCalls env asked.image asked.fid asked.arg := by
  by_cases own : asked.image = .el0 .nonsecure
  · have here : asked.world = .nonsecure := by
      have owner := asked.owner
      rw [own] at owner
      simpa [eq_comm] using owner
    have el : asked.desc.disp.el.low = 0 := by
      rw [asked.el, Word.low_word, own]
      rfl
    have state : asked.desc.disp.state.low = World.nonsecure.state := by
      rw [asked.state, Word.low_word, here]
    rw [program, if_pos own, el, state, own]
    exact ⟨_, Returns.of_local waiting
      (local_el0RunTest env asked.fid asked.arg sys .nonsecure),
      executed_runEntry ..⟩
  · have reaches := asked.dispatchImage?_desc own
    have dispatchKeeps : env.DispatchKeepsNs asked.desc := by
      intro image found world named
      rw [reaches] at found
      cases found
      rw [asked.state, Word.low_word, World.state_inj] at named
      rw [← named]
      exact keeps
    obtain ⟨value, after, returned, handled⟩ :=
      handled_dispatch asked.desc inStep dispatchKeeps
    rw [reaches, if_neg (by simp)] at returned
    have grown := handled.grows.executed
    simp only [Request.calls, reaches] at grown
    rw [program, if_neg own]
    exact ⟨after, Coroutine.Steps.bind returned (Coroutine.Steps.refl _), grown⟩

section Lookup

variable {env : Env arch Paging} {code : TestFunction → U32 → Handler arch}
  {sys : Sys arch Paging}

theorem entryCalls_inside {behind : Image → U32 → Option (U32 → Handler arch)}
    (inside : asked.fid.toNat < (testFuncTable arch asked.image).length) :
    entryCalls (env.linked code behind) asked.image asked.fid asked.arg =
      asked.registered := by
  have found := List.getElem?_eq_getElem inside
  simp only [entryCalls, Env.linked, registered, found]
  cases (testFuncTable arch asked.image)[asked.fid.toNat] <;> rfl

theorem safe_of_inside (inStep : sys.InStep .nonsecure)
    (inside : asked.fid.toNat < (testFuncTable arch asked.image).length) :
    asked.Safe env code sys := by
  intro behind keeps
  obtain ⟨after, returned, executed⟩ := asked.returns inStep keeps
  rw [asked.entryCalls_inside inside] at executed
  exact ⟨after, returned, executed⟩

/-- Behind the table, there may be the address of any function. -/
theorem not_safe_of_beyond (inStep : sys.InStep .nonsecure)
    (beyond : (testFuncTable arch asked.image).length ≤ asked.fid.toNat) :
    ¬asked.Safe env code sys := by
  intro safe
  have missing := List.getElem?_eq_none beyond
  let behind : Image → U32 → Option (U32 → Handler arch) :=
    fun _ _ => some fun _ => .done
  have found : (env.linked code behind).testFunc asked.image asked.fid =
      some fun _ => .done := by
    simp only [Env.linked, missing]
    rfl
  have keeps : (env.linked code behind).KeepsNs asked.image asked.fid asked.arg
      asked.world := by
    intro test member other _
    rw [found] at member
    cases member
    trivial
  obtain ⟨after, returned, executed⟩ := safe behind keeps
  obtain ⟨real, again, called⟩ := asked.returns inStep keeps
  have same := (returned.unique again).1
  have none : asked.registered = [] := by
    simp only [registered, missing]
  have one : entryCalls (env.linked code behind) asked.image asked.fid asked.arg =
      [⟨asked.image, asked.fid, asked.arg⟩] := by
    simp only [entryCalls, found]
  rw [none, same, called, one] at executed
  have grown := congrArg List.length executed
  simp at grown

end Lookup

end Asked

/-- The lookup stays within the table where the `fid` is an index of it. -/
theorem asked_safe_iff {env : Env arch Paging} {sys : Sys arch Paging}
    (code : TestFunction → U32 → Handler arch) (asked : Asked arch)
    (inStep : sys.InStep .nonsecure) :
    asked.Safe env code sys ↔
      asked.fid.toNat < (testFuncTable arch asked.image).length := by
  constructor
  · intro safe
    by_contra beyond
    exact asked.not_safe_of_beyond inStep (Nat.le_of_not_lt beyond) safe
  · exact asked.safe_of_inside inStep

/-- The test of EL3 for `TZTEST_SMC`. -/
def el3Smc (arch : Arch) : Asked arch where
  desc := dispatchDesc (bareEnv arch) 1 3 1 0
  world := .nonsecure
  image := .el3
  el := by cases arch <;> rfl
  state := by cases arch <;> rfl
  owner := by simp

/-- ARM has an entry for it. -/
theorem asked_safe_iff_el3Smc :
    (bareSys .arm).InStep .nonsecure ∧
      ((el3Smc .arm).Safe (bareEnv .arm) (fun _ _ => .done) (bareSys .arm) ↔
        (el3Smc .arm).fid.toNat <
          (testFuncTable .arm (el3Smc .arm).image).length) :=
  ⟨inStep_bareSys .arm,
    asked_safe_iff (fun _ _ => .done) (el3Smc .arm) (inStep_bareSys .arm)⟩

/-- On AArch64, the table of EL3 is empty. -/
theorem el3Smc_not_safe :
    ¬(el3Smc .aarch64).Safe (bareEnv .aarch64) (fun _ _ => .done)
      (bareSys .aarch64) :=
  (el3Smc .aarch64).not_safe_of_beyond (inStep_bareSys .aarch64) (by decide)

end TzTest
