import Mathlib.Data.Bool.Count
import TzTest.El0
import TzTest.Exceptions

/-!
# The verdicts of the test macros

The macros of `tztest_internal.h` over the record and the counters that all
images share.  Exceptions may be taken wherever a macro runs code that is not
its own: the function and the condition it is given, the messages it prints,
and whatever runs between two uses.  Its own statements only load and store
the shared pages, which can raise nothing but data aborts, and both handlers
shut down on those.
-/

namespace TzTest

variable {arch : Arch}

/-- The handler of the image that an exception is taken to. -/
def Space.handleException : Space → (ec iss far elr : Word arch) →
    SysException → SysException × Option (Word arch)
  | .el3 => el3HandleException
  | .el1 world => el1HandleException world

/-- The image's `exception_level` constant. -/
def Space.exceptionLevel : Space → U32
  | .el3 => Image.el3.exceptionLevel
  | .el1 world => (Image.el1 world).exceptionLevel

/-- An exception that its handler returns from. -/
structure Taken (arch : Arch) where
  handler : Space
  ec : Word arch
  iss : Word arch
  far : Word arch
  elr : Word arch
  returns : ∀ excp, (handler.handleException ec iss far elr excp).2.isSome

/-- The shared pages as the macros see them, and what the macros print. -/
structure Shared where
  excp : SysException
  testCntl : TestControl
  printed : List String

/-- Both pages zeroed, nothing printed. -/
def Shared.start : Shared :=
  { excp := SysException.zeroed
    testCntl := { failCount := 0, testCount := 0 }
    printed := [] }

namespace Shared

def take (shared : Shared) (exception : Taken arch) : Shared :=
  { shared with
    excp := (exception.handler.handleException exception.ec exception.iss
      exception.far exception.elr shared.excp).1 }

def takes (shared : Shared) (exceptions : List (Taken arch)) : Shared :=
  exceptions.foldl take shared

/-- `TEST_MSG_SUCCESS` and `TEST_MSG_FAILURE` -/
def print (shared : Shared) (text : String) : Shared :=
  { shared with printed := shared.printed ++ [text] }

def incTestCount (shared : Shared) : Shared :=
  { shared with
    testCntl :=
      { shared.testCntl with testCount := shared.testCntl.testCount + 1 } }

def incFailCount (shared : Shared) : Shared :=
  { shared with
    testCntl :=
      { shared.testCntl with failCount := shared.testCntl.failCount + 1 } }

end Shared

/-- A condition: the exceptions taken while it is evaluated, and the value it
has then. -/
structure Cond (arch : Arch) where
  exceptions : List (Taken arch)
  value : SysException → Bool

/-- A condition of loads from the record. -/
def Cond.load (value : SysException → Bool) : Cond arch :=
  { exceptions := [], value := value }

namespace Shared

/-- `TEST_CONDITION`, with the exceptions taken while it prints. -/
def testCondition (cond : Cond arch) (printing : List (Taken arch))
    (shared : Shared) : Shared :=
  let shared := shared.takes cond.exceptions
  let shared :=
    if cond.value shared.excp = false then
      ((shared.print "FAILED\n").takes printing).incFailCount
    else
      (shared.print "PASSED\n").takes printing
  shared.incTestCount

/-- `TEST_FUNCTION` -/
def testFunction (fn : List (Taken arch)) (cond : Cond arch)
    (printing : List (Taken arch)) (shared : Shared) : Shared :=
  testCondition cond printing (shared.takes fn)

/-- `TEST_ENABLE_EXCP_LOG` -/
def testEnableExcpLog (shared : Shared) : Shared :=
  { shared with
    excp := { shared.excp with action := SysException.skip, log := true } }

/-- `TEST_EXCP_RESET` -/
def testExcpReset (shared : Shared) : Shared :=
  { shared with
    excp :=
      { shared.excp with
        taken := false
        ec := 0
        iss := 0
        far := 0
        el := 0
        state := 0
        action := 0
        log := false } }

/-- `TEST_EXCEPTION` -/
def testException (fn : List (Taken arch)) (excp el : U32)
    (printing : List (Taken arch)) (shared : Shared) : Shared :=
  let shared := shared.testEnableExcpLog.takes fn
  let shared := testCondition
    (.load fun record => record.taken && record.el == el && record.ec == excp)
    printing shared
  shared.testExcpReset

/-- `TEST_NO_EXCEPTION` -/
def testNoException (fn : List (Taken arch)) (printing : List (Taken arch))
    (shared : Shared) : Shared :=
  let shared := shared.testEnableExcpLog.takes fn
  let shared := testCondition (.load fun record => !record.taken) printing shared
  shared.testExcpReset

end Shared

/-- What a use of a macro is given. -/
inductive Test (arch : Arch) where
  | condition (cond : Cond arch)
  | function (fn : List (Taken arch)) (cond : Cond arch)
  | exception (fn : List (Taken arch)) (excp el : U32)
  | noException (fn : List (Taken arch))

/-- A use of a macro by some image, with the exceptions taken since the use
before it. -/
structure Use (arch : Arch) where
  before : List (Taken arch)
  test : Test arch
  printing : List (Taken arch)

def Test.run (printing : List (Taken arch)) : Test arch → Shared → Shared
  | .condition cond => Shared.testCondition cond printing
  | .function fn cond => Shared.testFunction fn cond printing
  | .exception fn excp el => Shared.testException fn excp el printing
  | .noException fn => Shared.testNoException fn printing

def Use.run (use : Use arch) (shared : Shared) : Shared :=
  use.test.run use.printing (shared.takes use.before)

def Use.runAll (uses : List (Use arch)) (shared : Shared) : Shared :=
  uses.foldl (fun shared use => use.run shared) shared

/-- The numbers in the last message of `tztest_start`. -/
def Shared.validationComplete (shared : Shared) : Int × Int :=
  ((shared.testCntl.testCount - shared.testCntl.failCount).toInt,
    shared.testCntl.testCount.toInt)

/-- What a test decides, from its own function and condition alone: the last
exception of its body, or none. -/
def Test.passes : Test arch → Bool
  | .condition cond => cond.value SysException.zeroed
  | .function _ cond => cond.value SysException.zeroed
  | .exception fn excp el =>
      match fn.getLast? with
      | some last =>
          last.handler.exceptionLevel == el && last.ec.low == excp
      | none => false
  | .noException fn => fn.isEmpty

/-- The message of a verdict. -/
def verdictText (passed : Bool) : String :=
  if passed then "PASSED\n" else "FAILED\n"

namespace Shared

/-- The record at rest: nothing is logged before a test arms it. -/
def Clean (shared : Shared) : Prop :=
  shared.excp = SysException.zeroed

theorem handleException_fst (handler : Space) (ec iss far elr : Word arch)
    (excp : SysException) :
    ∃ state, (handler.handleException ec iss far elr excp).1 =
      excp.record ec iss far handler.exceptionLevel state := by
  cases handler with
  | el3 => exact ⟨_, rfl⟩
  | el1 world => exact ⟨_, rfl⟩

theorem take_quiet {shared : Shared} (quiet : shared.excp.log = false)
    (exception : Taken arch) : shared.take exception = shared := by
  obtain ⟨state, recorded⟩ := handleException_fst exception.handler exception.ec
    exception.iss exception.far exception.elr shared.excp
  have same : shared.excp.record exception.ec exception.iss exception.far
      exception.handler.exceptionLevel state = shared.excp := by
    simp [SysException.record, quiet]
  rw [take, recorded, same]

theorem takes_quiet {s : Shared} (quiet : s.excp.log = false)
    (exceptions : List (Taken arch)) : s.takes exceptions = s := by
  induction exceptions with
  | nil => rfl
  | cons exception later ih =>
      calc
        s.takes (exception :: later)
            = (s.take exception).takes later := rfl
        _ = s.takes later := by rw [take_quiet quiet]
        _ = s := ih

/-- What the armed record says of the exceptions taken so far. -/
structure Logged (shared : Shared) (exceptions : List (Taken arch)) : Prop where
  log : shared.excp.log = true
  taken : shared.excp.taken = !exceptions.isEmpty
  last : ∀ exception, exceptions.getLast? = some exception →
    shared.excp.el = exception.handler.exceptionLevel ∧
      shared.excp.ec = exception.ec.low

theorem Logged.take {shared : Shared} {exceptions : List (Taken arch)}
    (logged : shared.Logged exceptions) (exception : Taken arch) :
    (shared.take exception).Logged (exceptions ++ [exception]) := by
  obtain ⟨state, recorded⟩ := handleException_fst exception.handler exception.ec
    exception.iss exception.far exception.elr shared.excp
  have excp : (shared.take exception).excp =
      { shared.excp with
        taken := true
        ec := exception.ec.low
        iss := exception.iss.low
        far := exception.far.low
        el := exception.handler.exceptionLevel
        state := state } := by
    simp only [Shared.take, recorded, SysException.record, logged.log, if_true]
  refine ⟨?_, ?_, ?_⟩
  · rw [excp]
    exact logged.log
  · simp [excp]
  · intro last isLast
    have same : exception = last := by simpa using isLast
    subst same
    exact ⟨congrArg SysException.el excp, congrArg SysException.ec excp⟩

theorem Logged.takes {shared : Shared} {before : List (Taken arch)}
    (logged : shared.Logged before) (exceptions : List (Taken arch)) :
    (shared.takes exceptions).Logged (before ++ exceptions) := by
  induction exceptions generalizing shared before with
  | nil => simpa [Shared.takes] using logged
  | cons exception later ih =>
      have := ih (logged.take exception)
      rwa [List.append_assoc] at this

@[simp] theorem takes_testCntl (shared : Shared) (exceptions : List (Taken arch)) :
    (shared.takes exceptions).testCntl = shared.testCntl := by
  induction exceptions generalizing shared with
  | nil => rfl
  | cons exception later ih => exact ih (shared.take exception)

@[simp] theorem takes_printed (shared : Shared) (exceptions : List (Taken arch)) :
    (shared.takes exceptions).printed = shared.printed := by
  induction exceptions generalizing shared with
  | nil => rfl
  | cons exception later ih => exact ih (shared.take exception)

theorem Clean.takes {shared : Shared} (clean : shared.Clean)
    (exceptions : List (Taken arch)) : shared.takes exceptions = shared :=
  takes_quiet (by rw [clean]; rfl) exceptions

theorem Clean.logged {shared : Shared} (clean : shared.Clean) :
    shared.testEnableExcpLog.Logged ([] : List (Taken arch)) := by
  refine ⟨rfl, ?_, nofun⟩
  have := congrArg SysException.taken clean
  simpa [testEnableExcpLog, SysException.zeroed] using this

theorem testExcpReset_clean (shared : Shared) : shared.testExcpReset.Clean :=
  rfl

end Shared

/-- The counters after a use with the given verdict. -/
def TestControl.count (testCntl : TestControl) (passed : Bool) : TestControl :=
  { failCount :=
      if passed then testCntl.failCount else testCntl.failCount + 1
    testCount := testCntl.testCount + 1 }

theorem testCondition_counts {Paging : Type} (cond : Prop) [Decidable cond]
    (sys : Sys arch Paging) :
    testCondition cond sys =
      .done () { sys with testCntl := sys.testCntl.count (decide cond) } := by
  by_cases holds : cond
  · simp [testCondition, TestControl.count, holds, Coroutine.Program.modify]
  · simp [testCondition, TestControl.count, holds, Coroutine.Program.modify]

namespace Shared

/-- The verdict is printed and counted. -/
structure Judged (shared final : Shared) (passed : Bool) : Prop where
  testCntl : final.testCntl = shared.testCntl.count passed
  printed : final.printed = shared.printed ++ [verdictText passed]

theorem testCondition_judged {shared : Shared} (cond : Cond arch)
    (printing : List (Taken arch)) :
    shared.Judged (shared.testCondition cond printing)
      (cond.value (shared.takes cond.exceptions).excp) := by
  cases value : cond.value (shared.takes cond.exceptions).excp with
  | false =>
      refine ⟨?_, ?_⟩
      · simp [testCondition, value, TestControl.count, incTestCount,
          incFailCount, print]
      · simp [testCondition, value, verdictText, incTestCount, incFailCount,
          print]
  | true =>
      refine ⟨?_, ?_⟩
      · simp [testCondition, value, TestControl.count, incTestCount, print]
      · simp [testCondition, value, verdictText, incTestCount, print]

theorem Clean.testCondition {shared : Shared} (clean : shared.Clean)
    (cond : Cond arch) (printing : List (Taken arch)) :
    (shared.testCondition cond printing).Clean := by
  have printed (text : String) :
      (shared.print text).takes printing = shared.print text :=
    takes_quiet (s := shared.print text) (congrArg SysException.log clean)
      printing
  rw [Clean, Shared.testCondition, clean.takes]
  cases value : cond.value shared.excp with
  | false =>
      simp only [if_true, printed]
      exact clean
  | true =>
      simp only [Bool.true_eq_false, if_false, printed]
      exact clean

/-- What a use does from a record at rest. -/
structure Served (shared final : Shared) (passed : Bool) : Prop
    extends shared.Judged final passed where
  clean : final.Clean

theorem Clean.serveCondition {shared : Shared} (clean : shared.Clean)
    (cond : Cond arch) (printing : List (Taken arch)) :
    shared.Served (shared.testCondition cond printing)
      (cond.value SysException.zeroed) := by
  have judged := shared.testCondition_judged cond printing
  rw [clean.takes, clean] at judged
  exact ⟨judged, clean.testCondition cond printing⟩

/-- The two exception tests: the condition reads what the body logged, and the
reset forgets what was logged after it. -/
theorem Clean.serveException {shared : Shared} (clean : shared.Clean)
    (fn printing : List (Taken arch)) (value : SysException → Bool)
    (passed : Bool)
    (decides : ∀ record : Shared, record.Logged fn →
      value record.excp = passed) :
    shared.Served
      ((shared.testEnableExcpLog.takes fn).testCondition (.load value)
        printing).testExcpReset passed := by
  have logged : (shared.testEnableExcpLog.takes fn).Logged fn := by
    simpa using clean.logged.takes fn
  obtain ⟨testCntl, printed⟩ :=
    (shared.testEnableExcpLog.takes fn).testCondition_judged (.load value)
      printing
  have verdict := decides _ logged
  refine ⟨⟨?_, ?_⟩, testExcpReset_clean _⟩
  · calc
      _ = (shared.testEnableExcpLog.takes fn).testCntl.count _ := testCntl
      _ = shared.testCntl.count passed := by
        rw [takes_testCntl]
        exact congrArg shared.testCntl.count verdict
  · calc
      _ = (shared.testEnableExcpLog.takes fn).printed ++ [verdictText _] :=
        printed
      _ = shared.printed ++ [verdictText passed] := by
        rw [takes_printed]
        exact congrArg (fun passed => shared.printed ++ [verdictText passed])
          verdict

/-- One use: its verdict is its own, it is printed and counted once, and the
record is at rest again. -/
theorem Clean.use {shared : Shared} (clean : shared.Clean) (use : Use arch) :
    shared.Served (use.run shared) use.test.passes := by
  obtain ⟨before, test, printing⟩ := use
  rw [Use.run, clean.takes]
  cases test with
  | condition cond => exact clean.serveCondition cond printing
  | function fn cond =>
      have served := clean.serveCondition cond printing
      have quiet : shared.testFunction fn cond printing =
          shared.testCondition cond printing := by
        rw [Shared.testFunction, clean.takes]
      exact (congrArg (shared.Served · _) quiet).mpr served
  | exception fn excp el =>
      apply clean.serveException fn printing
      intro record logged
      cases last : fn.getLast? with
      | none =>
          have empty : fn = [] := List.getLast?_eq_none_iff.mp last
          simp [Test.passes, logged.taken, empty]
      | some exception =>
          obtain ⟨sameEl, sameEc⟩ := logged.last exception last
          have nonempty : fn.isEmpty = false := by
            cases fn with
            | nil => simp at last
            | cons first later => rfl
          simp [Test.passes, logged.taken, last, nonempty, sameEl, sameEc]
  | noException fn =>
      apply clean.serveException fn printing
      intro record logged
      simp [Test.passes, logged.taken]

end Shared

namespace Use

/-- The verdicts of a sequence, each from its own use. -/
def verdicts (uses : List (Use arch)) : List Bool :=
  uses.map fun use => use.test.passes

/-- The counters after a sequence of verdicts. -/
def countAll (testCntl : TestControl) (verdicts : List Bool) : TestControl :=
  verdicts.foldl TestControl.count testCntl

theorem countAll_testCount (testCntl : TestControl) (verdicts : List Bool) :
    (countAll testCntl verdicts).testCount =
      testCntl.testCount + BitVec.ofNat 32 verdicts.length := by
  induction verdicts generalizing testCntl with
  | nil => simp [countAll]
  | cons passed later ih =>
      calc
        _ = (testCntl.count passed).testCount + BitVec.ofNat 32 later.length :=
          ih (testCntl.count passed)
        _ = testCntl.testCount + BitVec.ofNat 32 (later.length + 1) := by
          rw [BitVec.ofNat_add, TestControl.count]
          grind

theorem countAll_failCount (testCntl : TestControl) (verdicts : List Bool) :
    (countAll testCntl verdicts).failCount =
      testCntl.failCount + BitVec.ofNat 32 (verdicts.count false) := by
  induction verdicts generalizing testCntl with
  | nil => simp [countAll]
  | cons passed later ih =>
      calc
        _ = (testCntl.count passed).failCount +
              BitVec.ofNat 32 (later.count false) :=
          ih (testCntl.count passed)
        _ = testCntl.failCount + BitVec.ofNat 32 ((passed :: later).count false) := by
          cases passed with
          | true => simp [TestControl.count]
          | false =>
              rw [List.count_cons_self, BitVec.ofNat_add]
              simp only [TestControl.count, Bool.false_eq_true, if_false]
              grind

/-- What a sequence of uses comes to. -/
structure Accounted (start final : Shared) (verdicts : List Bool) : Prop where
  testCntl : final.testCntl = countAll start.testCntl verdicts
  printed : final.printed = start.printed ++ verdicts.map verdictText
  clean : final.Clean

theorem runAll_accounted (uses : List (Use arch)) {shared : Shared}
    (clean : shared.Clean) :
    Accounted shared (runAll uses shared) (verdicts uses) := by
  induction uses generalizing shared with
  | nil => exact ⟨rfl, by simp [runAll, verdicts], clean⟩
  | cons use later ih =>
      obtain ⟨⟨counted, printed⟩, again⟩ := clean.use use
      obtain ⟨testCntl, texts, atRest⟩ := ih again
      refine ⟨?_, ?_, atRest⟩
      · rw [counted] at testCntl
        exact testCntl
      · rw [printed, List.append_assoc] at texts
        exact texts

/-- A run of the test macros over zeroed shared pages, with any exceptions
during and between the uses: every verdict is the one its own use decides, the
counters are the numbers of uses and of failed uses, and the last message
names the numbers of passed and of all uses. -/
theorem runAll_exact (uses : List (Use arch)) (few : uses.length < 2 ^ 31)
    (after : List (Taken arch)) :
    let final := (runAll uses Shared.start).takes after
    final.printed = (verdicts uses).map verdictText ∧
      final.testCntl.testCount.toInt = uses.length ∧
      final.testCntl.failCount.toInt = (verdicts uses).count false ∧
      final.validationComplete =
        (((verdicts uses).count true : Int), (uses.length : Int)) := by
  intro final
  have start : Shared.start.Clean := rfl
  obtain ⟨testCntl, printed, clean⟩ := runAll_accounted uses start
  have quiet : final = runAll uses Shared.start := clean.takes after
  have length : (verdicts uses).length = uses.length := List.length_map ..
  have split : (verdicts uses).count true + (verdicts uses).count false =
      uses.length := by
    rw [← length]
    exact List.count_true_add_count_false _
  have testCount : final.testCntl.testCount = BitVec.ofNat 32 uses.length := by
    rw [quiet, testCntl, countAll_testCount, length]
    simp [Shared.start]
  have failCount : final.testCntl.failCount =
      BitVec.ofNat 32 ((verdicts uses).count false) := by
    rw [quiet, testCntl, countAll_failCount]
    simp [Shared.start]
  have passCount : final.testCntl.testCount - final.testCntl.failCount =
      BitVec.ofNat 32 ((verdicts uses).count true) := by
    rw [testCount, failCount, ← split, BitVec.ofNat_add]
    grind
  have exact (count : Nat) (small : count ≤ uses.length) :
      (BitVec.ofNat 32 count).toInt = count := by
    have toNat : (BitVec.ofNat 32 count).toNat = count := by
      rw [BitVec.toNat_ofNat]
      exact Nat.mod_eq_of_lt (by omega)
    rw [BitVec.toInt_eq_toNat_of_lt (by omega), toNat]
  refine ⟨?_, ?_, ?_, ?_⟩
  · rw [quiet, printed]
    simp [Shared.start]
  · rw [testCount, exact _ le_rfl]
  · rw [failCount, exact _ (by omega)]
  · rw [Shared.validationComplete, passCount, testCount, exact _ (by omega),
      exact _ le_rfl]

/-- An undefined instruction of the secure world, taken by its EL1. -/
def undefined : Taken .arm :=
  { handler := .el1 .secure, ec := 0, iss := 0, far := 0, elr := 0x8000
    returns := fun _ => rfl }

/-- The same exception between two uses, inside an exception test and while
the test after it prints: the first test passes, the second one fails. -/
theorem runAll_exact_undefined :
    let uses : List (Use .arm) :=
      [ { before := [undefined], test := .exception [undefined] 0 1,
          printing := [] },
        { before := [undefined], test := .exception [] 0 1,
          printing := [undefined] } ]
    let final := (runAll uses Shared.start).takes [undefined]
    final.printed = ["PASSED\n", "FAILED\n"] ∧
      final.testCntl.testCount.toInt = 2 ∧
      final.testCntl.failCount.toInt = 1 ∧
      final.validationComplete = (1, 2) :=
  runAll_exact _ (by decide) [undefined]

end Use

end TzTest
