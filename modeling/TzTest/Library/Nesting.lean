import Mathlib.Data.Set.Basic
import Mathlib.Data.List.Basic

/-!
# Nested exceptions

A handler works in a frame of a stack.  While it is running, its level may take
exceptions, which are served below its frame in the same way, to any depth.
-/

namespace Nesting

/-- A stack in a memory. -/
structure Stack (State Word : Type) (w : Nat) where
  sp : State → BitVec w
  mem : State → BitVec w → Word

variable {State Word Frame : Type} {w : Nat}

/-- No word of the set is below the address. -/
def Above (kept : Set (BitVec w)) (bottom : BitVec w) : Prop :=
  ∀ addr ∈ kept, bottom.toNat ≤ addr.toNat

theorem Above.union {left right : Set (BitVec w)} {bottom : BitVec w}
    (first : Above left bottom) (second : Above right bottom) :
    Above (left ∪ right) bottom := by
  intro addr member
  rcases member with inLeft | inRight
  · exact first addr inLeft
  · exact second addr inRight

theorem Above.lower {kept : Set (BitVec w)} {bottom lower : BitVec w}
    (above : Above kept bottom) (below : lower.toNat ≤ bottom.toNat) :
    Above kept lower :=
  fun addr member => below.trans (above addr member)

namespace Stack

/-- The words of the set stay as they are. -/
def Keeps (stack : Stack State Word w) (kept : Set (BitVec w))
    (before after : State) : Prop :=
  ∀ addr ∈ kept, stack.mem after addr = stack.mem before addr

variable {stack : Stack State Word w} {kept : Set (BitVec w)}

theorem Keeps.refl (s : State) : stack.Keeps kept s s :=
  fun _ _ => rfl

theorem Keeps.trans {first second third : State}
    (left : stack.Keeps kept first second)
    (right : stack.Keeps kept second third) : stack.Keeps kept first third :=
  fun addr member => (right addr member).trans (left addr member)

theorem Keeps.mono {fewer : Set (BitVec w)} {first second : State}
    (keeps : stack.Keeps kept first second) (subset : fewer ⊆ kept) :
    stack.Keeps fewer first second :=
  fun addr member => keeps addr (subset member)

end Stack

/-- How a level serves its exceptions.  All of it leaves the words alone that
the frames above still need. -/
structure Service (State Frame : Type) (w : Nat) where
  /-- The handler's own code. -/
  Code : Set (BitVec w) → State → State → Prop
  /-- The words of a frame that the return from its exception needs. -/
  words : Frame → Set (BitVec w)
  /-- From an exception to its handler in its frame. -/
  Enters : Set (BitVec w) → Frame → State → State → Prop
  /-- From the handler to the interrupted code. -/
  Leaves : Set (BitVec w) → Frame → State → State → Prop

/-- The service is a matter of the stack, as long as the machine is in one of the
states in which the level runs. -/
structure Service.Lawful (service : Service State Frame w)
    (stack : Stack State Word w) (runs : State → Prop) : Prop where
  stays {kept : Set (BitVec w)} {before after : State} :
    service.Code kept before after → runs before → runs after
  begins {kept : Set (BitVec w)} {frame : Frame} {before entered : State} :
    service.Enters kept frame before entered → runs before → runs entered
  ends {kept : Set (BitVec w)} {frame : Frame} {leaving after : State} :
    service.Leaves kept frame leaving after → runs leaving → runs after
  code {kept : Set (BitVec w)} {before after : State} :
    service.Code kept before after → stack.Keeps kept before after
  frame {kept : Set (BitVec w)} {frame : Frame} {before entered : State} :
    service.Enters kept frame before entered →
    Above (service.words frame) (stack.sp entered) ∧
      (stack.sp entered).toNat ≤ (stack.sp before).toNat
  enters {kept : Set (BitVec w)} {frame : Frame} {before entered : State} :
    service.Enters kept frame before entered →
    Above kept (stack.sp before) → stack.Keeps kept before entered
  leaves {kept : Set (BitVec w)} {frame : Frame}
      {before entered leaving after : State} :
    service.Enters kept frame before entered →
    Above kept (stack.sp before) →
    stack.sp leaving = stack.sp entered →
    stack.Keeps (service.words frame ∪ kept) entered leaving →
    runs leaving → service.Leaves kept frame leaving after →
    stack.sp after = stack.sp before ∧ stack.Keeps kept leaving after

/-- What happens while a handler is running: its code, and exceptions in the
order in which they are taken.  It ends with the stack pointer at the bottom of
its frame. -/
inductive Serves (stack : Stack State Word w) (service : Service State Frame w) :
    Set (BitVec w) → BitVec w → List Frame → State → State → Prop
  | done {kept : Set (BitVec w)} {bottom : BitVec w} {s : State}
      (clean : stack.sp s = bottom) : Serves stack service kept bottom [] s s
  | code {kept : Set (BitVec w)} {bottom : BitVec w} {frames : List Frame}
      {s middle final : State} (step : service.Code kept s middle)
      (inside : (stack.sp middle).toNat ≤ bottom.toNat)
      (rest : Serves stack service kept bottom frames middle final) :
      Serves stack service kept bottom frames s final
  | exception {kept : Set (BitVec w)} {bottom : BitVec w} {frame : Frame}
      {inner outer : List Frame} {s entered leaving middle final : State}
      (enters : service.Enters kept frame s entered)
      (body : Serves stack service (service.words frame ∪ kept)
        (stack.sp entered) inner entered leaving)
      (leaves : service.Leaves kept frame leaving middle)
      (rest : Serves stack service kept bottom outer middle final) :
      Serves stack service kept bottom (frame :: (inner ++ outer)) s final

section Rules

variable {stack : Stack State Word w} {service : Service State Frame w}
  {kept : Set (BitVec w)} {bottom : BitVec w} {frames : List Frame}
  {s final : State}

/-- What code, entry and return each preserve holds in the end. -/
theorem Serves.invariant {invariant : State → Prop}
    (serves : Serves stack service kept bottom frames s final)
    (code : ∀ {kept before after}, service.Code kept before after →
      invariant before → invariant after)
    (enters : ∀ {kept frame before entered},
      service.Enters kept frame before entered →
      invariant before → invariant entered)
    (leaves : ∀ {kept frame leaving after},
      service.Leaves kept frame leaving after →
      invariant leaving → invariant after)
    (initially : invariant s) : invariant final := by
  induction serves with
  | done clean => exact initially
  | code step inside rest induction => exact induction (code step initially)
  | exception entered body left rest nested later =>
      exact later (leaves left (nested (enters entered initially)))

/-- However many exceptions there are, the frames above are left alone and the
stack pointer is back in the end. -/
theorem Serves.keeps {runs : State → Prop} (lawful : service.Lawful stack runs)
    (serves : Serves stack service kept bottom frames s final)
    (above : Above kept bottom) (below : (stack.sp s).toNat ≤ bottom.toNat)
    (initially : runs s) :
    stack.sp final = bottom ∧ stack.Keeps kept s final := by
  induction serves with
  | done clean => exact ⟨clean, .refl _⟩
  | code step inside rest induction =>
      obtain ⟨sp, keeps⟩ := induction above inside (lawful.stays step initially)
      exact ⟨sp, (lawful.code step).trans keeps⟩
  | @exception kept bottom frame inner outer s entered leaving middle final
      enters body leaves rest nested later =>
      obtain ⟨wordsAbove, lower⟩ := lawful.frame enters
      have aboveHere := above.lower below
      -- The nested handler keeps its own frame besides those above it.
      have framesAbove := wordsAbove.union (aboveHere.lower lower)
      have begins := lawful.begins enters initially
      obtain ⟨nestedSp, nestedKeeps⟩ := nested framesAbove (Nat.le_refl _) begins
      have ends := body.invariant lawful.stays lawful.begins lawful.ends begins
      obtain ⟨sp, back⟩ :=
        lawful.leaves enters aboveHere nestedSp nestedKeeps ends leaves
      have served : stack.Keeps kept s middle :=
        ((lawful.enters enters aboveHere).trans
          (nestedKeeps.mono Set.subset_union_right)).trans back
      have stillBelow : (stack.sp middle).toNat ≤ bottom.toNat := by
        rw [sp]
        exact below
      obtain ⟨finalSp, keeps⟩ := later above stillBelow (lawful.ends leaves ends)
      exact ⟨finalSp, served.trans keeps⟩

/-- A register that nothing but an exception writes holds what the last one has
put there. -/
theorem Serves.last {runs : State → Prop} (lawful : service.Lawful stack runs)
    {Value : Type} (register : State → Value) (written : Frame → Value)
    (serves : Serves stack service kept bottom frames s final)
    (initially : runs s)
    (code : ∀ {kept before after}, service.Code kept before after →
      register after = register before)
    (enters : ∀ {kept frame before entered},
      service.Enters kept frame before entered →
      register entered = written frame)
    (leaves : ∀ {kept frame leaving after}, runs leaving →
      service.Leaves kept frame leaving after →
      register after = register leaving) :
    register final = (frames.map written).getLastD (register s) := by
  induction serves with
  | done clean => rfl
  | code step inside rest induction =>
      rw [induction (lawful.stays step initially), code step]
  | exception entered body left rest nested later =>
      have begins := lawful.begins entered initially
      have ends := body.invariant lawful.stays lawful.begins lawful.ends begins
      rw [later (lawful.ends left ends), leaves ends left, nested begins,
        enters entered, List.map_cons, List.map_append, List.getLastD_cons,
        List.getLastD_eq_getLast?, List.getLastD_eq_getLast?,
        List.getLastD_eq_getLast?, List.getLast?_append, Option.getD_or]

end Rules

end Nesting
