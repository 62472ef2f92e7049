import TzTest.Paging.Spaces
import TzTest.Paging.Operations

/-!
# One first-level table for two images

On ARM, EL3 and secure EL1 use the same tables.  Each has its own copy of the
routines and its own pool, and their calls come in any order.  The hardware's
view changes as a finite map does, whichever image makes the call.
-/

namespace TzTest

open Radix

/-- The images that use the table. -/
inductive Sharer where
  | el3
  | el1
  deriving DecidableEq, Repr

def Sharer.space : Sharer → Space
  | .el3 => .el3
  | .el1 => .el1 .secure

theorem Sharer.space_ne {left right : Sharer} (different : left ≠ right) :
    left.space ≠ right.space := by
  cases left <;> cases right <;> simp_all [Sharer.space]

structure SharedCall (arch : Arch) where
  sharer : Sharer
  op : MemOp arch

variable {arch : Arch}

namespace SharedCall

variable (base : Word arch)

def run (fuel : Nat) (call : SharedCall arch) (spaces : Spaces arch) :
    Option (Spaces arch) := do
  let s ← call.op.run base fuel (spaces.image call.sharer.space)
  return spaces.setImage call.sharer.space s

def runAll (fuel : Nat) : List (SharedCall arch) → Spaces arch →
    Option (Spaces arch)
  | [], spaces => some spaces
  | call :: calls, spaces => do
      let spaces ← call.run base fuel spaces
      runAll fuel calls spaces

/-- The pools have the pages that every call takes. -/
def InRegion (stop : Sharer → Nat) : List (SharedCall arch) → Spaces arch → Prop
  | [], _ => True
  | call :: calls, spaces =>
      (spaces.memNextPa call.sharer.space).toNat +
          0x1000 * call.op.pages base (spaces.image call.sharer.space) ≤
        stop call.sharer ∧
      ∀ later, call.run base 2 spaces = some later → InRegion stop calls later

def changes (call : SharedCall arch) (spaces : Spaces arch) : List (Change arch) :=
  call.op.changes base (spaces.image call.sharer.space)

/-- All that a sequence of calls changes. -/
def log : List (SharedCall arch) → Spaces arch → List (Change arch)
  | [], _ => []
  | call :: calls, spaces =>
      call.changes base spaces ++ ((call.run base 2 spaces).elim [] (log calls))

theorem log_cons {call : SharedCall arch} {calls : List (SharedCall arch)}
    {spaces later : Spaces arch} (ran : call.run base 2 spaces = some later) :
    log base (call :: calls) spaces =
      call.changes base spaces ++ log base calls later := by
  rw [log, ran]
  rfl

end SharedCall

namespace Spaces

variable {spaces : Spaces arch} {stop : Sharer → Nat}

/-- The rest of the pool of one of the two images. -/
def restOf (spaces : Spaces arch) (stop : Sharer → Nat) (sharer : Sharer) :
    Set (Word arch) :=
  range (spaces.memNextPa sharer.space).toNat (stop sharer)

def unusedByBoth (spaces : Spaces arch) (stop : Sharer → Nat) : Set (Word arch) :=
  { addr | ∃ sharer, addr ∈ spaces.restOf stop sharer }

/-- The tree of the two images beside their empty pools, all pages of which can
be mapped at once. -/
structure Shared (spaces : Spaces arch) (base : Word arch) (stop : Sharer → Nat) :
    Prop where
  forest : Forest (mapper arch).toFormat (fun _ : Unit => base) spaces.mem
    (spaces.unusedByBoth stop)
  pool (sharer : Sharer) : Pool arch (spaces.memNextPa sharer.space) (stop sharer)
  disjoint {left right : Sharer} : left ≠ right →
    Disjoint (spaces.restOf stop left) (spaces.restOf stop right)
  installed {sharer : Sharer} {page : Word arch} :
    page ∈ spaces.restOf stop sharer → Installed spaces.mem base page

theorem restOf_setImage_subset {sharer : Sharer} {s : MemUtil arch.width}
    (advances : (spaces.memNextPa sharer.space).toNat ≤ s.memNextPa.toNat)
    (other : Sharer) :
    (spaces.setImage sharer.space s).restOf stop other ⊆
      spaces.restOf stop other := by
  by_cases same : other = sharer
  · subst same
    apply range_mono _ (le_refl _)
    simpa [setImage] using advances
  · have kept : (spaces.setImage sharer.space s).memNextPa other.space =
        spaces.memNextPa other.space :=
      Function.update_of_ne (Sharer.space_ne same) ..
    unfold restOf
    rw [kept]

variable {base : Word arch} {call : SharedCall arch}

theorem Shared.fits (shared : spaces.Shared base stop)
    (room : (spaces.memNextPa call.sharer.space).toNat +
      0x1000 * call.op.pages base (spaces.image call.sharer.space) ≤
        stop call.sharer) :
    call.op.Fits base (stop call.sharer) (spaces.image call.sharer.space) where
  room := room
  installed page member := by
    obtain ⟨_, above, below⟩ :=
      call.op.mem_tables (shared.pool call.sharer) room member
    exact shared.installed ⟨above, below⟩

/-- A call of either image changes its pages and keeps the other one's pool. -/
theorem Shared.runs (shared : spaces.Shared base stop)
    (room : (spaces.memNextPa call.sharer.space).toNat +
      0x1000 * call.op.pages base (spaces.image call.sharer.space) ≤
        stop call.sharer) :
    ∃ later, (∀ fuel, call.run base (fuel + 2) spaces = some later) ∧
      later.Shared base stop ∧
      translate later.mem base =
        (call.changes base spaces).foldl Change.apply (translate spaces.mem base) := by
  have inFree : range (spaces.image call.sharer.space).memNextPa.toNat
      (stop call.sharer) ⊆ spaces.unusedByBoth stop :=
    fun addr inside => ⟨call.sharer, inside⟩
  obtain ⟨s, ran, grows⟩ := @MemOp.run_grows _ _ _ _ (fun _ : Unit => base) ()
    _ _ shared.forest (shared.pool call.sharer) inFree call.op (shared.fits room)
  have advances : (spaces.memNextPa call.sharer.space).toNat ≤ s.memNextPa.toNat :=
    grows.advances
  have smaller := @restOf_setImage_subset _ spaces stop call.sharer s advances
  have nextSelf : (spaces.setImage call.sharer.space s).memNextPa call.sharer.space =
      s.memNextPa := by
    simp [setImage]
  refine ⟨spaces.setImage call.sharer.space s, ?_, ?_, ?_⟩
  · intro fuel
    exact Option.bind_eq_some_iff.mpr ⟨s, ran fuel, rfl⟩
  · constructor
    · apply grows.becomes.forest.shrink
      rintro addr ⟨other, inside⟩
      refine ⟨⟨other, smaller other inside⟩, ?_⟩
      rintro ⟨above, below⟩
      by_cases same : other = call.sharer
      · subst same
        unfold restOf at inside
        rw [nextSelf] at inside
        exact absurd below (not_lt.mpr inside.1)
      · have outside := Set.disjoint_left.mp (shared.disjoint same)
          (smaller other inside)
        exact outside ⟨above, lt_of_lt_of_le below grows.below⟩
    · intro other
      by_cases same : other = call.sharer
      · subst same
        rw [nextSelf]
        exact grows.pool
      · have kept : (spaces.setImage call.sharer.space s).memNextPa other.space =
            spaces.memNextPa other.space :=
          Function.update_of_ne (Sharer.space_ne same) ..
        rw [kept]
        exact shared.pool other
    · intro left right different
      exact (shared.disjoint different).mono (smaller left) (smaller right)
    · intro other page inside
      exact grows.installed () (shared.installed (smaller other inside))
  · exact funext grows.becomes.translated

end Spaces

/-- Any interleaving of the calls comes back and changes what its log tells. -/
theorem SharedCall.runAll_translated {spaces : Spaces arch} {base : Word arch}
    {stop : Sharer → Nat} (shared : spaces.Shared base stop)
    {calls : List (SharedCall arch)} (inRegion : InRegion base stop calls spaces) :
    ∃ later, (∀ fuel, runAll base (fuel + 2) calls spaces = some later) ∧
      later.Shared base stop ∧
      translate later.mem base =
        (log base calls spaces).foldl Change.apply (translate spaces.mem base) := by
  induction calls generalizing spaces with
  | nil => exact ⟨spaces, fun _ => rfl, shared, rfl⟩
  | cons call calls induction =>
      obtain ⟨room, rest⟩ := inRegion
      obtain ⟨middle, ran, between, first⟩ := shared.runs room
      obtain ⟨later, ranRest, after, last⟩ := induction between (rest middle (ran 0))
      refine ⟨later, ?_, after, ?_⟩
      · intro fuel
        exact Option.bind_eq_some_iff.mpr ⟨middle, ran fuel, ranRest fuel⟩
      · rw [last, first, log_cons base (ran 0), List.foldl_append]

end TzTest
