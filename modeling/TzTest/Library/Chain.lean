import Mathlib.Data.List.Basic

/-!
# Chains of steps

A run of a machine whose steps carry the states before and after them.
-/

namespace Chain

variable {σ Step : Type}

/-- Every step begins where the one before it has ended. -/
def Linked (before after : Step → σ) : σ → List Step → Prop
  | _, [] => True
  | start, step :: rest =>
      before step = start ∧ Linked before after (after step) rest

/-- Where a chain ends. -/
def finish (after : Step → σ) : σ → List Step → σ
  | start, [] => start
  | _, step :: rest => finish after (after step) rest

variable {before after : Step → σ}

/-- What every step preserves holds before and after every step of a chain. -/
theorem Linked.invariant {invariant : σ → Prop} {run : List Step}
    (preserved : ∀ step ∈ run, invariant (before step) → invariant (after step))
    {start : σ} (linked : Linked before after start run)
    (initially : invariant start) :
    ∀ step ∈ run, invariant (before step) ∧ invariant (after step) := by
  induction run generalizing start with
  | nil =>
      intro step member
      cases member
  | cons first rest induction =>
      obtain ⟨begins, later⟩ := linked
      have here : invariant (before first) := begins ▸ initially
      have next := preserved first (List.mem_cons_self ..) here
      intro step member
      rcases List.mem_cons.mp member with rfl | inRest
      · exact ⟨here, next⟩
      · exact induction
          (fun other inside => preserved other (List.mem_cons_of_mem _ inside))
          later next step inRest

/-- An invariant that also speaks of the history, which `update` records. -/
theorem Linked.replayed {γ : Type} {update : γ → Step → γ}
    {invariant : γ → σ → Prop} {run : List Step}
    (preserved : ∀ history, ∀ step ∈ run,
      invariant history (before step) →
      invariant (update history step) (after step))
    {start : σ} (linked : Linked before after start run) {history : γ}
    (initially : invariant history start) :
    invariant (run.foldl update history) (finish after start run) := by
  induction run generalizing start history with
  | nil => exact initially
  | cons first rest induction =>
      obtain ⟨begins, later⟩ := linked
      apply induction
        (fun history step inside =>
          preserved history step (List.mem_cons_of_mem _ inside)) later
      apply preserved history first (List.mem_cons_self ..)
      exact begins ▸ initially

theorem linked_append {first last : List Step} {start : σ} :
    Linked before after start (first ++ last) ↔
      Linked before after start first ∧
        Linked before after (finish after start first) last := by
  induction first generalizing start with
  | nil => exact (and_iff_right trivial).symm
  | cons step rest induction =>
      rw [List.cons_append, Linked, Linked, induction, and_assoc]
      rfl

theorem Linked.before_last {run : List Step} {last : Step} {start : σ}
    (linked : Linked before after start (run ++ [last])) :
    Linked before after start run ∧ before last = finish after start run := by
  obtain ⟨first, begins, _⟩ := linked_append.mp linked
  exact ⟨first, begins⟩

theorem finish_append (first last : List Step) (start : σ) :
    finish after start (first ++ last) = finish after (finish after start first) last := by
  induction first generalizing start with
  | nil => rfl
  | cons step rest induction => exact induction (after step)

/-- Over any stretch of quiet steps, the value is the same at both ends. -/
def Steady {α : Type} (after : Step → σ) (value : σ → α) (quiet : Step → Prop)
    (start : σ) (run : List Step) : Prop :=
  ∀ first middle last, run = first ++ (middle ++ last) →
    (∀ step ∈ middle, quiet step) →
    value (finish after start (first ++ middle)) = value (finish after start first)

/-- It is enough that single steps keep the value. -/
theorem Linked.steady_iff {α : Type} {value : σ → α} {quiet : Step → Prop}
    {run : List Step} {start : σ} (linked : Linked before after start run) :
    Steady after value quiet start run ↔
      ∀ step ∈ run, quiet step → value (after step) = value (before step) := by
  constructor
  · intro steady step member isQuiet
    obtain ⟨first, last, split⟩ := List.append_of_mem member
    have whole : run = first ++ ([step] ++ last) := split
    have kept := steady first [step] last whole (by simpa using isQuiet)
    rw [whole] at linked
    obtain ⟨begins, _⟩ := (linked_append.mp linked).2
    rw [finish_append, ← begins] at kept
    exact kept
  · intro kept first middle last split isQuiet
    rw [split] at linked
    have later := (linked_append.mp (linked_append.mp linked).2).1
    have inRun : ∀ step ∈ middle, step ∈ run := by
      intro step inside
      rw [split]
      exact List.mem_append_right _ (List.mem_append_left _ inside)
    rw [finish_append]
    generalize finish after start first = here at later
    clear split linked
    induction middle generalizing here with
    | nil => rfl
    | cons step rest induction =>
        obtain ⟨begins, restLinked⟩ := later
        have stepKept := kept step (inRun step (List.mem_cons_self ..))
          (isQuiet step (List.mem_cons_self ..))
        rw [begins] at stepKept
        refine (induction ?_ ?_ (after step) restLinked).trans stepKept
        · exact fun other inside => isQuiet other (List.mem_cons_of_mem _ inside)
        · exact fun other inside => inRun other (List.mem_cons_of_mem _ inside)

end Chain
