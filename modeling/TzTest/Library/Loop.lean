import Mathlib.Data.Nat.Notation

/-!
# Loops

A loop is given by one round of it, which has no result where the loop is left.
`run` makes at most `fuel` rounds.
-/

namespace Loop

variable {σ : Type}

def run (round : σ → Option σ) : (fuel : Nat) → σ → Option σ
  | 0, _ => none
  | fuel + 1, s =>
      match round s with
      | none => some s
      | some next => run round fuel next

/-- The loop is left in the state `last`. -/
def Ends (round : σ → Option σ) (s last : σ) : Prop :=
  ∃ fuel, run round fuel s = some last

variable {round : σ → Option σ}

theorem ends_of_none {s : σ} (left : round s = none) : Ends round s s :=
  ⟨1, by rw [run, left]⟩

theorem ends_of_some {s next last : σ} (turned : round s = some next)
    (ends : Ends round next last) : Ends round s last := by
  obtain ⟨fuel, ran⟩ := ends
  refine ⟨fuel + 1, ?_⟩
  rw [run, turned]
  exact ran

theorem Ends.unique {s left right : σ} (first : Ends round s left)
    (second : Ends round s right) : left = right := by
  obtain ⟨fuel, ran⟩ := first
  obtain ⟨other, reached⟩ := second
  induction fuel generalizing s other with
  | zero => cases ran
  | succ fuel induction =>
      cases other with
      | zero => cases reached
      | succ other =>
          rw [run] at ran reached
          cases turned : round s with
          | none =>
              rw [turned] at ran reached
              exact Option.some.inj (ran.symm.trans reached)
          | some next =>
              rw [turned] at ran reached
              exact induction ran other reached

/-- A loop whose rounds are counted down is left after that many rounds, with
the invariant kept. -/
theorem ends_of_countdown {invariant : Nat → σ → Prop}
    (leaves : ∀ s, invariant 0 s → round s = none)
    (turns : ∀ remaining s, invariant (remaining + 1) s →
      ∃ next, round s = some next ∧ invariant remaining next)
    {remaining : Nat} {s : σ} (initially : invariant remaining s) :
    ∃ last, Ends round s last ∧ invariant 0 last := by
  induction remaining generalizing s with
  | zero => exact ⟨s, ends_of_none (leaves s initially), initially⟩
  | succ remaining induction =>
      obtain ⟨next, turned, kept⟩ := turns remaining s initially
      obtain ⟨last, ends, final⟩ := induction kept
      exact ⟨last, ends_of_some turned ends, final⟩

theorem not_ends {invariant : σ → Prop}
    (turns : ∀ s, invariant s → ∃ next, round s = some next ∧ invariant next)
    {s : σ} (initially : invariant s) (last : σ) : ¬Ends round s last := by
  rintro ⟨fuel, ran⟩
  induction fuel generalizing s with
  | zero => cases ran
  | succ fuel induction =>
      obtain ⟨next, turned, kept⟩ := turns s initially
      rw [run, turned] at ran
      exact induction kept ran

end Loop
