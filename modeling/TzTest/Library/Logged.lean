import Mathlib.Data.List.Basic

/-!
# Computations with a log

A computation reads and changes a state and records events.  It may come to no
end, or be cut short by a bound; what it has recorded until then remains.
-/

/-- From a state, the events and the result with the state that it leaves. -/
def Logged (σ ε α : Type) := σ → List ε × Option (α × σ)

namespace Logged

variable {σ ε α β : Type}

def bind (first : Logged σ ε α) (next : α → Logged σ ε β) : Logged σ ε β :=
  fun s =>
    match first s with
    | (events, none) => (events, none)
    | (events, some (a, later)) =>
        let (more, result) := next a later
        (events ++ more, result)

instance : Monad (Logged σ ε) where
  pure a := fun s => ([], some (a, s))
  bind := bind

/-- Record an event, which may hold the state of its moment. -/
def tell (event : σ → ε) : Logged σ ε Unit :=
  fun s => ([event s], some ((), s))

def attempt (compute : σ → Option (α × σ)) : Logged σ ε α :=
  fun s => ([], compute s)

/-- What is recorded from a state on. -/
def log (first : Logged σ ε α) (s : σ) : List ε :=
  (first s).1

def result (first : Logged σ ε α) (s : σ) : Option (α × σ) :=
  (first s).2

variable {first : Logged σ ε α} {next : α → Logged σ ε β} {s later : σ}
variable {a : α} {event : ε}

@[simp] theorem log_pure (a : α) (s : σ) :
    log (pure a : Logged σ ε α) s = [] :=
  rfl

@[simp] theorem result_pure (a : α) (s : σ) :
    result (pure a : Logged σ ε α) s = some (a, s) :=
  rfl

@[simp] theorem log_tell (event : σ → ε) (s : σ) : log (tell event) s = [event s] :=
  rfl

@[simp] theorem result_tell (event : σ → ε) (s : σ) :
    result (tell event) s = some ((), s) :=
  rfl

@[simp] theorem log_attempt (compute : σ → Option (α × σ)) (s : σ) :
    log (attempt compute : Logged σ ε α) s = [] :=
  rfl

@[simp] theorem result_attempt (compute : σ → Option (α × σ)) (s : σ) :
    result (attempt compute : Logged σ ε α) s = compute s :=
  rfl

theorem bind_eq (first : Logged σ ε α) (next : α → Logged σ ε β) (s : σ) :
    (first >>= next) s =
      (log first s ++ ((result first s).map fun out => log (next out.1) out.2).getD [],
        (result first s).bind fun out => result (next out.1) out.2) := by
  change bind first next s = _
  unfold bind log result
  rcases first s with ⟨events, _ | ⟨a, later⟩⟩
  · simp
  · rfl

theorem result_bind (first : Logged σ ε α) (next : α → Logged σ ε β) (s : σ) :
    result (first >>= next) s =
      (result first s).bind fun out => result (next out.1) out.2 :=
  congrArg Prod.snd (bind_eq first next s)

theorem log_bind (first : Logged σ ε α) (next : α → Logged σ ε β) (s : σ) :
    log (first >>= next) s =
      log first s ++ ((result first s).map fun out => log (next out.1) out.2).getD [] :=
  congrArg Prod.fst (bind_eq first next s)

theorem log_bind_of_none (none : result first s = none) :
    log (first >>= next) s = log first s := by
  rw [log_bind, none]
  exact List.append_nil _

theorem log_bind_of_some (some : result first s = some (a, later)) :
    log (first >>= next) s = log first s ++ log (next a) later := by
  rw [log_bind, some]
  rfl

theorem result_bind_of_none (none : result first s = none) :
    result (first >>= next) s = Option.none := by
  rw [result_bind, none]
  rfl

theorem result_bind_of_some (some : result first s = some (a, later)) :
    result (first >>= next) s = result (next a) later := by
  rw [result_bind, some]
  rfl

theorem mem_log_bind :
    event ∈ log (first >>= next) s ↔
      event ∈ log first s ∨
        ∃ a later, result first s = some (a, later) ∧
          event ∈ log (next a) later := by
  cases ended : result first s with
  | none =>
      rw [log_bind_of_none ended]
      simp
  | some out =>
      rw [log_bind_of_some ended, List.mem_append]
      constructor
      · rintro (early | late)
        · exact .inl early
        · exact .inr ⟨out.1, out.2, rfl, late⟩
      · rintro (early | ⟨a, later, same, late⟩)
        · exact .inl early
        · cases same
          exact .inr late

theorem forall_log_bind {holds : ε → Prop}
    (before : ∀ event ∈ log first s, holds event)
    (after : ∀ a later, result first s = some (a, later) →
      ∀ event ∈ log (next a) later, holds event) :
    ∀ event ∈ log (first >>= next) s, holds event := by
  intro event member
  rcases mem_log_bind.mp member with early | ⟨a, later, ended, late⟩
  · exact before event early
  · exact after a later ended event late

theorem log_bind_left (member : event ∈ log first s) :
    event ∈ log (first >>= next) s :=
  mem_log_bind.mpr (.inl member)

theorem log_bind_right (ended : result first s = some (a, later))
    (member : event ∈ log (next a) later) : event ∈ log (first >>= next) s :=
  mem_log_bind.mpr (.inr ⟨a, later, ended, member⟩)

/-- From a state, the computation ends well, or is cut short behind an event of a
kind. -/
def Attempts (bad : ε → Prop) (run : Logged σ ε α) (s : σ) (post : α → σ → Prop) :
    Prop :=
  (result run s = none ∧ ∃ event ∈ log run s, bad event) ∨
    ∃ a later, result run s = some (a, later) ∧ post a later

section Attempts

variable {bad : ε → Prop} {middle post weaker : α → σ → Prop} {last : β → σ → Prop}

theorem attempts_of_some (ended : result first s = some (a, later))
    (holds : post a later) : Attempts bad first s post :=
  .inr ⟨a, later, ended, holds⟩

theorem Attempts.mono (attempts : Attempts bad first s post)
    (weaken : ∀ a later, post a later → weaker a later) :
    Attempts bad first s weaker := by
  rcases attempts with cut | ⟨a, later, ended, holds⟩
  · exact .inl cut
  · exact .inr ⟨a, later, ended, weaken a later holds⟩

theorem Attempts.widen {worse : ε → Prop} (attempts : Attempts bad first s post)
    (weaken : ∀ event, bad event → worse event) : Attempts worse first s post := by
  rcases attempts with ⟨none, event, member, cut⟩ | ended
  · exact .inl ⟨none, event, member, weaken event cut⟩
  · exact .inr ended

theorem Attempts.reached (attempts : Attempts bad first s post) :
    Attempts bad first s fun a later =>
      result first s = some (a, later) ∧ post a later := by
  rcases attempts with cut | ⟨a, later, ended, holds⟩
  · exact .inl cut
  · exact .inr ⟨a, later, ended, ended, holds⟩

theorem Attempts.after (ended : result first s = some (a, later))
    (rest : Attempts bad (next a) later last) :
    Attempts bad (first >>= next) s last := by
  rcases rest with ⟨none, event, member, cut⟩ | ⟨b, end', ended', holds⟩
  · exact .inl ⟨(result_bind_of_some ended).trans none, event,
      log_bind_right ended member, cut⟩
  · exact .inr ⟨b, end', (result_bind_of_some ended).trans ended', holds⟩

/-- Sequencing rule. -/
theorem Attempts.bind (attempts : Attempts bad first s middle)
    (rest : ∀ a later, middle a later → Attempts bad (next a) later last) :
    Attempts bad (first >>= next) s last := by
  rcases attempts with ⟨none, event, member, cut⟩ | ⟨a, later, ended, holds⟩
  · exact .inl ⟨result_bind_of_none none, event, log_bind_left member, cut⟩
  · exact .after ended (rest a later holds)

end Attempts

end Logged
