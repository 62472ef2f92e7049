import Mathlib.Logic.Relation

/-!
# Two resumable parties under a monitor

A party is a program that runs up to its next request and hands the rest of
itself to whoever answers.  A monitor answers every request: it either replies
to the requester at once, or resumes the other party, whose own last request
is then answered instead.  One party is a client with a result; the other is a
server that starts over with the result of each finished round.
-/

namespace Coroutine

/-- What a program has come to: a value, a request with the rest of the
program, or a computation that does not return. -/
inductive Outcome (σ ι ρ α : Type) where
  | done (value : α) (state : σ)
  | call (request : ι) (state : σ) (resume : ρ → σ → Outcome σ ι ρ α)
  | stuck (state : σ)

namespace Outcome

variable {σ ι ρ α β γ : Type}

def bind : Outcome σ ι ρ α → (α → σ → Outcome σ ι ρ β) → Outcome σ ι ρ β
  | .done value state, next => next value state
  | .call request state resume, next =>
      .call request state fun reply state => (resume reply state).bind next
  | .stuck state, _ => .stuck state

@[simp] theorem done_bind (value : α) (state : σ)
    (next : α → σ → Outcome σ ι ρ β) :
    (done value state : Outcome σ ι ρ α).bind next = next value state :=
  rfl

@[simp] theorem call_bind (request : ι) (state : σ)
    (resume : ρ → σ → Outcome σ ι ρ α) (next : α → σ → Outcome σ ι ρ β) :
    (call request state resume).bind next =
      .call request state fun reply state => (resume reply state).bind next :=
  rfl

@[simp] theorem stuck_bind (state : σ) (next : α → σ → Outcome σ ι ρ β) :
    (stuck state : Outcome σ ι ρ α).bind next = .stuck state :=
  rfl

theorem bind_assoc (outcome : Outcome σ ι ρ α)
    (next : α → σ → Outcome σ ι ρ β) (last : β → σ → Outcome σ ι ρ γ) :
    (outcome.bind next).bind last =
      outcome.bind fun value state => (next value state).bind last := by
  induction outcome with
  | done value state => rfl
  | stuck state => rfl
  | call request state resume induction =>
      simp only [call_bind]
      congr
      funext reply state
      exact induction reply state

theorem bind_done (outcome : Outcome σ ι ρ α) :
    outcome.bind (fun value state => .done value state) = outcome := by
  induction outcome with
  | done value state => rfl
  | stuck state => rfl
  | call request state resume induction =>
      simp only [call_bind]
      congr
      funext reply state
      exact induction reply state

end Outcome

/-- A program over a shared state. -/
def Program (σ ι ρ α : Type) := σ → Outcome σ ι ρ α

namespace Program

variable {σ ι ρ α β γ : Type}

instance : Monad (Program σ ι ρ) where
  pure value := fun state => .done value state
  bind program next := fun state => (program state).bind next

@[simp] theorem pure_apply (value : α) (state : σ) :
    (pure value : Program σ ι ρ α) state = .done value state :=
  rfl

@[simp] theorem bind_apply (program : Program σ ι ρ α)
    (next : α → Program σ ι ρ β) (state : σ) :
    (program >>= next) state = (program state).bind next :=
  rfl

theorem bind_assoc (program : Program σ ι ρ α) (next : α → Program σ ι ρ β)
    (last : β → Program σ ι ρ γ) :
    program >>= next >>= last = program >>= fun value => next value >>= last :=
  funext fun state => Outcome.bind_assoc (program state) next last

/-- Make a request and return the reply. -/
def request (query : ι) : Program σ ι ρ ρ :=
  fun state => .call query state fun reply state => .done reply state

@[simp] theorem request_apply (query : ι) (state : σ) :
    (request query : Program σ ι ρ ρ) state =
      .call query state fun reply state => .done reply state :=
  rfl

/-- A local computation that may fail to return. -/
def attempt (compute : σ → Option (α × σ)) : Program σ ι ρ α :=
  fun state =>
    match compute state with
    | some (value, state) => .done value state
    | none => .stuck state

/-- Read from the state. -/
def gets (read : σ → α) : Program σ ι ρ α :=
  fun state => .done (read state) state

@[simp] theorem gets_apply (read : σ → α) (state : σ) :
    (gets read : Program σ ι ρ α) state = .done (read state) state :=
  rfl

/-- Update the state. -/
def modify (update : σ → σ) : Program σ ι ρ Unit :=
  fun state => .done () (update state)

@[simp] theorem modify_apply (update : σ → σ) (state : σ) :
    (modify update : Program σ ι ρ Unit) state = .done () (update state) :=
  rfl

end Program

/-- The monitor's answer to a request. -/
inductive Verdict (σ ρ : Type) where
  | stay (reply : ρ) (state : σ)
  | switch (reply : ρ) (state : σ)
  | stuck (state : σ)

/-- A party waiting for the answer to its last request. -/
structure Suspended (σ ι ρ α : Type) where
  request : ι
  resume : ρ → σ → Outcome σ ι ρ α

inductive Config (σ ι ρ α β : Type) where
  | client (running : Outcome σ ι ρ α) (server : Suspended σ ι ρ β)
  | server (running : Outcome σ ι ρ β) (client : Suspended σ ι ρ α)

section Run

variable {σ ι ρ α β γ : Type}
variable (monitor : ι → σ → Verdict σ ρ) (restart : β → σ → Outcome σ ι ρ β)

/-- One answer of the monitor, or one new round of the server.  There is no
step once the client has its result. -/
def step : Config σ ι ρ α β → Option (Config σ ι ρ α β)
  | .client (.done _ _) _ => none
  | .client (.stuck _) _ => none
  | .client (.call request state resume) server =>
      match monitor request state with
      | .stay reply state => some (.client (resume reply state) server)
      | .switch reply state =>
          some (.server (server.resume reply state) ⟨request, resume⟩)
      | .stuck state => some (.client (.stuck state) server)
  | .server (.done value state) client =>
      some (.server (restart value state) client)
  | .server (.stuck _) _ => none
  | .server (.call request state resume) client =>
      match monitor request state with
      | .stay reply state => some (.server (resume reply state) client)
      | .switch reply state =>
          some (.client (client.resume reply state) ⟨request, resume⟩)
      | .stuck state => some (.server (.stuck state) client)

/-- Any number of steps. -/
def Steps (start finish : Config σ ι ρ α β) : Prop :=
  Relation.ReflTransGen
    (fun before after => step monitor restart before = some after) start finish

variable {monitor restart}

theorem Steps.refl (config : Config σ ι ρ α β) :
    Steps monitor restart config config :=
  Relation.ReflTransGen.refl

theorem Steps.head {start middle finish : Config σ ι ρ α β}
    (first : step monitor restart start = some middle)
    (rest : Steps monitor restart middle finish) :
    Steps monitor restart start finish :=
  Relation.ReflTransGen.head first rest

theorem Steps.trans {start middle finish : Config σ ι ρ α β}
    (first : Steps monitor restart start middle)
    (rest : Steps monitor restart middle finish) :
    Steps monitor restart start finish :=
  Relation.ReflTransGen.trans first rest

/-- Switching rule: the server takes over from the client. -/
theorem Steps.clientSwitch {request : ι} {before after : σ} {reply : ρ}
    {resume : ρ → σ → Outcome σ ι ρ α} {server : Suspended σ ι ρ β}
    (answer : monitor request before = .switch reply after) :
    Steps monitor restart (.client (.call request before resume) server)
      (.server (server.resume reply after) ⟨request, resume⟩) :=
  .head (by simp only [step, answer]) (.refl _)

/-- Switching rule: the client takes over from the server. -/
theorem Steps.serverSwitch {request : ι} {before after : σ} {reply : ρ}
    {resume : ρ → σ → Outcome σ ι ρ β} {client : Suspended σ ι ρ α}
    (answer : monitor request before = .switch reply after) :
    Steps monitor restart (.server (.call request before resume) client)
      (.client (client.resume reply after) ⟨request, resume⟩) :=
  .head (by simp only [step, answer]) (.refl _)

theorem Steps.serverDone {value : β} {state : σ} {client : Suspended σ ι ρ α} :
    Steps monitor restart (.server (.done value state) client)
      (.server (restart value state) client) :=
  .head rfl (.refl _)

/-- Steps are deterministic: of two configurations on one run, one is reached
from the other. -/
theorem Steps.total {start left right : Config σ ι ρ α β}
    (toLeft : Steps monitor restart start left)
    (toRight : Steps monitor restart start right) :
    Steps monitor restart left right ∨ Steps monitor restart right left := by
  refine Relation.ReflTransGen.total_of_right_unique ?_ toLeft toRight
  intro before after other first second
  exact Option.some.inj (first.symm.trans second)

theorem Steps.eq_of_final {start finish : Config σ ι ρ α β}
    (final : step monitor restart start = none)
    (steps : Steps monitor restart start finish) : finish = start := by
  cases Relation.ReflTransGen.cases_head steps with
  | inl same => exact same.symm
  | inr more =>
      obtain ⟨middle, first, _⟩ := more
      simp [final] at first

theorem Steps.final_unique {start left right : Config σ ι ρ α β}
    (toLeft : Steps monitor restart start left)
    (leftFinal : step monitor restart left = none)
    (toRight : Steps monitor restart start right)
    (rightFinal : step monitor restart right = none) : left = right := by
  cases toLeft.total toRight with
  | inl onward => exact (onward.eq_of_final leftFinal).symm
  | inr onward => exact onward.eq_of_final rightFinal

/-- Continue the client's program with another one. -/
def Config.bindClient (next : α → σ → Outcome σ ι ρ γ) :
    Config σ ι ρ α β → Config σ ι ρ γ β
  | .client running waiting => .client (running.bind next) waiting
  | .server running waiting =>
      .server running
        ⟨waiting.request, fun reply state => (waiting.resume reply state).bind next⟩

theorem step_bindClient {before after : Config σ ι ρ α β}
    (next : α → σ → Outcome σ ι ρ γ)
    (first : step monitor restart before = some after) :
    step monitor restart (before.bindClient next) =
      some (after.bindClient next) := by
  cases before with
  | client running server =>
      cases running with
      | done value state => simp [step] at first
      | stuck state => simp [step] at first
      | call request state resume =>
          simp only [step] at first
          simp only [Config.bindClient, Outcome.call_bind, step]
          cases answer : monitor request state <;>
            simp_all <;> subst first <;> rfl
  | server running client =>
      cases running with
      | done value state =>
          simp only [step, Option.some.injEq] at first
          subst first
          rfl
      | stuck state => simp [step] at first
      | call request state resume =>
          simp only [step] at first
          simp only [Config.bindClient, step]
          cases answer : monitor request state <;>
            simp_all <;> subst first <;> rfl

/-- A run of the client's program is a run of every longer program that begins
with it. -/
theorem Steps.bindClient {start finish : Config σ ι ρ α β}
    (steps : Steps monitor restart start finish)
    (next : α → σ → Outcome σ ι ρ γ) :
    Steps monitor restart (start.bindClient next) (finish.bindClient next) := by
  induction steps with
  | refl => exact Steps.refl _
  | tail _ last induction => exact induction.tail (step_bindClient next last)

/-- Sequencing rule: the first program's run, then the second program's. -/
theorem Steps.bind {outcome : Outcome σ ι ρ α} {value : α} {state : σ}
    {before after : Suspended σ ι ρ β} {next : α → σ → Outcome σ ι ρ γ}
    {finish : Config σ ι ρ γ β}
    (first : Steps monitor restart (.client outcome before)
      (.client (.done value state) after))
    (rest : Steps monitor restart (.client (next value state) after) finish) :
    Steps monitor restart (.client (outcome.bind next) before) finish :=
  Steps.trans (first.bindClient next) rest

end Run

section Local

variable {σ ι ρ α β γ δ : Type}
variable {monitor : ι → σ → Verdict σ ρ} {restart : β → σ → Outcome σ ι ρ β}

/-- The program returns without giving up control: the monitor answers each of
its requests at once. -/
inductive Local (monitor : ι → σ → Verdict σ ρ) :
    Outcome σ ι ρ α → α → σ → Prop where
  | done (value : α) (state : σ) : Local monitor (.done value state) value state
  | call {request : ι} {before after final : σ} {reply : ρ} {value : α}
      {resume : ρ → σ → Outcome σ ι ρ α} :
      monitor request before = .stay reply after →
      Local monitor (resume reply after) value final →
      Local monitor (.call request before resume) value final

theorem Local.bind {outcome : Outcome σ ι ρ α} {value : α} {middle : σ}
    {next : α → σ → Outcome σ ι ρ γ} {result : γ} {final : σ}
    (first : Local monitor outcome value middle)
    (rest : Local monitor (next value middle) result final) :
    Local monitor (outcome.bind next) result final := by
  induction first with
  | done value state => exact rest
  | call answer _ induction => exact .call answer (induction rest)

theorem Local.unique {outcome : Outcome σ ι ρ α} {left right : α} {first last : σ}
    (run : Local monitor outcome left first)
    (other : Local monitor outcome right last) : left = right ∧ first = last := by
  induction run with
  | done value state =>
      cases other
      exact ⟨rfl, rfl⟩
  | call answer rest induction =>
      cases other with
      | call again later =>
          cases answer.symm.trans again
          exact induction later

theorem Local.client {outcome : Outcome σ ι ρ α} {value : α} {final : σ}
    (run : Local monitor outcome value final)
    (next : α → σ → Outcome σ ι ρ γ) (server : Suspended σ ι ρ β) :
    Steps monitor restart (.client (outcome.bind next) server)
      (.client (next value final) server) := by
  induction run with
  | done value state => exact Steps.refl _
  | call answer _ induction =>
      exact Steps.head (by simp [step, answer]) induction

theorem Local.server {outcome : Outcome σ ι ρ γ} {value : γ} {final : σ}
    (run : Local monitor outcome value final)
    (next : γ → σ → Outcome σ ι ρ β) (client : Suspended σ ι ρ δ) :
    Steps monitor restart (.server (outcome.bind next) client)
      (.server (next value final) client) := by
  induction run with
  | done value state => exact Steps.refl _
  | call answer _ induction =>
      exact Steps.head (by simp [step, answer]) induction

end Local

end Coroutine
