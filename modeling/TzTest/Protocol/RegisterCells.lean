import TzTest.Protocol.Services

/-!
# The register service as cells on AArch64

`SVC_SET_REG` and `SVC_GET_REG` of an EL0 image, on the registers that the named
level can write without a trap.  EL1 serves `CPACR` and `SCTLR`; EL3 serves
these and its own registers, and `CPACR` names the same register there.
-/

namespace TzTest

open Coroutine (Local)

variable {Paging : Type}

/-- A register that the level can read and write. -/
structure Cell where
  key : RegKey
  el : U32
  accessible : (el = 1 ∧ key ∈ [.cpacr, .sctlr]) ∨
    (el = 3 ∧ key ∈ [.cptrEl3, .cpacr, .scr, .sctlr])

/-- The key as the descriptor has it. -/
def Cell.word (cell : Cell) : Word .aarch64 :=
  BitVec.ofNat Arch.aarch64.width cell.key.code

/-- The request of an EL0 image. -/
inductive RegRequest where
  | get (cell : Cell)
  | set (cell : Cell) (data : Word .aarch64)

namespace RegRequest

def cell : RegRequest → Cell
  | get cell => cell
  | set cell _ => cell

/-- What the request sets a register with the key to, and at which level. -/
def sets (key : RegKey) : RegRequest → Option (U32 × Word .aarch64)
  | get _ => none
  | set cell data => if cell.key = key then some (cell.el, data) else none

def run (env : Env .aarch64 Paging) (world : World) :
    RegRequest → Code .aarch64 Paging Unit
  | get cell => do
      let _ ← svcGetReg env world cell.word cell.el
  | set cell data => svcSetReg env world cell.word cell.el data

/-- What the request leaves behind. -/
def after (env : Env .aarch64 Paging) (world : World)
    (sys : Sys .aarch64 Paging) : RegRequest → Sys .aarch64 Paging
  | get cell => (getReg env (.el0 world) cell.word cell.el sys).2
  | set cell data => setReg env (.el0 world) cell.word cell.el data sys

end RegRequest

/-- One request after the other, and then a `SVC_GET_REG`. -/
def getAfter (env : Env .aarch64 Paging) (world : World) :
    List RegRequest → Cell → Code .aarch64 Paging (Word .aarch64)
  | [], cell => svcGetReg env world cell.word cell.el
  | request :: rest, cell => do
      request.run env world
      getAfter env world rest cell

/-- The level and the value of the last `SVC_SET_REG` with the key. -/
def lastSet (key : RegKey) (requests : List RegRequest) :
    Option (U32 × Word .aarch64) :=
  (requests.filterMap (RegRequest.sets key)).getLast?

/-- The register that both levels mean by the key. -/
def Regs.cell (regs : Regs .aarch64) : RegKey → Word .aarch64
  | .currentel => 0
  | .cptrEl3 => regs.cptrEl3
  | .cpacr => regs.cpacr
  | .scr => regs.scr
  | .sctlr => regs.sctlr
  | .cpsr => regs.cpsr

section RegRequest

variable (env : Env .aarch64 Paging) (world : World) (cell : Cell)
  (data : Word .aarch64) (sys : Sys .aarch64 Paging)

theorem cell_el3WriteReg (regs : Regs .aarch64) (key : RegKey) :
    (el3WriteReg regs cell.key data).cell key =
      if cell.key = key then data else regs.cell key := by
  have settable : cell.key ∈ [RegKey.cptrEl3, .cpacr, .scr, .sctlr] := by
    rcases cell.accessible with ⟨-, member⟩ | ⟨-, member⟩
    · exact (by decide : ∀ key ∈ [RegKey.cpacr, .sctlr],
        key ∈ [RegKey.cptrEl3, .cpacr, .scr, .sctlr]) _ member
    · exact member
  simp only [List.mem_cons, List.not_mem_nil, or_false] at settable
  rcases settable with named | named | named | named <;>
    rw [named] <;> cases key <;> rfl

theorem getReg_cell :
    (getReg env (.el0 world) cell.word cell.el sys).1 = sys.regs.cell cell.key := by
  obtain ⟨key, el, ⟨rfl, member⟩ | ⟨rfl, member⟩⟩ := cell
  · simp only [List.mem_cons, List.not_mem_nil, or_false] at member
    rcases member with rfl | rfl
    · simp [getReg, svcGetResult, Cell.word, el1ReadReg, Regs.cell]
    · simp [getReg, svcGetResult, Cell.word, el1ReadReg, Regs.cell]
  · simp only [List.mem_cons, List.not_mem_nil, or_false] at member
    rcases member with rfl | rfl | rfl | rfl
    all_goals
      simp [getReg, svcGetResult, Cell.word, Sys.setInterop, el3GetReg, el3ReadReg,
        Regs.cell]

theorem regs_setReg_cell :
    (setReg env (.el0 world) cell.word cell.el data sys).regs =
      el3WriteReg sys.regs cell.key data := by
  obtain ⟨key, el, ⟨rfl, member⟩ | ⟨rfl, member⟩⟩ := cell
  · simp only [List.mem_cons, List.not_mem_nil, or_false] at member
    rcases member with rfl | rfl
    · simp [setReg, svcSetResult, Cell.word, el1WriteReg, el3WriteReg]
    · simp [setReg, svcSetResult, Cell.word, el1WriteReg, el3WriteReg]
  · simp only [List.mem_cons, List.not_mem_nil, or_false] at member
    rcases member with rfl | rfl | rfl | rfl
    all_goals
      simp [setReg, svcSetResult, Cell.word, Sys.setInterop, el3SetReg, el3WriteReg]

end RegRequest

section Run

variable (env : Env .aarch64 Paging) (world : World)

theorem local_request (request : RegRequest) (sys : Sys .aarch64 Paging) :
    Local (el3Answer env) (request.run env world sys) ()
      (request.after env world sys) := by
  cases request with
  | get cell =>
      exact (local_svcGetReg env world cell.word cell.el sys).bind (.done _ _)
  | set cell data => exact local_svcSetReg env world cell.word cell.el data sys

theorem cell_after (request : RegRequest) (key : RegKey)
    (sys : Sys .aarch64 Paging) :
    (request.after env world sys).regs.cell key =
      ((request.sets key).map Prod.snd).getD (sys.regs.cell key) := by
  cases request with
  | get cell =>
      change (getReg env (.el0 world) cell.word cell.el sys).2.regs.cell key = _
      rw [regs_getReg]
      rfl
  | set cell data =>
      change (setReg env (.el0 world) cell.word cell.el data sys).regs.cell key = _
      rw [regs_setReg_cell, cell_el3WriteReg, RegRequest.sets]
      split_ifs <;> rfl

theorem lastSet_cons (key : RegKey) (request : RegRequest) (rest : List RegRequest) :
    lastSet key (request :: rest) = (lastSet key rest).or (request.sets key) := by
  unfold lastSet
  cases set : request.sets key with
  | none => rw [List.filterMap_cons_none set, Option.or_none]
  | some last =>
      rw [List.filterMap_cons_some set, List.getLast?_cons]
      cases (rest.filterMap (RegRequest.sets key)).getLast? <;> rfl

/-- What a register holds after the requests. -/
def held (requests : List RegRequest) (key : RegKey) (sys : Sys .aarch64 Paging) :
    Word .aarch64 :=
  ((lastSet key requests).map Prod.snd).getD (sys.regs.cell key)

theorem held_cons (request : RegRequest) (rest : List RegRequest) (key : RegKey)
    (sys : Sys .aarch64 Paging) :
    held rest key (request.after env world sys) =
      held (request :: rest) key sys := by
  rw [held, held, cell_after, lastSet_cons]
  cases lastSet key rest <;> rfl

theorem local_getAfter (requests : List RegRequest) (cell : Cell)
    (sys : Sys .aarch64 Paging) :
    ∃ final, Local (el3Answer env) (getAfter env world requests cell sys)
      (held requests cell.key sys) final := by
  induction requests generalizing sys with
  | nil =>
      have served := local_svcGetReg env world cell.word cell.el sys
      rw [getReg_cell] at served
      exact ⟨_, served⟩
  | cons request rest induction =>
      obtain ⟨final, served⟩ := induction (request.after env world sys)
      rw [held_cons] at served
      exact ⟨final, (local_request env world request sys).bind served⟩

theorem lastSet_filter (key : RegKey) (requests : List RegRequest) :
    lastSet key (requests.filter fun request => request.cell.key = key) =
      lastSet key requests := by
  unfold lastSet
  rw [List.filterMap_filter]
  congr 1
  apply List.filterMap_congr
  intro request _
  cases request with
  | get cell => simp [RegRequest.sets]
  | set cell data =>
      by_cases named : cell.key = key <;> simp [RegRequest.cell, RegRequest.sets, named]

/-- A `SVC_GET_REG` after any requests returns what the last `SVC_SET_REG` with
its key has set, and requests with other keys have no part in it.  Of `SCTLR`
after a set at the other level, nothing is said: `READ_SCTLR_EL3` and
`WRITE_SCTLR_EL3` exist, but EL3 does not use them. -/
theorem svcGetReg_of_lastSet (requests : List RegRequest) (cell : Cell)
    (sys : Sys .aarch64 Paging) :
    ∃ value final,
      Local (el3Answer env) (getAfter env world requests cell sys) value final ∧
      (∀ el data, lastSet cell.key requests = some (el, data) →
        (cell.key = .sctlr → el = cell.el) → value = data) ∧
      ∃ other, Local (el3Answer env)
        (getAfter env world
          (requests.filter fun request => request.cell.key = cell.key) cell sys)
        value other := by
  obtain ⟨final, served⟩ := local_getAfter env world requests cell sys
  obtain ⟨other, alone⟩ := local_getAfter env world
    (requests.filter fun request => request.cell.key = cell.key) cell sys
  rw [held, lastSet_filter] at alone
  refine ⟨_, final, served, ?_, other, alone⟩
  intro el data last _
  rw [held, last]
  rfl

/-- `CPACR` at level one. -/
def cpacrEl1 : Cell := ⟨.cpacr, 1, by decide⟩

/-- `CPACR` at level three. -/
def cpacrEl3 : Cell := ⟨.cpacr, 3, by decide⟩

/-- A set at level three is read at level one. -/
theorem cpacr_shared :
    ¬∃ final, Local (el3Answer (bareEnv .aarch64))
      (getAfter (bareEnv .aarch64) .nonsecure
        [.set cpacrEl1 5, .set cpacrEl3 6] cpacrEl1 (bareSys .aarch64)) 5 final := by
  rintro ⟨final, served⟩
  obtain ⟨other, real⟩ := local_getAfter (bareEnv .aarch64) .nonsecure
    [.set cpacrEl1 5, .set cpacrEl3 6] cpacrEl1 (bareSys .aarch64)
  have same := (served.unique real).1
  exact absurd same (by decide)

end Run

end TzTest
