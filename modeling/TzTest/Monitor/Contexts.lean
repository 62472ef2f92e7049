import TzTest.Arch
import Mathlib.Logic.Function.Basic

/-!
# Whose context is live

The history of the world switches, as far as it decides what a switch has to
bring back: which world is running, and with which registers each of the two
last entered `monitor_switch`.
-/

namespace TzTest

structure Contexts (Name Value : Type) where
  live : World
  entered : World → Name → Value

namespace Contexts

variable {Name Value : Type}

/-- An SMC that the handler answers with `code`, after which the registers are
those given. -/
def serve (contexts : Contexts Name Value) (code : U32)
    (registers : Name → Value) : Contexts Name Value :=
  if code = 0 then contexts
  else
    { live := contexts.live.other
      entered := Function.update contexts.entered contexts.live registers }

variable {contexts : Contexts Name Value} {code : U32} {registers : Name → Value}

theorem serve_of_zero (zero : code = 0) : contexts.serve code registers = contexts :=
  if_pos zero

theorem serve_of_ne_zero (nonzero : code ≠ 0) :
    contexts.serve code registers =
      { live := contexts.live.other
        entered := Function.update contexts.entered contexts.live registers } :=
  if_neg nonzero

end Contexts

end TzTest
