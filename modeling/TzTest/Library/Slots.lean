import Mathlib.Logic.Function.Basic

/-!
# Registers and slots

A context is saved by writing registers to slots of a buffer, and restored by
reading the same slots back.  Both are lists of updates of a function.
-/

namespace Slots

variable {Key Value Name : Type}

/-- The values of the registers, slot by slot. -/
def saved (slots : List (Name × Key)) (registers : Name → Value) :
    List (Key × Value) :=
  slots.map fun slot => (slot.2, registers slot.1)

/-- The contents of the slots, register by register. -/
def restored (slots : List (Key × Name)) (memory : Name → Value) :
    List (Key × Value) :=
  slots.map fun slot => (slot.1, memory slot.2)

theorem saved_append (first last : List (Name × Key)) (registers : Name → Value) :
    saved (first ++ last) registers = saved first registers ++ saved last registers :=
  List.map_append

theorem restored_append (first last : List (Key × Name)) (memory : Name → Value) :
    restored (first ++ last) memory = restored first memory ++ restored last memory :=
  List.map_append

theorem saved_congr {slots : List (Name × Key)} {left right : Name → Value}
    (same : ∀ slot ∈ slots, left slot.1 = right slot.1) :
    saved slots left = saved slots right :=
  List.map_congr_left fun slot member =>
    congrArg (Prod.mk slot.2) (same slot member)

variable [DecidableEq Key]

/-- The updates are made from the first to the last. -/
def updates (f : Key → Value) : List (Key × Value) → Key → Value
  | [] => f
  | change :: rest => updates (Function.update f change.1 change.2) rest

@[simp] theorem updates_nil (f : Key → Value) : updates f [] = f :=
  rfl

theorem updates_cons (f : Key → Value) (key : Key) (value : Value)
    (rest : List (Key × Value)) :
    updates f ((key, value) :: rest) = updates (Function.update f key value) rest :=
  rfl

theorem updates_append (f : Key → Value) (first last : List (Key × Value)) :
    updates f (first ++ last) = updates (updates f first) last := by
  induction first generalizing f with
  | nil => rfl
  | cons change first induction => exact induction _

theorem updates_of_not_mem {changes : List (Key × Value)} {key : Key}
    (absent : key ∉ changes.map Prod.fst) (f : Key → Value) :
    updates f changes key = f key := by
  induction changes generalizing f with
  | nil => rfl
  | cons change rest induction =>
      rw [List.map_cons, List.mem_cons, not_or] at absent
      exact (induction absent.2 _).trans (Function.update_of_ne absent.1 _ _)

theorem updates_of_mem {changes : List (Key × Value)}
    (distinct : (changes.map Prod.fst).Nodup) {key : Key} {value : Value}
    (member : (key, value) ∈ changes) (f : Key → Value) :
    updates f changes key = value := by
  induction changes generalizing f with
  | nil => cases member
  | cons change rest induction =>
      obtain ⟨fresh, restDistinct⟩ := List.nodup_cons.mp distinct
      rcases List.mem_cons.mp member with rfl | later
      · exact (updates_of_not_mem fresh _).trans (Function.update_self ..)
      · exact induction restDistinct later _

theorem updates_congr {f g : Key → Value} {key : Key} (same : f key = g key)
    (changes : List (Key × Value)) :
    updates f changes key = updates g changes key := by
  induction changes generalizing f g with
  | nil => exact same
  | cons change rest induction =>
      apply induction
      by_cases here : key = change.1
      · subst here
        rw [Function.update_self, Function.update_self]
      · rw [Function.update_of_ne here, Function.update_of_ne here, same]

theorem updates_saved {slots : List (Name × Key)}
    (distinct : (slots.map Prod.snd).Nodup) {register : Name} {slot : Key}
    (member : (register, slot) ∈ slots) (registers : Name → Value)
    (memory : Key → Value) :
    updates memory (saved slots registers) slot = registers register := by
  apply updates_of_mem
  · rw [saved, List.map_map]
    exact distinct
  · exact List.mem_map.mpr ⟨(register, slot), member, rfl⟩

theorem updates_saved_of_not_mem {slots : List (Name × Key)} {addr : Key}
    (outside : addr ∉ slots.map Prod.snd) (registers : Name → Value)
    (memory : Key → Value) :
    updates memory (saved slots registers) addr = memory addr := by
  apply updates_of_not_mem
  rw [saved, List.map_map]
  exact outside

end Slots
