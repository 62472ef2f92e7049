import TzTest.Protocol.Memory

/-!
# What the monitor asks of `el3_handle_smc`

For an arbitrary operation word and an arbitrary descriptor: when the handler
asks for a world switch, what it does to `secure_state`, and which requests
write the secure configuration register.
-/

namespace TzTest

variable {arch : Arch} {Paging : Type}

/-- The dispatches that EL3 keeps for itself. -/
def KeptByEl3 (sys : Sys arch Paging) : Prop :=
  sys.interop.disp.el = U32.word arch Image.el3.exceptionLevel ∧
    sys.interop.disp.state = (sys.regs.scr &&& scrNs arch)

instance (sys : Sys arch Paging) : Decidable (KeptByEl3 sys) :=
  inferInstanceAs (Decidable (_ ∧ _))

/-- The SMCs that end in a world switch. -/
def RequestsSwitch (op : Word arch) (sys : Sys arch Paging) : Prop :=
  match SmcOp.ofCode? op with
  | some .yield => True
  | some .test => True
  | some .map => sys.interop.map.type &&& opMapSecEl1 = opMapSecEl1
  | some .dispatch => ¬KeptByEl3 sys
  | _ => False

/-- The test function comes to write the secure configuration register. -/
def Handler.WritesScr : Handler arch → Sys arch Paging → Prop
  | .done, _ => False
  | .getReg key _ next, sys =>
      match (RegKey.ofCode? key).bind (el3ReadReg sys.regs) with
      | some data => (next data).WritesScr sys
      | none => (next 0).WritesScr sys
  | .setReg key _ data next, sys =>
      match RegKey.ofCode? key with
      | some key =>
          key = .scr ∨
            next.WritesScr { sys with regs := el3WriteReg sys.regs key data }
      | none => next.WritesScr sys

/-- The test function that a dispatch comes to at EL3, if one is registered. -/
def el3Test? (env : Env arch Paging) (sys : Sys arch Paging) :
    Option (Handler arch) :=
  (env.testFunc .el3 sys.interop.disp.fid).map (· sys.interop.disp.arg.low)

/-- The SMCs that write the secure configuration register. -/
def WritesScr (env : Env arch Paging) (op : Word arch) (sys : Sys arch Paging) :
    Prop :=
  match SmcOp.ofCode? op with
  | some .setReg =>
      sys.interop.data.el = 3 ∧ RegKey.ofCode? sys.interop.data.key = some .scr
  | some .dispatch =>
      KeptByEl3 sys ∧ sys.interop.disp.state.low = sys.secureState ∧
        ∃ test, el3Test? env sys = some test ∧ test.WritesScr sys
  | _ => False

/-- What the SMC writes to the secure configuration register keeps `SCR.NS`. -/
def KeepsNs (env : Env arch Paging) (op : Word arch) (sys : Sys arch Paging) :
    Prop :=
  match SmcOp.ofCode? op with
  | some .setReg =>
      sys.interop.data.el = 3 →
      RegKey.ofCode? sys.interop.data.key = some .scr →
      sys.interop.data.data.nsBit = sys.regs.scr.nsBit
  | some .dispatch =>
      ∀ test, el3Test? env sys = some test →
        (test.el3 sys).regs.scr.nsBit = sys.regs.scr.nsBit
  | _ => True

theorem RequestsSwitch.not_writesScr {env : Env arch Paging} {op : Word arch}
    {sys : Sys arch Paging} (requests : RequestsSwitch op sys) :
    ¬WritesScr env op sys := by
  unfold RequestsSwitch at requests
  unfold WritesScr
  cases named : SmcOp.ofCode? op with
  | none => exact id
  | some operation =>
      simp only [named] at requests
      cases operation with
      | dispatch => exact fun writes => requests writes.1
      | setReg => exact requests.elim
      | _ => exact id

namespace Handler

theorem regs_el3_congr (handler : Handler arch) {left right : Sys arch Paging}
    (same : left.regs = right.regs) :
    (handler.el3 left).regs = (handler.el3 right).regs := by
  induction handler generalizing left right with
  | done => exact same
  | getReg key el next induction =>
      simp only [Handler.el3]
      rw [same]
      cases (RegKey.ofCode? key).bind (el3ReadReg right.regs) with
      | none => exact induction 0 same
      | some data => exact induction data same
  | setReg key el data next induction =>
      simp only [Handler.el3]
      cases RegKey.ofCode? key with
      | none => exact induction same
      | some key => exact induction (congrArg (el3WriteReg · key data) same)

theorem scr_el3_of_not_writesScr (handler : Handler arch)
    (sys : Sys arch Paging) (quiet : ¬handler.WritesScr sys) :
    (handler.el3 sys).regs.scr = sys.regs.scr := by
  induction handler generalizing sys with
  | done => rfl
  | getReg key el next induction =>
      simp only [WritesScr] at quiet
      simp only [Handler.el3]
      cases read : (RegKey.ofCode? key).bind (el3ReadReg sys.regs) with
      | none =>
          simp only [read] at quiet
          exact induction 0 sys quiet
      | some data =>
          simp only [read] at quiet
          exact induction data sys quiet
  | setReg key el data next induction =>
      simp only [WritesScr] at quiet
      simp only [Handler.el3]
      cases named : RegKey.ofCode? key with
      | none =>
          simp only [named] at quiet
          exact induction sys quiet
      | some key =>
          simp only [named, not_or] at quiet
          refine (induction _ quiet.2).trans ?_
          show (el3WriteReg sys.regs key data).scr = sys.regs.scr
          rw [scr_el3WriteReg, if_neg quiet.1]

end Handler

/-- What the monitor relies on when the handler returns. -/
structure Handles (env : Env arch Paging) (op : Word arch)
    (sys : Sys arch Paging) (code : U32) (after : Sys arch Paging) : Prop where
  switches : code ≠ 0 ↔ RequestsSwitch op sys
  secureState :
    after.secureState =
      if code = 0 then sys.secureState else sys.secureState ^^^ 1
  regs : RequestsSwitch op sys → after.regs = sys.regs
  scr : ¬WritesScr env op sys → after.regs.scr = sys.regs.scr
  ns : KeepsNs env op sys → after.regs.scr.nsBit = sys.regs.scr.nsBit

section Cases

variable {env : Env arch Paging} {op : Word arch} {sys after : Sys arch Paging}
  {code : U32}

/-- The end of `el3_map_mem`, which both values of the EL3 bit come to. -/
private theorem mapped_cases {paging : Paging}
    (returned :
      (if sys.interop.map.type &&& opMapSecEl1 = opMapSecEl1 then
        some (SvcOp.map.code, mapMasked sys paging)
      else
        some (0, { sys with paging := paging })) = some (code, after)) :
    after.regs = sys.regs ∧ after.secureState = sys.secureState ∧
      (code ≠ 0 ↔ sys.interop.map.type &&& opMapSecEl1 = opMapSecEl1) := by
  split at returned
  · rename_i secure
    cases returned
    exact ⟨rfl, rfl, iff_of_true (SvcOp.code_ne_zero .map) secure⟩
  · rename_i notSecure
    cases returned
    exact ⟨rfl, rfl, iff_of_false (· rfl) notSecure⟩

theorem el3MapMem_cases (answered : el3MapMem env sys = some (code, after)) :
    after.regs = sys.regs ∧ after.secureState = sys.secureState ∧
      (code ≠ 0 ↔ sys.interop.map.type &&& opMapSecEl1 = opMapSecEl1) := by
  by_cases toEl3 : sys.interop.map.type &&& opMapEl3 = opMapEl3
  · simp only [el3MapMem, if_pos toEl3] at answered
    obtain ⟨paging, _, returned⟩ := Option.bind_eq_some_iff.mp answered
    exact mapped_cases returned
  · simp only [el3MapMem, if_neg toEl3] at answered
    obtain ⟨paging, _, returned⟩ := Option.bind_eq_some_iff.mp answered
    exact mapped_cases returned

theorem scr_el3SetReg :
    (el3SetReg sys).regs.scr =
      if sys.interop.data.el = 3 ∧
          RegKey.ofCode? sys.interop.data.key = some .scr then
        sys.interop.data.data
      else
        sys.regs.scr := by
  by_cases atEl3 : sys.interop.data.el = 3
  · cases named : RegKey.ofCode? sys.interop.data.key with
    | none => simp [el3SetReg, atEl3, named]
    | some key => simp [el3SetReg, atEl3, named, scr_el3WriteReg]
  · have elsewhere : el3SetReg sys = sys := sys.el3SetReg_elsewhere atEl3
    rw [elsewhere, if_neg fun writes => atEl3 writes.1]

/-- A dispatch that EL3 keeps runs its test function, if at all, with the
registers of the SMC. -/
theorem el3Dispatch_cases (answered : el3Dispatch env sys = (code, after)) :
    (code ≠ 0 ↔ ¬KeptByEl3 sys) ∧ after.secureState = sys.secureState ∧
      (after.regs = sys.regs ∨
        KeptByEl3 sys ∧ sys.interop.disp.state.low = sys.secureState ∧
          ∃ test, el3Test? env sys = some test ∧
            after.regs = (test.el3 sys).regs) := by
  by_cases kept : KeptByEl3 sys
  · have ran : el3Dispatch env sys =
        (0, el3RunTest env sys.interop.disp.fid sys.interop.disp.el.low
          sys.interop.disp.state.low sys.interop.disp.arg.low sys) :=
      if_pos kept
    rw [ran, el3RunTest] at answered
    split at answered
    · rename_i own
      cases found : env.testFunc .el3 sys.interop.disp.fid with
      | none =>
          simp only [found] at answered
          cases answered
          exact ⟨iff_of_false (· rfl) (· kept), rfl, .inl rfl⟩
      | some test =>
          simp only [found] at answered
          cases answered
          refine ⟨iff_of_false (· rfl) (· kept), ?_, .inr ⟨kept, own.2, ?_⟩⟩
          · rw [handler_el3 env]
            exact (Handler.quiet_run env .el3 _ _).secureState
          · exact ⟨test sys.interop.disp.arg.low,
              congrArg (Option.map _) found, Handler.regs_el3_congr _ rfl⟩
    · cases answered
      exact ⟨iff_of_false (· rfl) (· kept), rfl, .inl rfl⟩
  · have forwarded : el3Dispatch env sys = (SvcOp.dispatch.code, sys) :=
      if_neg kept
    rw [forwarded] at answered
    cases answered
    exact ⟨iff_of_true (SvcOp.code_ne_zero .dispatch) kept, rfl, .inl rfl⟩

/-- What the `switch` statement does for each operation. -/
theorem el3Switch_cases (answered : el3Switch env op sys = some (code, after)) :
    (code ≠ 0 ↔ RequestsSwitch op sys) ∧ after.secureState = sys.secureState ∧
      (RequestsSwitch op sys → after.regs = sys.regs) ∧
      (¬WritesScr env op sys → after.regs.scr = sys.regs.scr) ∧
      (KeepsNs env op sys → after.regs.scr.nsBit = sys.regs.scr.nsBit) := by
  unfold RequestsSwitch WritesScr KeepsNs
  unfold el3Switch at answered
  cases named : SmcOp.ofCode? op with
  | none =>
      simp only [named] at answered
      cases answered
      exact ⟨iff_of_false (· rfl) id, rfl, fun _ => rfl, fun _ => rfl, fun _ => rfl⟩
  | some operation =>
  simp only [named] at answered
  cases operation with
  | noop =>
      cases answered
      exact ⟨iff_of_false (· rfl) id, rfl, fun _ => rfl, fun _ => rfl, fun _ => rfl⟩
  | exit =>
      cases answered
      exact ⟨iff_of_false (· rfl) id, rfl, fun _ => rfl, fun _ => rfl, fun _ => rfl⟩
  | yield =>
      cases answered
      exact ⟨iff_of_true (SvcOp.code_ne_zero .yield) trivial, rfl, fun _ => rfl,
        fun _ => rfl, fun _ => rfl⟩
  | test =>
      cases answered
      have same := Sys.regs_el3GetReg
        (sys.setInterop (sys.interop.setTest sys.interop.test.hop))
      have state := (Sys.quiet_el3GetReg
        (sys.setInterop (sys.interop.setTest sys.interop.test.hop))).secureState
      exact ⟨iff_of_true (SvcOp.code_ne_zero .test) trivial, state, fun _ => same,
        fun _ => congrArg Regs.scr same,
        fun _ => congrArg (fun regs => regs.scr.nsBit) same⟩
  | map =>
      obtain ⟨same, state, secure⟩ := el3MapMem_cases answered
      exact ⟨secure, state, fun _ => same, fun _ => congrArg Regs.scr same,
        fun _ => congrArg (fun regs => regs.scr.nsBit) same⟩
  | getReg =>
      cases answered
      have same := Sys.regs_el3GetReg sys
      exact ⟨iff_of_false (· rfl) id, (Sys.quiet_el3GetReg sys).secureState,
        fun _ => same, fun _ => congrArg Regs.scr same,
        fun _ => congrArg (fun regs => regs.scr.nsBit) same⟩
  | setReg =>
      cases answered
      refine ⟨iff_of_false (· rfl) id, (Sys.quiet_el3SetReg sys).secureState,
        False.elim, ?_, ?_⟩
      · intro quiet
        rw [scr_el3SetReg, if_neg quiet]
      · intro keeps
        rw [scr_el3SetReg]
        split
        · rename_i writes
          exact keeps writes.1 writes.2
        · rfl
  | dispatch =>
      obtain ⟨switches, state, regs⟩ :=
        el3Dispatch_cases (Option.some.inj answered)
      refine ⟨switches, state, ?_, ?_, ?_⟩
      · intro foreign
        rcases regs with same | ⟨kept, _⟩
        · exact same
        · exact absurd kept foreign
      · intro quiet
        rcases regs with same | ⟨kept, own, test, registered, ran⟩
        · rw [same]
        · rw [ran]
          apply test.scr_el3_of_not_writesScr
          intro writes
          exact quiet ⟨kept, own, test, registered, writes⟩
      · intro keeps
        rcases regs with same | ⟨_, _, test, registered, ran⟩
        · rw [same]
        · rw [ran]
          exact keeps test registered

theorem el3HandleSmc_handles
    (answered : el3HandleSmc env op sys = some (code, after)) :
    Handles env op sys code after := by
  obtain ⟨⟨ret, served⟩, switched, returned⟩ := Option.map_eq_some_iff.mp answered
  obtain ⟨switches, state, regs, scr, ns⟩ := el3Switch_cases switched
  dsimp only at returned
  split at returned
  · rename_i nonzero
    cases returned
    refine ⟨switches, ?_, regs, scr, ns⟩
    rw [if_neg nonzero, state]
  · rename_i zero
    cases returned
    refine ⟨switches, ?_, regs, scr, ns⟩
    rw [if_pos (not_not.mp zero), state]

end Cases

end TzTest
