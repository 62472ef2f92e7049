import TzTest.Protocol.Requests

/-!
# The interop test

The descriptor of `SVC_OP_TEST` makes four hops, but secure EL0 works on a copy
that its yield never writes back, so nonsecure EL0 sees the effect of three.
-/

namespace TzTest

variable {arch : Arch} {Paging : Type}

namespace OpTest

/-- The hops, of the first so many, that find a value which is not the
original shifted by the count. -/
def mismatches (test : OpTest arch) (hops : Nat) : Nat :=
  (List.range hops).countP fun done =>
    test.val >>> done ≠ test.orig >>> (test.count.toNat + done)

/-- The effect of that many hops: each counts itself, halves the value and
checks it against the original. -/
structure AfterHops (hops : Nat) (before after : OpTest arch) : Prop where
  orig : after.orig = before.orig
  val : after.val = before.val >>> hops
  count : after.count = before.count + BitVec.ofNat 32 hops
  fail : after.fail = before.fail + BitVec.ofNat 32 (before.mismatches hops)

theorem AfterHops.zero (test : OpTest arch) : test.AfterHops 0 test := by
  constructor <;> simp [mismatches]

theorem AfterHops.hop {before after : OpTest arch} {hops : Nat}
    (sofar : before.AfterHops hops after)
    (below : before.count.toNat + hops < 2 ^ 32) :
    before.AfterHops (hops + 1) after.hop where
  orig := sofar.orig
  val := by
    rw [OpTest.hop, sofar.val, BitVec.shiftRight_add]
  count := by
    rw [OpTest.hop, sofar.count, BitVec.add_assoc, BitVec.ofNat_add]
    rfl
  fail := by
    have counted : after.count.toNat = before.count.toNat + hops := by
      rw [sofar.count, BitVec.toNat_add, BitVec.toNat_ofNat]
      omega
    have more : before.mismatches (hops + 1) = before.mismatches hops +
        if before.val >>> hops ≠ before.orig >>> (before.count.toNat + hops)
        then 1 else 0 := by
      simp [mismatches, List.range_succ]
    rw [OpTest.hop, sofar.val, sofar.orig, sofar.fail, counted, more]
    dsimp only
    split
    · rw [BitVec.ofNat_add, BitVec.add_assoc]
      rfl
    · rfl

end OpTest

section Result

variable (desc : Desc arch) (sys : Sys arch Paging)

theorem test_count_setDataData (data : Word arch) :
    (desc.setDataData data).test.count = desc.test.count := by
  cases arch <;> rfl

/-- The register case that EL3 falls into writes no more than the `data` word
of the descriptor. -/
theorem interop_el3GetReg :
    (el3GetReg sys).interop = sys.interop ∨
      ∃ data, (el3GetReg sys).interop = sys.interop.setDataData data := by
  unfold el3GetReg
  dsimp only
  split
  · split
    · exact .inr ⟨_, rfl⟩
    · exact .inl rfl
  · exact .inl rfl

theorem count_testSent :
    (testSent desc sys).interop.test.count = desc.test.count + 2 := by
  have hops : ((desc.setTest desc.test.hop).setTest
      (desc.setTest desc.test.hop).test.hop).test.count =
      desc.test.count + 2 := by
    rw [Desc.test_setTest, Desc.test_setTest, OpTest.hop, OpTest.hop,
      BitVec.add_assoc]
    rfl
  rcases interop_el3GetReg (sys.setInterop ((desc.setTest desc.test.hop).setTest
    (desc.setTest desc.test.hop).test.hop)) with same | ⟨data, written⟩
  · rw [testSent, same]
    exact hops
  · rw [testSent, written, test_count_setDataData]
    exact hops

/-- Unless the test's count reads as exception level 3 there, EL3 passes on
the descriptor of the two hops so far. -/
theorem test_testSent (notOne : desc.test.count ≠ 1) :
    (testSent desc sys).interop.test = desc.test.hop.hop := by
  have level : ((desc.setTest desc.test.hop).setTest
      (desc.setTest desc.test.hop).test.hop).data.el ≠ 3 := by
    rw [Desc.data_el_eq_test_count, Desc.test_setTest, Desc.test_setTest]
    intro three
    apply notOne
    have counts : desc.test.count + 1 + 1 = 3 := three
    bv_omega
  have same : testSent desc sys = sys.setInterop
      ((desc.setTest desc.test.hop).setTest
        (desc.setTest desc.test.hop).test.hop) := if_neg level
  rw [same]
  simp [Sys.setInterop]

theorem returns_test_afterHops {env : Env arch Paging}
    (notOne : desc.test.count ≠ 1)
    (below : desc.test.count.toNat + 3 < 2 ^ 32) :
    ∃ value after,
      Returns env (svc env .nonsecure SvcOp.test.code desc) sys waiting value
        after waiting ∧
      desc.test.AfterHops 3 value.2.test := by
  refine ⟨_, _, returns_test desc, ?_⟩
  rw [Desc.test_setTest, test_testSent desc sys notOne]
  have one := (OpTest.AfterHops.zero desc.test).hop (by omega)
  have two := one.hop (by omega)
  exact two.hop (by omega)

theorem not_afterHops_of_count {before after : OpTest arch}
    (three : after.count = before.count + 3) : ¬before.AfterHops 4 after := by
  intro four
  have counts := four.count
  rw [three] at counts
  exact absurd (add_left_cancel counts) (by decide)

theorem returns_test_count {env : Env arch Paging} :
    ∃ value after,
      Returns env (svc env .nonsecure SvcOp.test.code desc) sys waiting value
        after waiting ∧
      value.2.test.count = desc.test.count + 3 := by
  refine ⟨_, _, returns_test desc, ?_⟩
  rw [Desc.test_setTest, OpTest.hop, count_testSent, BitVec.add_assoc]
  rfl

/-- No descriptor comes back with the effect of all four hops: the hop of
secure EL0 is always missing. -/
theorem interopTest_loses_secure_hop {env : Env arch Paging} :
    ∃ value after,
      Returns env (svc env .nonsecure SvcOp.test.code desc) sys waiting value
        after waiting ∧
      ¬desc.test.AfterHops 4 value.2.test := by
  obtain ⟨value, after, returned, three⟩ := @returns_test_count _ _ desc sys env
  exact ⟨value, after, returned, not_afterHops_of_count three⟩

end Result

/-- The descriptor of `interop_test` itself comes back after three hops. -/
theorem interopTest_of_tztest :
    ∃ value after,
      Returns (bareEnv .aarch64)
        (svc (bareEnv .aarch64) .nonsecure SvcOp.test.code
          (interopTestDesc (bareEnv .aarch64)))
        (bareSys .aarch64) waiting value after waiting ∧
      value.2.test.count = 3 ∧
      ¬(interopTestDesc (bareEnv .aarch64)).test.AfterHops 4 value.2.test := by
  obtain ⟨value, after, returned, three⟩ := returns_test_count
    (interopTestDesc (bareEnv .aarch64)) (bareSys .aarch64)
  refine ⟨value, after, returned, ?_, not_afterHops_of_count three⟩
  rw [three, interopTestDesc, Desc.test_setTest]
  rfl

end TzTest
