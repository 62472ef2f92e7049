import TzTest.Protocol.Session
import TzTest.Protocol.SharedMap

/-!
# A dispatch that no level owns

It returns to nonsecure EL0, but it leaves secure EL1 in its own dispatch, so
that the next forwarded request only ends that one.
-/

namespace TzTest

open Coroutine (Steps)

variable {arch : Arch} {Paging : Type}

/-- No image has the exception level and the security state of the dispatch. -/
def Unowned (desc : Desc arch) : Prop :=
  ∀ (image : Image) (world : World),
    ¬(desc.disp.el = U32.word arch image.exceptionLevel ∧
      desc.disp.state = U32.word arch world.state)

/-- A request that should be served in the state in which it is made: legal,
not itself a dispatch without an owner, and one whose memory calls come back. -/
structure Request.WellFormed (env : Env arch Paging) (request : Request arch)
    (sys : Sys arch Paging) : Prop where
  legal : request.Legal env
  found : ¬request.Lost
  memory : request.MemoryReturns env sys

/-- As long as each request is well formed in the state in which it is made, it
comes back, served once. -/
def ServesAll (env : Env arch Paging) :
    List (Request arch) → Sys arch Paging → SecureWorld arch Paging → Prop
  | [], _, _ => True
  | request :: requests, sys, secure =>
      request.WellFormed env sys →
        ∃ value after rest,
          Returns env (request.svc env) sys secure value after rest ∧
          Handled env request sys after ∧
          ServesAll env requests after rest

theorem Unowned.not_el1Owns {desc : Desc arch} (unowned : Unowned desc)
    (world : World) : ¬El1Owns desc world :=
  fun owned => unowned (.el1 world) world ((el1Owns_test_iff world desc).mpr owned)

theorem Unowned.not_el3Owns {desc : Desc arch} (unowned : Unowned desc)
    (world : World) : ¬El3Owns desc world := by
  intro owned
  refine unowned .el3 world ⟨owned.1.trans ?_, owned.2⟩
  cases arch <;> rfl

theorem Unowned.dispatchImage? {desc : Desc arch} (unowned : Unowned desc) :
    dispatchImage? desc =
      secureImage? desc.disp.el.low desc.disp.state.low := by
  rw [TzTest.dispatchImage?, if_neg (unowned.not_el1Owns _),
    if_neg (unowned.not_el3Owns _)]

/-- On ARM the fields are as wide as the arguments of `run_test`, so that an
unowned dispatch comes to no secure image either. -/
theorem Unowned.secureImage?_arm {desc : Desc .arm} (unowned : Unowned desc) :
    secureImage? desc.disp.el.low desc.disp.state.low = none := by
  have whole : ∀ word : Word .arm, U32.word .arm word.low = word := by
    intro word
    exact (BitVec.setWidth_setWidth_of_le word (le_refl 32)).trans
      (BitVec.setWidth_eq word)
  cases found : secureImage? desc.disp.el.low desc.disp.state.low with
  | none => rfl
  | some image =>
      have state := secureImage?_state found
      unfold secureImage? at found
      rw [if_pos state] at found
      have world : desc.disp.state = U32.word .arm World.secure.state := by
        rw [← state, whole]
      split at found
      · rename_i level
        refine (unowned (.el0 .secure) .secure ⟨?_, world⟩).elim
        rw [← whole desc.disp.el, level]
        rfl
      · split at found
        · rename_i level
          refine (unowned (.el1 .secure) .secure ⟨?_, world⟩).elim
          rw [← whole desc.disp.el, level]
          rfl
        · split at found
          · rename_i level
            refine (unowned .el3 .secure ⟨?_, world⟩).elim
            rw [← whole desc.disp.el, level]
            rfl
          · cases found

section Following

variable {env : Env arch Paging} {sys : Sys arch Paging}

theorem wellFormed_yield (desc : Desc arch) :
    (⟨.yield, desc⟩ : Request arch).WellFormed env sys where
  legal := trivial
  found lost := by cases lost.1
  memory := trivial

theorem servesAll_waiting (requests : List (Request arch))
    (inStep : sys.InStep .nonsecure) :
    ServesAll env requests sys waiting := by
  induction requests generalizing sys with
  | nil => trivial
  | cons request requests induction =>
      intro wellFormed
      cases request.outcome wellFormed.legal inStep with
      | served returned handled =>
          rw [Request.leaves, if_neg wellFormed.found] at returned
          exact ⟨_, _, _, returned, handled, induction handled.inStep⟩
      | hangs _ memory => exact absurd wellFormed.memory memory

theorem returns_yield_dispatching (desc : Desc arch) :
    Returns env (svc env .nonsecure SvcOp.yield.code desc) sys dispatching
      (SvcOp.yield.code, sys.interop) sys.cross.cross waiting := by
  have run := @exchange_dispatching _ _ _ env _ sys _
    (fun ret sys => .done (ret, sys.interop) sys) _
    (el3Answer_yield env .svcOpYield sys)
  unfold Returns
  rw [svc_yield]
  simpa using run

theorem not_servesAll_dispatching (desc : Desc arch) :
    ¬ServesAll env [⟨.yield, desc⟩] sys dispatching := by
  intro serves
  obtain ⟨value, after, rest, returned, handled, _⟩ :=
    serves (wellFormed_yield desc)
  obtain ⟨same, _⟩ := returned.unique (returns_yield_dispatching desc)
  have delivered := handled.grows.delivered
  rw [same, Sys.cross_delivered, Sys.cross_delivered] at delivered
  simp [Request.opcodes, Request.Crosses] at delivered

/-- After a dispatch that no level owns has returned, every sequence of requests
is served, each once as long as it is well formed, if and only if the fields cut
to 32 bits name a secure image after all. -/
theorem unownedDispatch_iff (desc : Desc arch) (unowned : Unowned desc)
    (keeps : env.DispatchKeepsNs desc) (inStep : sys.InStep .nonsecure) :
    ∃ value after rest,
      Returns env (svc env .nonsecure SvcOp.dispatch.code desc) sys waiting
        value after rest ∧
      ((∀ requests : List (Request arch), ServesAll env requests after rest) ↔
        secureImage? desc.disp.el.low desc.disp.state.low ≠ none) := by
  obtain ⟨value, after, returned, handled⟩ := handled_dispatch desc inStep keeps
  refine ⟨value, after, _, returned, ?_⟩
  rw [← unowned.dispatchImage?]
  constructor
  · intro serves lost
    rw [if_pos lost] at serves
    exact not_servesAll_dispatching desc (serves [⟨.yield, desc⟩])
  · intro found requests
    rw [if_neg found]
    exact servesAll_waiting requests handled.inStep

end Following

theorem unowned_dispatchDesc (env : Env arch Paging) (fid state arg : U32)
    {el : U32} (foreign : ∀ image : Image, el ≠ image.exceptionLevel) :
    Unowned (dispatchDesc env fid el state arg) := by
  intro image world both
  rw [disp_dispatchDesc] at both
  exact foreign image (U32.word_inj.mp both.1)

/-- A dispatch to EL2. -/
def dispatchEl2 : Desc .aarch64 :=
  dispatchDesc (bareEnv .aarch64) 1 2 0 0

theorem unowned_dispatchEl2 : Unowned dispatchEl2 := by
  refine unowned_dispatchDesc _ _ _ _ fun image => ?_
  cases image with
  | el3 => exact (by decide : (2 : U32) ≠ 3)
  | el1 _ => exact (by decide : (2 : U32) ≠ 1)
  | el0 _ => exact (by decide : (2 : U32) ≠ 0)

theorem dispatchImage?_dispatchEl2 : dispatchImage? dispatchEl2 = none := by
  rw [unowned_dispatchEl2.dispatchImage?, dispatchEl2, disp_dispatchDesc]
  simp only [Word.low_word]
  decide

theorem keepsNs_dispatchEl2 : (bareEnv .aarch64).DispatchKeepsNs dispatchEl2 := by
  intro image found
  rw [dispatchImage?_dispatchEl2] at found
  cases found

/-- After the dispatch to EL2 a yield is not delivered. -/
theorem dispatchEl2_swallows_yield :
    Unowned dispatchEl2 ∧
      ∃ value after rest,
        Returns (bareEnv .aarch64)
          (svc (bareEnv .aarch64) .nonsecure SvcOp.dispatch.code dispatchEl2)
          (bareSys .aarch64) waiting value after rest ∧
        (⟨.yield, dispatchEl2⟩ : Request .aarch64).WellFormed
          (bareEnv .aarch64) after ∧
        ¬ServesAll (bareEnv .aarch64) [⟨.yield, dispatchEl2⟩] after rest := by
  obtain ⟨value, after, returned, handled⟩ := handled_dispatch dispatchEl2
    (inStep_bareSys .aarch64) keepsNs_dispatchEl2
  rw [if_pos dispatchImage?_dispatchEl2] at returned
  exact ⟨unowned_dispatchEl2, value, after, dispatching, returned,
    wellFormed_yield dispatchEl2, not_servesAll_dispatching dispatchEl2⟩

namespace Aarch64

/-- A dispatch whose `el` is EL0's only in its low half. -/
def wideDispatch : Desc .aarch64 where
  word0 := 1
  word1 := 0
  word2 := 0
  word3 := 0x100000000
  word4 := 0

theorem unowned_wideDispatch : Unowned wideDispatch := by
  rintro image world ⟨level, _⟩
  cases image with
  | el3 => exact absurd level (by decide)
  | el1 _ => exact absurd level (by decide : (0x100000000 : BitVec 64) ≠ 1)
  | el0 _ => exact absurd level (by decide : (0x100000000 : BitVec 64) ≠ 0)

theorem owner_wideDispatch :
    secureImage? wideDispatch.disp.el.low wideDispatch.disp.state.low =
      some (.el0 .secure) := by
  decide

/-- The small trees, with an allocator that may go round twice. -/
def heapEnv : Env .aarch64 (Spaces .aarch64) :=
  { smallEnv with mmu := imagesMmu smallBase 2 2 }

theorem keepsNs_wideDispatch : heapEnv.DispatchKeepsNs wideDispatch := by
  intro image _ world _ test found
  cases found

/-- One page of the heap. -/
def allocPage : Request .aarch64 where
  op := .alloc
  desc := { wideDispatch with word1 := 0x1000 }

theorem wellFormed_small {request : Request .aarch64}
    (member : request ∈ [⟨.map, smallDesc 1⟩, allocPage])
    {sys : Sys .aarch64 (Spaces .aarch64)} (paging : sys.paging = smallSpaces) :
    request.WellFormed heapEnv sys := by
  simp only [List.mem_cons, List.not_mem_nil, or_false] at member
  obtain rfl | rfl := member
  · refine ⟨trivial, by decide, ?_⟩
    obtain ⟨middle, last, atEl3, atEl1, _⟩ := bothMapped smallSpaces_ready
      (smallDesc 1).map.va (mapPa heapEnv (smallDesc 1) sys)
    refine ⟨middle, ?_, fun _ => ?_⟩
    · rw [paging]
      exact atEl3 0 2
    · exact Option.isSome_of_eq_some (atEl1 0 2)
  · refine ⟨trivial, by decide, ?_⟩
    change (heapEnv.mmu.memHeapAllocate (.el1 .nonsecure) 0x1000
      sys.paging).isSome
    rw [paging]
    decide

/-- The real allocators serve a map request and an allocation after a dispatch
whose `el` is EL0's only in its low half. -/
theorem unownedDispatch_iff_wide :
    ∃ value after rest,
      Returns heapEnv
        (svc heapEnv .nonsecure SvcOp.dispatch.code wideDispatch) smallSys
        waiting value after rest ∧
      ∀ request ∈ [⟨.map, smallDesc 1⟩, allocPage],
        request.WellFormed heapEnv after ∧
          ServesAll heapEnv [request] after rest := by
  have inStep : smallSys.InStep .nonsecure := ⟨rfl, rfl⟩
  obtain ⟨value, after, rest, returned, serves⟩ := unownedDispatch_iff
    wideDispatch unowned_wideDispatch keepsNs_wideDispatch inStep
  obtain ⟨same, _⟩ := returned.unique (returns_dispatch_secure wideDispatch
    inStep (unowned_wideDispatch.not_el1Owns _)
    (unowned_wideDispatch.not_el3Owns _) owner_wideDispatch)
  refine ⟨value, after, rest, returned, fun request member => ⟨?_, ?_⟩⟩
  · apply wellFormed_small member
    rw [same]
    rfl
  · apply serves.mpr
    rw [owner_wideDispatch]
    exact Option.some_ne_none _

end Aarch64

end TzTest
