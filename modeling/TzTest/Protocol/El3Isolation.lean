import TzTest.Library.RadixStores
import TzTest.Protocol.SharedMap

/-!
# What an EL3 operation may change

For every operation code and every content of the descriptor, what
`el3_handle_smc` changes belongs to the operation.  The `SMC_OP_TEST` case has
no `break`: where the incremented `count` reads as level three, the register
that `orig` names is read into `val`.
-/

namespace TzTest

variable {arch : Arch} {Paging : Type}

/-- The register behind a key, as far as the keys name any that can be
written. -/
def Regs.value (regs : Regs arch) : RegKey → Option (Word arch)
  | .currentel => none
  | .cptrEl3 => some regs.cptrEl3
  | .cpacr => some regs.cpacr
  | .scr => some regs.scr
  | .sctlr => some regs.sctlr
  | .cpsr => some regs.cpsr

theorem value_el3WriteReg {key other : RegKey} (different : other ≠ key)
    (regs : Regs arch) (data : Word arch) :
    (el3WriteReg regs key data).value other = regs.value other := by
  cases arch <;> cases key <;> cases other <;>
    first
      | rfl
      | exact absurd rfl different

/-- Of the memory, only entries of EL3's tables have changed: those of the tables
that EL3's root led to and of the pages that EL3 has taken from its pool.  No
other image's pool has changed, and where the trees are apart, no translation of
another tree. -/
structure OnlyEl3Tables (memPgtblBase : Space → Word arch)
    (before after : Spaces arch) : Prop where
  heap : after.memHeapPool = before.memHeapPool
  pools : ∀ space, space ≠ .el3 →
    after.memNextPa space = before.memNextPa space
  tables : ∃ taken,
    after.memNextPa .el3 = (mapper arch).bump^[taken] (before.memNextPa .el3) ∧
      ∀ addr, addr ∉ (mapper arch).OwnedEntries (memPgtblBase .el3) before.mem
          ((mapper arch).pages taken (before.memNextPa .el3)) →
        after.mem addr = before.mem addr
  others : ∀ {Root : Type} [DecidableEq Root] {roots : Root → Word arch}
    {tree : Space → Root} {stop : Space → Nat},
    before.Ready roots tree stop →
    (∀ space, memPgtblBase space = roots (tree space)) →
    (before.memNextPa .el3).toNat + 0x1000 * (mapper arch).depth ≤ stop .el3 →
    ∀ other, other ≠ tree .el3 → ∀ va,
      translate after.mem (roots other) va =
        translate before.mem (roots other) va

/-- A dispatch that EL3 runs itself. -/
def RunsLocally (sys : Sys arch Paging) : Prop :=
  sys.interop.disp.el = U32.word arch Image.el3.exceptionLevel ∧
    sys.interop.disp.state = (sys.regs.scr &&& scrNs arch)

/-- What belongs to an operation; `none` stands for the other codes. -/
def Belongs (memPgtblBase : Space → Word arch) (op : Option SmcOp)
    (before after : Sys arch (Spaces arch)) : Prop :=
  match op with
  | some .noop => after = before
  | some .yield => after = before
  | some .dispatch => ¬RunsLocally before → after = before
  | some .test =>
      after = before.setInterop (before.interop.setTest before.interop.test.hop)
  | some .getReg =>
      ∃ data, after = before.setInterop (before.interop.setDataData data)
  | some .setReg =>
      ∃ regs, after = { before with regs := regs } ∧
        ∀ key, RegKey.ofCode? before.interop.data.key ≠ some key →
          regs.value key = before.regs.value key
  | some .map =>
      ∃ type paging,
        after =
          { before with
            interop := before.interop.setMap
              { before.interop.map with type := type }
            paging := paging } ∧
        OnlyEl3Tables memPgtblBase before.paging paging
  | some .exit => after = { before with shutdown := true }
  | none => after = { before with shutdown := true }

/-- `secure_state` follows the switch of worlds, after every operation. -/
def el3Toggle (ret : U32) (sys : Sys arch Paging) : Sys arch Paging :=
  if ret ≠ 0 then { sys with secureState := sys.secureState ^^^ 1 } else sys

/-- `el3_handle_smc` changes what belongs to the operation, and nothing else. -/
def Isolated (env : Env arch (Spaces arch)) (memPgtblBase : Space → Word arch)
    (op : Word arch) (sys : Sys arch (Spaces arch)) : Prop :=
  ∀ ret final, el3HandleSmc env op sys = some (ret, final) →
    ∃ after, final = el3Toggle ret after ∧
      Belongs memPgtblBase (SmcOp.ofCode? op) sys after

/-- The third hop of a test whose `orig` is a readable register's key. -/
def TestReadsRegister (op : Word arch) (sys : Sys arch Paging) : Prop :=
  SmcOp.ofCode? op = some .test ∧ sys.interop.test.count = 2 ∧
    ∃ data, (RegKey.ofCode? sys.interop.test.orig).bind (el3ReadReg sys.regs) =
      some data ∧ data ≠ sys.interop.test.val >>> 1

@[simp] theorem interop_el3Toggle (ret : U32) (sys : Sys arch Paging) :
    (el3Toggle ret sys).interop = sys.interop := by
  unfold el3Toggle
  split_ifs <;> rfl

theorem el3HandleSmc_eq (env : Env arch Paging) (op : Word arch)
    (sys : Sys arch Paging) :
    el3HandleSmc env op sys =
      (el3Switch env op sys).map fun out => (out.1, el3Toggle out.1 out.2) := by
  unfold el3HandleSmc el3Toggle
  congr 1
  funext ⟨ret, after⟩
  dsimp only
  split_ifs <;> rfl

theorem data_data_eq_test_val (desc : Desc arch) :
    desc.data.data = desc.test.val := by
  cases arch <;> rfl

theorem test_val_setDataData (desc : Desc arch) (data : Word arch) :
    (desc.setDataData data).test.val = data := by
  cases arch <;> rfl

theorem el3GetReg_data (sys : Sys arch Paging) :
    ∃ data, el3GetReg sys = sys.setInterop (sys.interop.setDataData data) := by
  rcases sys.el3GetReg_cases with ⟨-, data, -, read⟩ | ⟨-, kept⟩
  · exact ⟨data, read⟩
  · exact ⟨sys.interop.data.data, kept⟩

/-- The case that control goes on into, after a hop. -/
theorem el3GetReg_hop (sys : Sys arch Paging) :
    let hopped := sys.setInterop (sys.interop.setTest sys.interop.test.hop)
    (el3GetReg hopped = hopped ∧ ¬∃ data, sys.interop.test.count = 2 ∧
        (RegKey.ofCode? sys.interop.test.orig).bind (el3ReadReg sys.regs) =
          some data ∧ data ≠ sys.interop.test.val >>> 1) ∨
      ∃ data, sys.interop.test.count = 2 ∧
        (RegKey.ofCode? sys.interop.test.orig).bind (el3ReadReg sys.regs) =
          some data ∧ data ≠ sys.interop.test.val >>> 1 ∧
        el3GetReg hopped =
          hopped.setInterop (hopped.interop.setDataData data) := by
  intro hopped
  have el : hopped.interop.data.el = sys.interop.test.count + 1 := by
    rw [Desc.data_el_eq_test_count]
    exact congrArg OpTest.count (Desc.test_setTest _ _)
  have key : hopped.interop.data.key = sys.interop.test.orig := by
    rw [Desc.data_key_eq_test_orig]
    change _ = sys.interop.test.hop.orig
    exact congrArg OpTest.orig (Desc.test_setTest _ _)
  have val : hopped.interop.data.data = sys.interop.test.val >>> 1 := by
    rw [data_data_eq_test_val]
    exact congrArg OpTest.val (Desc.test_setTest _ _)
  have third : hopped.interop.data.el = 3 ↔ sys.interop.test.count = 2 := by
    rw [el]
    bv_omega
  rcases hopped.el3GetReg_cases with ⟨level, data, found, read⟩ | ⟨quiet, kept⟩
  · rw [key] at found
    by_cases same : data = sys.interop.test.val >>> 1
    · left
      constructor
      · rw [read, same, ← val]
        rfl
      · rintro ⟨other, -, again, different⟩
        rw [show (RegKey.ofCode? sys.interop.test.orig).bind
          (el3ReadReg sys.regs) = some data from found] at again
        exact different ((Option.some.inj again).symm.trans same)
    · exact .inr ⟨data, third.mp level, found, same, read⟩
  · refine .inl ⟨kept, ?_⟩
    rintro ⟨data, count, found, -⟩
    apply quiet
    rw [key]
    exact ⟨third.mpr count, data, found⟩

theorem setLow_low (word : Word arch) : word.setLow word.low = word := by
  apply BitVec.eq_of_getLsbD_eq
  intro index below
  by_cases low : index < 32
  · simp [Word.low, Word.setLow, low, below]
  · have split : 32 + (index - 32) = index := by omega
    simp [Word.low, Word.setLow, low, below, split]

theorem setMap_map (desc : Desc arch) : desc.setMap desc.map = desc := by
  unfold Desc.setMap Desc.map
  rw [setLow_low]

theorem el3SetReg_belongs (sys : Sys arch Paging) :
    ∃ regs, el3SetReg sys = { sys with regs := regs } ∧
      ∀ key, RegKey.ofCode? sys.interop.data.key ≠ some key →
        regs.value key = sys.regs.value key := by
  unfold el3SetReg
  by_cases level : sys.interop.data.el = 3
  · simp only [if_pos level]
    cases named : RegKey.ofCode? sys.interop.data.key with
    | none => exact ⟨sys.regs, rfl, fun _ _ => rfl⟩
    | some selected =>
        refine ⟨_, rfl, ?_⟩
        intro key other
        apply value_el3WriteReg
        intro same
        exact other (congrArg some same.symm)
  · simp only [if_neg level]
    exact ⟨sys.regs, rfl, fun _ _ => rfl⟩

section Map

variable {memPgtblBase : Space → Word arch} {fuel rounds : Nat}

theorem OnlyEl3Tables.refl (spaces : Spaces arch) :
    OnlyEl3Tables memPgtblBase spaces spaces :=
  ⟨rfl, fun _ _ => rfl, ⟨0, rfl, fun _ _ => rfl⟩, fun _ _ _ _ _ _ => rfl⟩

theorem heapPool_setImage {spaces : Spaces arch} {s : MemUtil arch.width}
    {space : Space} (kept : s.memHeapPool = spaces.memHeapPool space) :
    (spaces.setImage space s).memHeapPool = spaces.memHeapPool := by
  funext other
  by_cases same : other = space
  · subst same
    simp [Spaces.setImage, kept]
  · simp [Spaces.setImage, same]

theorem onlyEl3Tables_memMapPa {spaces later : Spaces arch}
    {vaddr paddr pgattr : Word arch}
    (mapped : (imagesMmu memPgtblBase (fuel + 2) rounds).memMapPa .el3 vaddr
      paddr 0 pgattr spaces = some later) :
    OnlyEl3Tables memPgtblBase spaces later := by
  obtain ⟨s, ran, setTo⟩ := Option.bind_eq_some_iff.mp mapped
  have same : later = spaces.setImage .el3 s := (Option.some.inj setTo).symm
  constructor
  · rw [same]
    apply heapPool_setImage
    exact memMapPa_heapPool ran
  · intro space different
    rw [same]
    simp [Spaces.setImage, different]
  · rw [memMapPa_eq] at ran
    obtain ⟨store, stored, rfl⟩ := Option.map_eq_some_iff.mp ran
    obtain ⟨taken, next, frame⟩ := Radix.Mapper.map_stores stored
    refine ⟨taken, ?_, ?_⟩
    · rw [same]
      change Function.update spaces.memNextPa .el3 store.next .el3 = _
      rw [Function.update_self]
      exact next
    · rw [same]
      exact frame
  · intro Root _ roots tree stop ready bases room other different va
    obtain ⟨reached, ran, -, -, maps⟩ :=
      ready.memMapPa bases .el3 room vaddr paddr pgattr
    have equal : later = reached :=
      Option.some.inj (mapped.symm.trans (ran fuel rounds))
    rw [equal]
    exact maps.others different va

/-- The descriptor keeps all but its type. -/
theorem el3MapMem_changes {env : Env arch Paging} {sys after : Sys arch Paging}
    {ret : U32} (mapped : el3MapMem env sys = some (ret, after)) :
    ∃ type paging,
      after =
        { sys with
          interop := sys.interop.setMap { sys.interop.map with type := type }
          paging := paging } ∧
      (paging = sys.paging ∨
        env.mmu.memMapPa .el3 sys.interop.map.va sys.interop.map.pa 0
          (ptePrivRw arch) sys.paging = some paging) := by
  have kept : sys.interop.setMap { sys.interop.map with
      type := sys.interop.map.type } = sys.interop := setMap_map sys.interop
  unfold el3MapMem at mapped
  dsimp only at mapped
  split_ifs at mapped with el3 secure secure
  · obtain ⟨paging, stored, answered⟩ := Option.bind_eq_some_iff.mp mapped
    obtain ⟨-, rfl⟩ := Prod.mk.inj (Option.some.inj answered)
    exact ⟨_, paging, rfl, .inr stored⟩
  · obtain ⟨paging, stored, answered⟩ := Option.bind_eq_some_iff.mp mapped
    obtain ⟨-, rfl⟩ := Prod.mk.inj (Option.some.inj answered)
    exact ⟨sys.interop.map.type, paging, by rw [kept], .inr stored⟩
  · obtain ⟨-, rfl⟩ := Prod.mk.inj (Option.some.inj mapped)
    exact ⟨_, sys.paging, rfl, .inl rfl⟩
  · obtain ⟨-, rfl⟩ := Prod.mk.inj (Option.some.inj mapped)
    exact ⟨sys.interop.map.type, sys.paging, by rw [kept], .inl rfl⟩

theorem el3MapMem_belongs {env : Env arch (Spaces arch)}
    (mmu : env.mmu = imagesMmu memPgtblBase (fuel + 2) rounds)
    {sys after : Sys arch (Spaces arch)} {ret : U32}
    (mapped : el3MapMem env sys = some (ret, after)) :
    Belongs memPgtblBase (some .map) sys after := by
  obtain ⟨type, paging, changed, kept | stored⟩ := el3MapMem_changes mapped
  · refine ⟨type, paging, changed, ?_⟩
    rw [kept]
    exact .refl _
  · rw [mmu] at stored
    exact ⟨type, paging, changed, onlyEl3Tables_memMapPa stored⟩

/-- The register that is read takes the place of the shifted value. -/
theorem not_isolated {env : Env arch (Spaces arch)} {op : Word arch}
    {sys : Sys arch (Spaces arch)} (reads : TestReadsRegister op sys) :
    ¬Isolated env memPgtblBase op sys := by
  obtain ⟨test, count, data, found, different⟩ := reads
  intro isolated
  rcases el3GetReg_hop sys with ⟨-, quiet⟩ | ⟨data', -, found', different', read⟩
  · exact quiet ⟨data, count, found, different⟩
  · have answered : el3HandleSmc env op sys = some (SvcOp.test.code,
        el3Toggle SvcOp.test.code (el3GetReg (sys.setInterop
          (sys.interop.setTest sys.interop.test.hop)))) := by
      rw [el3HandleSmc_eq, el3Switch, test]
      rfl
    obtain ⟨after, toggled, belongs⟩ := isolated _ _ answered
    rw [test] at belongs
    have interop := congrArg Sys.interop toggled
    rw [interop_el3Toggle, interop_el3Toggle, read,
      show after = _ from belongs] at interop
    have val := congrArg (fun desc => desc.test.val) interop
    have hopped : (sys.interop.setTest sys.interop.test.hop).test.val =
        sys.interop.test.val >>> 1 := by
      rw [Desc.test_setTest]
      rfl
    exact different' ((test_val_setDataData _ data').symm.trans
      (val.trans hopped))

end Map

section Small

open Aarch64

/-- The third hop of a test over the key of the secure configuration register. -/
def thirdHop (orig : BitVec 64) : Sys .aarch64 (Spaces .aarch64) :=
  { smallSys with
    interop :=
      { word0 := orig, word1 := 0#64, word2 := 2#64, word3 := 0#64,
        word4 := 0#64 } }

end Small

end TzTest
