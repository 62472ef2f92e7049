import TzTest.Loader.Memory
import TzTest.Paging.SelfMapping

/-!
# The copy of a page

The loader maps a fresh page and fills it through its new address.  The copy
leaves the tables and every other page as they are, and an access that is not
mapped ends it.
-/

namespace TzTest.Loader

open Radix Logged

variable {arch : Arch} {base : Word arch} {stop fuel : Nat}
variable {s before later : MemUtil arch.width}
variable {smcExit : MemUtil arch.width → Option (MemUtil arch.width)}

theorem width_limit (arch : Arch) : addressLimit arch ≤ 2 ^ arch.width := by
  cases arch <;> decide

theorem toNat_add_ofNat {addr : Word arch} {offset : Nat}
    (below : addr.toNat + offset < 2 ^ arch.width) :
    (addr + BitVec.ofNat arch.width offset).toNat = addr.toNat + offset := by
  have small : offset < 2 ^ arch.width := by omega
  rw [BitVec.toNat_add, BitVec.toNat_ofNat, Nat.mod_eq_of_lt small, Nat.mod_eq_of_lt below]

theorem samePage_of_aligned {addr : Word arch} (aligned : addr.toNat % 0x1000 = 0)
    (below : addr.toNat + 0x1000 ≤ addressLimit arch) {offset : Nat}
    (inside : offset < 0x1000) :
    (mapper arch).SamePage (addr + BitVec.ofNat arch.width offset) addr := by
  have limit := width_limit arch
  have place : (addr + BitVec.ofNat arch.width offset).toNat = addr.toNat + offset :=
    toNat_add_ofNat (by omega)
  rw [samePage_iff (by omega) (by omega), place]
  omega

theorem physical_of_aligned {addr page : Word arch} {attr : BitVec arch.width}
    (aligned : addr.toNat % 0x1000 = 0)
    (below : addr.toNat + 0x1000 ≤ addressLimit arch)
    (mapped : translate s.mem base addr = some ⟨page, attr⟩) {offset : Nat}
    (inside : offset < 0x1000) :
    physical base (addr + BitVec.ofNat arch.width offset) s =
      some (page + BitVec.ofNat arch.width offset) := by
  have limit := width_limit arch
  have place : (addr + BitVec.ofNat arch.width offset).toNat = addr.toNat + offset :=
    toNat_add_ofNat (by omega)
  have rest : (addr.toNat + offset) % 0x1000 = offset := by omega
  have same := (samePage_of_aligned aligned below inside).translate s.mem base
  unfold physical
  rw [place, rest]
  change Option.map _ ((mapper arch).translate s.mem base _) = _
  rw [same]
  change Option.map _ (translate s.mem base addr) = _
  rw [mapped]
  rfl

/-- From the first state to the second, nothing but bytes of a page beside the
tables has changed. -/
structure Fills (base : Word arch) (stop : Nat) (page : Word arch)
    (s later : MemUtil arch.width) : Prop where
  frame {addr : Word arch} : addr ∉ range page.toNat (page.toNat + 0x1000) →
    later.mem addr = s.mem addr
  hosted : Hosted base stop s → Hosted base stop later
  translated (va : Word arch) : translate later.mem base va = translate s.mem base va
  installed {va : Word arch} : Installed s.mem base va → Installed later.mem base va
  beside {addr : Word arch} : Beside base stop s addr → Beside base stop later addr
  next : later.memNextPa = s.memNextPa

theorem Fills.refl (base : Word arch) (stop : Nat) (page : Word arch)
    (s : MemUtil arch.width) : Fills base stop page s s where
  frame _ := rfl
  hosted := id
  translated _ := rfl
  installed := id
  beside := id
  next := rfl

/-- One byte more. -/
theorem Fills.storeByte {page pa : Word arch} (fills : Fills base stop page s later)
    (aligned : page.toNat % 0x1000 = 0)
    (free : ∀ addr ∈ range page.toNat (page.toNat + 0x1000), Beside base stop s addr)
    (inside : pa ∈ range page.toNat (page.toNat + 0x1000)) (byte : BitVec 8) :
    Fills base stop page s (later.storeByte pa byte) := by
  have word := (wordBase_page aligned pa).mpr inside
  have beside := fills.beside (free _ word)
  constructor
  · intro addr outside
    have different : addr ≠ wordBase pa := by
      rintro rfl
      exact outside word
    exact (Function.update_of_ne different _ _).trans (fills.frame outside)
  · exact fun hosted => (fills.hosted hosted).write beside _
  · exact fun va => (translate_write beside _ va).trans (fills.translated va)
  · exact fun installed => (Installed.write beside _).mpr (fills.installed installed)
  · exact fun there => beside.write (fills.beside there) _
  · exact fills.next

theorem Fills.physical {page : Word arch} (fills : Fills base stop page s later)
    (va : Word arch) : physical base va later = physical base va s := by
  unfold TzTest.physical
  rw [fills.translated]

theorem Fills.byteAt {page pa : Word arch} (fills : Fills base stop page s later)
    (aligned : page.toNat % 0x1000 = 0)
    (outside : pa ∉ range page.toNat (page.toNat + 0x1000)) :
    later.byteAt pa = s.byteAt pa := by
  apply byteAt_congr
  apply fills.frame
  exact fun word => outside ((wordBase_page aligned pa).mp word)

theorem attempts_store {va pa : Word arch} (byte : BitVec 8)
    (mapped : physical base va s = some pa) :
    result (call (.store va) ((el1Linkage base fuel smcExit).store va byte)) s =
      some ((), s.storeByte pa byte) := by
  apply result_call
  change (physical base va s).map _ = _
  rw [mapped]
  rfl

/-- What a copy to a page has brought there: the bytes that the source held, as
far as it does not lie in the page itself. -/
def Brings (base src page : Word arch) (s later : MemUtil arch.width) (offset : Nat) :
    Prop :=
  ∀ pa, physical base (src + BitVec.ofNat arch.width offset) s = some pa →
    pa ∉ range page.toNat (page.toNat + 0x1000) →
    later.byteAt (page + BitVec.ofNat arch.width offset) = s.byteAt pa

/-- A copy to a page beside the tables fills it, or is cut short at its source. -/
theorem attempts_memcpy {dest src page : Word arch} {attr : BitVec arch.width}
    {bad : Event arch (MemUtil arch.width) → Prop}
    (aligned : dest.toNat % 0x1000 = 0)
    (below : dest.toNat + 0x1000 ≤ addressLimit arch)
    (mapped : translate s.mem base dest = some ⟨page, attr⟩)
    (isPage : PoolPage page)
    (free : ∀ addr ∈ range page.toNat (page.toNat + 0x1000), Beside base stop s addr)
    (cut : ∀ offset < 0x1000, ∀ now, Fills base stop page s now →
      physical base (src + BitVec.ofNat arch.width offset) s = none →
      bad (.load (src + BitVec.ofNat arch.width offset) now))
    {count copied : Nat} (total : copied + count = 0x1000)
    {now : MemUtil arch.width} (fills : Fills base stop page s now)
    (brought : ∀ offset < copied, Brings base src page s now offset) :
    Attempts bad
      (memcpy (el1Linkage base fuel smcExit) (dest + BitVec.ofNat arch.width copied)
        (src + BitVec.ofNat arch.width copied) count) now
      fun _ later => Fills base stop page s later ∧
        ∀ offset < 0x1000, Brings base src page s later offset := by
  induction count generalizing copied now with
  | zero =>
      have all : copied = 0x1000 := total
      subst all
      exact attempts_of_some rfl ⟨fills, brought⟩
  | succ count induction =>
      have inside : copied < 0x1000 := by omega
      have limit := isPage.below
      have room := poolLimit_lt arch
      have readable := cut copied inside now fills
      rw [← fills.physical] at readable
      apply (attempts_load readable).bind
      rintro byte now ⟨rfl, pa, found, rfl⟩
      have place : physical base (dest + BitVec.ofNat arch.width copied) now =
          some (page + BitVec.ofNat arch.width copied) := by
        rw [fills.physical]
        exact physical_of_aligned aligned below mapped inside
      apply Attempts.after (attempts_store _ place)
      have target : (page + BitVec.ofNat arch.width copied).toNat =
          page.toNat + copied := toNat_add_ofNat (by omega)
      have onPage : page + BitVec.ofNat arch.width copied ∈
          range page.toNat (page.toNat + 0x1000) := ⟨by omega, by omega⟩
      rw [add_ofNat_succ, add_ofNat_succ]
      apply induction (by omega) (fills.storeByte isPage.aligned free onPage _)
      intro offset early pa' found' outside
      rw [byteAt_storeByte]
      by_cases last : offset = copied
      · subst last
        rw [fills.physical, found'] at found
        cases found
        rw [if_pos rfl]
        exact fills.byteAt isPage.aligned outside
      · have other : page + BitVec.ofNat arch.width offset ≠
            page + BitVec.ofNat arch.width copied := by
          intro same
          have numbers := congrArg BitVec.toNat same
          rw [target, toNat_add_ofNat (by omega)] at numbers
          omega
        rw [if_neg other]
        exact brought offset (by omega) pa' found' outside

end TzTest.Loader
