import Sugarcat.Armv7.LiveTables

/-!
# Switching directories

A base register holds the address of a directory and, in the bits below it, attributes. The setters
check the address for its alignment and OR the attributes to it, the getters mask the attributes
off. In TTBR1 there are 14 bits below the address. In TTBR0 there are `14 - N`, and a byte of
attributes has one bit more than the seven that are left for `N = 7`.

## What a switch is

`Switches` says what a setter is meant to do to its half of the address space: an address that is
aligned is accepted, the half is then translated through that directory, and the other half as
before; an address that is not aligned is refused, and nothing changes. `translateFrom` is the
translation through a given directory, so that "through that directory" does not mention the
registers.

`switchesDirectories_iff` says that the eighth bit of the attributes is the only thing in the way.
The setter for the kernel half always works. The one for the user half works unless `N = 7`, the
attributes have their eighth bit, and the address that is set does not have that bit.
-/

namespace Sugarcat

open ByteMemory

/-! ## Translation through a directory -/

/-- What an address is translated to from the directory at `pgDir`. -/
def translateFrom (s : Machine) (pgDir v : Addr) : Addr :=
  let ent := s.load (pgDir + 4#32 * (v >>> pgdIdxShift))
  if ent &&& pgdTypeMask = Armv7MmuPgdType.pgdSection.toWord then
    (ent &&& pgdSectMask) ||| (v &&& ~~~pgdSectMask)
  else if ent &&& pgdTypeMask = Armv7MmuPgdType.pgdTable.toWord then
    pteTranslate (s.load ((ent &&& pgdTableMask) + 4#32 * pgtbIndex v)) v
  else 0#32

/-- A call that is meant to switch the part `half` of the address space to the directory at
`pgdAddr`, aligned to `align` bytes: what it returns, and the machine after it. -/
structure Switches (s : Machine) (pgdAddr : Addr) (align : ℕ) (half : Addr → Prop)
    (get : Machine → Addr) (call : Errno × Machine) : Prop where
  succeeds : call.1 = .esucc ↔ align ∣ pgdAddr.toNat
  gets : align ∣ pgdAddr.toNat → get call.2 = pgdAddr
  inside : align ∣ pgdAddr.toNat → ∀ v, half v → virtToPhy call.2 v = translateFrom s pgdAddr v
  outside : align ∣ pgdAddr.toNat → ∀ v, ¬half v → virtToPhy call.2 v = virtToPhy s v
  refused : ¬align ∣ pgdAddr.toNat → call = (.ealign, s)

/-- Both setters do what they are meant to do. -/
structure SwitchesDirectories (s : Machine) (pgdAddr : Addr) (flags : Byte) : Prop where
  user : Switches s pgdAddr (2 ^ (14 - armv7MmuGetPgDiv s))
    (fun v ↦ v.toNat < 2 ^ (32 - armv7MmuGetPgDiv s)) armv7MmuGetUserPgd
    (armv7MmuSetUserPgd pgdAddr flags s)
  kern : 0 < armv7MmuGetPgDiv s → Switches s pgdAddr (2 ^ 14)
    (fun v ↦ 2 ^ (32 - armv7MmuGetPgDiv s) ≤ v.toNat) armv7MmuGetKernPgd
    (armv7MmuSetKernPgd pgdAddr flags s)

variable {s t : Machine} {pgdAddr v : Addr} {flags : Byte}

theorem virtToPhy_eq_translateFrom (hen : armv7MmuIsEnabled s = true) (v : Addr) :
    virtToPhy s v = translateFrom s (if isHigherHalf v (armv7MmuGetPgDiv s) then
      armv7MmuGetKernPgd s else armv7MmuGetUserPgd s) v := by
  rw [virtToPhy, armv7MmuVirtToPhy, if_pos hen]
  rfl

theorem isHigherHalf_eq_true_iff (s : Machine) (v : Addr) :
    isHigherHalf v (armv7MmuGetPgDiv s) = true ↔ 2 ^ (32 - armv7MmuGetPgDiv s) ≤ v.toNat := by
  have hlt := armv7MmuGetPgDiv_lt s
  have hv := v.isLt
  rw [isHigherHalf]
  by_cases h : armv7MmuGetPgDiv s > 0
  · rw [if_pos h, decide_eq_true_iff, ge_iff_le, BitVec.le_def, Bits.toNat_one_shiftLeft (by omega)]
  · have hzero : armv7MmuGetPgDiv s = 0 := by omega
    rw [if_neg h, hzero]
    exact iff_of_false Bool.false_ne_true (Nat.not_le.mpr hv)

theorem virtToPhy_of_lt (hen : armv7MmuIsEnabled s = true)
    (hv : v.toNat < 2 ^ (32 - armv7MmuGetPgDiv s)) :
    virtToPhy s v = translateFrom s (armv7MmuGetUserPgd s) v := by
  have hlow : ¬isHigherHalf v (armv7MmuGetPgDiv s) = true :=
    fun h ↦ Nat.not_le.mpr hv ((isHigherHalf_eq_true_iff s v).mp h)
  rw [virtToPhy_eq_translateFrom hen, if_neg hlow]

theorem virtToPhy_of_ge (hen : armv7MmuIsEnabled s = true)
    (hv : 2 ^ (32 - armv7MmuGetPgDiv s) ≤ v.toNat) :
    virtToPhy s v = translateFrom s (armv7MmuGetKernPgd s) v := by
  rw [virtToPhy_eq_translateFrom hen, if_pos ((isHigherHalf_eq_true_iff s v).mpr hv)]

/-! ## The base registers -/

/-- Attributes with no more bits than there are below an aligned address stay out of it. -/
theorem toNat_or_flags_div {x : Addr} {k : ℕ} (hx : 2 ^ k ∣ x.toNat)
    (hflags : flags.toNat < 2 ^ k) :
    (x ||| flags.zeroExtend 32).toNat / 2 ^ k * 2 ^ k = x.toNat := by
  have hext := toNat_zeroExtend_byte flags
  obtain ⟨c, hc⟩ := hx
  rw [Bits.toNat_or_of_dvd_of_lt ⟨c, hc⟩ (by rw [hext]; exact hflags), hext, hc,
    Nat.mul_add_div (Nat.two_pow_pos k), Nat.div_eq_of_lt hflags, Nat.add_zero, Nat.mul_comm]

/-- What a user directory address reads back as. -/
theorem armv7MmuGetUserPgd_eq_iff (t : Machine) (pgdAddr : Addr) (flags : Byte)
    (hen : armv7MmuIsEnabled t = true)
    (httbr0 : t.ttbr0 = pgdAddr ||| flags.zeroExtend 32)
    (halign : 2 ^ (14 - armv7MmuGetPgDiv t) ∣ pgdAddr.toNat) :
    armv7MmuGetUserPgd t = pgdAddr
      ↔ ¬(armv7MmuGetPgDiv t = 7 ∧ 2 ^ 8 ∣ pgdAddr.toNat ∧ 2 ^ 7 ≤ flags.toNat) := by
  have hlt := armv7MmuGetPgDiv_lt t
  have hflags := flags.isLt
  rw [← BitVec.toNat_inj, toNat_armv7MmuGetUserPgd hen, httbr0]
  by_cases hfit : flags.toNat < 2 ^ (14 - armv7MmuGetPgDiv t)
  · rw [toNat_or_flags_div halign hfit]
    refine iff_of_true rfl ?_
    rintro ⟨hdiv, -, hbig⟩
    rw [hdiv] at hfit
    omega
  · -- only seven bits are left below the address, and the attributes have eight
    have hdiv : armv7MmuGetPgDiv t = 7 := by
      by_contra hne
      have hpow : 2 ^ 8 ≤ 2 ^ (14 - armv7MmuGetPgDiv t) :=
        Nat.pow_le_pow_right (by omega) (by omega)
      omega
    rw [hdiv] at hfit halign ⊢
    have hext := toNat_zeroExtend_byte flags
    by_cases hodd : 2 ^ 8 ∣ pgdAddr.toNat
    · refine iff_of_false ?_ (not_not.mpr ⟨rfl, hodd, by omega⟩)
      rw [Bits.toNat_or_of_dvd_of_lt hodd (by rw [hext]; exact hflags), hext]
      omega
    · refine iff_of_true ?_ fun h ↦ hodd h.2.1
      rw [BitVec.toNat_or, hext, Nat.or_div_two_pow]
      obtain ⟨c, hc⟩ := halign
      have hone : flags.toNat / 2 ^ 7 = 1 := by omega
      have hbit : c &&& 1 = 1 := by
        rw [Nat.and_one_is_mod]
        omega
      have hsum := Bits.add_eq_or_add_and c 1
      rw [hone, hc, Nat.mul_div_cancel_left c (Nat.two_pow_pos _)]
      omega

theorem armv7MmuGetKernPgd_eq (t : Machine) (pgdAddr : Addr) (flags : Byte)
    (hen : armv7MmuIsEnabled t = true)
    (httbr1 : t.ttbr1 = pgdAddr ||| flags.zeroExtend 32) (halign : 2 ^ 14 ∣ pgdAddr.toNat) :
    armv7MmuGetKernPgd t = pgdAddr := by
  have hflags := flags.isLt
  apply BitVec.eq_of_toNat_eq
  rw [armv7MmuGetKernPgd, if_pos hen, Bits.toNat_and_high (k := 14) (by omega) (by decide), httbr1,
    toNat_or_flags_div halign (by omega)]

/-! ## The setters -/

theorem isAlignedN_shiftLeft_iff {k : ℕ} (hk : k < 32) (x : Addr) :
    isAlignedN x (1#32 <<< k) = true ↔ 2 ^ k ∣ x.toNat :=
  isAlignedN_iff (Bits.toNat_one_shiftLeft hk)

/-- A setter that finds the address aligned writes the register, and nothing else that translation
depends on. -/
theorem armv7MmuSetUserPgd_eq (flags : Byte) (hen : armv7MmuIsEnabled s = true)
    (halign : 2 ^ (14 - armv7MmuGetPgDiv s) ∣ pgdAddr.toNat) :
    armv7MmuSetUserPgd pgdAddr flags s
      = (.esucc,
          (armv7SetTtbr0 s (pgdAddr ||| flags.zeroExtend 32)).armv7InvalidateUnifiedTlb) := by
  rw [armv7MmuSetUserPgd, if_pos ((isAlignedN_shiftLeft_iff (by omega) _).mpr halign)]
  exact congrArg (Prod.mk _) (if_pos hen)

theorem armv7MmuSetKernPgd_eq (flags : Byte) (hen : armv7MmuIsEnabled s = true)
    (halign : 2 ^ 14 ∣ pgdAddr.toNat) :
    armv7MmuSetKernPgd pgdAddr flags s
      = (.esucc,
          (armv7SetTtbr1 s (pgdAddr ||| flags.zeroExtend 32)).armv7InvalidateUnifiedTlb) := by
  rw [armv7MmuSetKernPgd, if_pos ((isAlignedN_shiftLeft_iff (by omega) _).mpr halign)]
  exact congrArg (Prod.mk _) (if_pos hen)

theorem armv7MmuSetUserPgd_of_not_dvd (halign : ¬2 ^ (14 - armv7MmuGetPgDiv s) ∣ pgdAddr.toNat) :
    armv7MmuSetUserPgd pgdAddr flags s = (.ealign, s) := by
  rw [armv7MmuSetUserPgd, if_neg fun h ↦ halign ((isAlignedN_shiftLeft_iff (by omega) _).mp h)]

theorem armv7MmuSetKernPgd_of_not_dvd (halign : ¬2 ^ 14 ∣ pgdAddr.toNat) :
    armv7MmuSetKernPgd pgdAddr flags s = (.ealign, s) := by
  rw [armv7MmuSetKernPgd, if_neg fun h ↦ halign ((isAlignedN_shiftLeft_iff (by omega) _).mp h)]

/-- **Setting the user directory switches the lower half, unless the attributes reach into the
address.** -/
theorem switches_user_iff (hen : armv7MmuIsEnabled s = true) :
    Switches s pgdAddr (2 ^ (14 - armv7MmuGetPgDiv s))
        (fun v ↦ v.toNat < 2 ^ (32 - armv7MmuGetPgDiv s)) armv7MmuGetUserPgd
        (armv7MmuSetUserPgd pgdAddr flags s)
      ↔ ¬(armv7MmuGetPgDiv s = 7 ∧ 2 ^ 8 ∣ pgdAddr.toNat ∧ 2 ^ 7 ≤ flags.toNat) := by
  by_cases halign : 2 ^ (14 - armv7MmuGetPgDiv s) ∣ pgdAddr.toNat
  · have hget := armv7MmuGetUserPgd_eq_iff
      (armv7SetTtbr0 s (pgdAddr ||| flags.zeroExtend 32)).armv7InvalidateUnifiedTlb pgdAddr flags
      hen rfl halign
    rw [armv7MmuSetUserPgd_eq flags hen halign]
    refine ⟨fun h ↦ hget.mp (h.gets halign), ?_⟩
    intro h
    refine ⟨iff_of_true rfl halign, fun _ ↦ hget.mpr h, fun _ v hv ↦ ?_, fun _ v hv ↦ ?_,
      fun hno ↦ absurd halign hno⟩
    · refine Eq.trans (virtToPhy_of_lt hen hv) ?_
      rw [hget.mpr h]
      rfl
    · have hge := Nat.le_of_not_lt hv
      exact Eq.trans (virtToPhy_of_ge hen hge) (virtToPhy_of_ge hen hge).symm
  · rw [armv7MmuSetUserPgd_of_not_dvd halign]
    refine iff_of_true ⟨iff_of_false (by simp) halign, fun h ↦ absurd h halign,
      fun h ↦ absurd h halign, fun h ↦ absurd h halign, fun _ ↦ rfl⟩ ?_
    rintro ⟨hdiv, hdvd, -⟩
    rw [hdiv] at halign
    exact halign ((Nat.pow_dvd_pow 2 (by omega)).trans hdvd)

/-- **Setting the kernel directory switches the upper half.** -/
theorem switches_kern (hen : armv7MmuIsEnabled s = true) :
    Switches s pgdAddr (2 ^ 14) (fun v ↦ 2 ^ (32 - armv7MmuGetPgDiv s) ≤ v.toNat)
      armv7MmuGetKernPgd (armv7MmuSetKernPgd pgdAddr flags s) := by
  by_cases halign : 2 ^ 14 ∣ pgdAddr.toNat
  · have hget := armv7MmuGetKernPgd_eq
      (armv7SetTtbr1 s (pgdAddr ||| flags.zeroExtend 32)).armv7InvalidateUnifiedTlb pgdAddr flags
      hen rfl halign
    rw [armv7MmuSetKernPgd_eq flags hen halign]
    refine ⟨iff_of_true rfl halign, fun _ ↦ hget, fun _ v hv ↦ ?_, fun _ v hv ↦ ?_,
      fun hno ↦ absurd halign hno⟩
    · refine Eq.trans (virtToPhy_of_ge hen hv) ?_
      rw [hget]
      rfl
    · have hlt := Nat.lt_of_not_le hv
      exact Eq.trans (virtToPhy_of_lt hen hlt) (virtToPhy_of_lt hen hlt).symm
  · rw [armv7MmuSetKernPgd_of_not_dvd halign]
    exact ⟨iff_of_false (by simp) halign, fun h ↦ absurd h halign, fun h ↦ absurd h halign,
      fun h ↦ absurd h halign, fun _ ↦ rfl⟩

/-- **Switching works, unless eight bits of attributes meet an address with seven bits below
it.** -/
theorem switchesDirectories_iff (hen : armv7MmuIsEnabled s = true) (pgdAddr : Addr)
    (flags : Byte) :
    SwitchesDirectories s pgdAddr flags
      ↔ ¬(armv7MmuGetPgDiv s = 7 ∧ 2 ^ 8 ∣ pgdAddr.toNat ∧ 2 ^ 7 ≤ flags.toNat) := by
  rw [← switches_user_iff hen]
  exact ⟨fun h ↦ h.user, fun h ↦ ⟨h, fun _ ↦ switches_kern hen⟩⟩

theorem switchesDirectories_iff_oneTable :
    SwitchesDirectories oneTable 0xC000#32 0xFF#8 :=
  (switchesDirectories_iff rfl 0xC000#32 0xFF#8).mpr fun h ↦ absurd h.1 (by decide)

/-- A 32 MiB user half: the directory that was set reads back as one 128 bytes further on. -/
theorem not_switchesDirectories_narrow :
    armv7MmuGetUserPgd (armv7MmuSetUserPgd 0xC000#32 0x80#8
        { oneTable with ttbcr := 7#32 }).2 = 0xC080#32 ∧
      ¬SwitchesDirectories { oneTable with ttbcr := 7#32 } 0xC000#32 0x80#8 := by
  have hget : armv7MmuGetUserPgd (armv7MmuSetUserPgd 0xC000#32 0x80#8
      { oneTable with ttbcr := 7#32 }).2 = 0xC080#32 := rfl
  refine ⟨hget, ?_⟩
  intro h
  have hback := h.user.gets (by decide)
  rw [hget] at hback
  exact absurd hback (by decide)

end Sugarcat
