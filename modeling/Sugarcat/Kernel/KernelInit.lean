import Sugarcat.Kernel.Mem

/-!
# Clearing the bss

The start of `kernel_init`, which clears the bss of the high memory initialization region and that
of the kernel. The size of the first one is computed as its start minus its end, so what is cleared
begins at the right place and is as long as the rest of the address space.

## What the swap comes to

The bytes in which the right size and the computed one differ are either cleared without being bss,
or they are bss and not cleared. Neither matters where the byte was zero before, nor where the
second call clears it, for the bss of the kernel. `clearsBss_iff` says that nothing else saves the
code, and `Miscounted` names these bytes by comparisons with the bounds of the section.

`forall_clearsBss_iff` is about layouts: for which of them the bss is cleared from any contents of
memory. An empty section is one of them, and one of half the address space, for which both orders of
the operands give the same size.
-/

namespace Sugarcat

open ByteMemory

/-- The linker symbols of the two regions. -/
structure BssLayout where
  hmiBssStart : Addr
  hmiBssEnd : Addr
  kBssStart : Addr
  kBssEnd : Addr
  hmi_le : hmiBssStart.toNat ≤ hmiBssEnd.toNat
  k_le : kBssStart.toNat ≤ kBssEnd.toNat

namespace BssLayout

/-- The two calls of `memset` at the start of `kernel_init`. -/
def clearBss (L : BssLayout) (m : Memory) : Memory :=
  let hmiBssSz := L.hmiBssStart - L.hmiBssEnd
  let kBssSz := L.kBssEnd - L.kBssStart
  memset L.kBssStart 0#8 kBssSz (memset L.hmiBssStart 0#8 hmiBssSz m)

def InHmiBss (L : BssLayout) (x : Addr) : Prop :=
  L.hmiBssStart.toNat ≤ x.toNat ∧ x.toNat < L.hmiBssEnd.toNat

def InKBss (L : BssLayout) (x : Addr) : Prop :=
  L.kBssStart.toNat ≤ x.toNat ∧ x.toNat < L.kBssEnd.toNat

instance (L : BssLayout) (x : Addr) : Decidable (L.InHmiBss x) :=
  inferInstanceAs (Decidable (_ ∧ _))

instance (L : BssLayout) (x : Addr) : Decidable (L.InKBss x) :=
  inferInstanceAs (Decidable (_ ∧ _))

/-- The bss is cleared, and nothing else is changed. -/
structure ClearsBss (L : BssLayout) (m m' : Memory) : Prop where
  zero : ∀ x, L.InHmiBss x ∨ L.InKBss x → m' x = 0#8
  kept : EqOutside (fun x ↦ L.InHmiBss x ∨ L.InKBss x) m m'

/-- The size of the first region. -/
def hmiSize (L : BssLayout) : ℕ := L.hmiBssEnd.toNat - L.hmiBssStart.toNat

variable {L : BssLayout} {x : Addr}

/-! ## What is cleared -/

theorem inHmiBss_iff : L.InHmiBss x ↔ InRange L.hmiBssStart L.hmiSize x := by
  have hle := L.hmi_le
  have hlt := L.hmiBssEnd.isLt
  rw [hmiSize, inRange_iff (by omega), InHmiBss]
  omega

theorem inKBss_iff : L.InKBss x ↔ InRange L.kBssStart (L.kBssEnd - L.kBssStart).toNat x := by
  have hle := L.k_le
  have hlt := L.kBssEnd.isLt
  rw [BitVec.toNat_sub_of_le (BitVec.le_def.mpr hle), inRange_iff (by omega), InKBss]
  omega

theorem toNat_hmiBssSz (hpos : 0 < L.hmiSize) :
    (L.hmiBssStart - L.hmiBssEnd).toNat = 2 ^ 32 - L.hmiSize := by
  have hle := L.hmi_le
  have hs := L.hmiBssStart.isLt
  have he := L.hmiBssEnd.isLt
  rw [hmiSize] at hpos ⊢
  rw [BitVec.toNat_sub]
  omega

theorem clearBss_apply (m : Memory) (x : Addr) :
    L.clearBss m x = if L.InKBss x ∨ InRange L.hmiBssStart (L.hmiBssStart - L.hmiBssEnd).toNat x
      then 0#8 else m x := by
  rw [clearBss, memset_apply, memset_apply, ← ite_or]
  simp only [inKBss_iff]

/-- The bss is cleared exactly where what the two sizes differ in was zero before, or is in the
kernel's bss. -/
theorem clearsBss_iff_differ (m : Memory) : L.ClearsBss m (L.clearBss m) ↔
    ∀ x, ¬(L.InHmiBss x ↔ InRange L.hmiBssStart (L.hmiBssStart - L.hmiBssEnd).toNat x) →
      L.InKBss x ∨ m x = 0#8 := by
  constructor
  · rintro ⟨hzero, hkept⟩ x hx
    refine or_iff_not_imp_left.mpr fun hk ↦ ?_
    by_cases hhmi : L.InHmiBss x
    · -- it is missed
      have h0 := hzero x (Or.inl hhmi)
      rwa [clearBss_apply, if_neg (not_or.mpr ⟨hk, fun hin ↦ hx (iff_of_true hhmi hin)⟩)] at h0
    · -- it is cleared, and should not be
      have hm := hkept x (not_or.mpr ⟨hhmi, hk⟩)
      have hin := Classical.not_not.mp fun hout ↦ hx (iff_of_false hhmi hout)
      rw [clearBss_apply, if_pos (Or.inr hin)] at hm
      exact hm.symm
  · intro h
    constructor
    · intro x hx
      rw [clearBss_apply]
      split_ifs with hin
      · rfl
      · rw [not_or] at hin
        have hhmi := hx.resolve_right hin.1
        exact (h x fun hiff ↦ hin.2 (hiff.mp hhmi)).resolve_left hin.1
    · intro x hx
      rw [not_or] at hx
      rw [clearBss_apply]
      split_ifs with hin
      · have hsize := hin.resolve_left hx.2
        exact ((h x fun hiff ↦ hx.1 (hiff.mpr hsize)).resolve_left hx.2).symm
      · rfl

/-! ## Layouts -/

/-- Only one of the two sizes covers `x`, which is told by the distance from the start. -/
def Miscounted (L : BssLayout) (x : Addr) : Prop :=
  0 < L.hmiSize ∧ min L.hmiSize (2 ^ 32 - L.hmiSize) ≤ (x - L.hmiBssStart).toNat ∧
    (x - L.hmiBssStart).toNat < max L.hmiSize (2 ^ 32 - L.hmiSize)

instance (L : BssLayout) (x : Addr) : Decidable (L.Miscounted x) :=
  inferInstanceAs (Decidable (_ ∧ _))

theorem miscounted_iff : L.Miscounted x ↔
    ¬(L.InHmiBss x ↔ InRange L.hmiBssStart (L.hmiBssStart - L.hmiBssEnd).toNat x) := by
  rw [Miscounted]
  rcases Nat.eq_zero_or_pos L.hmiSize with hzero | hpos
  · have hsz : (L.hmiBssStart - L.hmiBssEnd).toNat = 0 := by
      have hle := L.hmi_le
      have heq : L.hmiBssStart = L.hmiBssEnd := BitVec.eq_of_toNat_eq <|
        le_antisymm hle (Nat.sub_eq_zero_iff_le.mp hzero)
      rw [heq, BitVec.sub_self]
      rfl
    refine iff_of_false (fun h ↦ h.1.ne' hzero) (not_not.mpr ?_)
    rw [inHmiBss_iff, hzero, hsz]
  · rw [and_iff_right hpos, inHmiBss_iff, toNat_hmiBssSz hpos, InRange, InRange]
    omega

/-- **Exactly the bss is cleared, if and only if what the sizes differ in is zero anyway, or in the
kernel's bss.** -/
theorem clearsBss_iff (L : BssLayout) (m : Memory) :
    L.ClearsBss m (L.clearBss m) ↔ ∀ x, L.Miscounted x → L.InKBss x ∨ m x = 0#8 := by
  rw [clearsBss_iff_differ]
  exact forall_congr' fun x ↦ imp_congr_left miscounted_iff.symm

/-- The sizes agree, or differ inside the kernel's bss only. -/
def SizeHarmless (L : BssLayout) : Prop :=
  L.hmiSize = 0 ∨ L.hmiSize = 2 ^ 31 ∨
    (L.kBssStart.toNat ≤ L.hmiBssStart.toNat + min L.hmiSize (2 ^ 32 - L.hmiSize) ∧
      L.hmiBssStart.toNat + max L.hmiSize (2 ^ 32 - L.hmiSize) ≤ L.kBssEnd.toNat)

instance (L : BssLayout) : Decidable L.SizeHarmless := inferInstanceAs (Decidable (_ ∨ _))

theorem forall_miscounted_iff : (∀ x, L.Miscounted x → L.InKBss x) ↔ L.SizeHarmless := by
  have hle := L.hmi_le
  have hlt := L.hmiBssEnd.isLt
  have hklt := L.kBssEnd.isLt
  have hend : L.hmiBssStart.toNat + L.hmiSize = L.hmiBssEnd.toNat := Nat.add_sub_of_le hle
  simp only [SizeHarmless, Miscounted, InKBss]
  constructor
  · intro h
    refine or_iff_not_imp_left.mpr fun hzero ↦ or_iff_not_imp_left.mpr fun hhalf ↦ ?_
    -- the first and the last place where they differ
    have hat : ∀ o, min L.hmiSize (2 ^ 32 - L.hmiSize) ≤ o →
        o < max L.hmiSize (2 ^ 32 - L.hmiSize) → L.hmiBssStart.toNat + o < 2 ^ 32 →
        L.kBssStart.toNat ≤ L.hmiBssStart.toNat + o ∧
          L.hmiBssStart.toNat + o < L.kBssEnd.toNat := by
      intro o ho ho' hfits
      have hx := h (L.hmiBssStart + ptr o)
      have hoff : L.hmiBssStart + ptr o - L.hmiBssStart = ptr o := by ring
      rw [hoff, toNat_ptr (by omega), BitVec.toNat_add_of_lt (by rw [toNat_ptr (by omega)]; omega),
        toNat_ptr (by omega)] at hx
      exact hx ⟨Nat.pos_of_ne_zero hzero, ho, ho'⟩
    refine ⟨(hat _ le_rfl (by omega) (by omega)).1, ?_⟩
    by_contra hbehind
    -- they differ at the top of memory, or at the end of the kernel's bss
    rcases Nat.lt_or_ge (L.hmiBssStart.toNat + max L.hmiSize (2 ^ 32 - L.hmiSize)) (2 ^ 32 + 1)
      with hfits | htop
    · have := (hat (max L.hmiSize (2 ^ 32 - L.hmiSize) - 1) (by omega) (by omega) (by omega)).2
      omega
    · have := (hat (2 ^ 32 - 1 - L.hmiBssStart.toNat) (by omega) (by omega) (by omega)).2
      omega
  · rintro (hzero | hhalf | ⟨hlo, hhi⟩) x ⟨hpos, hx, hx'⟩
    · omega
    · omega
    · have hsum : x = L.hmiBssStart + (x - L.hmiBssStart) := by ring
      have hnat : x.toNat = L.hmiBssStart.toNat + (x - L.hmiBssStart).toNat := by
        conv_lhs => rw [hsum]
        exact BitVec.toNat_add_of_lt (by omega)
      omega

/-- The layouts for which the bss is cleared from any contents of memory. -/
theorem forall_clearsBss_iff : (∀ m, L.ClearsBss m (L.clearBss m)) ↔ L.SizeHarmless := by
  simp only [clearsBss_iff_differ, ← miscounted_iff]
  rw [← forall_miscounted_iff]
  constructor
  · -- nothing is zero before
    intro h x hx
    exact (h (fun _ ↦ 1#8) x hx).resolve_right (by decide : (1#8 : Byte) ≠ 0#8)
  · exact fun h m x hx ↦ Or.inl (h x hx)

/-- Sixteen bytes in each region. -/
def sixteen : BssLayout where
  hmiBssStart := 0x80010000#32
  hmiBssEnd := 0x80010010#32
  kBssStart := 0x80020000#32
  kBssEnd := 0x80020010#32
  hmi_le := by decide
  k_le := by decide

/-- Where memory is not zero, the low memory initialization region is cleared as well. -/
theorem not_clearsBss_sixteen :
    ¬sixteen.ClearsBss (fun _ ↦ 1#8) (sixteen.clearBss fun _ ↦ 1#8) := by
  intro h
  have hkept := h.kept 0x60008000#32 (by decide)
  have hclear : sixteen.clearBss (fun _ ↦ 1#8) 0x60008000#32 = 0#8 := by
    rw [clearBss_apply, if_pos (Or.inr (by decide))]
  rw [hclear] at hkept
  exact absurd hkept (by decide)

end BssLayout

end Sugarcat
