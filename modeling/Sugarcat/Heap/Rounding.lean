import Sugarcat.Heap.Alloc

/-!
# Rounding of requests

`highestBit` spreads the highest bit of its argument over all lower ones and subtracts the half of
that. A request is rounded up to a power of two, at least 16, as long as it is at most `2 ^ 31`. For
a larger one the shift drops the only bit, and the rounded size is zero.

## Spreading

`Spreads` is what the five shifts have in common: after a shift by `k` each bit of the argument has
been spread over the `2 k` bits from it on down. After the last one all bits below the highest one
are set, so the word is a power of two less one, and subtracting its half leaves the highest bit.
One lemma, that one more shift doubles the reach, is used five times, and no word is looked at bit
by bit.
-/

namespace Sugarcat.Heap

open ByteMemory

/-- Bit `i` of `y` says whether `x` has one of the `w` bits from `i` on. -/
def Spreads (x y : Word) (w : ℕ) : Prop :=
  ∀ i, y.getLsbD i = true ↔ ∃ j, i ≤ j ∧ j < i + w ∧ x.getLsbD j = true

theorem spreads_one (x : Word) : Spreads x x 1 := by
  intro i
  constructor
  · exact fun h ↦ ⟨i, le_rfl, Nat.lt_succ_self i, h⟩
  · rintro ⟨j, hij, hji, h⟩
    obtain rfl : i = j := by omega
    exact h

/-- One more shift doubles the reach. -/
theorem Spreads.double {x y : Word} {w : ℕ} (h : Spreads x y w) :
    Spreads x (y ||| (y >>> w)) (w + w) := by
  intro i
  rw [BitVec.getLsbD_or, BitVec.getLsbD_ushiftRight, Bool.or_eq_true, h i, h (w + i)]
  constructor
  · rintro (⟨j, hij, hji, hj⟩ | ⟨j, hij, hji, hj⟩)
    · exact ⟨j, hij, by omega, hj⟩
    · exact ⟨j, by omega, by omega, hj⟩
  · rintro ⟨j, hij, hji, hj⟩
    rcases Nat.lt_or_ge j (i + w) with hlt | hge
    · exact Or.inl ⟨j, hij, hlt, hj⟩
    · exact Or.inr ⟨j, by omega, by omega, hj⟩

theorem Spreads.toNat_eq {x y : Word} (h : Spreads x y 32) (hx : x.toNat ≠ 0) :
    y.toNat = 2 ^ (x.toNat.log2 + 1) - 1 := by
  refine Nat.eq_of_testBit_eq fun i ↦ ?_
  rw [Nat.testBit_two_pow_sub_one, Bool.eq_iff_iff, decide_eq_true_iff]
  refine (h i).trans ?_
  constructor
  · rintro ⟨j, hij, -, hj⟩
    have hle := Nat.ge_two_pow_of_testBit hj
    have := (Nat.le_log2 hx).mpr hle
    omega
  · intro hi
    have hlog : x.toNat.log2 < 32 := (Nat.log2_lt hx).mpr x.isLt
    refine ⟨x.toNat.log2, Nat.lt_succ_iff.mp hi, by omega, ?_⟩
    exact Nat.testBit_log2 hx

theorem toNat_highestBit {x : Word} (hx : x.toNat ≠ 0) :
    (highestBit x).toNat = 2 ^ x.toNat.log2 := by
  obtain ⟨y, hy, hspread⟩ : ∃ y : Word, highestBit x = y - (y >>> 1) ∧ Spreads x y 32 := by
    refine ⟨_, rfl, ?_⟩
    exact spreads_one x |>.double |>.double |>.double |>.double |>.double
  have hpow := Nat.two_pow_pos x.toNat.log2
  have hall := hspread.toNat_eq hx
  have hhalf : (y >>> 1).toNat = 2 ^ x.toNat.log2 - 1 := by
    rw [BitVec.toNat_ushiftRight, Nat.shiftRight_eq_div_pow, hall, Nat.pow_succ]
    omega
  rw [hy, BitVec.toNat_sub_of_le (by rw [BitVec.le_def, hhalf, hall, Nat.pow_succ]; omega), hall,
    hhalf, Nat.pow_succ]
  omega

/-! ## The size of a block -/

/-- A request of at most `2 ^ 31` bytes is rounded up to a power of two. -/
theorem toNat_roundSize_of_le {size : Word} (hsize : size.toNat ≤ 2 ^ 31) :
    ∃ k, 4 ≤ k ∧ k ≤ 31 ∧ (roundSize size).toNat = 2 ^ k ∧ size.toNat ≤ 2 ^ k := by
  rw [roundSize]
  by_cases hmin : size < minAlloc
  · rw [if_pos hmin]
    exact ⟨4, le_rfl, by decide, rfl, (BitVec.lt_def.mp hmin).le⟩
  rw [if_neg hmin]
  have hge : 16 ≤ size.toNat := Nat.not_lt.mp fun h ↦ hmin (BitVec.lt_def.mpr h)
  have hne : size.toNat ≠ 0 := by omega
  have hlog : 4 ≤ size.toNat.log2 := (Nat.le_log2 hne).mpr hge
  by_cases hpow : isPowerOfTwo size = true
  · rw [if_neg (by simp [hpow])]
    obtain ⟨k, hk⟩ := (isPowerOfTwo_iff size).mp hpow
    have hlogk : size.toNat.log2 = k := by rw [hk, Nat.log2_two_pow]
    refine ⟨k, hlogk ▸ hlog, ?_, hk, hk.le⟩
    rw [hk] at hsize
    exact (Nat.pow_le_pow_iff_right (by decide)).mp hsize
  · rw [if_pos (by simp [hpow])]
    have hlt : size.toNat < 2 ^ 31 := by
      refine lt_of_le_of_ne hsize fun heq ↦ hpow ((isPowerOfTwo_iff size).mpr ⟨31, heq⟩)
    have hlog' : size.toNat.log2 < 31 := (Nat.log2_lt hne).mpr hlt
    refine ⟨size.toNat.log2 + 1, by omega, by omega, ?_, Nat.lt_log2_self.le⟩
    have hbit : (highestBit size).toNat * 2 ^ 1 = 2 ^ (size.toNat.log2 + 1) := by
      rw [toNat_highestBit hne, ← Nat.pow_add]
    rw [Bits.toNat_shiftLeft_of_lt
      (by rw [hbit]; exact Nat.pow_lt_pow_right (by decide) (by omega)), hbit]

/-- A larger request is rounded to zero. -/
theorem roundSize_of_gt {size : Word} (hsize : 2 ^ 31 < size.toNat) : roundSize size = 0#32 := by
  have hlt := size.isLt
  have hne : size.toNat ≠ 0 := by omega
  have hmin : ¬size < minAlloc := fun h ↦ by
    have hlt16 : size.toNat < 16 := BitVec.lt_def.mp h
    omega
  have hpow : ¬isPowerOfTwo size = true := by
    rw [isPowerOfTwo_iff]
    rintro ⟨k, hk⟩
    rw [hk] at hsize hlt
    have h31 := (Nat.pow_lt_pow_iff_right (by decide)).mp hsize
    have h32 := (Nat.pow_lt_pow_iff_right (by decide)).mp hlt
    omega
  have hlog : size.toNat.log2 = 31 := (Nat.log2_eq_iff hne).mpr ⟨hsize.le, hlt⟩
  rw [roundSize, if_neg hmin, if_pos (by simp [hpow])]
  apply BitVec.eq_of_toNat_eq
  rw [BitVec.toNat_shiftLeft, toNat_highestBit hne, hlog]
  rfl

end Sugarcat.Heap
