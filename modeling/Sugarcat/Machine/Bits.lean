import Mathlib.Data.Nat.Bitwise
import Mathlib.Tactic.Ring

/-!
# Masks and disjoint unions as arithmetic

Address arithmetic in systems code is written with masks, shifts and bitwise OR, while the facts one
wants about it are divisions, remainders and sums. This file is the dictionary: a mask that keeps
the bits from `k` up rounds down to a multiple of `2 ^ k`, a mask that keeps the bits below `k`
takes the remainder, and an OR is a sum exactly when its operands share no bit.

## Spelling

A mask occurs as a literal, so the lemmas do not mention a mask constructor: they take the value of
the mask as a hypothesis, which `rfl` or `decide` discharges at the literal.

## Alignment bit by bit

That a base is aligned can also be learnt from outside: if a number shares no bit with any power of
two below `2 ^ j`, it is a multiple of `2 ^ j`. `two_pow_dvd_of_forall_and` is this, and with it the
converse of "an aligned base and a small offset share no bit": code that composes addresses with an
OR is right for all offsets only over an aligned base. `add_eq_or_add_and` says how far an OR is
from the sum where bits are shared, namely by the bits shared.

## Slices

A processor reads its descriptors by slices of bits and not by masks. `append_extractLsb'_eq`
relates the two spellings of an address that is put together from the upper part of one word and the
lower part of another.
-/

namespace Bits

/-! ## Natural numbers -/

theorem and_eq_zero_of_dvd_of_lt {a b k : ℕ} (ha : 2 ^ k ∣ a) (hb : b < 2 ^ k) : a &&& b = 0 := by
  obtain ⟨c, rfl⟩ := ha
  refine Nat.eq_of_testBit_eq fun i ↦ ?_
  rw [Nat.testBit_and, Nat.zero_testBit]
  by_cases hi : i < k
  · rw [Nat.testBit_two_pow_mul]
    simp [Nat.not_le.mpr hi]
  · have : b.testBit i = false :=
      Nat.testBit_lt_two_pow (hb.trans_le (Nat.pow_le_pow_right (by omega) (by omega)))
    simp [this]

theorem or_eq_add_of_dvd_of_lt {a b k : ℕ} (ha : 2 ^ k ∣ a) (hb : b < 2 ^ k) :
    a ||| b = a + b := by
  obtain ⟨c, rfl⟩ := ha
  exact (Nat.two_pow_add_eq_or_of_lt hb c).symm

/-- A sum is the union of its operands' bits plus the bits they share. -/
theorem add_eq_or_add_and (a b : ℕ) : a + b = (a ||| b) + (a &&& b) := by
  induction a using Nat.binaryRec generalizing b with
  | zero => simp
  | bit x m ih =>
    induction b using Nat.binaryRec with
    | zero => simp
    | bit y n _ =>
      have h := ih n
      rw [Nat.lor_bit, Nat.land_bit]
      simp only [Nat.bit_val]
      cases x <;> cases y <;> simp <;> omega

/-- Bits at different scales, tested one at a time: a number that misses every power of two below
`2 ^ j` is a multiple of `2 ^ j`. -/
theorem two_pow_dvd_of_forall_and {b j : ℕ} (h : ∀ t < j, b &&& 2 ^ t = 0) : 2 ^ j ∣ b := by
  rw [Nat.dvd_iff_mod_eq_zero]
  refine Nat.eq_of_testBit_eq fun i ↦ ?_
  rw [Nat.testBit_mod_two_pow, Nat.zero_testBit]
  by_cases hi : i < j
  · have hbit : (b &&& 2 ^ i).testBit i = false := by rw [h i hi, Nat.zero_testBit]
    rw [Nat.testBit_and, Nat.testBit_two_pow_self, Bool.and_true] at hbit
    simp [hbit]
  · simp [hi]

/-- From one alignment to a finer one, bit by bit. -/
theorem two_pow_dvd_of_dvd_of_forall_and {b k n : ℕ} (hk : 2 ^ k ∣ b)
    (h : ∀ t < n, b &&& (2 ^ t * 2 ^ k) = 0) : 2 ^ (k + n) ∣ b := by
  refine two_pow_dvd_of_forall_and fun t ht ↦ ?_
  by_cases hlow : t < k
  · exact and_eq_zero_of_dvd_of_lt hk (Nat.pow_lt_pow_right (by omega) hlow)
  · obtain ⟨j, rfl⟩ : ∃ j, t = j + k := ⟨t - k, by omega⟩
    rw [pow_add]
    exact h j (by omega)

/-- The next multiple of `2 ^ k` after one below `2 ^ w` is at most `2 ^ w`. -/
theorem add_two_pow_le_of_dvd {a k w : ℕ} (hkw : k ≤ w) (hdvd : 2 ^ k ∣ a) (hlt : a < 2 ^ w) :
    a + 2 ^ k ≤ 2 ^ w := by
  have hrest : 2 ^ k ∣ 2 ^ w - a := Nat.dvd_sub (Nat.pow_dvd_pow 2 hkw) hdvd
  have hle := Nat.le_of_dvd (by omega) hrest
  omega

/-! ## Fixed-width words -/

variable {w : ℕ}

/-- A mask of the bits from `k` up rounds down to a multiple of `2 ^ k`. -/
theorem toNat_and_high {m : BitVec w} {k : ℕ} (hk : k ≤ w) (hm : m.toNat = 2 ^ w - 2 ^ k)
    (x : BitVec w) : (x &&& m).toNat = x.toNat / 2 ^ k * 2 ^ k := by
  rw [BitVec.toNat_and, hm]
  refine Nat.eq_of_testBit_eq fun i ↦ ?_
  have hmask : 2 ^ w - 2 ^ k = (2 ^ (w - k) - 1) * 2 ^ k := by
    rw [Nat.sub_mul, one_mul, ← pow_add, Nat.sub_add_cancel hk]
  rw [Nat.testBit_and, hmask, mul_comm, Nat.testBit_two_pow_mul, Nat.testBit_two_pow_sub_one,
    mul_comm (x.toNat / 2 ^ k), Nat.testBit_two_pow_mul, Nat.testBit_div_two_pow]
  by_cases hki : k ≤ i
  · by_cases hiw : i < w
    · have h1 : i - k < w - k := by omega
      have h2 : i - k + k = i := by omega
      simp [hki, h1, h2]
    · have : x.toNat.testBit i = false :=
        Nat.testBit_lt_two_pow (x.isLt.trans_le (Nat.pow_le_pow_right (by omega) (by omega)))
      have h2 : i - k + k = i := by omega
      simp [this, h2]
  · simp [hki]

/-- A mask of the bits below `k` takes the remainder modulo `2 ^ k`. -/
theorem toNat_and_low {m : BitVec w} {k : ℕ} (hm : m.toNat = 2 ^ k - 1) (x : BitVec w) :
    (x &&& m).toNat = x.toNat % 2 ^ k := by
  rw [BitVec.toNat_and, hm, Nat.and_two_pow_sub_one_eq_mod]

theorem toNat_or_of_dvd_of_lt {x y : BitVec w} {k : ℕ} (hx : 2 ^ k ∣ x.toNat)
    (hy : y.toNat < 2 ^ k) : (x ||| y).toNat = x.toNat + y.toNat := by
  rw [BitVec.toNat_or, or_eq_add_of_dvd_of_lt hx hy]

/-- An OR is the sum, modulo the width, exactly when its operands share no bit. -/
theorem or_eq_add_iff (x y : BitVec w) : x ||| y = x + y ↔ x &&& y = 0#w := by
  constructor
  · intro h
    have hn := congrArg BitVec.toNat h
    rw [BitVec.toNat_or, BitVec.toNat_add, add_eq_or_add_and] at hn
    have hor : (x ||| y).toNat < 2 ^ w := (x ||| y).isLt
    have hand : (x &&& y).toNat < 2 ^ w := (x &&& y).isLt
    rw [BitVec.toNat_or] at hor
    rw [BitVec.toNat_and] at hand
    apply BitVec.eq_of_toNat_eq
    rw [BitVec.toNat_and, BitVec.toNat_ofNat, Nat.zero_mod]
    by_contra hne
    rcases Nat.lt_or_ge ((x.toNat ||| y.toNat) + (x.toNat &&& y.toNat)) (2 ^ w) with hlt | hge
    · rw [Nat.mod_eq_of_lt hlt] at hn
      omega
    · rw [Nat.mod_eq_sub_mod hge, Nat.mod_eq_of_lt (by omega)] at hn
      omega
  · intro h
    exact (BitVec.add_eq_or_of_and_eq_zero x y h).symm

theorem or_and_not_of_and_eq_zero {x y : BitVec w} (h : x &&& y = 0#w) :
    (x ||| y) &&& ~~~x = y := by
  refine BitVec.eq_of_getLsbD_eq fun i hi ↦ ?_
  have hbit := congrArg (·.getLsbD i) h
  simp only [BitVec.getLsbD_and, BitVec.getLsbD_zero] at hbit
  simp only [BitVec.getLsbD_and, BitVec.getLsbD_or, BitVec.getLsbD_not, hi, decide_true]
  cases hx : x.getLsbD i <;> cases hy : y.getLsbD i <;> simp_all

theorem or_eq_left_iff {x y : BitVec w} : x ||| y = x ↔ x &&& y = y := by
  have hbit : ∀ a b : Bool, (a || b) = a ↔ (a && b) = b := by decide
  constructor
  all_goals
    intro h
    refine BitVec.eq_of_getLsbD_eq fun i _ ↦ ?_
    have hi := congrArg (·.getLsbD i) h
    simp only [BitVec.getLsbD_or, BitVec.getLsbD_and] at hi ⊢
  · exact (hbit _ _).mp hi
  · exact (hbit _ _).mpr hi

/-- What lies within a mask misses every mask that is apart from it. -/
theorem and_eq_zero_of_within {x m n : BitVec w} (hx : x &&& m = x) (hmn : m &&& n = 0#w) :
    x &&& n = 0#w := by
  rw [← hx, BitVec.and_assoc, hmn, BitVec.and_zero]

theorem shiftLeft_ushiftRight_of_within {x m : BitVec w} {k : ℕ} (hx : x &&& m = x)
    (hm : (m >>> k) <<< k = m) : (x >>> k) <<< k = x := by
  refine BitVec.eq_of_getLsbD_eq fun i hi ↦ ?_
  have hxi := congrArg (·.getLsbD i) hx
  have hmi := congrArg (·.getLsbD i) hm
  simp only [BitVec.getLsbD_and, BitVec.getLsbD_shiftLeft, BitVec.getLsbD_ushiftRight, hi,
    decide_true, Bool.true_and] at hxi hmi ⊢
  by_cases hk : i < k
  · simp only [hk, decide_true, Bool.not_true, Bool.false_and] at hmi ⊢
    rw [← hxi, ← hmi, Bool.and_false]
  · rw [show k + (i - k) = i by omega]
    simp [hk]

theorem toNat_ushiftRight_eq (x : BitVec w) (k : ℕ) : (x >>> k).toNat = x.toNat / 2 ^ k := by
  rw [BitVec.toNat_ushiftRight, Nat.shiftRight_eq_div_pow]

theorem toNat_ofNat_of_lt {n : ℕ} (h : n < 2 ^ w) : (BitVec.ofNat w n).toNat = n := by
  rw [BitVec.toNat_ofNat, Nat.mod_eq_of_lt h]

theorem toNat_shiftLeft_of_lt {x : BitVec w} {k : ℕ} (h : x.toNat * 2 ^ k < 2 ^ w) :
    (x <<< k).toNat = x.toNat * 2 ^ k := by
  rw [BitVec.toNat_shiftLeft, Nat.shiftLeft_eq, Nat.mod_eq_of_lt h]

theorem toNat_one_shiftLeft {k : ℕ} (h : k < w) : (1#w <<< k).toNat = 2 ^ k := by
  have hone : (1#w).toNat = 1 := toNat_ofNat_of_lt (Nat.one_lt_two_pow (by omega))
  rw [toNat_shiftLeft_of_lt] <;> rw [hone, one_mul]
  exact Nat.pow_lt_pow_right (by omega) h

/-! ## Bit slices -/

theorem toNat_extractLsb' (x : BitVec w) (k n : ℕ) :
    (x.extractLsb' k n).toNat = x.toNat / 2 ^ k % 2 ^ n := by
  rw [BitVec.extractLsb'_toNat, Nat.shiftRight_eq_div_pow]

theorem toNat_append_eq {n k : ℕ} (x : BitVec n) (y : BitVec k) :
    (x ++ y).toNat = x.toNat * 2 ^ k + y.toNat := by
  rw [BitVec.toNat_append, ← Nat.shiftLeft_add_eq_or_of_lt y.isLt, Nat.shiftLeft_eq]

/-- The upper part of one word before the lower part of another, with slices and with masks. -/
theorem append_extractLsb'_eq {n k : ℕ} {m : BitVec (n + k)} (hm : m.toNat = 2 ^ (n + k) - 2 ^ k)
    (x y : BitVec (n + k)) :
    x.extractLsb' k n ++ y.extractLsb' 0 k = (x &&& m) ||| (y &&& ~~~m) := by
  have hpow : 2 ^ k ≤ 2 ^ (n + k) := Nat.pow_le_pow_right (by omega) (by omega)
  have hpos : 0 < 2 ^ k := Nat.two_pow_pos k
  have hhigh := toNat_and_high (by omega) hm x
  have hlow : (y &&& ~~~m).toNat = y.toNat % 2 ^ k := by
    refine toNat_and_low ?_ y
    rw [BitVec.toNat_not, hm]
    omega
  have hslice : x.toNat / 2 ^ k < 2 ^ n := by
    rw [Nat.div_lt_iff_lt_mul hpos, ← pow_add]
    exact x.isLt
  apply BitVec.eq_of_toNat_eq
  rw [toNat_append_eq, toNat_extractLsb', toNat_extractLsb', pow_zero, Nat.div_one,
    Nat.mod_eq_of_lt hslice, toNat_or_of_dvd_of_lt (k := k), hhigh, hlow]
  · rw [hhigh]
    exact Nat.dvd_mul_left _ _
  · rw [hlow]
    exact Nat.mod_lt _ hpos

end Bits
