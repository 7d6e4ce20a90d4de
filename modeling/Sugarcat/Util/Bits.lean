import Mathlib.Tactic.IntervalCases
import Sugarcat.Machine.Bits
import Sugarcat.Machine.Memory

/-!
# Error codes and bit helpers

The two headers everything else includes: the error codes of `errno.h` and the functions of
`util/bits.h`. Words are 32 bits wide, as `unsigned int` and `addr_t` are on the target.

Each helper has one lemma that says what it comes to in numbers, and its clients use that lemma and
not the definition: `is_aligned_n` is divisibility where `n` is a power of two, `clr_lv_msb` is the
largest power of two that is not above its argument, and `endswap32` reverses the four bytes of a
word. Which of the two byte orders the machine has is a run-time test in the source, and it is
computed here in the same way, from the low byte of the number 1.
-/

namespace Sugarcat

open ByteMemory

/-- `errno.h`. -/
inductive Errno where
  | esucc
  | einval
  | enotfnd
  | enotinit
  | enotsupp
  | ealign
  | enotenb
  | esize
  deriving DecidableEq, Repr

/-! ## Alignment and powers of two -/

/-- `x` is aligned to `n`, for an alignment `n` that is a power of two. -/
def isAlignedN (x n : Word) : Bool := x &&& (n - 1#32) == 0#32

def isPowerOfTwo (x : Word) : Bool := x != 0#32 && (x &&& (x - 1#32)) == 0#32

theorem isAlignedN_iff {x n : Word} {k : ℕ} (hn : n.toNat = 2 ^ k) :
    isAlignedN x n = true ↔ 2 ^ k ∣ x.toNat := by
  have hk : 2 ^ k < 2 ^ 32 := hn ▸ n.isLt
  have hpos : 0 < 2 ^ k := Nat.two_pow_pos k
  have hmask : (n - 1#32).toNat = 2 ^ k - 1 := by
    rw [BitVec.toNat_sub, hn, BitVec.toNat_ofNat]
    omega
  rw [isAlignedN, beq_iff_eq, ← BitVec.toNat_inj, Bits.toNat_and_low hmask, Nat.dvd_iff_mod_eq_zero]
  rfl

theorem isPowerOfTwo_iff (x : Word) : isPowerOfTwo x = true ↔ ∃ k, x.toNat = 2 ^ k := by
  change _ ↔ x.toNat.isPowerOfTwo
  rw [isPowerOfTwo, Bool.and_eq_true, bne_iff_ne, beq_iff_eq,
    ← Nat.ne_zero_and_sub_one_eq_zero_iff_isPowerOfTwo]
  have hzero : x ≠ 0#32 ↔ x.toNat ≠ 0 := by
    rw [ne_eq, ne_eq, ← BitVec.toNat_inj]
    rfl
  rw [hzero]
  refine and_congr_right fun hx ↦ ?_
  have hsub : (x - 1#32).toNat = x.toNat - 1 := by
    have := x.isLt
    rw [BitVec.toNat_sub, BitVec.toNat_ofNat]
    omega
  rw [← BitVec.toNat_inj, BitVec.toNat_and, hsub]
  rfl

/-! ## Most significant bit -/

/-- The compiler's count of leading zeros, for a nonzero argument. -/
def builtinClz (x : Word) : ℕ := 31 - x.toNat.log2

/-- One more than the index of the most significant bit, or zero. -/
def idxMsb (x : Word) : ℕ := if x > 0#32 then 32 - builtinClz x else 0

/-- The most significant bit alone. -/
def clrLvMsb (x : Word) : Word := if x > 0#32 then 1#32 <<< (idxMsb x - 1) else 0#32

theorem toNat_clrLvMsb {x : Word} (hx : x.toNat ≠ 0) : (clrLvMsb x).toNat = 2 ^ x.toNat.log2 := by
  have hpos : x > 0#32 := by
    rw [gt_iff_lt, BitVec.lt_def]
    exact Nat.pos_of_ne_zero hx
  have hlog : x.toNat.log2 < 32 := (Nat.log2_lt hx).mpr x.isLt
  rw [clrLvMsb, if_pos hpos, idxMsb, if_pos hpos, builtinClz,
    show 32 - (31 - x.toNat.log2) - 1 = x.toNat.log2 by omega, Bits.toNat_one_shiftLeft hlog]

/-! ## Byte order -/

/-- The target stores the least significant byte first. -/
def isLittleEndian : Bool := (1#32).extractLsb' 0 8 == 1#8

def endswap32 (x : Word) : Word :=
  ((x &&& 0xFF#32) <<< 24) ||| ((x &&& 0xFF00#32) <<< 8) ||| ((x &&& 0xFF0000#32) >>> 8) |||
    ((x &&& 0xFF000000#32) >>> 24)

def be32ToCpu (x : Word) : Word := if isLittleEndian then endswap32 x else x

theorem endswap32_append (a b c d : Byte) : endswap32 (a ++ b ++ c ++ d) = d ++ c ++ b ++ a := by
  refine BitVec.eq_of_getLsbD_eq fun i hi ↦ ?_
  simp only [endswap32, BitVec.getLsbD_or, BitVec.getLsbD_shiftLeft, BitVec.getLsbD_ushiftRight,
    BitVec.getLsbD_and, BitVec.getLsbD_append]
  interval_cases i <;> simp

end Sugarcat
