import Mathlib.Order.Bounds.Basic
import Sugarcat.Util.Bits

/-!
# Sizes of the page bitmap

The three functions of `mm/pmm.h` that say how many pages a memory has, how many bytes a bitmap for
them takes, and how many pages those take. Each of them is to round up, and none does: the first one
tests the wrong bits, the second one rounds down, and the third one gives up on sizes that are not
powers of two.

## What is meant

What is meant is the least number of pages that covers a size, a bitmap with a bit for each of them,
and pages enough for the bitmap (`LargeEnough`). The first is an equality, as a page too many would
be one that is not there; the other two are bounds.

## Where each is right

The three lemmas before `largeEnough_iff` say for each function on its own where it is right. The
first two conditions contradict each other, except for no memory at all: the one asks for a size
that is not a number of pages, and the other for a multiple of eight pages. So no size of a memory
gets a right answer from all three.
-/

namespace Sugarcat

open ByteMemory

abbrev pgMask : Word := 0xFFFFF000#32

def memPgCnt (memSz : Word) : Word :=
  let ret := memSz >>> 12
  if memSz &&& pgMask ≠ 0#32 then ret + 1#32 else ret

def bitmapSize (memSz : Word) : Word := (memSz >>> 12) >>> 3

def bitmapOhPgCnt (memSz : Word) : Word :=
  let ret := bitmapSize memSz
  let ret := if !isPowerOfTwo ret then 0#32 else ret
  ret >>> 12

/-! ## What is meant -/

/-- `n` pages cover `s` bytes. -/
def Covers (n s : ℕ) : Prop := s ≤ 4096 * n

/-- The sizes are large enough for a memory of `s` bytes. -/
structure LargeEnough (s : Word) : Prop where
  pages : IsLeast {n | Covers n s.toNat} (memPgCnt s).toNat
  bits : ∀ n, IsLeast {n | Covers n s.toNat} n → n ≤ 8 * (bitmapSize s).toNat
  overhead : Covers (bitmapOhPgCnt s).toNat (bitmapSize s).toNat

theorem isLeast_covers (s : ℕ) : IsLeast {n | Covers n s} ((s + 4095) / 4096) := by
  constructor
  · change s ≤ 4096 * ((s + 4095) / 4096)
    omega
  · intro n hn
    change s ≤ 4096 * n at hn
    omega

/-! ## What is computed -/

variable {s : Word}

theorem toNat_memPgCnt (s : Word) :
    (memPgCnt s).toNat = s.toNat / 4096 + if s.toNat < 4096 then 0 else 1 := by
  have hs := s.isLt
  have hshift : (s >>> 12).toNat = s.toNat / 4096 := Bits.toNat_ushiftRight_eq s 12
  have hmask : s &&& pgMask = 0#32 ↔ s.toNat < 4096 := by
    have hand := Bits.toNat_and_high (k := 12) (by decide) (m := pgMask) (by decide) s
    rw [← BitVec.toNat_inj, hand, BitVec.toNat_ofNat]
    omega
  rw [memPgCnt]
  by_cases hlt : s.toNat < 4096
  · rw [if_neg (not_not.mpr (hmask.mpr hlt)), if_pos hlt, hshift, Nat.add_zero]
  · rw [if_pos (hmask.not.mpr hlt), if_neg hlt, BitVec.toNat_add, hshift, BitVec.toNat_ofNat]
    omega

theorem toNat_bitmapSize (s : Word) : (bitmapSize s).toNat = s.toNat / 32768 := by
  rw [bitmapSize, Bits.toNat_ushiftRight_eq, Bits.toNat_ushiftRight_eq, Nat.div_div_eq_div_mul]
  rfl

theorem toNat_bitmapOhPgCnt (s : Word) : (bitmapOhPgCnt s).toNat
    = if isPowerOfTwo (bitmapSize s) then s.toNat / 32768 / 4096 else 0 := by
  rw [bitmapOhPgCnt, Bits.toNat_ushiftRight_eq]
  cases isPowerOfTwo (bitmapSize s) with
  | true => exact congrArg (· / 4096) (toNat_bitmapSize s)
  | false => exact Nat.zero_div 4096

/-! ## Where it is right -/

/-- The number of pages is right for sizes above a page that are not a number of pages. -/
theorem isLeast_memPgCnt_iff :
    IsLeast {n | Covers n s.toNat} (memPgCnt s).toNat ↔
      s.toNat = 0 ∨ 4096 ≤ s.toNat ∧ s.toNat % 4096 ≠ 0 := by
  have hleast := isLeast_covers s.toNat
  have heq : IsLeast {n | Covers n s.toNat} (memPgCnt s).toNat
      ↔ (memPgCnt s).toNat = (s.toNat + 4095) / 4096 :=
    ⟨fun h ↦ h.unique hleast, fun h ↦ h ▸ hleast⟩
  rw [heq, toNat_memPgCnt]
  split_ifs <;> omega

/-- The bitmap is large enough for a number of pages that eight divides. -/
theorem bits_iff :
    (∀ n, IsLeast {n | Covers n s.toNat} n → n ≤ 8 * (bitmapSize s).toNat) ↔ 32768 ∣ s.toNat := by
  have hleast := isLeast_covers s.toNat
  have heq : (∀ n, IsLeast {n | Covers n s.toNat} n → n ≤ 8 * (bitmapSize s).toNat)
      ↔ (s.toNat + 4095) / 4096 ≤ 8 * (bitmapSize s).toNat :=
    ⟨fun h ↦ h _ hleast, fun h n hn ↦ hn.unique hleast ▸ h⟩
  rw [heq, toNat_bitmapSize]
  omega

/-- The pages are enough for a bitmap of a number of pages that is a power of two. -/
theorem overhead_iff :
    Covers (bitmapOhPgCnt s).toNat (bitmapSize s).toNat ↔
      s.toNat < 32768 ∨ ∃ k, 12 ≤ k ∧ s.toNat / 32768 = 2 ^ k := by
  have hiff := isPowerOfTwo_iff (bitmapSize s)
  rw [toNat_bitmapSize] at hiff
  rw [Covers, toNat_bitmapOhPgCnt, toNat_bitmapSize]
  split_ifs with hpow
  all_goals rw [hiff] at hpow
  · obtain ⟨k, hk⟩ := hpow
    have hpos := Nat.two_pow_pos k
    rcases Nat.lt_or_ge k 12 with hlt | hge
    · have hsmall : 2 ^ k < 4096 := Nat.pow_lt_pow_right (by decide) hlt
      refine iff_of_false (by omega) ?_
      rintro (hs | ⟨j, hj, hj'⟩)
      · omega
      · have hjk : 2 ^ k < 2 ^ j := Nat.pow_lt_pow_right (by decide) (by omega)
        omega
    · refine iff_of_true ?_ (Or.inr ⟨k, hge, hk⟩)
      have hdvd : 2 ^ 12 ∣ 2 ^ k := Nat.pow_dvd_pow 2 hge
      rw [hk]
      omega
  · constructor
    · intro hle
      exact Or.inl (by omega)
    · rintro (hs | ⟨k, -, hk⟩)
      · omega
      · exact absurd ⟨k, hk⟩ hpow

/-- **There is no memory for which all three are right**, except for none at all. -/
theorem largeEnough_iff (s : Word) : LargeEnough s ↔ s = 0#32 := by
  have hzero : s = 0#32 ↔ s.toNat = 0 := by
    rw [← BitVec.toNat_inj]
    rfl
  rw [hzero]
  constructor
  · rintro ⟨hpages, hbits, -⟩
    rw [isLeast_memPgCnt_iff] at hpages
    rw [bits_iff] at hbits
    omega
  · intro hs
    exact ⟨isLeast_memPgCnt_iff.mpr (Or.inl hs), bits_iff.mpr (by omega),
      overhead_iff.mpr (Or.inl (by omega))⟩

/-- Twenty-five pages. -/
theorem not_largeEnough_pages :
    (memPgCnt 0x19000#32).toNat = 26 ∧ 8 * (bitmapSize 0x19000#32).toNat = 24 ∧
      (bitmapOhPgCnt 0x19000#32).toNat = 0 ∧ ¬LargeEnough 0x19000#32 := by
  refine ⟨by decide, by decide, by decide, ?_⟩
  intro h
  have hbits := h.bits 25 (isLeast_covers 0x19000)
  exact absurd hbits (by decide)

end Sugarcat
