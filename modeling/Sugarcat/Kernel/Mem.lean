import Sugarcat.Machine.Loop
import Sugarcat.Machine.Memory

/-!
# Filling memory

`memset` of `mm/mem.h`, byte by byte. The source counts the bytes with an unsigned size and goes
from the first one up, and the addresses wrap around at the top of the address space, so the
specification is pointwise: what a byte holds afterwards depends on whether it is in the range,
counted in that way.
-/

namespace Sugarcat

open ByteMemory

def memset (dat : Addr) (c : Byte) (size : Word) (m : Memory) : Memory :=
  Loop.upTo (fun i m ↦ writeByte m (dat + BitVec.ofNat 32 i) c) size.toNat m

/-- **What `memset` does**: the bytes of the range are `c`, the others are left alone. -/
theorem memset_apply (dat : Addr) (c : Byte) (size : Word) (m : Memory) (x : Addr) :
    memset dat c size m x = if InRange dat size.toNat x then c else m x := by
  have hinv : ∀ n ≤ size.toNat, ∀ y,
      Loop.upTo (fun i m ↦ writeByte m (dat + BitVec.ofNat 32 i) c) n m y
        = if InRange dat n y then c else m y := by
    intro n hn
    have hsize := size.isLt
    induction n with
    | zero =>
      intro y
      have hout : ¬InRange dat 0 y := Nat.not_lt_zero _
      rw [Loop.upTo_zero, if_neg hout]
    | succ n ih =>
      intro y
      rw [Loop.upTo_succ, writeByte, ih (by omega)]
      by_cases hy : y = dat + BitVec.ofNat 32 n
      · rw [if_pos hy, hy, if_pos (inRange_add (Nat.lt_succ_self n) (by omega))]
      · have hiff : InRange dat (n + 1) y ↔ InRange dat n y := by
          have hne : (y - dat).toNat ≠ n := by
            rintro rfl
            apply hy
            rw [BitVec.ofNat_toNat, BitVec.setWidth_eq]
            ring
          rw [InRange, InRange]
          omega
        rw [if_neg hy]
        simp only [hiff]
  exact hinv _ le_rfl x

end Sugarcat
