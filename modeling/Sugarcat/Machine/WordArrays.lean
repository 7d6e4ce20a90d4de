import Sugarcat.Machine.Memory

/-!
# Arrays of words

Arrays of words that have no address in common make memory a function of arrays and indices. A store
to one word of them is an update of that function at one place (`WordArrays.word_writeWord`), which
is all that their clients use of addresses.

The arrays are a family, so that a client names them by what they are for: `WordArrays` keeps where
each one begins and how long it is, with the facts that no array is longer than the address space
and that no two of them overlap. Two words of one array are apart because their indices differ, and
two words of different arrays because the arrays are.
-/

namespace ByteMemory

theorem apart_word_word {a : Addr} {n i j : ℕ} (hn : 4 * n ≤ 2 ^ 32) (hi : i < n) (hj : j < n)
    (hij : i ≠ j) : Apart (a + 4#32 * BitVec.ofNat 32 i) 4 (a + 4#32 * BitVec.ofNat 32 j) 4 := by
  have hoff : ∀ k < n, (4#32 * BitVec.ofNat 32 k).toNat = 4 * k := by
    intro k hk
    rw [BitVec.toNat_mul, BitVec.toNat_ofNat, BitVec.toNat_ofNat]
    omega
  have hi' := hoff i hi
  have hj' := hoff j hj
  intro x hx hx'
  rw [InRange, ← sub_sub, BitVec.toNat_sub, hi'] at hx
  rw [InRange, ← sub_sub, BitVec.toNat_sub, hj'] at hx'
  have hlt := (x - a).isLt
  omega

/-- Where the arrays of a family begin, and how many words they have. -/
structure WordArrays (B : Type*) where
  base : B → Addr
  cnt : B → ℕ
  fits : ∀ b, 4 * cnt b ≤ 2 ^ 32
  apart : ∀ b c, b ≠ c → Apart (base b) (4 * cnt b) (base c) (4 * cnt c)

namespace WordArrays

variable {B : Type*} (A : WordArrays B) {b c : B} {i j : ℕ}

/-- The address of a word. -/
def addr (b : B) (i : ℕ) : Addr := A.base b + 4#32 * BitVec.ofNat 32 i

def word (m : Memory) (b : B) (i : ℕ) : Word := readWord m (A.addr b i)

variable {A}

theorem apart_addr (hi : i < A.cnt b) (hj : j < A.cnt c) (hne : ¬(b = c ∧ i = j)) :
    Apart (A.addr b i) 4 (A.addr c j) 4 := by
  by_cases hbc : b = c
  · subst hbc
    exact apart_word_word (A.fits b) hi hj fun hij ↦ hne ⟨rfl, hij⟩
  · have hfit : ∀ d : B, ∀ k < A.cnt d, (4#32 * BitVec.ofNat 32 k).toNat + 4 ≤ 4 * A.cnt d := by
      intro d k hk
      have := A.fits d
      rw [BitVec.toNat_mul, BitVec.toNat_ofNat, BitVec.toNat_ofNat]
      omega
    exact (A.apart b c hbc).mono (hfit b i hi) (hfit c j hj)

/-- **A store to a word updates that word only.** -/
theorem word_writeWord [DecidableEq B] {m : Memory} {x : Word} (hi : i < A.cnt b)
    (hj : j < A.cnt c) :
    A.word (writeWord m (A.addr b i) x) c j = if b = c ∧ i = j then x else A.word m c j := by
  by_cases h : b = c ∧ i = j
  · obtain ⟨rfl, rfl⟩ := h
    rw [if_pos ⟨rfl, rfl⟩, word, readWord_writeWord_self]
  · rw [if_neg h]
    exact readWord_writeWord_of_apart x (apart_addr hi hj h)

end WordArrays

end ByteMemory
