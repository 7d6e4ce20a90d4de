import Sugarcat.Machine.Bits
import Mathlib.Data.List.Basic

/-!
# Words made of fields

A field is a mask and a value that lies within it. `pack` unites the values of some fields, as code
does that composes a register or a descriptor with shifts and bitwise ORs. `IsFields` says that the
values lie within their masks and that the masks do not overlap.

## Reading a field back

Where the masks do not overlap, each field can be read back with its mask (`IsFields.pack_and`), and
a mask that is apart from all of them finds nothing. The proof is by induction on the list of
fields, so a descriptor with one field more costs nothing here: its client only checks the masks,
which is a computation.

## Fields of one width

A register may also be an array of fields of one width, which are stored one at a time by
`putField`: the old field is masked out, and the new one is put there by an OR. To store one field
changes no other one (`extractLsb'_putField`), and the new field is what was stored, cut to the
width.
-/

namespace Bits

variable {w : ℕ}

/-- The union of the values of the fields. -/
def pack : List (BitVec w × BitVec w) → BitVec w
  | [] => 0#w
  | f :: fs => f.2 ||| pack fs

/-- The values lie within their masks, and the masks do not overlap. -/
structure IsFields (fs : List (BitVec w × BitVec w)) : Prop where
  within : ∀ f ∈ fs, f.2 &&& f.1 = f.2
  apart : fs.Pairwise fun f g ↦ f.1 &&& g.1 = 0#w

variable {f : BitVec w × BitVec w} {fs : List (BitVec w × BitVec w)}

theorem IsFields.tail (h : IsFields (f :: fs)) : IsFields fs :=
  ⟨fun g hg ↦ h.within g (List.mem_cons_of_mem _ hg), (List.pairwise_cons.mp h.apart).2⟩

/-- A mask that is apart from those of all fields finds nothing in their union. -/
theorem IsFields.pack_and_eq_zero (h : IsFields fs) {m : BitVec w}
    (hm : ∀ g ∈ fs, m &&& g.1 = 0#w) : pack fs &&& m = 0#w := by
  induction fs with
  | nil => exact BitVec.zero_and
  | cons g fs ih =>
    have hg : g.2 &&& m = 0#w := by
      refine and_eq_zero_of_within (h.within g List.mem_cons_self) ?_
      rw [BitVec.and_comm]
      exact hm g List.mem_cons_self
    rw [pack, BitVec.and_or_distrib_right, hg, BitVec.zero_or]
    exact ih h.tail fun k hk ↦ hm k (List.mem_cons_of_mem _ hk)

/-- **A field is read back with its mask.** -/
theorem IsFields.pack_and (h : IsFields fs) (hf : f ∈ fs) : pack fs &&& f.1 = f.2 := by
  induction fs with
  | nil => simp at hf
  | cons g fs ih =>
    obtain ⟨hapart, -⟩ := List.pairwise_cons.mp h.apart
    rw [pack, BitVec.and_or_distrib_right]
    rcases List.mem_cons.mp hf with rfl | hf
    · rw [h.within f List.mem_cons_self, h.tail.pack_and_eq_zero hapart, BitVec.or_zero]
    · rw [ih h.tail hf, and_eq_zero_of_within (h.within g List.mem_cons_self) (hapart f hf),
        BitVec.zero_or]

/-! ## Fields of one width -/

/-- Store `y` in the field that has the bits of `m`, from bit `s` on. -/
def putField (m : BitVec w) (s : ℕ) (x y : BitVec w) : BitVec w :=
  (x &&& ~~~(m <<< s)) ||| ((y &&& m) <<< s)

variable {n s t : ℕ} {m x y : BitVec w}

theorem getLsbD_putField (hm : m.toNat = 2 ^ n - 1) (hs : s + n ≤ w) (i : ℕ) :
    (putField m s x y).getLsbD i =
      if s ≤ i ∧ i < s + n then y.getLsbD (i - s) else x.getLsbD i := by
  have hbit : ∀ i, m.getLsbD i = decide (i < n) := by
    intro i
    rw [BitVec.getLsbD, hm, Nat.testBit_two_pow_sub_one]
  simp only [putField, BitVec.getLsbD_or, BitVec.getLsbD_and, BitVec.getLsbD_not,
    BitVec.getLsbD_shiftLeft, hbit]
  by_cases hin : s ≤ i ∧ i < s + n
  · have hw : i < w := by omega
    have hsub : i - s < n := by omega
    have hlt : ¬i < s := by omega
    simp [hin, hw, hsub, hlt]
  · rw [if_neg hin]
    by_cases hw : i < w
    · have hout : i < s ∨ ¬i - s < n := by omega
      rcases hout with h | h <;> simp [h, hw]
    · rw [BitVec.getLsbD_of_ge x i (by omega)]
      simp [hw]

/-- **Fields of one width do not touch each other.** -/
theorem extractLsb'_putField (hm : m.toNat = 2 ^ n - 1) (hs : s + n ≤ w)
    (hst : s = t ∨ s + n ≤ t ∨ t + n ≤ s) :
    (putField m s x y).extractLsb' t n =
      if s = t then y.setWidth n else x.extractLsb' t n := by
  apply BitVec.eq_of_getLsbD_eq
  intro i hi
  rw [BitVec.getLsbD_extractLsb', getLsbD_putField hm hs]
  split_ifs with hin heq
  · subst heq
    simp [hi]
  · omega
  · omega
  · simp [hi]

end Bits
