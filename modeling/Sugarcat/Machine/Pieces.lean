import Mathlib.Order.Interval.Finset.Nat

/-!
# Pieces of an interval

A piece has a first position `lo` and a length `len`. `LaidFrom` says that pieces lie one after the
other, so that they make up an interval, and pieces that are `Apart` in pairs are no longer together
than the interval they lie in.

The two functions are parameters, so that a client keeps its own type of pieces. Nothing is asked of
them, and a piece may be empty; where that matters a lemma says so.

## Counting positions

The last fact is a count. The positions that the pieces cover are as many as their lengths add up to
when no two pieces overlap (`card_cover`), and they all lie in the interval. Nothing is asked of the
order of the pieces, so `total_le` applies to a list in which they occur as they were found, and to
a part of such a list.
-/

namespace Pieces

variable {α : Type*} (lo len : α → ℕ)

/-- The length of all pieces together. -/
def total : List α → ℕ
  | [] => 0
  | p :: ps => len p + total ps

/-- The pieces lie one after the other, from `b` on. -/
def LaidFrom : ℕ → List α → Prop
  | _, [] => True
  | b, p :: ps => lo p = b ∧ LaidFrom (b + len p) ps

/-- Two pieces do not overlap. -/
def Apart (p q : α) : Prop := lo p + len p ≤ lo q ∨ lo q + len q ≤ lo p

instance decidableLaidFrom (b : ℕ) (ps : List α) : Decidable (LaidFrom lo len b ps) :=
  match ps with
  | [] => isTrue trivial
  | p :: ps =>
    have := decidableLaidFrom (b + len p) ps
    inferInstanceAs (Decidable (lo p = b ∧ LaidFrom lo len (b + len p) ps))

instance (p q : α) : Decidable (Apart lo len p q) := inferInstanceAs (Decidable (_ ∨ _))

variable {lo len} {ps : List α} {p q : α} {b n : ℕ}

@[simp] theorem total_nil : total len [] = 0 := rfl

@[simp] theorem total_cons (p : α) (ps : List α) : total len (p :: ps) = len p + total len ps := rfl

@[simp] theorem total_append (ps qs : List α) :
    total len (ps ++ qs) = total len ps + total len qs := by
  induction ps with
  | nil => rw [List.nil_append, total_nil, Nat.zero_add]
  | cons p ps ih => rw [List.cons_append, total_cons, total_cons, ih, Nat.add_assoc]

theorem Apart.symm (h : Apart lo len p q) : Apart lo len q p := Or.symm h

theorem Apart.lo_ne (h : Apart lo len p q) (hp : 0 < len p) (hq : 0 < len q) : lo p ≠ lo q := by
  rcases h with h | h <;> omega

theorem laidFrom_concat :
    LaidFrom lo len b (ps ++ [q]) ↔ LaidFrom lo len b ps ∧ lo q = b + total len ps := by
  induction ps generalizing b with
  | nil => simp [LaidFrom]
  | cons p ps ih =>
    rw [List.cons_append, LaidFrom, LaidFrom, ih, and_assoc, total_cons, Nat.add_assoc]

theorem LaidFrom.add_total_le (h : LaidFrom lo len b ps) (hne : ps ≠ [])
    (hfits : ∀ p ∈ ps, lo p + len p ≤ n) : b + total len ps ≤ n := by
  induction ps generalizing b with
  | nil => exact absurd rfl hne
  | cons p ps ih =>
    obtain ⟨hlo, htail⟩ := h
    rw [List.forall_mem_cons] at hfits
    cases ps with
    | nil =>
      rw [total_cons, total_nil, ← hlo]
      exact hfits.1
    | cons q ps =>
      rw [total_cons, ← Nat.add_assoc]
      exact ih htail (by simp) hfits.2

/-- The positions in the pieces. -/
def cover (lo len : α → ℕ) : List α → Finset ℕ
  | [] => ∅
  | p :: ps => Finset.Ico (lo p) (lo p + len p) ∪ cover lo len ps

theorem mem_cover {x : ℕ} : x ∈ cover lo len ps ↔ ∃ p ∈ ps, lo p ≤ x ∧ x < lo p + len p := by
  induction ps with
  | nil => simp [cover]
  | cons p ps ih => simp [cover, ih]

theorem card_cover (h : ps.Pairwise (Apart lo len)) : (cover lo len ps).card = total len ps := by
  induction ps with
  | nil => rfl
  | cons p ps ih =>
    rw [List.pairwise_cons] at h
    have hdisj : Disjoint (Finset.Ico (lo p) (lo p + len p)) (cover lo len ps) := by
      refine Finset.disjoint_left.mpr fun x hx hx' ↦ ?_
      obtain ⟨q, hq, hle, hlt⟩ := mem_cover.mp hx'
      rw [Finset.mem_Ico] at hx
      rcases h.1 q hq with hpq | hpq <;> omega
    rw [cover, Finset.card_union_of_disjoint hdisj, Nat.card_Ico, ih h.2, total_cons,
      Nat.add_sub_cancel_left]

/-- **Pieces that are apart fill no more than there is.** -/
theorem total_le (h : ps.Pairwise (Apart lo len)) (hfits : ∀ p ∈ ps, lo p + len p ≤ n) :
    total len ps ≤ n := by
  have hsub : cover lo len ps ⊆ Finset.range n := by
    intro x hx
    obtain ⟨p, hp, -, hlt⟩ := mem_cover.mp hx
    exact Finset.mem_range.mpr (lt_of_lt_of_le hlt (hfits p hp))
  rw [← card_cover h]
  exact (Finset.card_le_card hsub).trans_eq (Finset.card_range n)

end Pieces
