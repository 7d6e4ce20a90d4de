import Mathlib.Logic.Function.Iterate
import Mathlib.SetTheory.Cardinal.Finite
import Sugarcat.Machine.Loop

/-!
# Loops over a finite orbit

A loop that goes from `x` to `f x`, until it comes to a place where it stops, need not end. Over
finitely many places it does end exactly when no place is met twice on the way, and then it makes no
more passes than there are places.

## Orbits

`NoReturn` says that no place is met twice before the first stop. If a stop is reached, then there
is no return: from the second visit to a place the rest of the way is that of the first one, and it
would have led to a stop earlier. If there is no return, the places before the stop are all
different, and there are not enough of them to go on for ever (`exists_stop_lt_card`).

## Loops

`Loop.Follows` says that a loop, whatever else it keeps in its state, moves and stops like that.
Several loops that walk the same structure and collect different things then end under one and the
same condition, which is about the structure alone, and `Follows.isSome_run_card_iff` gives the fuel
that decides it.
-/

variable {α : Type*} {f : α → α} {stop : α → Prop} {x : α} {i j k : ℕ}

/-! ## Orbits -/

namespace Orbit

/-- No place is met twice before the orbit stops. -/
def NoReturn (f : α → α) (stop : α → Prop) (x : α) : Prop :=
  ∀ i j, i < j → (∀ k < j, ¬stop (f^[k] x)) → f^[i] x ≠ f^[j] x

theorem iterate_add_eq (h : f^[i] x = f^[j] x) (n : ℕ) : f^[n + i] x = f^[n + j] x := by
  rw [Function.iterate_add_apply, Function.iterate_add_apply, h]

/-- The first stop of an orbit, and all places before it, are different. -/
theorem iterate_ne_of_stop (hk : stop (f^[k] x)) (hmin : ∀ n < k, ¬stop (f^[n] x)) (hij : i < j)
    (hj : j ≤ k) : f^[i] x ≠ f^[j] x := by
  intro heq
  -- the way from the second visit to the stop can be gone from the first one
  obtain ⟨n, rfl⟩ := Nat.exists_eq_add_of_le' hj
  rw [← iterate_add_eq heq] at hk
  exact hmin (n + i) (by omega) hk

theorem noReturn_of_stop (h : ∃ k, stop (f^[k] x)) : NoReturn f stop x := by
  classical
  intro i j hij hno
  have hfind := Nat.find_spec h
  have hmin : ∀ n < Nat.find h, ¬stop (f^[n] x) := fun n hn ↦ Nat.find_min h hn
  refine iterate_ne_of_stop hfind hmin hij ?_
  by_contra hlt
  exact hno _ (Nat.lt_of_not_le hlt) hfind

section Finite

variable [Finite α]

theorem exists_stop_lt_card (h : NoReturn f stop x) : ∃ k < Nat.card α, stop (f^[k] x) := by
  by_contra hno
  have hno : ∀ k < Nat.card α, ¬stop (f^[k] x) := fun k hk hstop ↦ hno ⟨k, hk, hstop⟩
  -- one more visit than there are places
  have hinj : Function.Injective fun i : Fin (Nat.card α + 1) ↦ f^[i] x := by
    intro i j heq
    by_contra hne
    have hi := i.isLt
    have hj := j.isLt
    rcases Nat.lt_or_gt_of_ne (Fin.val_ne_of_ne hne) with hlt | hlt
    · exact h i j hlt (fun k hk ↦ hno k (by omega)) heq
    · exact h j i hlt (fun k hk ↦ hno k (by omega)) heq.symm
  have hcard := Nat.card_le_card_of_injective _ hinj
  rw [Nat.card_eq_fintype_card, Fintype.card_fin] at hcard
  omega

/-- **An orbit in a finite set stops exactly when nothing is met twice before.** -/
theorem exists_stop_iff : (∃ k, stop (f^[k] x)) ↔ NoReturn f stop x := by
  refine ⟨noReturn_of_stop, ?_⟩
  intro h
  obtain ⟨k, -, hk⟩ := exists_stop_lt_card h
  exact ⟨k, hk⟩

end Finite

end Orbit

/-! ## Loops -/

namespace Loop

variable {σ β : Type*} {step : σ → σ ⊕ β} {place : σ → α} {s : σ} {n : ℕ}

/-- The loop goes along the orbit of `f` and leaves where it stops. -/
structure Follows (step : σ → σ ⊕ β) (place : σ → α) (f : α → α) (stop : α → Prop) : Prop where
  pass : ∀ s, ¬stop (place s) → ∃ t, step s = .inl t ∧ place t = f (place s)
  exit : ∀ s, stop (place s) → ∃ b, step s = .inr b

theorem Follows.isSome_run_iff (h : Follows step place f stop) :
    (run step n s).isSome ↔ ∃ k ≤ n, stop (f^[k] (place s)) := by
  induction n generalizing s with
  | zero =>
    by_cases hs : stop (place s)
    · obtain ⟨b, hb⟩ := h.exit s hs
      rw [run_of_exit hb]
      exact iff_of_true rfl ⟨0, le_rfl, hs⟩
    · obtain ⟨t, ht, -⟩ := h.pass s hs
      rw [run_zero ht]
      refine iff_of_false (by simp) ?_
      rintro ⟨k, hk, hstop⟩
      obtain rfl := Nat.le_zero.mp hk
      exact hs hstop
  | succ n ih =>
    by_cases hs : stop (place s)
    · obtain ⟨b, hb⟩ := h.exit s hs
      rw [run_of_exit hb]
      exact iff_of_true rfl ⟨0, Nat.zero_le _, hs⟩
    · obtain ⟨t, ht, hplace⟩ := h.pass s hs
      rw [run_succ ht, ih, hplace]
      constructor
      · rintro ⟨k, hk, hstop⟩
        exact ⟨k + 1, by omega, hstop⟩
      · rintro ⟨k, hk, hstop⟩
        cases k with
        | zero => exact absurd hstop hs
        | succ k => exact ⟨k, by omega, hstop⟩

variable [Finite α]

/-- **As many passes as there are places are enough**, for a loop that ends at all. -/
theorem Follows.isSome_run_card_iff (h : Follows step place f stop) (hn : Nat.card α ≤ n) :
    (run step n s).isSome ↔ ∃ k, stop (f^[k] (place s)) := by
  rw [h.isSome_run_iff]
  constructor
  · rintro ⟨k, -, hk⟩
    exact ⟨k, hk⟩
  · intro hstop
    obtain ⟨k, hk, hstop⟩ := Orbit.exists_stop_lt_card (Orbit.noReturn_of_stop hstop)
    exact ⟨k, by omega, hstop⟩

end Loop
