import Mathlib.Data.Nat.Notation
import Mathlib.Logic.Relation
import Mathlib.Tactic.Common

/-!
# Loops of imperative programs

Two shapes of loop and the rules one reasons with.

## Unbounded loops

`run` is the unbounded loop. One pass is a function `step : σ → σ ⊕ β`: it either goes on in a new
state or leaves the loop with a result. The number of passes is bounded by a fuel argument, and
`none` means that the bound was too small; `Diverges` says that every bound is.

Fuel is monotone, so the result of a loop does not depend on the bound once there is one. With that
there are three rules. The invariant rule is about the result, if there is one. The termination rule
bounds the number of passes by a measure, and `exists_join_run` is its form for a pass that may
itself fail to return. The divergence rule needs no measure: a set of states that every pass stays
inside is never left.

## Counted loops

`upTo` and `upToOk` are the counted loops. They are indexed by the number of passes already made, so
an invariant is a predicate on that number and the state, and no separate counter is carried. The
second one stops at the first pass that reports an error, as loops over calls that can fail do.
-/

namespace Loop

variable {σ β ε : Type*}

/-! ## Unbounded loops -/

/-- Run the loop from `s` with at most `n` passes through its body. -/
def run (step : σ → σ ⊕ β) : ℕ → σ → Option β
  | 0, s => (step s).elim (fun _ ↦ none) some
  | n + 1, s => (step s).elim (run step n) some

/-- The loop never leaves its body, however long it runs. -/
def Diverges (step : σ → σ ⊕ β) (s : σ) : Prop := ∀ n, run step n s = none

/-- The loop that is entered in `s` comes to a pass in `t`. -/
def Visits (step : σ → σ ⊕ β) : σ → σ → Prop := Relation.ReflTransGen fun s t ↦ step s = .inl t

variable {step : σ → σ ⊕ β} {s s' : σ} {b : β} {n k : ℕ}

theorem run_of_exit (h : step s = .inr b) (n : ℕ) : run step n s = some b := by
  cases n <;> simp [run, h]

theorem run_succ (h : step s = .inl s') (n : ℕ) : run step (n + 1) s = run step n s' := by
  simp [run, h]

theorem run_zero (h : step s = .inl s') : run step 0 s = none := by simp [run, h]

theorem run_mono (hnk : n ≤ k) (h : run step n s = some b) : run step k s = some b := by
  induction n generalizing s k with
  | zero =>
    cases hs : step s with
    | inl s' => rw [run_zero hs] at h; exact absurd h (by simp)
    | inr c =>
      rw [run_of_exit hs] at h
      rw [run_of_exit hs, h]
  | succ n ih =>
    cases hs : step s with
    | inl s' =>
      obtain ⟨k, rfl⟩ : ∃ j, k = j + 1 := ⟨k - 1, by omega⟩
      rw [run_succ hs] at h ⊢
      exact ih (by omega) h
    | inr c =>
      rw [run_of_exit hs] at h
      rw [run_of_exit hs, h]

/-- Two loops whose passes agree wherever the first one comes to have the same result. -/
theorem run_congr {step' : σ → σ ⊕ β} (h : ∀ t, Visits step s t → step' t = step t) (n : ℕ) :
    run step' n s = run step n s := by
  have hs : step' s = step s := h s .refl
  induction n generalizing s with
  | zero => rw [run, run, hs]
  | succ n ih =>
    rw [run, run, hs]
    cases hst : step s with
    | inl s' =>
      have hrest : ∀ t, Visits step s' t → step' t = step t := fun t ht ↦ h t (ht.head hst)
      exact ih hrest (hrest s' .refl)
    | inr b => rfl

/-- **The invariant rule.** What every pass preserves and every exit turns into `P` holds of the
result. -/
theorem run_invariant {I : σ → Prop} {P : β → Prop}
    (hpass : ∀ s s', I s → step s = .inl s' → I s')
    (hexit : ∀ s b, I s → step s = .inr b → P b) (hs : I s) (h : run step n s = some b) :
    P b := by
  induction n generalizing s with
  | zero =>
    cases hst : step s with
    | inl s' => rw [run_zero hst] at h; exact absurd h (by simp)
    | inr c =>
      rw [run_of_exit hst, Option.some_inj] at h
      exact h ▸ hexit s c hs hst
  | succ n ih =>
    cases hst : step s with
    | inl s' =>
      rw [run_succ hst] at h
      exact ih (hpass s s' hs hst) h
    | inr c =>
      rw [run_of_exit hst, Option.some_inj] at h
      exact h ▸ hexit s c hs hst

/-- **The termination rule.** A measure that every pass decreases bounds the number of passes. -/
theorem exists_run_of_measure {I : σ → Prop} (μ : σ → ℕ)
    (hpass : ∀ s s', I s → step s = .inl s' → I s' ∧ μ s' < μ s) (hs : I s)
    (hn : μ s ≤ n) : ∃ b, run step n s = some b := by
  induction n generalizing s with
  | zero =>
    cases hst : step s with
    | inl s' => exact absurd (hpass s s' hs hst).2 (by omega)
    | inr c => exact ⟨c, run_of_exit hst 0⟩
  | succ n ih =>
    cases hst : step s with
    | inl s' =>
      obtain ⟨hs', hlt⟩ := hpass s s' hs hst
      rw [run_succ hst]
      exact ih hs' (by omega)
    | inr c => exact ⟨c, run_of_exit hst (n + 1)⟩

/-- The termination rule where a pass may also fail to return, which is the result `none`. -/
theorem exists_join_run {step : σ → σ ⊕ Option β} {I : σ → Prop} (μ : σ → ℕ)
    (hpass : ∀ s, I s →
      (∃ b, step s = .inr (some b)) ∨ ∃ s', step s = .inl s' ∧ I s' ∧ μ s' < μ s)
    {s : σ} (hs : I s) (hn : μ s ≤ n) : ∃ b, (run step n s).join = some b := by
  have hgo : ∀ s s', I s → step s = .inl s' → I s' ∧ μ s' < μ s := by
    intro s s' hI hst
    obtain ⟨b, hb⟩ | ⟨t, ht, hI', hlt⟩ := hpass s hI
    · exact absurd (hst.symm.trans hb) (by simp)
    · obtain rfl := Sum.inl.inj (hst.symm.trans ht)
      exact ⟨hI', hlt⟩
  have hexit : ∀ s r, I s → step s = .inr r → ∃ b, r = some b := by
    intro s r hI hst
    obtain ⟨b, hb⟩ | ⟨t, ht, -⟩ := hpass s hI
    · exact ⟨b, Sum.inr.inj (hst.symm.trans hb)⟩
    · exact absurd (hst.symm.trans ht) (by simp)
  obtain ⟨r, hr⟩ := exists_run_of_measure μ hgo hs hn
  obtain ⟨b, rfl⟩ := run_invariant (fun s s' hI hst ↦ (hgo s s' hI hst).1) hexit hs hr
  exact ⟨b, by rw [hr, Option.join_some]⟩

/-- **The divergence rule.** A set of states that every pass stays inside is never left. -/
theorem diverges_of_invariant {I : σ → Prop}
    (hpass : ∀ s, I s → ∃ s', step s = .inl s' ∧ I s') (hs : I s) : Diverges step s := by
  intro n
  induction n generalizing s with
  | zero =>
    obtain ⟨s', hst, -⟩ := hpass s hs
    exact run_zero hst
  | succ n ih =>
    obtain ⟨s', hst, hs'⟩ := hpass s hs
    rw [run_succ hst]
    exact ih hs'

/-! ## Counted loops -/

/-- The state after `n` passes of a loop whose body sees the index of the pass. -/
def upTo (body : ℕ → σ → σ) : ℕ → σ → σ
  | 0, s => s
  | n + 1, s => body n (upTo body n s)

@[simp] theorem upTo_zero (body : ℕ → σ → σ) (s : σ) : upTo body 0 s = s := rfl

theorem upTo_succ (body : ℕ → σ → σ) (n : ℕ) (s : σ) :
    upTo body (n + 1) s = body n (upTo body n s) := rfl

/-- The outcome after `n` passes of a loop that stops at the first pass whose code is not `ok`. -/
def upToOk [DecidableEq ε] (ok : ε) (body : ℕ → σ → ε × σ) : ℕ → σ → ε × σ
  | 0, s => (ok, s)
  | n + 1, s =>
    if (upToOk ok body n s).1 = ok then body n (upToOk ok body n s).2 else upToOk ok body n s

end Loop
