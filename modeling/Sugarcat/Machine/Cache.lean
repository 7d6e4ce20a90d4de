import Mathlib.Logic.Function.Basic
import Sugarcat.Machine.Run

/-!
# Caches beside a system

Something is looked up in the states of a system, by keys, and a cache keeps what was found. It may
look a key up, or forget it, at any time, and it loses everything when an operation flushes it. The
cache is not told when the state changes under it, so what it holds may be stale.

## What a cache may hold

`Cached` is the system with its lookup and the operations that flush, and `Holds` collects every
content that a cache can have after some operations, whatever it chose to look up and to forget in
between. Stating it so leaves the policy of the cache open: a theorem about all `Holds` is true of
every cache, with any size and any way of replacing its entries.

## When it cannot be wrong

What is held was found at some time since the last flush (`Holds.exists_found`), and whatever was
found since then may be held (`exists_holds_of_found`). `accurate_iff` follows: a cache is never
wrong about a key exactly when everything found under that key since the last flush is what is found
now. The condition is about the system alone.
-/

namespace Run

variable {S Op R K V : Type*}

/-- A system in which keys are looked up. -/
structure Cached (S Op R K V : Type*) where
  step : Op → S → R × S
  view : S → K → Option V
  flushes : Op → S → Prop

namespace Cached

variable (C : Cached S Op R K V)

/-- The state after some operations. -/
def after (s : S) (ops : List Op) : S := (exec C.step s ops).2

/-- None of the operations `post`, which come after `pre`, flushes the cache. -/
def Quiet (s : S) (pre post : List Op) : Prop :=
  ∀ l op r, post = l ++ op :: r → ¬C.flushes op (C.after s (pre ++ l))

/-- What a cache that was empty at first may hold after some operations. -/
inductive Holds [DecidableEq K] (s : S) : List Op → (K → Option V) → Prop
  | empty : Holds s [] fun _ ↦ none
  | fill {ops : List Op} {c : K → Option V} {k : K} {x : V} (h : Holds s ops c)
      (hx : C.view (C.after s ops) k = some x) : Holds s ops (Function.update c k (some x))
  | evict {ops : List Op} {c : K → Option V} (h : Holds s ops c) (k : K) :
      Holds s ops (Function.update c k none)
  | keep {ops : List Op} {c : K → Option V} {op : Op} (h : Holds s ops c)
      (hop : ¬C.flushes op (C.after s ops)) : Holds s (ops ++ [op]) c
  | flush {ops : List Op} {c : K → Option V} {op : Op} (h : Holds s ops c)
      (hop : C.flushes op (C.after s ops)) : Holds s (ops ++ [op]) fun _ ↦ none

variable {C} {s : S} {ops pre post : List Op} {op : Op} {k : K} {x : V}

theorem quiet_nil (C : Cached S Op R K V) (s : S) (pre : List Op) : C.Quiet s pre [] := by
  intro l op r h
  simp at h

theorem quiet_concat :
    C.Quiet s pre (post ++ [op]) ↔
      C.Quiet s pre post ∧ ¬C.flushes op (C.after s (pre ++ post)) := by
  constructor
  · refine fun h ↦ ⟨?_, h post op [] rfl⟩
    rintro l o r rfl
    exact h l o (r ++ [op]) (by simp)
  · rintro ⟨hpost, hop⟩ l o r heq
    rcases List.eq_nil_or_concat r with rfl | ⟨r, last, rfl⟩
    · obtain ⟨rfl, hlast⟩ := List.append_inj' heq rfl
      rwa [← List.singleton_inj.mp hlast]
    · rw [List.concat_eq_append] at heq
      have hsplit : post ++ [op] = (l ++ o :: r) ++ [last] := by simpa using heq
      exact hpost l o r (List.append_inj' hsplit rfl).1

variable [DecidableEq K]

/-- What is held was found since the last flush. -/
theorem Holds.exists_found {c : K → Option V} (h : C.Holds s ops c) (hk : c k = some x) :
    ∃ pre post, ops = pre ++ post ∧ C.Quiet s pre post ∧ C.view (C.after s pre) k = some x := by
  induction h with
  | empty => simp at hk
  | @fill ops c k' x' _ hx ih =>
    by_cases hkk : k = k'
    · subst hkk
      rw [Function.update_self, Option.some_inj] at hk
      exact ⟨ops, [], (List.append_nil ops).symm, C.quiet_nil s ops, hk ▸ hx⟩
    · rw [Function.update_of_ne hkk] at hk
      exact ih hk
  | evict _ k' ih =>
    by_cases hkk : k = k'
    · rw [hkk, Function.update_self] at hk
      exact absurd hk (Option.some_ne_none x).symm
    · rw [Function.update_of_ne hkk] at hk
      exact ih hk
  | @keep ops c op _ hop ih =>
    obtain ⟨pre, post, rfl, hquiet, hx⟩ := ih hk
    exact ⟨pre, post ++ [op], List.append_assoc _ _ _, quiet_concat.mpr ⟨hquiet, hop⟩, hx⟩
  | flush => simp at hk

theorem exists_holds (C : Cached S Op R K V) (s : S) (ops : List Op) : ∃ c, C.Holds s ops c := by
  induction ops using List.reverseRecOn with
  | nil => exact ⟨_, .empty⟩
  | append_singleton ops op ih =>
    obtain ⟨c, hc⟩ := ih
    by_cases hop : C.flushes op (C.after s ops)
    · exact ⟨_, .flush hc hop⟩
    · exact ⟨_, .keep hc hop⟩

/-- What was found since the last flush may be held. -/
theorem exists_holds_of_found (hquiet : C.Quiet s pre post)
    (hx : C.view (C.after s pre) k = some x) : ∃ c, C.Holds s (pre ++ post) c ∧ c k = some x := by
  induction post using List.reverseRecOn with
  | nil =>
    obtain ⟨c, hc⟩ := C.exists_holds s pre
    rw [List.append_nil]
    exact ⟨_, .fill hc hx, Function.update_self ..⟩
  | append_singleton post op ih =>
    obtain ⟨hpost, hop⟩ := quiet_concat.mp hquiet
    obtain ⟨c, hc, hk⟩ := ih hpost
    rw [← List.append_assoc]
    exact ⟨c, .keep hc hop, hk⟩

/-- **When a cache cannot be wrong about a key.** -/
theorem accurate_iff (C : Cached S Op R K V) (s : S) (ops : List Op) (k : K) :
    (∀ c, C.Holds s ops c → ∀ x, c k = some x → C.view (C.after s ops) k = some x) ↔
      ∀ pre post, ops = pre ++ post → C.Quiet s pre post →
        ∀ x, C.view (C.after s pre) k = some x → C.view (C.after s ops) k = some x := by
  constructor
  · rintro h pre post rfl hquiet x hx
    obtain ⟨c, hc, hk⟩ := exists_holds_of_found hquiet hx
    exact h c hc x hk
  · intro h c hc x hk
    obtain ⟨pre, post, hops, hquiet, hx⟩ := hc.exists_found hk
    exact h pre post hops hquiet x hx

end Cached

end Run
