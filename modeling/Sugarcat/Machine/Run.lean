import Mathlib.Data.List.Induction

/-!
# Runs of a system

A deterministic system is a step function: an operation takes a state to a result and a next state.
`exec` feeds it a finite sequence of operations and keeps a log that pairs each operation with the
result it got.

`lastMatch` is the last entry of a log with a given property, which is how "the last call that
touched this" is said. Both unfold at the end of the sequence, so proofs go by induction from the
right and never rearrange a prefix.

## Labelled steps

Where not every operation is allowed in every state a system is a relation. Three closures of it are
kept apart, as they serve different statements.

* `Reaches` is what finitely many steps do. Its second parameter restricts the operations further,
  by the state in which they are done. Invariants are about `Reaches`.
* `Path` keeps the steps, for properties that are about each of them.
* `Trace` keeps the operations, in their order. It is the one to compare two systems with:
  `Trace.simulate` takes a trace of the one to the same trace of the other, from the simulation of a
  single step.
-/

namespace Run

variable {S Op R : Type*}

/-- Execute `ops` from `s`. -/
def exec (step : Op → S → R × S) (s : S) (ops : List Op) : List (Op × R) × S :=
  ops.foldl (fun acc op ↦ (acc.1 ++ [(op, (step op acc.2).1)], (step op acc.2).2)) ([], s)

variable {step : Op → S → R × S} {s : S}

@[simp] theorem exec_nil : exec step s [] = ([], s) := rfl

theorem exec_concat (ops : List Op) (op : Op) :
    exec step s (ops ++ [op])
      = ((exec step s ops).1 ++ [(op, (step op (exec step s ops).2).1)],
          (step op (exec step s ops).2).2) := by
  rw [exec, List.foldl_append, List.foldl_cons, List.foldl_nil]
  rfl

theorem map_fst_exec (ops : List Op) : (exec step s ops).1.map Prod.fst = ops := by
  induction ops using List.reverseRecOn with
  | nil => rfl
  | append_singleton ops op ih => rw [exec_concat, List.map_append, ih, List.map_singleton]

/-- **The run rule.** A relation between the log and the state that every step preserves holds at
the end of every run. -/
theorem exec_invariant {P : List (Op × R) → S → Prop} (h0 : P [] s)
    (hstep : ∀ log s op, P log s → P (log ++ [(op, (step op s).1)]) (step op s).2)
    (ops : List Op) : P (exec step s ops).1 (exec step s ops).2 := by
  induction ops using List.reverseRecOn with
  | nil => exact h0
  | append_singleton ops op ih =>
    rw [exec_concat]
    exact hstep _ _ op ih

/-! ## The last entry with a property -/

variable {α : Type*}

/-- The last entry of the log that satisfies `p`. -/
def lastMatch (p : α → Bool) (log : List α) : Option α := log.reverse.find? p

@[simp] theorem lastMatch_nil (p : α → Bool) : lastMatch p [] = none := rfl

theorem lastMatch_concat (p : α → Bool) (log : List α) (x : α) :
    lastMatch p (log ++ [x]) = if p x then some x else lastMatch p log := by
  rw [lastMatch, List.reverse_append, List.reverse_singleton, List.singleton_append,
    List.find?_cons, lastMatch]
  cases p x <;> rfl

theorem lastMatch_map {β : Type*} (p : β → Bool) (f : α → β) (log : List α) :
    lastMatch p (log.map f) = (lastMatch (p ∘ f) log).map f := by
  rw [lastMatch, ← List.map_reverse, List.find?_map, lastMatch]

theorem lastMatch_congr {p q : α → Bool} {log : List α} (h : ∀ x ∈ log, p x = q x) :
    lastMatch p log = lastMatch q log := by
  induction log using List.reverseRecOn with
  | nil => rfl
  | append_singleton log x ih =>
    rw [List.forall_mem_append, List.forall_mem_singleton] at h
    rw [lastMatch_concat, lastMatch_concat, h.2, ih h.1]

theorem mem_of_lastMatch {p : α → Bool} {log : List α} {x : α} (h : lastMatch p log = some x) :
    x ∈ log ∧ p x = true :=
  ⟨List.mem_reverse.mp (List.mem_of_find?_eq_some h), List.find?_some h⟩

theorem lastMatch_eq_none_iff {p : α → Bool} {log : List α} :
    lastMatch p log = none ↔ ∀ x ∈ log, p x = false := by
  simp [lastMatch]

/-! ## Labelled steps -/

/-- `t` is reached from `s` by steps whose operation is `ok` in the state before. -/
inductive Reaches (step : S → Op → S → Prop) (ok : S → Op → Prop) (s : S) : S → Prop
  | refl : Reaches step ok s s
  | tail {t u : S} {op : Op} (h : Reaches step ok s t) (hok : ok t op) (hstep : step t op u) :
      Reaches step ok s u

variable {rel : S → Op → S → Prop} {ok : S → Op → Prop} {t : S}

/-- **The invariant rule for runs.** -/
theorem Reaches.invariant {P : S → Prop} (h : Reaches rel ok s t) (h0 : P s)
    (hstep : ∀ t op u, P t → ok t op → rel t op u → P u) : P t := by
  induction h with
  | refl => exact h0
  | tail _ hok hrel ih => exact hstep _ _ _ ih hok hrel

theorem Reaches.mono {ok' : S → Op → Prop} (h : Reaches rel ok s t)
    (hok : ∀ t op, ok t op → ok' t op) : Reaches rel ok' s t := by
  induction h with
  | refl => exact .refl
  | tail _ ht hrel ih => exact .tail ih (hok _ _ ht) hrel

theorem Reaches.trans {u : S} (h : Reaches rel ok s t) (h' : Reaches rel ok t u) :
    Reaches rel ok s u := by
  induction h' with
  | refl => exact h
  | tail _ hok hrel ih => exact .tail ih hok hrel

/-- `ops`, one after the other, lead from `s` to the last state. -/
inductive Trace (step : S → Op → S → Prop) : S → List Op → S → Prop
  | nil (s : S) : Trace step s [] s
  | cons {s t u : S} {op : Op} {ops : List Op} (hstep : step s op t) (h : Trace step t ops u) :
      Trace step s (op :: ops) u

theorem Trace.single {op : Op} (h : rel s op t) : Trace rel s [op] t := .cons h (.nil t)

theorem Trace.append {u : S} {ops ops' : List Op} (h : Trace rel s ops t)
    (h' : Trace rel t ops' u) : Trace rel s (ops ++ ops') u := by
  induction h with
  | nil => exact h'
  | cons hstep _ ih => exact .cons hstep (ih h')

/-- **The rule of simulation.** When every step of the one system is a step of the other with the
same operation, and the states stay related, so is every trace. -/
theorem Trace.simulate {T : Type*} {rel' : T → Op → T → Prop} {R : S → T → Prop}
    (hR : ∀ s s' op t, R s s' → rel s op t → ∃ t', rel' s' op t' ∧ R t t') {ops : List Op} {s' : T}
    (h : Trace rel s ops t) (hs : R s s') : ∃ t', Trace rel' s' ops t' ∧ R t t' := by
  induction h generalizing s' with
  | nil => exact ⟨s', .nil s', hs⟩
  | cons hstep _ ih =>
    obtain ⟨u, hu, hrel⟩ := hR _ _ _ _ hs hstep
    obtain ⟨v, hv, hend⟩ := ih hrel
    exact ⟨v, .cons hu hv, hend⟩

/-- `steps` lead from `s` to the last state, each with the states before and after it. -/
inductive Path (step : S → Op → S → Prop) : S → List (S × Op × S) → S → Prop
  | nil (s : S) : Path step s [] s
  | cons {s t u : S} {op : Op} {steps : List (S × Op × S)} (hstep : step s op t)
      (h : Path step t steps u) : Path step s ((s, op, t) :: steps) u

/-- A property of each step of a path can be read through the step relation. -/
theorem Path.forall_iff {steps : List (S × Op × S)} {p q : S → Op → S → Prop}
    (h : Path rel s steps t) (hpq : ∀ a op b, rel a op b → (p a op b ↔ q a op b)) :
    (∀ x ∈ steps, p x.1 x.2.1 x.2.2) ↔ ∀ x ∈ steps, q x.1 x.2.1 x.2.2 := by
  induction h with
  | nil => simp
  | cons hstep _ ih => rw [List.forall_mem_cons, List.forall_mem_cons, hpq _ _ _ hstep, ih]

end Run
