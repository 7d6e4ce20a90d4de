import Mathlib.Logic.Function.Basic
import Sugarcat.Machine.Run

/-!
# Systems of parts

A system whose state is a family of parts, together with a control that says which part each
operation is for. An operation of the system is an operation of one part, and leaves the others as
they are, or it is one of the control alone. `Dispatch` is the assignment of operations to parts,
which may depend on the control and change it: the same operation may be for one part now and for
another part after a switch.

## The parts on their own

`own` filters a run for one part: what it is asked to do, in the order in which it is asked, and
`ownLog` keeps the results as well. `exec_part` says that parts do not interfere. What becomes of a
part, and what its operations result in, is what its own operations make of it alone, whatever the
other parts are asked to do in between.

The proof goes by induction from the right end of the run, as runs unfold there, and the two lemmas
that carry it say how `own` and `ownLog` grow by one operation.
-/

namespace Run

variable {ι C S Op A R : Type*} [DecidableEq ι]

/-- How a control with states `C` hands operations to parts. -/
structure Dispatch (ι C Op A : Type*) where
  /-- The part that an operation is for, with what it is asked to do. -/
  target : C → Op → Option (ι × A)
  next : C → Op → C

namespace Dispatch

variable (D : Dispatch ι C Op A)

/-- The step of the system whose parts take steps by `part`. An operation of the control results
in `r`. -/
def step (part : A → S → R × S) (r : R) (op : Op) (s : C × (ι → S)) : R × (C × (ι → S)) :=
  match D.target s.1 op with
  | some (i, a) =>
    ((part a (s.2 i)).1, (D.next s.1 op, Function.update s.2 i (part a (s.2 i)).2))
  | none => (r, (D.next s.1 op, s.2))

/-- The control after a run. -/
def control (c : C) (ops : List Op) : C := ops.foldl D.next c

/-- What a part is asked to do in a run. -/
def own (i : ι) (c : C) : List Op → List A
  | [] => []
  | op :: ops =>
    match D.target c op with
    | some (j, a) => if j = i then a :: own i (D.next c op) ops else own i (D.next c op) ops
    | none => own i (D.next c op) ops

/-- What a part is asked to do in a run, with the results. -/
def ownLog (i : ι) (c : C) : List (Op × R) → List (A × R)
  | [] => []
  | (op, r) :: log =>
    match D.target c op with
    | some (j, a) =>
      if j = i then (a, r) :: ownLog i (D.next c op) log else ownLog i (D.next c op) log
    | none => ownLog i (D.next c op) log

variable {D} {part : A → S → R × S} {r : R} {s : C × (ι → S)}

theorem own_concat (i : ι) (c : C) (ops : List Op) (op : Op) :
    D.own i c (ops ++ [op]) = D.own i c ops ++
      match D.target (D.control c ops) op with
      | some (j, a) => if j = i then [a] else []
      | none => [] := by
  induction ops generalizing c with
  | nil =>
    rw [List.nil_append, own, own, control, List.foldl_nil]
    cases D.target c op with
    | none => rfl
    | some x => rfl
  | cons o ops ih =>
    rw [List.cons_append, own, own, control, List.foldl_cons, ← control]
    cases D.target c o with
    | none => exact ih _
    | some x =>
      dsimp only
      split_ifs with h
      · rw [ih, List.cons_append]
      · exact ih _

theorem ownLog_concat (i : ι) (c : C) (log : List (Op × R)) (op : Op) (r : R) :
    D.ownLog i c (log ++ [(op, r)]) = D.ownLog i c log ++
      match D.target (D.control c (log.map Prod.fst)) op with
      | some (j, a) => if j = i then [(a, r)] else []
      | none => [] := by
  induction log generalizing c with
  | nil =>
    rw [List.nil_append, ownLog, ownLog, control, List.map_nil, List.foldl_nil]
    cases D.target c op with
    | none => rfl
    | some x => rfl
  | cons o log ih =>
    rw [List.cons_append, ownLog, ownLog, control, List.map_cons, List.foldl_cons, ← control]
    cases D.target c o.1 with
    | none => exact ih _
    | some x =>
      dsimp only
      split_ifs with h
      · rw [ih, List.cons_append]
      · exact ih _

theorem exec_control (ops : List Op) :
    (exec (D.step part r) s ops).2.1 = D.control s.1 ops := by
  induction ops using List.reverseRecOn with
  | nil => rfl
  | append_singleton ops op ih =>
    have hnext : ∀ t : C × (ι → S), (D.step part r op t).2.1 = D.next t.1 op := by
      intro t
      rw [step]
      cases D.target t.1 op <;> rfl
    rw [exec_concat, hnext, ih, control, control, List.foldl_append, List.foldl_cons,
      List.foldl_nil]

/-- **The parts do not interfere.** -/
theorem exec_part (i : ι) (ops : List Op) :
    (D.ownLog i s.1 (exec (D.step part r) s ops).1, (exec (D.step part r) s ops).2.2 i) =
      exec part (s.2 i) (D.own i s.1 ops) := by
  induction ops using List.reverseRecOn with
  | nil => rfl
  | append_singleton ops op ih =>
    have hc : (exec (D.step part r) s ops).2.1 = D.control s.1 ops := exec_control ops
    obtain ⟨hlog, hpart⟩ := Prod.ext_iff.mp ih
    rw [exec_concat, ownLog_concat, own_concat, map_fst_exec, ← hc, step]
    cases htarget : D.target (exec (D.step part r) s ops).2.1 op with
    | none =>
      rw [List.append_nil, List.append_nil]
      exact ih
    | some x =>
      dsimp only at hlog hpart ⊢
      by_cases h : x.1 = i
      · subst h
        rw [if_pos rfl, if_pos rfl, exec_concat, ← hpart, ← hlog, Function.update_self]
      · rw [if_neg h, if_neg h, List.append_nil, List.append_nil,
          Function.update_of_ne (Ne.symm h)]
        exact ih

end Dispatch

end Run
