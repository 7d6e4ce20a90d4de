import Mathlib.Data.List.Nodup
import Mathlib.Tactic.Common

/-!
# Iterating to a stop

Lists in C are walked by a function that gives the next element, up to a stop value such as `NULL`.
`Iterates stop next x xs` says that the walk from `x` meets the elements `xs` and then the stop. The
function may also fail to return.

A walk that ends is determined by where it starts. So the walk from an element that it meets is the
rest of it (`suffix`), and it meets no element twice: an element met again would have to be followed
by two suffixes of different lengths. `exists_of_measure` is the way to show that a walk ends at
all, by a number that decreases along it.
-/

variable {α : Type*}

/-- The walk from `x` on meets `xs`, and then `stop`. -/
inductive Iterates (stop : α) (next : α → Option α) : α → List α → Prop
  | nil : Iterates stop next stop []
  | cons {x y : α} {xs : List α} (hne : x ≠ stop) (hnext : next x = some y)
      (htail : Iterates stop next y xs) : Iterates stop next x (x :: xs)

namespace Iterates

variable {stop x y : α} {next : α → Option α} {xs ys l r : List α}

theorem unique (h : Iterates stop next x xs) (h' : Iterates stop next x ys) : xs = ys := by
  induction h generalizing ys with
  | nil =>
    cases h' with
    | nil => rfl
    | cons hne _ _ => exact absurd rfl hne
  | cons hne hnext _ ih =>
    cases h' with
    | nil => exact absurd rfl hne
    | cons _ hnext' htail =>
      obtain rfl := Option.some_inj.mp (hnext.symm.trans hnext')
      rw [ih htail]

theorem head_eq (h : Iterates stop next x (y :: ys)) : x = y := by
  cases h
  rfl

/-- The walk from an element it meets is the rest of it. -/
theorem suffix (h : Iterates stop next x (l ++ y :: r)) : Iterates stop next y (y :: r) := by
  induction l generalizing x with
  | nil =>
    cases h with
    | cons hne hnext htail => exact .cons hne hnext htail
  | cons z l ih =>
    cases h with
    | cons _ _ htail => exact ih htail

theorem nodup (h : Iterates stop next x xs) : xs.Nodup := by
  induction h with
  | nil => exact List.nodup_nil
  | @cons x y xs hne hnext htail ih =>
    refine List.nodup_cons.mpr ⟨fun hmem ↦ ?_, ih⟩
    -- from the second visit on, the walk would be as long as from the first
    obtain ⟨l, r, rfl⟩ := List.append_of_mem hmem
    have hwhole := (Iterates.cons hne hnext htail).unique htail.suffix
    have hlen := congrArg List.length hwhole
    simp only [List.length_cons, List.length_append] at hlen
    omega

/-- A walk that a measure decreases along comes to the stop. -/
theorem exists_of_measure {I : α → Prop} (μ : α → ℕ)
    (hstep : ∀ x, I x → x ≠ stop → ∃ y, next x = some y ∧ I y ∧ μ y < μ x) {x : α} (hx : I x) :
    ∃ xs, Iterates stop next x xs := by
  induction hn : μ x using Nat.strongRecOn generalizing x with
  | _ n ih =>
    by_cases hstop : x = stop
    · exact ⟨[], hstop ▸ .nil⟩
    obtain ⟨y, hnext, hy, hlt⟩ := hstep x hx hstop
    obtain ⟨xs, hxs⟩ := ih (μ y) (hn ▸ hlt) hy rfl
    exact ⟨x :: xs, .cons hstop hnext hxs⟩

end Iterates
