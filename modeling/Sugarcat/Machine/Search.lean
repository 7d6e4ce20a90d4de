import Sugarcat.Machine.Iteration
import Sugarcat.Machine.Loop

/-!
# Searching along a walk

`searchStep` is the loop that goes from element to element as long as `go` holds, and leaves with
the first hit, or with `null`. To test an element, or to go on from it, may fail to return.

## What a search finds

Where all of that returns, a search is `List.find?` on the elements met: `Walk.run_searchStep` is by
induction on the walk. Nothing is assumed there about the elements beyond the hit. Over a structure
that is not known to be well formed one can still say that a search ends, by a measure
(`exists_join_run_searchStep`), and that what it returns is where it was in its last pass
(`eq_or_visits_of_searchStep`), so a property of every element visited holds of the result.

## A weaker test

A program may test less than it should, and still find the right element. `FirstIs p q` says that
whatever passes the weaker test `q` fails to pass `p` only after something that passes `p`. That is
exactly when the two tests find the same (`find?_eq_find?_iff`).
-/

variable {α β : Type*}

/-- The walk from `x` meets the elements `xs` and comes to `y`. -/
inductive Walk (next : α → Option α) : α → List α → α → Prop
  | nil (x : α) : Walk next x [] x
  | cons {x y z : α} {xs : List α} (hnext : next x = some y) (htail : Walk next y xs z) :
      Walk next x (x :: xs) z

/-- One pass of a search. -/
def searchStep (null : α) (go : α → Bool) (hit : α → Option Bool) (next : α → Option α) (x : α) :
    α ⊕ Option α :=
  if go x then
    match hit x with
    | none => .inr none
    | some true => .inr (some x)
    | some false =>
      match next x with
      | none => .inr none
      | some y => .inl y
  else .inr (some null)

variable {null x y z : α} {go : α → Bool} {hit : α → Option Bool} {next : α → Option α}
  {xs ys : List α}

/-! ## Walks -/

theorem Iterates.walk (h : Iterates null next x xs) : Walk next x xs null := by
  induction h with
  | nil => exact .nil null
  | cons _ hnext _ ih => exact .cons hnext ih

theorem Iterates.ne_stop (h : Iterates null next x xs) (hz : z ∈ xs) : z ≠ null := by
  induction h with
  | nil => exact absurd hz List.not_mem_nil
  | cons hne _ _ ih =>
    rcases List.mem_cons.mp hz with rfl | hz
    · exact hne
    · exact ih hz

/-! ## Searches -/

theorem searchStep_of_not_go (h : go x = false) :
    searchStep null go hit next x = .inr (some null) := by
  rw [searchStep, if_neg (by simp [h])]

theorem searchStep_of_hit (h : go x = true) (hx : hit x = some true) :
    searchStep null go hit next x = .inr (some x) := by
  rw [searchStep, if_pos h, hx]

theorem searchStep_of_next (h : go x = true) (hx : hit x = some false) (hy : next x = some y) :
    searchStep null go hit next x = .inl y := by
  rw [searchStep, if_pos h, hx, hy]

theorem next_of_searchStep (h : searchStep null go hit next x = .inl y) : next x = some y := by
  rw [searchStep] at h
  split_ifs at h
  split at h <;> try exact absurd h (by simp)
  split at h
  · exact absurd h (by simp)
  · rw [← Sum.inl.inj h]
    assumption

theorem isSome_of_searchStep {r : Option α} (hhit : ∀ x, (hit x).isSome)
    (hnext : ∀ x, (next x).isSome) (h : searchStep null go hit next x = .inr r) : r.isSome := by
  obtain ⟨b, hb⟩ := Option.isSome_iff_exists.mp (hhit x)
  obtain ⟨y, hy⟩ := Option.isSome_iff_exists.mp (hnext x)
  cases hgo : go x with
  | false => exact Sum.inr.inj ((searchStep_of_not_go hgo).symm.trans h) ▸ rfl
  | true =>
    cases b with
    | true => exact Sum.inr.inj ((searchStep_of_hit hgo hb).symm.trans h) ▸ rfl
    | false => exact absurd ((searchStep_of_next hgo hb hy).symm.trans h) (by simp)

/-- **A search finds the first hit.** -/
theorem Walk.run_searchStep (h : Walk next x xs y) (hgo : ∀ z ∈ xs, go z = true)
    (hhit : ∀ z ∈ xs, (hit z).isSome) (hy : go y = false) :
    Loop.run (searchStep null go hit next) xs.length x
      = some (some ((xs.find? (hit · == some true)).getD null)) := by
  induction h with
  | nil => exact Loop.run_of_exit (searchStep_of_not_go hy) _
  | @cons x y z xs hnext _ ih =>
    rw [List.forall_mem_cons] at hgo hhit
    obtain ⟨b, hb⟩ := Option.isSome_iff_exists.mp hhit.1
    cases b with
    | true =>
      rw [Loop.run_of_exit (searchStep_of_hit hgo.1 hb), List.find?_cons_of_pos (by simp [hb]),
        Option.getD_some]
    | false =>
      rw [List.length_cons, Loop.run_succ (searchStep_of_next hgo.1 hb hnext),
        ih hgo.2 hhit.2 hy, List.find?_cons_of_neg (by simp [hb])]

/-- A search returns where a measure decreases along the walk. -/
theorem exists_join_run_searchStep {I : α → Prop} (μ : α → ℕ)
    (hstep : ∀ x, I x → go x = true →
      (∃ b, hit x = some b) ∧ ∃ y, next x = some y ∧ I y ∧ μ y < μ x)
    (hx : I x) {n : ℕ} (hn : μ x ≤ n) :
    ∃ y, (Loop.run (searchStep null go hit next) n x).join = some y := by
  refine Loop.exists_join_run μ (fun x hI ↦ ?_) hx hn
  cases hgo : go x with
  | false => exact Or.inl ⟨null, searchStep_of_not_go hgo⟩
  | true =>
    obtain ⟨⟨b, hb⟩, y, hy, hI', hlt⟩ := hstep x hI hgo
    cases b with
    | true => exact Or.inl ⟨x, searchStep_of_hit hgo hb⟩
    | false => exact Or.inr ⟨y, searchStep_of_next hgo hb hy, hI', hlt⟩

/-- What a search returns is where it was in its last pass, or `null`. -/
theorem eq_or_visits_of_searchStep {n : ℕ}
    (h : (Loop.run (searchStep null go hit next) n x).join = some y) :
    y = null ∨ Loop.Visits (searchStep null go hit next) x y := by
  obtain ⟨r, hr⟩ : ∃ r, Loop.run (searchStep null go hit next) n x = some r := by
    cases hrun : Loop.run (searchStep null go hit next) n x with
    | none =>
      rw [hrun] at h
      exact absurd h (by simp)
    | some r => exact ⟨r, rfl⟩
  rw [hr, Option.join_some] at h
  subst h
  refine Loop.run_invariant (I := Loop.Visits (searchStep null go hit next) x)
    (P := fun r ↦ ∀ y, r = some y → y = null ∨ Loop.Visits (searchStep null go hit next) x y)
    (fun s t hs hst ↦ hs.tail hst) (fun s r hs hexit y hy ↦ ?_) .refl hr y rfl
  subst hy
  rw [searchStep] at hexit
  split_ifs at hexit
  · split at hexit
    · exact absurd hexit (by simp)
    · rw [← Option.some.inj (Sum.inr.inj hexit)]
      exact Or.inr hs
    · split at hexit <;> exact absurd hexit (by simp)
  · exact Or.inl (Option.some.inj (Sum.inr.inj hexit)).symm

/-! ## A weaker test -/

/-- An element that passes `q` passes `p`, or comes after one that does. -/
def FirstIs (p q : α → Prop) (xs : List α) : Prop :=
  ∀ l x r, xs = l ++ x :: r → q x → p x ∨ ∃ y ∈ l, p y

section Weaker

variable {p q : α → Prop}

theorem firstIs_cons : FirstIs p q (x :: xs) ↔ p x ∨ ¬q x ∧ FirstIs p q xs := by
  constructor
  · intro h
    by_cases hp : p x
    · exact Or.inl hp
    refine Or.inr ⟨fun hq ↦ ?_, fun l z r heq hq ↦ ?_⟩
    · rcases h [] x xs rfl hq with hp' | ⟨y, hy, -⟩
      · exact hp hp'
      · exact absurd hy List.not_mem_nil
    · rcases h (x :: l) z r (by rw [heq, List.cons_append]) hq with hz | ⟨y, hy, hpy⟩
      · exact Or.inl hz
      · rcases List.mem_cons.mp hy with rfl | hy
        · exact absurd hpy hp
        · exact Or.inr ⟨y, hy, hpy⟩
  · rintro h (_ | ⟨y, l⟩) z r heq hq
    · obtain ⟨rfl, -⟩ := List.cons.inj heq
      exact Or.inl (h.resolve_right fun h ↦ h.1 hq)
    · obtain ⟨rfl, rfl⟩ := List.cons.inj heq
      rcases h with hp | ⟨-, h⟩
      · exact Or.inr ⟨x, List.mem_cons_self, hp⟩
      · rcases h l z r rfl hq with hz | ⟨y, hy, hpy⟩
        · exact Or.inl hz
        · exact Or.inr ⟨y, List.mem_cons_of_mem _ hy, hpy⟩

variable [DecidablePred p] [DecidablePred q]

/-- Two tests, the first of them stronger, find the same exactly when what passes only the weaker
one is late. -/
theorem find?_eq_find?_iff (hpq : ∀ x, p x → q x) (xs : List α) :
    xs.find? (fun x ↦ decide (q x)) = xs.find? (fun x ↦ decide (p x)) ↔ FirstIs p q xs := by
  induction xs with
  | nil => exact iff_of_true rfl fun l x r h ↦ absurd h (by simp)
  | cons x xs ih =>
    rw [firstIs_cons]
    by_cases hp : p x
    · rw [List.find?_cons_of_pos (by simp [hpq x hp]), List.find?_cons_of_pos (by simp [hp])]
      exact iff_of_true rfl (Or.inl hp)
    by_cases hq : q x
    · rw [List.find?_cons_of_pos (by simp [hq])]
      refine iff_of_false (fun h ↦ ?_) (by simp [hp, hq])
      have hx := List.find?_some h.symm
      exact hp (of_decide_eq_true hx)
    · rw [List.find?_cons_of_neg (by simp [hq]), List.find?_cons_of_neg (by simp [hp]), ih]
      simp [hp, hq]

theorem map_find?_eq_iff {f : α → β} {null : β} (hnull : ∀ x ∈ xs, f x ≠ null)
    (hnodup : (xs.map f).Nodup) (hpq : ∀ x, p x → q x) :
    ((xs.find? fun x ↦ decide (q x)).map f).getD null
        = ((xs.find? fun x ↦ decide (p x)).map f).getD null
      ↔ FirstIs p q xs := by
  rw [← find?_eq_find?_iff hpq]
  refine ⟨?_, fun h ↦ by rw [h]⟩
  intro h
  cases hq : xs.find? fun x ↦ decide (q x) with
  | none =>
    cases hp : xs.find? fun x ↦ decide (p x) with
    | none => rfl
    | some y =>
      rw [hq, hp] at h
      exact absurd h.symm (hnull y (List.mem_of_find?_eq_some hp))
  | some x =>
    have hx := List.mem_of_find?_eq_some hq
    cases hp : xs.find? fun x ↦ decide (p x) with
    | none =>
      rw [hq, hp] at h
      exact absurd h (hnull x hx)
    | some y =>
      rw [hq, hp] at h
      rw [List.inj_on_of_nodup_map hnodup hx (List.mem_of_find?_eq_some hp) h]

end Weaker
