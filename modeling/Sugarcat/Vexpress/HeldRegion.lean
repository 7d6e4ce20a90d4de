import Sugarcat.Vexpress.Layout

/-!
# Holding on to the largest region

The loop of `init_get_mem_atag` holds one region. One that begins where it ends is put to it, a
larger one takes its place, and any other is passed over. It never goes back to a region it has
passed over or put aside.

So what is held is what one region, that overtook all before it, has grown to with those that follow
it in turn. `held_eq_some_iff` says this of any sequence of regions, in terms of the regions alone.

## Growing and overtaking

`GrowsTo` is what happens to a region that is held, one region at a time: the next one is put to it,
or passed over because it is not larger. A region overtakes those before it if, whichever of them
overtook in its turn, it is larger than what that one has grown to and does not follow it.
`Overtakes` says so by recursion on how many regions come before.

The ends of regions are computed as words, so a region at 0 follows one that ends with the address
space. The definitions here compute them in the same way, and whether that can happen is asked where
the regions come from.
-/

namespace Sugarcat

open ByteMemory

/-- The body of the loop of `init_get_mem_atag`. -/
def memAtagBody (fnd r : MmReg) : MmReg :=
  if fnd.base + fnd.size = r.base then ⟨fnd.base, fnd.size + r.size⟩
  else if fnd.size < r.size then r
  else fnd

/-- What is held after the regions. -/
def held : List MmReg → Option MmReg
  | [] => none
  | r :: rs => some (rs.foldl memAtagBody r)

/-- The region `c` grows to `d` along the regions: those that begin where it ends are put to it, and
no other one is larger than it is by then. -/
inductive GrowsTo : MmReg → List MmReg → MmReg → Prop
  | nil (c : MmReg) : GrowsTo c [] c
  | take {c r d : MmReg} {rs : List MmReg} (hnext : r.base = c.base + c.size)
      (h : GrowsTo ⟨c.base, c.size + r.size⟩ rs d) : GrowsTo c (r :: rs) d
  | skip {c r d : MmReg} {rs : List MmReg} (hnext : r.base ≠ c.base + c.size)
      (hsize : r.size ≤ c.size) (h : GrowsTo c rs d) : GrowsTo c (r :: rs) d

/-- `r` comes after the regions `rs` and overtakes them: it is larger than what any of them that
overtook in turn has grown to, and does not begin where that ends. -/
def Overtakes (rs : List MmReg) (r : MmReg) : Prop :=
  ∀ p q : List MmReg, ∀ i d : MmReg, ∀ _ : rs = p ++ i :: q, Overtakes p i → GrowsTo i q d →
    d.size < r.size ∧ r.base ≠ d.base + d.size
termination_by rs.length
decreasing_by
  subst_vars
  simp

variable {c d i r : MmReg} {p q rs : List MmReg}

/-! ## One region more -/

theorem held_concat (rs : List MmReg) (r : MmReg) :
    held (rs ++ [r]) = some ((held rs).elim r (memAtagBody · r)) := by
  cases rs with
  | nil => rfl
  | cons s rs =>
    rw [List.cons_append, held, held, List.foldl_append]
    rfl

theorem held_append (p q : List MmReg) (i : MmReg) :
    held (p ++ i :: q) = some (q.foldl memAtagBody ((held p).elim i (memAtagBody · i))) := by
  cases p with
  | nil => rfl
  | cons s p =>
    rw [List.cons_append, held, held, List.foldl_append, List.foldl_cons]
    rfl

theorem GrowsTo.concat_take (h : GrowsTo c rs d) (hnext : r.base = d.base + d.size) :
    GrowsTo c (rs ++ [r]) ⟨d.base, d.size + r.size⟩ := by
  induction h with
  | nil c => exact .take hnext (.nil _)
  | take hr _ ih => exact .take hr (ih hnext)
  | skip hr hle _ ih => exact .skip hr hle (ih hnext)

theorem GrowsTo.concat_skip (h : GrowsTo c rs d) (hnext : r.base ≠ d.base + d.size)
    (hsize : r.size ≤ d.size) : GrowsTo c (rs ++ [r]) d := by
  induction h with
  | nil c => exact .skip hnext hsize (.nil _)
  | take hr _ ih => exact .take hr (ih hnext hsize)
  | skip hr hle _ ih => exact .skip hr hle (ih hnext hsize)

theorem GrowsTo.foldl_eq (h : GrowsTo c rs d) : rs.foldl memAtagBody c = d := by
  induction h with
  | nil => rfl
  | take hnext _ ih => rw [List.foldl_cons, memAtagBody, if_pos hnext.symm, ih]
  | skip hnext hsize _ ih =>
    rw [List.foldl_cons, memAtagBody, if_neg (Ne.symm hnext), if_neg (BitVec.not_lt.mpr hsize), ih]

/-! ## The history of what is held -/

/-- Where what is held is known, a region overtakes if it is larger and does not follow. -/
theorem overtakes_iff_of_held (h : ∀ d, held rs = some d ↔
      ∃ p i q, rs = p ++ i :: q ∧ Overtakes p i ∧ GrowsTo i q d) :
    Overtakes rs r ↔ ∀ d, held rs = some d → d.size < r.size ∧ r.base ≠ d.base + d.size := by
  rw [Overtakes]
  constructor
  · intro hr d hd
    obtain ⟨p, i, q, heq, hi, hgrow⟩ := (h d).mp hd
    exact hr p q i d heq hi hgrow
  · intro hr p q i d heq hi hgrow
    exact hr d ((h d).mpr ⟨p, i, q, heq, hi, hgrow⟩)

/-- **What is held has grown from the last region that overtook all before it.** -/
theorem held_eq_some_iff :
    held rs = some d ↔ ∃ p i q, rs = p ++ i :: q ∧ Overtakes p i ∧ GrowsTo i q d := by
  induction hn : rs.length using Nat.strongRecOn generalizing rs d with
  | _ n ih =>
    have hshort : ∀ ps : List MmReg, ps.length < n → ∀ r, Overtakes ps r ↔
        ∀ d, held ps = some d → d.size < r.size ∧ r.base ≠ d.base + d.size :=
      fun ps hps r ↦ overtakes_iff_of_held fun d ↦ ih ps.length hps rfl
    constructor
    · intro hd
      rcases rs.eq_nil_or_concat' with rfl | ⟨ps, r, rfl⟩
      · exact absurd hd (by simp [held])
      rw [List.length_append, List.length_singleton] at hn
      rw [held_concat, Option.some_inj] at hd
      cases hc : held ps with
      | none =>
        rw [hc, Option.elim_none] at hd
        refine ⟨ps, r, [], rfl, (hshort ps (by omega) r).mpr fun c hc' ↦ ?_, hd ▸ .nil r⟩
        rw [hc] at hc'
        exact absurd hc' (by simp)
      | some c =>
        rw [hc, Option.elim_some, memAtagBody] at hd
        obtain ⟨p, i, q, rfl, hi, hgrow⟩ := (ih ps.length (by omega) rfl).mp hc
        split_ifs at hd with hnext hlt
        · exact ⟨p, i, q ++ [r], by simp, hi, hd ▸ hgrow.concat_take hnext.symm⟩
        · refine ⟨p ++ i :: q, r, [], rfl, (hshort _ (by omega) r).mpr fun c' hc' ↦ ?_, hd ▸ .nil r⟩
          rw [hc, Option.some_inj] at hc'
          exact hc' ▸ ⟨hlt, Ne.symm hnext⟩
        · exact ⟨p, i, q ++ [r], by simp, hi,
            hd ▸ hgrow.concat_skip (Ne.symm hnext) (BitVec.not_lt.mp hlt)⟩
    · rintro ⟨p, i, q, rfl, hi, hgrow⟩
      have hp : p.length < n := by
        rw [← hn, List.length_append, List.length_cons]
        omega
      rw [held_append, ← hgrow.foldl_eq]
      cases hc : held p with
      | none => rfl
      | some c =>
        obtain ⟨hlt, hnext⟩ := (hshort p hp i).mp hi c hc
        rw [Option.elim_some, memAtagBody, if_neg (Ne.symm hnext), if_pos hlt]

end Sugarcat
