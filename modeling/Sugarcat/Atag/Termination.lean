import Mathlib.Algebra.BigOperators.Intervals
import Sugarcat.Atag.Queries
import Sugarcat.Machine.Orbit

/-!
# Scanning a list of tags

The loops over the tags trust the sizes in memory. They all end exactly when the sizes do not lead
in a circle before the end of the list: no tags in a row have sizes that add up to a multiple of `2
^ 30` words. A size of 0 leads from a tag to itself.

## One orbit

The four loops keep different things in their state, but they move from tag to tag in the same way
and stop at the same tag, so each of them follows the orbit of `next_tag` and ends where that does.
The search for the next tag of a kind stops earlier if it finds one; that it returns from every tag
of the list is the same as that the end is reached from every tag.

## Sums of sizes

The condition on the orbit, that no address is met twice, becomes one on sums of sizes. The way from
one tag to another is four bytes for each word of the sizes in between, modulo the address space, so
an address is met again exactly if they add up to the whole of it, once or several times
(`tagAt_eq_iff`).
-/

namespace Sugarcat

open ByteMemory

/-- The tag that `k` sizes lead to. -/
def tagAt (m : Memory) (atagBase : Addr) (k : ℕ) : Addr := (nextTag m)^[k] atagBase

/-- The tags before the one at `k` do not end the list. -/
def GoesOn (m : Memory) (atagBase : Addr) (k : ℕ) : Prop :=
  ∀ i < k, headerTag m (tagAt m atagBase i) ≠ atagNone

/-- All loops end, for every kind, and `get_next_tag` from every tag of the list. -/
structure ScanningEnds (m : Memory) (atagBase : Addr) : Prop where
  tagExists : ∀ tag, (tagExists m atagBase tag).isSome
  getTagCount : ∀ tag, (getTagCount m atagBase tag).isSome
  getTag : ∀ tag, (getTag m atagBase tag).isSome
  getNextTag : ∀ tag k, GoesOn m atagBase k → (getNextTag m (tagAt m atagBase k) tag).isSome

/-- Before the list ends, the sizes of tags in a row do not add up to a multiple of the size of the
address space. -/
def NoCircle (m : Memory) (atagBase : Addr) : Prop :=
  ∀ i j, i < j → GoesOn m atagBase j →
    ¬2 ^ 30 ∣ ∑ k ∈ Finset.Ico i j, (headerSize m (tagAt m atagBase k)).toNat

variable {m : Memory} {atagBase : Addr} {tag : Word} {i j k : ℕ}

/-! ## The way along the list -/

theorem tagAt_succ (m : Memory) (atagBase : Addr) (k : ℕ) :
    tagAt m atagBase (k + 1) = nextTag m (tagAt m atagBase k) :=
  Function.iterate_succ_apply' _ _ _

theorem tagAt_add (m : Memory) (atagBase : Addr) (k n : ℕ) :
    (nextTag m)^[n] (tagAt m atagBase k) = tagAt m atagBase (n + k) :=
  (Function.iterate_add_apply _ _ _ _).symm

theorem tagAt_eq_add (m : Memory) (atagBase : Addr) (hij : i ≤ j) :
    tagAt m atagBase j = tagAt m atagBase i
      + ptr (4 * ∑ k ∈ Finset.Ico i j, (headerSize m (tagAt m atagBase k)).toNat) := by
  induction j, hij using Nat.le_induction with
  | base => rw [Finset.Ico_self, Finset.sum_empty, Nat.mul_zero, BitVec.add_zero]
  | succ j hij ih =>
    rw [tagAt_succ, ← ptr_toNat (tagAt m atagBase j), nextTag_ptr, ptr_toNat,
      Finset.sum_Ico_succ_top hij, Nat.mul_add, ← ptr_add, ptr_toNat, ← ptr_add, ← add_assoc, ← ih]

theorem tagAt_eq_iff (m : Memory) (atagBase : Addr) (hij : i ≤ j) :
    tagAt m atagBase i = tagAt m atagBase j
      ↔ 2 ^ 30 ∣ ∑ k ∈ Finset.Ico i j, (headerSize m (tagAt m atagBase k)).toNat := by
  rw [tagAt_eq_add m atagBase hij, left_eq_add]
  generalize ∑ k ∈ Finset.Ico i j, (headerSize m (tagAt m atagBase k)).toNat = n
  rw [← BitVec.toNat_inj, BitVec.toNat_ofNat, Nat.dvd_iff_mod_eq_zero]
  change _ = 0 ↔ _
  omega

theorem noCircle_iff :
    NoCircle m atagBase
      ↔ Orbit.NoReturn (nextTag m) (headerTag m · = atagNone) atagBase :=
  forall_congr' fun _ ↦ forall_congr' fun _ ↦ imp_congr_right fun hij ↦
    imp_congr_right fun _ ↦ (tagAt_eq_iff m atagBase hij.le).not.symm

/-! ## The loops -/

instance : Finite Addr := Finite.of_equiv _ (BitVec.equivFin (m := 32)).toEquiv.symm

theorem card_addr : Nat.card Addr = 2 ^ 32 := by
  rw [Nat.card_congr (BitVec.equivFin (m := 32)).toEquiv, Nat.card_fin]

theorem follows_tagExistsStep (m : Memory) (tag : Word) :
    Loop.Follows (tagExistsStep m tag) id (nextTag m)
      fun sch ↦ headerTag m sch = atagNone ∨ headerTag m sch = tag := by
  constructor
  · intro sch hgo
    rw [id, not_or] at hgo
    exact ⟨nextTag m sch, by rw [tagExistsStep, if_pos hgo.1, if_neg hgo.2], rfl⟩
  · intro sch hstop
    rw [id] at hstop
    by_cases hnone : headerTag m sch = atagNone
    · exact ⟨false, by rw [tagExistsStep, if_neg (not_not.mpr hnone)]⟩
    · exact ⟨true, by rw [tagExistsStep, if_pos hnone, if_pos (hstop.resolve_left hnone)]⟩

theorem follows_tagCountStep (m : Memory) (tag : Word) :
    Loop.Follows (tagCountStep m tag) TagCountLoop.sch (nextTag m)
      fun sch ↦ headerTag m sch = atagNone := by
  constructor
  · intro l hgo
    exact ⟨_, by rw [tagCountStep, if_pos hgo], rfl⟩
  · intro l hstop
    exact ⟨l.ret, by rw [tagCountStep, if_neg (not_not.mpr hstop)]⟩

theorem follows_tagSearchStep (m : Memory) (tag : Word) :
    Loop.Follows (tagSearchStep m tag) id (nextTag m)
      fun sch ↦ headerTag m sch = atagNone ∨ headerTag m sch = tag := by
  constructor
  · intro sch hgo
    rw [id, not_or] at hgo
    exact ⟨nextTag m sch, searchStep_of_next (bne_iff_ne.mpr hgo.1) (by simp [hgo.2]) rfl, rfl⟩
  · intro sch hstop
    rw [id] at hstop
    by_cases hnone : headerTag m sch = atagNone
    · exact ⟨_, searchStep_of_not_go (by simp [hnone])⟩
    · exact ⟨_, searchStep_of_hit (bne_iff_ne.mpr hnone)
        (by simp [hstop.resolve_left hnone])⟩

theorem isSome_join_run_tagSearchStep {sch : Addr}
    (h : ∃ k, headerTag m ((nextTag m)^[k] sch) = atagNone) (tag : Word) :
    (Loop.run (tagSearchStep m tag) (2 ^ 32) sch).join.isSome := by
  obtain ⟨k, hk⟩ := h
  have hsome := ((follows_tagSearchStep m tag).isSome_run_card_iff card_addr.le).mpr ⟨k, Or.inl hk⟩
  obtain ⟨r, hrun⟩ := Option.isSome_iff_exists.mp hsome
  rw [show Loop.run (tagSearchStep m tag) (2 ^ 32) sch = some r from hrun, Option.join_some]
  exact Loop.run_invariant (I := fun _ ↦ True) (P := fun r ↦ r.isSome) (fun _ _ _ _ ↦ trivial)
    (fun _ _ _ hexit ↦ isSome_of_searchStep (fun _ ↦ rfl) (fun _ ↦ rfl) hexit) trivial hrun

/-- From every tag of a list that ends, the end is reached. -/
theorem exists_none_of_goesOn (h : ∃ k, headerTag m (tagAt m atagBase k) = atagNone)
    (hk : GoesOn m atagBase k) :
    ∃ n, headerTag m ((nextTag m)^[n] (tagAt m atagBase k)) = atagNone := by
  obtain ⟨l, hl⟩ := h
  obtain ⟨n, rfl⟩ := Nat.exists_eq_add_of_le' (Nat.le_of_not_lt fun hlt ↦ hk l hlt hl)
  exact ⟨n, by rwa [tagAt_add]⟩

/-- **The loops end exactly when the sizes do not lead in a circle.** -/
theorem scanningEnds_iff (hcore : headerTag m atagBase = atagCore) :
    ScanningEnds m atagBase ↔ NoCircle m atagBase := by
  rw [noCircle_iff, ← Orbit.exists_stop_iff]
  constructor
  · intro h
    have hcount := h.getTagCount atagMem
    rw [getTagCount, if_pos hcore, (follows_tagCountStep m _).isSome_run_card_iff card_addr.le]
      at hcount
    exact hcount
  · rintro ⟨l, hl⟩
    have hend : ∃ k, headerTag m (tagAt m atagBase k) = atagNone := ⟨l, hl⟩
    refine ⟨?_, ?_, ?_, ?_⟩
    · intro tag
      rw [tagExists, if_pos hcore, (follows_tagExistsStep m tag).isSome_run_card_iff card_addr.le]
      exact ⟨l, Or.inl hl⟩
    · intro tag
      rw [getTagCount, if_pos hcore, (follows_tagCountStep m tag).isSome_run_card_iff card_addr.le]
      exact ⟨l, hl⟩
    · intro tag
      have hfirst : GoesOn m atagBase 1 := by
        intro i hi
        obtain rfl := Nat.lt_one_iff.mp hi
        change headerTag m atagBase ≠ atagNone
        rw [hcore]
        decide
      rw [getTag, if_pos hcore]
      exact isSome_join_run_tagSearchStep (exists_none_of_goesOn hend hfirst) tag
    · intro tag k hk
      rw [getNextTag]
      split_ifs with hnull hnone
      · have hnext : GoesOn m atagBase (k + 1) := by
          intro i hi
          rcases Nat.lt_succ_iff_lt_or_eq.mp hi with hi | rfl
          · exact hk i hi
          · exact hnone
        rw [← tagAt_succ]
        exact isSome_join_run_tagSearchStep (exists_none_of_goesOn hend hnext) tag
      · rfl
      · rfl

theorem scanningEnds_iff_boot : ScanningEnds (wordsMemory 0x100#32 bootTagsWords) 0x100#32 :=
  (scanningEnds_iff (by decide +kernel)).mpr
    (noCircle_iff.mpr (Orbit.noReturn_of_stop ⟨3, by decide +kernel⟩))

/-- A tag of size 0 before an `ATAG_NONE`. -/
def stuckTagsWords : List Word := [0#32, atagCore, 0#32, atagNone]

/-- Where the first size is 0, the search for `ATAG_MEM` does not end. -/
theorem not_scanningEnds_stuck :
    headerTag (wordsMemory 0x100#32 stuckTagsWords) 0x100#32 = atagCore ∧
      headerTag (wordsMemory 0x100#32 stuckTagsWords) 0x108#32 = atagNone ∧
      tagExists (wordsMemory 0x100#32 stuckTagsWords) 0x100#32 atagMem = none ∧
      Loop.Diverges (tagExistsStep (wordsMemory 0x100#32 stuckTagsWords) atagMem) 0x100#32 := by
  have hpass : tagExistsStep (wordsMemory 0x100#32 stuckTagsWords) atagMem 0x100#32
      = .inl 0x100#32 := by decide +kernel
  have hdiv : Loop.Diverges (tagExistsStep (wordsMemory 0x100#32 stuckTagsWords) atagMem)
      0x100#32 := Loop.diverges_of_invariant (I := (· = 0x100#32))
    (fun sch hsch ↦ ⟨0x100#32, by rw [hsch, hpass], rfl⟩) rfl
  have hcore : headerTag (wordsMemory 0x100#32 stuckTagsWords) 0x100#32 = atagCore := by
    decide +kernel
  refine ⟨hcore, by decide +kernel, ?_, hdiv⟩
  rw [tagExists, if_pos hcore]
  exact hdiv _

end Sugarcat
