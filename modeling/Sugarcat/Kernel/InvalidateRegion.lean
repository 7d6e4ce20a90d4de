import Sugarcat.Kernel.PageMap

/-!
# Removing a region

The loop of `mmu_invalidate_region` tests its counter and never advances it. What it does is
therefore independent of the page count it is given: it goes on over the pages from the start of the
region, removing each, until it meets one that does not lie under a TABLE slot, and then returns
`ENOTFND`. It never returns `ESUCC`.

## The loop

`RegionLoop.Running` is the invariant: the counter is 0, no pass has failed, and the machine has the
slots that it began with, for the passes only write to tables. A pass over a page that can be
removed preserves it, and one over any other page ends the loop. If every page of the address space
can be removed, the loop has no end.

## What is meant

`InvalidatesRegion` says what a call is meant to do: it makes no more calls than there are pages,
and if all pages of the region can be removed it reports success, and these pages and no others have
lost their mapping. `invalidatesRegion_iff` says when it does: when the error comes before the end
of the region, so that nothing was promised in the first place.
-/

namespace Sugarcat

open ByteMemory

/-- The address `k` pages after `v`. -/
def pageAfter (v : Addr) (k : ℕ) : Addr := v + pgSz * BitVec.ofNat 32 k

theorem pageAfter_zero (v : Addr) : pageAfter v 0 = v := by simp [pageAfter]

theorem pageAfter_succ (v : Addr) (k : ℕ) : pageAfter v (k + 1) = pageAfter (v + pgSz) k := by
  rw [pageAfter, pageAfter, BitVec.ofNat_add, BitVec.mul_add, BitVec.mul_one, add_comm (pgSz * _),
    add_assoc]

/-! ## The loop -/

/-- The loop is between two passes, none of which has failed, and the directories are those of
`s`. -/
structure RegionLoop.Running (s : Machine) (l : RegionLoop) : Prop where
  ret : l.ret = .esucc
  i : l.i = 0
  enabled : armv7MmuIsEnabled l.machine = true
  separated : WellSeparated l.machine
  slots : ∀ i < 4096, liveSlot l.machine i = liveSlot s i

variable {s : Machine} {l : RegionLoop} {pgCnt : ℤ} {kvaddr : Addr}

theorem RegionLoop.Running.step (h : l.Running s) (hcnt : 0 < pgCnt) :
    mmuInvalidateRegionStep pgCnt kvaddr l
      = .inl (if IsTableSlot s (slotIndex l.virtAddr) then
          ⟨.esucc, 0, l.virtAddr + pgSz, l.machine.store (ptAddr l.machine l.virtAddr)
            (pgtbEntryWord (MmuEntry.toArmv7Pgtb
              ⟨0x0#32, l.virtAddr, .pgTabInval, invalidateAcc l.virtAddr kvaddr⟩))⟩
        else ⟨.enotfnd, 0, l.virtAddr + pgSz, l.machine⟩) := by
  have hslot : IsTableSlot l.machine (slotIndex l.virtAddr)
      ↔ IsTableSlot s (slotIndex l.virtAddr) := by
    rw [IsTableSlot, h.slots _ (slotIndex_lt _), IsTableSlot]
  have hcall : archMmuCreateEntry
      ⟨0x0#32, l.virtAddr, .pgTabInval, invalidateAcc l.virtAddr kvaddr⟩ l.machine = _ :=
    archMmuCreateEntry_pgtb h.enabled (Or.inr rfl)
  rw [mmuInvalidateRegionStep, if_pos ⟨h.ret, h.i ▸ hcnt⟩]
  simp only [mmuCreatePgtbEntry, hcall, hslot, h.i, Bool.false_eq_true, and_false, if_false]
  by_cases htab : IsTableSlot s (slotIndex l.virtAddr)
  · simp only [if_pos htab]
  · simp only [if_neg htab]

/-- A pass over a page that can be removed keeps the loop running. -/
theorem RegionLoop.Running.store (h : l.Running s)
    (htab : IsTableSlot s (slotIndex l.virtAddr)) (x : Word) :
    RegionLoop.Running s
      ⟨.esucc, 0, l.virtAddr + pgSz, l.machine.store (ptAddr l.machine l.virtAddr) x⟩ := by
  have hslot : IsTableSlot l.machine (slotIndex l.virtAddr) := by
    rw [IsTableSlot, h.slots _ (slotIndex_lt _)]
    exact htab
  refine ⟨rfl, rfl, h.enabled, h.separated.store_ptAddr hslot, ?_⟩
  intro i hi
  exact (h.separated.liveSlot_store hslot hi).trans (h.slots i hi)

theorem RegionLoop.Running.run_eq_none (h : l.Running s) (hcnt : 0 < pgCnt) {n : ℕ}
    (htab : ∀ k < n, IsTableSlot s (slotIndex (pageAfter l.virtAddr k))) :
    Loop.run (mmuInvalidateRegionStep pgCnt kvaddr) n l = none := by
  induction n generalizing l with
  | zero => exact Loop.run_zero (h.step hcnt)
  | succ n ih =>
    have h0 : IsTableSlot s (slotIndex l.virtAddr) := by
      simpa [pageAfter_zero] using htab 0 (by omega)
    rw [Loop.run_succ (h.step hcnt), if_pos h0]
    refine ih (h.store h0 _) fun k hk ↦ ?_
    rw [← pageAfter_succ]
    exact htab (k + 1) (by omega)

theorem RegionLoop.Running.run_eq_enotfnd (h : l.Running s) (hcnt : 0 < pgCnt) {n : ℕ}
    (htab : ∀ k < n, IsTableSlot s (slotIndex (pageAfter l.virtAddr k)))
    (hn : ¬IsTableSlot s (slotIndex (pageAfter l.virtAddr n))) :
    ∃ s', Loop.run (mmuInvalidateRegionStep pgCnt kvaddr) (n + 1) l = some (.enotfnd, s') := by
  induction n generalizing l with
  | zero =>
    rw [pageAfter_zero] at hn
    rw [Loop.run_succ (h.step hcnt), if_neg hn]
    exact ⟨l.machine, Loop.run_of_exit rfl 0⟩
  | succ n ih =>
    have h0 : IsTableSlot s (slotIndex l.virtAddr) := by
      simpa [pageAfter_zero] using htab 0 (by omega)
    rw [Loop.run_succ (h.step hcnt), if_pos h0]
    refine ih (h.store h0 _) (fun k hk ↦ ?_) ?_
    · rw [← pageAfter_succ]
      exact htab (k + 1) (by omega)
    · rwa [← pageAfter_succ]

/-- Over pages that can all be removed, the loop has no end. -/
theorem RegionLoop.Running.diverges (h : l.Running s) (hcnt : 0 < pgCnt)
    (htab : ∀ k, IsTableSlot s (slotIndex (pageAfter l.virtAddr k))) :
    Loop.Diverges (mmuInvalidateRegionStep pgCnt kvaddr) l := by
  refine Loop.diverges_of_invariant (I := fun l ↦ l.Running s ∧
    ∀ k, IsTableSlot s (slotIndex (pageAfter l.virtAddr k))) ?_ ⟨h, htab⟩
  rintro l ⟨hl, hltab⟩
  have h0 : IsTableSlot s (slotIndex l.virtAddr) := by simpa [pageAfter_zero] using hltab 0
  refine ⟨_, (hl.step hcnt).trans (congrArg Sum.inl (if_pos h0)), hl.store h0 _, ?_⟩
  intro k
  rw [← pageAfter_succ]
  exact hltab (k + 1)

theorem RegionLoop.Running.run_ne_esucc (h : l.Running s) (hcnt : 0 < pgCnt) {n : ℕ}
    {r : Errno × Machine} (hrun : Loop.run (mmuInvalidateRegionStep pgCnt kvaddr) n l = some r) :
    r.1 ≠ .esucc := by
  have hfailed : ∀ l : RegionLoop, l.ret = .enotfnd →
      mmuInvalidateRegionStep pgCnt kvaddr l = .inr (.enotfnd, l.machine) := by
    intro l hl
    rw [mmuInvalidateRegionStep, if_neg (by simp [hl]), hl]
  refine Loop.run_invariant (I := fun l ↦ l.Running s ∨ l.ret = .enotfnd)
    (P := fun r ↦ r.1 ≠ .esucc) ?_ ?_ (Or.inl h) hrun
  · rintro l l' (hl | hl) hstep
    · rw [hl.step hcnt, Sum.inl.injEq] at hstep
      subst hstep
      split_ifs with h0
      · exact Or.inl (hl.store h0 _)
      · exact Or.inr rfl
    · rw [hfailed l hl] at hstep
      exact absurd hstep (by simp)
  · rintro l r (hl | hl) hstep
    · rw [hl.step hcnt] at hstep
      exact absurd hstep (by simp)
    · rw [hfailed l hl, Sum.inr.injEq] at hstep
      subst hstep
      exact Errno.noConfusion

/-! ## The call -/

theorem running_start (hen : armv7MmuIsEnabled s = true) (hsep : WellSeparated s) (v : Addr) :
    RegionLoop.Running s ⟨.esucc, 0, v, s⟩ := ⟨rfl, rfl, hen, hsep, fun _ _ ↦ rfl⟩

theorem mmuInvalidateRegion_eq_none (hen : armv7MmuIsEnabled s = true) (hsep : WellSeparated s)
    (hcnt : 0 < pgCnt) {v : Addr} {n : ℕ}
    (htab : ∀ k < n, IsTableSlot s (slotIndex (pageAfter v k))) :
    mmuInvalidateRegion n v pgCnt s = none := by
  rw [mmuInvalidateRegion, if_pos hcnt, (running_start hen hsep v).run_eq_none hcnt htab]
  rfl

theorem mmuInvalidateRegion_eq_enotfnd (hen : armv7MmuIsEnabled s = true) (hsep : WellSeparated s)
    (hcnt : 0 < pgCnt) {v : Addr} {n : ℕ}
    (htab : ∀ k < n, IsTableSlot s (slotIndex (pageAfter v k)))
    (hn : ¬IsTableSlot s (slotIndex (pageAfter v n))) :
    ∃ s', mmuInvalidateRegion (n + 1) v pgCnt s = some (.enotfnd, s') := by
  obtain ⟨s', hrun⟩ : ∃ s', Loop.run (mmuInvalidateRegionStep pgCnt (archMmuGetKernVaddr s)) (n + 1)
      ⟨.esucc, 0, v, s⟩ = some (.enotfnd, s') :=
    (running_start hen hsep v).run_eq_enotfnd hcnt htab hn
  exact ⟨s', by rw [mmuInvalidateRegion, if_pos hcnt, hrun]; rfl⟩

/-- The call never reports success. -/
theorem mmuInvalidateRegion_ne_esucc (hen : armv7MmuIsEnabled s = true) (hsep : WellSeparated s)
    (hcnt : 0 < pgCnt) {v : Addr} {n : ℕ} {r : Errno × Machine}
    (h : mmuInvalidateRegion n v pgCnt s = some r) : r.1 ≠ .esucc := by
  rw [mmuInvalidateRegion, if_pos hcnt, Option.map_eq_some_iff] at h
  obtain ⟨r', hrun, rfl⟩ := h
  have hr' := (running_start hen hsep v).run_ne_esucc hcnt hrun
  rw [if_neg hr']
  exact hr'

/-- Where every page can be removed, as many as there are, the call does not return. -/
theorem mmuInvalidateRegion_diverges (hen : armv7MmuIsEnabled s = true) (hsep : WellSeparated s)
    (hcnt : 0 < pgCnt) {v : Addr} (htab : ∀ k, IsTableSlot s (slotIndex (pageAfter v k)))
    (n : ℕ) : mmuInvalidateRegion n v pgCnt s = none := by
  rw [mmuInvalidateRegion, if_pos hcnt, (running_start hen hsep v).diverges hcnt htab n]
  rfl

theorem mmuInvalidateRegion_mono {n k : ℕ} {v : Addr} {r : Errno × Machine} (hnk : n ≤ k)
    (h : mmuInvalidateRegion n v pgCnt s = some r) : mmuInvalidateRegion k v pgCnt s = some r := by
  rw [mmuInvalidateRegion] at h ⊢
  by_cases hcnt : pgCnt > 0
  · rw [if_pos hcnt, Option.map_eq_some_iff] at h
    rw [if_pos hcnt, Option.map_eq_some_iff]
    obtain ⟨r', hrun, hr⟩ := h
    exact ⟨r', Loop.run_mono hnk hrun, hr⟩
  · rwa [if_neg hcnt] at h ⊢

/-- The call returns after at most `pgCnt` calls of `mmu_create_pgtb_entry`. When every page of the
region lies under a TABLE slot, it returns `ESUCC`, and the addresses that became unmapped are those
of the region. -/
def InvalidatesRegion (s : Machine) (v : Addr) (pgCnt : ℤ) : Prop :=
  ∃ r, mmuInvalidateRegion pgCnt.toNat v pgCnt s = some r ∧
    ((∀ k < pgCnt.toNat, IsTableSlot s (slotIndex (pageAfter v k))) →
      r.1 = .esucc ∧
      (∀ w, InRange v (pgCnt.toNat * 4096) w → virtToPhy r.2 w = 0#32) ∧
      ∀ w, ¬InRange v (pgCnt.toNat * 4096) w → virtToPhy r.2 w = virtToPhy s w)

/-- **A region call does what it is meant to exactly when its region has a page that cannot be
removed.** -/
theorem invalidatesRegion_iff (hen : armv7MmuIsEnabled s = true) (hsep : WellSeparated s)
    (hcnt : 1 ≤ pgCnt) (v : Addr) :
    InvalidatesRegion s v pgCnt
      ↔ ∃ k < pgCnt.toNat, ¬IsTableSlot s (slotIndex (pageAfter v k)) := by
  have hpos : 0 < pgCnt := by omega
  constructor
  · rintro ⟨r, hr, -⟩
    by_contra hall
    push Not at hall
    rw [mmuInvalidateRegion_eq_none hen hsep hpos hall] at hr
    exact absurd hr (by simp)
  · rintro ⟨k, hk, hbad⟩
    classical
    have hex : ∃ k, ¬IsTableSlot s (slotIndex (pageAfter v k)) := ⟨k, hbad⟩
    have hlt : Nat.find hex < pgCnt.toNat := (Nat.find_min' hex hbad).trans_lt hk
    obtain ⟨s', herr⟩ := mmuInvalidateRegion_eq_enotfnd hen hsep hpos
      (fun k hk ↦ not_not.mp (Nat.find_min hex hk)) (Nat.find_spec hex)
    refine ⟨_, mmuInvalidateRegion_mono hlt herr, ?_⟩
    intro hall
    exact absurd (hall _ hlt) (Nat.find_spec hex)

/-- A region over the empty kernel half of the directory. -/
theorem invalidatesRegion_iff_kernel : InvalidatesRegion oneTable 0x80000000#32 4 :=
  (invalidatesRegion_iff rfl wellSeparated_oneTable (by decide) _).mpr
    ⟨0, by decide, fun h ↦ absurd ((isTableSlot_oneTable (by decide)).mp h) (by decide)⟩

/-- One page that could be removed: the call has not returned after the one call it needed. -/
theorem not_invalidatesRegion_oneTable : ¬InvalidatesRegion oneTable 0x0#32 1 := by
  rintro ⟨r, hr, -⟩
  have htab : ∀ k < 1, IsTableSlot oneTable (slotIndex (pageAfter 0x0#32 k)) := by
    intro k hk
    obtain rfl : k = 0 := by omega
    exact (isTableSlot_oneTable (by decide)).mpr rfl
  have hnone : mmuInvalidateRegion 1 0x0#32 1 oneTable = none :=
    mmuInvalidateRegion_eq_none rfl wellSeparated_oneTable (by decide) htab
  have hr' : mmuInvalidateRegion 1 0x0#32 1 oneTable = some r := hr
  rw [hnone] at hr'
  exact absurd hr' (by simp)

end Sugarcat
