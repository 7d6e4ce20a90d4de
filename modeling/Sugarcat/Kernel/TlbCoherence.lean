import Sugarcat.Kernel.InvalidateRegion

/-!
# Table writes and the TLB

A table word that was changed is seen by the hardware after a data barrier and a TLB invalidation.
`mmu_invalidate_region` issues both, in this order, when it has succeeded; `mmu_invalidate_page`
invalidates without a barrier. And as the region loop is only left by an error, a region call that
returns has issued neither, however many pages it has changed before.

## What is expected

`Coherent` is what is expected of a call: every store that it adds to the trace is followed by a
barrier, and that by an invalidation, before it returns. `coherent_iff` says, for every run of calls
that return, that only the calls meet it that write nothing at all. That can be told from the state
before a call: the region is empty, its first page has no table, or the MMU is off.

For a region the proof follows the loop with `RegionLoop.Dirty`: the first pass stores a word, no
barrier has come after it, and every further pass keeps it so.
-/

namespace Sugarcat

open ByteMemory

/-! ## Calls -/

inductive InvalidateCall where
  | page (virtAddr : Addr)
  | region (virtAddr : Addr) (pgCnt : ℤ)

namespace InvalidateCall

def exec (fuel : ℕ) : InvalidateCall → Machine → Option (Errno × Machine)
  | page v, s => some (mmuInvalidatePage v s)
  | region v pgCnt, s => mmuInvalidateRegion fuel v pgCnt s

/-- The call, made in `s`, returns in `t`, with any error code. -/
def Returns (s : Machine) (c : InvalidateCall) (t : Machine) : Prop :=
  ∃ fuel e, c.exec fuel s = some (e, t)

def virtAddr : InvalidateCall → Addr
  | page v => v
  | region v _ => v

/-- The call has a page to start with. -/
def NonEmpty : InvalidateCall → Prop
  | page _ => True
  | region _ pgCnt => 0 < pgCnt

/-- The first page of the call lies under a TABLE slot, and the MMU is on. -/
def Writes (s : Machine) (c : InvalidateCall) : Prop :=
  c.NonEmpty ∧ armv7MmuIsEnabled s = true ∧ IsTableSlot s (slotIndex c.virtAddr)

end InvalidateCall

/-- Every store is followed by a barrier, and that by a TLB invalidation. -/
def Flushed (events : List Event) : Prop :=
  ∀ pre a x post, events = pre ++ .store a x :: post →
    ∃ l r, post = l ++ .dsb :: r ∧ .tlbInvalidate ∈ r

/-- What happened between `s` and `t` leaves no table write that the TLB may hide. -/
def Coherent (s t : Machine) : Prop := ∃ events, t.trace = s.trace ++ events ∧ Flushed events

/-! ## Events -/

variable {s t : Machine} {events : List Event} {a : Addr} {x : Word}

theorem flushed_nil : Flushed [] := by
  intro pre a x post h
  simp at h

theorem not_flushed_of_not_mem_dsb (h : .dsb ∉ events) : ¬Flushed (.store a x :: events) := by
  intro hflush
  obtain ⟨l, r, rfl, -⟩ := hflush [] a x events rfl
  simp at h

theorem coherent_refl (s : Machine) : Coherent s s := ⟨[], by simp, flushed_nil⟩

theorem not_coherent_of_store (htrace : t.trace = s.trace ++ .store a x :: events)
    (h : .dsb ∉ events) : ¬Coherent s t := by
  rintro ⟨events', htrace', hflush⟩
  rw [htrace, List.append_cancel_left_eq] at htrace'
  rw [← htrace'] at hflush
  exact not_flushed_of_not_mem_dsb h hflush

/-! ## One page -/

theorem archMmuCreateEntry_inval (v : Addr) (acc : MmuAccFlags) (s : Machine) :
    ((armv7MmuIsEnabled s = true ∧ IsTableSlot s (slotIndex v)) ∧
      ∃ a x, archMmuCreateEntry ⟨0x0#32, v, .pgTabInval, acc⟩ s = (.esucc, s.store a x)) ∨
    (¬(armv7MmuIsEnabled s = true ∧ IsTableSlot s (slotIndex v)) ∧
      ∃ e, e ≠ .esucc ∧ archMmuCreateEntry ⟨0x0#32, v, .pgTabInval, acc⟩ s = (e, s)) := by
  by_cases hen : armv7MmuIsEnabled s = true
  · have hcall : archMmuCreateEntry ⟨0x0#32, v, .pgTabInval, acc⟩ s = _ :=
      archMmuCreateEntry_pgtb hen (Or.inr rfl)
    by_cases htab : IsTableSlot s (slotIndex v)
    · rw [if_pos htab] at hcall
      exact Or.inl ⟨⟨hen, htab⟩, _, _, hcall⟩
    · rw [if_neg htab] at hcall
      exact Or.inr ⟨fun h ↦ htab h.2, _, by simp, hcall⟩
  · refine Or.inr ⟨fun h ↦ hen h.1, .enotenb, by simp, ?_⟩
    simp only [archMmuCreateEntry, armv7MmuMapPgtb, if_neg hen]

theorem coherent_page_iff {v : Addr} (h : InvalidateCall.Returns s (.page v) t) :
    Coherent s t ↔ ¬InvalidateCall.Writes s (.page v) := by
  obtain ⟨fuel, e, hexec⟩ := h
  rw [InvalidateCall.exec, Option.some_inj, mmuInvalidatePage, mmuCreatePgtbEntry] at hexec
  rcases archMmuCreateEntry_inval v (invalidateAcc v (archMmuGetKernVaddr s)) s with
    ⟨hw, a, x, hcall⟩ | ⟨hw, e', he', hcall⟩
  · simp only [hcall, and_self, if_true, Prod.mk.injEq] at hexec
    refine iff_of_false ?_ (not_not.mpr ⟨trivial, hw⟩)
    have htrace : t.trace = s.trace ++ .store a x :: [.tlbInvalidate] := by
      rw [← hexec.2]
      simp [archMmuInvalidate, Machine.armv7InvalidateUnifiedTlb, Machine.store]
    exact not_coherent_of_store htrace (by simp)
  · simp only [hcall] at hexec
    rw [if_neg fun h ↦ he' h.1, Prod.mk.injEq] at hexec
    rw [← hexec.2]
    exact iff_of_true (coherent_refl s) fun h ↦ hw h.2

/-! ## A region -/

/-- The region loop has stored `x` at `a` first of all, and no barrier has been issued since. -/
def RegionLoop.Dirty (s : Machine) (a : Addr) (x : Word) (l : RegionLoop) : Prop :=
  l.i = 0 ∧ ∃ events, l.machine.trace = s.trace ++ .store a x :: events ∧ .dsb ∉ events

variable {l l' : RegionLoop} {pgCnt : ℤ} {kvaddr : Addr}

theorem RegionLoop.Dirty.step (h : l.Dirty s a x)
    (hstep : mmuInvalidateRegionStep pgCnt kvaddr l = .inl l') : l'.Dirty s a x := by
  obtain ⟨hi, events, htrace, hdsb⟩ := h
  rw [mmuInvalidateRegionStep] at hstep
  split_ifs at hstep
  rw [Sum.inl.injEq] at hstep
  subst hstep
  refine ⟨hi, ?_⟩
  simp only [mmuCreatePgtbEntry, Bool.false_eq_true, and_false, if_false]
  rcases archMmuCreateEntry_inval l.virtAddr (invalidateAcc l.virtAddr kvaddr) l.machine with
    ⟨-, b, y, hcall⟩ | ⟨-, e, -, hcall⟩
  · rw [hcall]
    refine ⟨events ++ [.store b y], ?_, by simp [hdsb]⟩
    simp [Machine.store, htrace]
  · rw [hcall]
    exact ⟨events, htrace, hdsb⟩

/-- The loop is only left by an error, and then there is no barrier after it. -/
theorem RegionLoop.Dirty.run (h : l.Dirty s a x) (hcnt : 0 < pgCnt) {n : ℕ} {r : Errno × Machine}
    (hrun : Loop.run (mmuInvalidateRegionStep pgCnt kvaddr) n l = some r) :
    r.1 ≠ .esucc ∧ ¬Coherent s r.2 := by
  refine Loop.run_invariant (I := RegionLoop.Dirty s a x)
    (P := fun r ↦ r.1 ≠ .esucc ∧ ¬Coherent s r.2) (fun _ _ hl hstep ↦ hl.step hstep) ?_ h hrun
  rintro l r ⟨hi, events, htrace, hdsb⟩ hstep
  rw [mmuInvalidateRegionStep] at hstep
  split_ifs at hstep with hgoes
  rw [Sum.inr.injEq] at hstep
  subst hstep
  -- the counter is still zero, so it is the error code that has ended the loop
  refine ⟨fun hret ↦ hgoes ⟨hret, hi ▸ hcnt⟩, ?_⟩
  exact not_coherent_of_store htrace hdsb

theorem coherent_region_iff {v : Addr} (h : InvalidateCall.Returns s (.region v pgCnt) t) :
    Coherent s t ↔ ¬InvalidateCall.Writes s (.region v pgCnt) := by
  obtain ⟨fuel, e, hexec⟩ := h
  rw [InvalidateCall.exec, mmuInvalidateRegion] at hexec
  split_ifs at hexec with hcnt
  · obtain ⟨r, hrun, hr⟩ := Option.map_eq_some_iff.mp hexec
    have hfirst : mmuInvalidateRegionStep pgCnt (archMmuGetKernVaddr s) ⟨.esucc, 0, v, s⟩
        = .inl ⟨_, 0, v + pgSz, _⟩ := if_pos ⟨rfl, hcnt⟩
    simp only [mmuCreatePgtbEntry, Bool.false_eq_true, and_false, if_false] at hfirst
    obtain ⟨n, rfl⟩ : ∃ n, fuel = n + 1 := by
      cases fuel with
      | zero =>
        rw [Loop.run_zero hfirst] at hrun
        exact absurd hrun (by simp)
      | succ n => exact ⟨n, rfl⟩
    rw [Loop.run_succ hfirst] at hrun
    rcases archMmuCreateEntry_inval v (invalidateAcc v (archMmuGetKernVaddr s)) s with
      ⟨hw, a, x, hcall⟩ | ⟨hw, e', he', hcall⟩
    · have hdirty : RegionLoop.Dirty s a x ⟨.esucc, 0, v + pgSz, s.store a x⟩ :=
        ⟨rfl, [], rfl, by simp⟩
      rw [hcall] at hrun
      obtain ⟨hne, hbad⟩ := hdirty.run hcnt hrun
      rw [if_neg hne] at hr
      rw [hr] at hbad
      exact iff_of_false hbad (not_not.mpr ⟨hcnt, hw⟩)
    · rw [hcall] at hrun
      have hexit : mmuInvalidateRegionStep pgCnt (archMmuGetKernVaddr s) ⟨e', 0, v + pgSz, s⟩
          = .inr (e', s) := if_neg fun h ↦ he' h.1
      rw [Loop.run_of_exit hexit, Option.some_inj] at hrun
      rw [← hrun, if_neg he', Prod.mk.injEq] at hr
      rw [← hr.2]
      exact iff_of_true (coherent_refl s) fun h ↦ hw h.2
  · rw [Option.some_inj, Prod.mk.injEq] at hexec
    rw [← hexec.2]
    exact iff_of_true (coherent_refl s) fun h ↦ hcnt h.1

/-! ## Runs -/

/-- **In a run of calls that return, every table write is made visible before its call returns
exactly when no call writes anything.** -/
theorem coherent_iff {steps : List (Machine × InvalidateCall × Machine)}
    (h : Run.Path InvalidateCall.Returns s steps t) :
    (∀ x ∈ steps, Coherent x.1 x.2.2) ↔ ∀ x ∈ steps, ¬x.2.1.Writes x.1 := by
  refine h.forall_iff (p := fun a _ b ↦ Coherent a b) (q := fun a c _ ↦ ¬c.Writes a) ?_
  intro a c b hret
  cases c with
  | page v => exact coherent_page_iff hret
  | region v pgCnt => exact coherent_region_iff hret

/-- A region in the empty kernel half: the call fails at its first page. -/
theorem coherent_iff_oneTable : Coherent oneTable oneTable := by
  have hret : InvalidateCall.Returns oneTable (.region 0x80000000#32 4) oneTable :=
    ⟨2, .enotfnd, rfl⟩
  refine (coherent_iff (.cons hret (.nil oneTable))).mpr ?_ _ List.mem_cons_self
  intro x hx
  rw [List.mem_singleton] at hx
  subst hx
  exact fun hw ↦ absurd ((isTableSlot_oneTable (by decide)).mp hw.2.2) (by decide)

/-- A page that can be removed: the TLB is invalidated without a barrier. -/
theorem not_coherent_oneTable :
    ∃ t, InvalidateCall.Returns oneTable (.page 0x3000#32) t ∧ ¬Coherent oneTable t := by
  refine ⟨(mmuInvalidatePage 0x3000#32 oneTable).2, ⟨0, .esucc, rfl⟩, ?_⟩
  have htrace : (mmuInvalidatePage 0x3000#32 oneTable).2.trace
      = oneTable.trace ++ .store 0x1000C#32 0x10#32 :: [.tlbInvalidate] := rfl
  exact not_coherent_of_store htrace (by simp)

end Sugarcat
