import Sugarcat.Armv7.LiveTables
import Sugarcat.Kernel.Mmu
import Sugarcat.Machine.Run

/-!
# Page mapping refines a finite map

Seen from outside, the mapping calls maintain a finite map from pages to what the last successful
call left there: a frame, or nothing. Everything not in the map translates as it did at the start.
`PageMap` is this view, and `pageCalls_refine_pageMap` says that the machine agrees with it after
every sequence of calls.

## The simulation

The simulation needs one invariant: the machine stays enabled and well separated, and its live slots
never change. Which calls succeed is therefore decided by the directories alone, and as they were at
the start. `PageCall.exec_cases` says what one call does to the machine, and nothing else about the
calls is used: it stores to the table word of its page, with a TLB invalidation after a removal, or
it does nothing at all.

## The log

The map is computed from the log of the run and not kept in a state of its own: what counts for a
page is the last entry of the log for that page that was successful. The simulation grows with the
log, one call at a time.
-/

namespace Sugarcat

open ByteMemory

/-! ## The abstract map -/

/-- What a page is mapped to. -/
inductive PageState where
  | frame (base : Addr)
  | unmapped
  deriving DecidableEq

/-- A map from pages to what was done with them; `none` is a page nothing was done with. -/
abbrev PageMap := ℕ → Option PageState

/-- Translation by a map over an initial translation. -/
def PageMap.translate (m : PageMap) (init : Addr → Addr) (v : Addr) : Addr :=
  match m (pageOf v) with
  | some (.frame base) => base ||| (v &&& 0xFFF#32)
  | some .unmapped => 0#32
  | none => init v

/-! ## Mapping calls -/

/-- A call that maps a page through `arch_mmu_create_entry`, or removes a page through
`mmu_invalidate_page`. -/
inductive PageCall where
  | createEntry (virtAddr phyAddr : Addr) (accFlags : MmuAccFlags)
  | invalidatePage (virtAddr : Addr)

namespace PageCall

def virtAddr : PageCall → Addr
  | createEntry v _ _ => v
  | invalidatePage v => v

def exec : PageCall → Machine → Errno × Machine
  | createEntry v p acc => archMmuCreateEntry ⟨p, v, .pgTab, acc⟩
  | invalidatePage v => mmuInvalidatePage v

/-- What a successful call leaves on its page. -/
def result : PageCall → PageState
  | createEntry _ p _ => .frame (p &&& 0xFFFFF000#32)
  | invalidatePage _ => .unmapped

/-- The table entry a call asks for. -/
def entry (c : PageCall) (kvaddr : Addr) : MmuEntry :=
  match c with
  | createEntry v p acc => ⟨p, v, .pgTab, acc⟩
  | invalidatePage v => ⟨0x0#32, v, .pgTabInval, invalidateAcc v kvaddr⟩

end PageCall

/-- The last successful call on page `p`. -/
def lastSuccessful (log : List (PageCall × Errno)) (p : ℕ) : Option (PageCall × Errno) :=
  Run.lastMatch (fun c ↦ decide (c.2 = .esucc) && decide (pageOf c.1.virtAddr = p)) log

/-- The map a log of calls amounts to. -/
def PageMap.ofLog (log : List (PageCall × Errno)) : PageMap := fun p ↦
  (lastSuccessful log p).map fun c ↦ c.1.result

/-! ## One call -/

variable {s : Machine}

@[simp] theorem virtToPhy_archMmuInvalidate (v : Addr) :
    armv7MmuVirtToPhy (archMmuInvalidate s) v = armv7MmuVirtToPhy s v := rfl

@[simp] theorem liveSlot_archMmuInvalidate (i : ℕ) :
    liveSlot (archMmuInvalidate s) i = liveSlot s i := rfl

theorem WellSeparated.archMmuInvalidate (h : WellSeparated s) :
    WellSeparated (archMmuInvalidate s) := ⟨h.tables, h.directories⟩

/-- **What one call does**: a store to the table word of its page, with a TLB invalidation after a
removal, or nothing at all. -/
theorem PageCall.exec_cases (c : PageCall) (hen : armv7MmuIsEnabled s = true) :
    (IsTableSlot s (slotIndex c.virtAddr) ∧ (c.exec s).1 = .esucc ∧
      ∃ s', s' = s.store (ptAddr s c.virtAddr)
          (pgtbEntryWord (c.entry (archMmuGetKernVaddr s)).toArmv7Pgtb) ∧
        ((c.exec s).2 = s' ∨ (c.exec s).2 = archMmuInvalidate s')) ∨
    (¬IsTableSlot s (slotIndex c.virtAddr) ∧ c.exec s = (.enotfnd, s)) := by
  cases c with
  | createEntry v p acc =>
    simp only [exec, virtAddr, entry]
    rw [archMmuCreateEntry_pgtb hen (Or.inl rfl)]
    by_cases h : IsTableSlot s (slotIndex v)
    · rw [if_pos h]
      exact Or.inl ⟨h, rfl, _, rfl, Or.inl rfl⟩
    · rw [if_neg h]
      exact Or.inr ⟨h, rfl⟩
  | invalidatePage v =>
    simp only [exec, virtAddr, entry, mmuInvalidatePage, mmuCreatePgtbEntry]
    rw [archMmuCreateEntry_pgtb hen (Or.inr rfl)]
    by_cases h : IsTableSlot s (slotIndex v)
    · simp only [if_pos h]
      exact Or.inl ⟨h, rfl, _, rfl, Or.inr rfl⟩
    · simp only [if_neg h]
      exact Or.inr ⟨h, rfl⟩

theorem PageCall.exec_rule {P : List (PageCall × Errno) → Machine → Prop}
    {log : List (PageCall × Errno)} (c : PageCall) (hen : armv7MmuIsEnabled s = true)
    (hstore : IsTableSlot s (slotIndex c.virtAddr) → P (log ++ [(c, .esucc)])
      (s.store (ptAddr s c.virtAddr)
        (pgtbEntryWord (c.entry (archMmuGetKernVaddr s)).toArmv7Pgtb)))
    (hinval : ∀ log t, P log t → P log (archMmuInvalidate t))
    (hfail : P (log ++ [(c, .enotfnd)]) s) :
    P (log ++ [(c, (c.exec s).1)]) (c.exec s).2 := by
  rcases c.exec_cases hen with ⟨htab, hok, s', rfl, heq | heq⟩ | ⟨-, heq⟩
  · rw [hok, heq]
    exact hstore htab
  · rw [hok, heq]
    exact hinval _ _ (hstore htab)
  · rw [heq]
    exact hfail

/-- The word a call stores translates as the call's result says. -/
theorem PageCall.pteTranslate_entry (c : PageCall) (kvaddr v : Addr) :
    pteTranslate (pgtbEntryWord (c.entry kvaddr).toArmv7Pgtb) v
      = match c.result with
        | .frame base => base ||| (v &&& 0xFFF#32)
        | .unmapped => 0#32 := by
  cases c with
  | createEntry w p acc => exact pteTranslate_smallPg rfl BitVec.zero_and BitVec.zero_and v
  | invalidatePage w =>
    have htype := pgtbEntryWord_invalid_type (e := ((invalidatePage w).entry kvaddr).toArmv7Pgtb)
      rfl BitVec.zero_and
    exact pteTranslate_eq_zero (Or.inl (htype.trans BitVec.zero_and)) v

/-! ## Runs -/

/-- The simulation relation between a log and the machine it led to from `s₀`. -/
structure PageMap.Simulates (s₀ : Machine) (log : List (PageCall × Errno)) (s : Machine) :
    Prop where
  enabled : armv7MmuIsEnabled s = true
  separated : WellSeparated s
  slots : ∀ i < 4096, liveSlot s i = liveSlot s₀ i
  translate : ∀ v, armv7MmuVirtToPhy s v
    = (PageMap.ofLog log).translate (armv7MmuVirtToPhy s₀) v

theorem lastSuccessful_concat (log : List (PageCall × Errno)) (c : PageCall) (e : Errno) (p : ℕ) :
    lastSuccessful (log ++ [(c, e)]) p
      = if e = .esucc ∧ pageOf c.virtAddr = p then some (c, e) else lastSuccessful log p := by
  rw [lastSuccessful, Run.lastMatch_concat]
  by_cases h : e = .esucc ∧ pageOf c.virtAddr = p
  · simp [h]
  · rw [if_neg (by simpa using h), if_neg h]
    rfl

theorem PageMap.ofLog_concat (log : List (PageCall × Errno)) (c : PageCall) (e : Errno) (p : ℕ) :
    PageMap.ofLog (log ++ [(c, e)]) p
      = if e = .esucc ∧ pageOf c.virtAddr = p then some c.result else PageMap.ofLog log p := by
  rw [PageMap.ofLog, lastSuccessful_concat]
  split_ifs <;> rfl

theorem PageMap.Simulates.exec {s₀ : Machine} {log : List (PageCall × Errno)}
    (h : PageMap.Simulates s₀ log s) (c : PageCall) :
    PageMap.Simulates s₀ (log ++ [(c, (c.exec s).1)]) (c.exec s).2 := by
  refine c.exec_rule h.enabled (fun htab ↦ ?_) (fun log t ht ↦ ?_) ?_
  · refine ⟨h.enabled, h.separated.store_ptAddr htab, ?_, ?_⟩
    · intro i hi
      rw [h.separated.liveSlot_store htab hi, h.slots i hi]
    · intro v
      rw [h.separated.virtToPhy_store h.enabled htab, PageMap.translate, PageMap.ofLog_concat,
        c.pteTranslate_entry]
      by_cases hpage : pageOf v = pageOf c.virtAddr
      · rw [if_pos hpage, if_pos ⟨rfl, hpage.symm⟩]
        cases c.result <;> rfl
      · rw [if_neg hpage, if_neg fun h' ↦ hpage h'.2.symm, h.translate v, PageMap.translate]
  · exact ⟨ht.enabled, ht.separated.archMmuInvalidate, ht.slots, ht.translate⟩
  · refine ⟨h.enabled, h.separated, h.slots, ?_⟩
    intro v
    rw [h.translate v, PageMap.translate, PageMap.translate, PageMap.ofLog_concat,
      if_neg fun h' ↦ Errno.noConfusion h'.1]

theorem PageMap.simulates_exec (hen : armv7MmuIsEnabled s = true) (hsep : WellSeparated s)
    (calls : List PageCall) :
    PageMap.Simulates s (Run.exec PageCall.exec s calls).1 (Run.exec PageCall.exec s calls).2 :=
  Run.exec_invariant ⟨hen, hsep, fun _ _ ↦ rfl, fun _ ↦ rfl⟩ (fun _ _ c h ↦ h.exec c) calls

/-- **Page mapping refines a finite map.** After any sequence of calls the machine translates as the
map of the last successful calls does, and at every point of the sequence a call succeeds exactly
when the slot of its address is a TABLE slot, as it was at the start; any other call has no
effect. -/
theorem pageCalls_refine_pageMap (hen : armv7MmuIsEnabled s = true) (hsep : WellSeparated s)
    (calls : List PageCall) :
    (∀ v, virtToPhy (Run.exec PageCall.exec s calls).2 v
      = (PageMap.ofLog (Run.exec PageCall.exec s calls).1).translate (virtToPhy s) v) ∧
    ∀ pre c post, calls = pre ++ c :: post →
      ((c.exec (Run.exec PageCall.exec s pre).2).1 = .esucc
        ↔ IsTableSlot (Run.exec PageCall.exec s pre).2 (slotIndex c.virtAddr)) ∧
      (IsTableSlot (Run.exec PageCall.exec s pre).2 (slotIndex c.virtAddr)
        ↔ IsTableSlot s (slotIndex c.virtAddr)) ∧
      ((c.exec (Run.exec PageCall.exec s pre).2).1 ≠ .esucc →
        (c.exec (Run.exec PageCall.exec s pre).2).2 = (Run.exec PageCall.exec s pre).2) := by
  refine ⟨(PageMap.simulates_exec hen hsep calls).translate, ?_⟩
  intro pre c post _
  have hpre := PageMap.simulates_exec hen hsep pre
  refine ⟨?_, ?_, ?_⟩
  · rcases c.exec_cases hpre.enabled with ⟨htab, hok, -⟩ | ⟨htab, hfail⟩
    · exact iff_of_true hok htab
    · exact iff_of_false (by rw [hfail]; exact Errno.noConfusion) htab
  · rw [IsTableSlot, hpre.slots _ (slotIndex_lt _), IsTableSlot]
  · intro hne
    rcases c.exec_cases hpre.enabled with ⟨-, hok, -⟩ | ⟨-, hfail⟩
    · exact absurd hok hne
    · rw [hfail]

/-- Mapping a page, then another one, then removing the second. -/
theorem pageCalls_refine_pageMap_oneTable :
    virtToPhy (Run.exec PageCall.exec oneTable
      [.createEntry 0x3000#32 0x60001234#32 .user, .createEntry 0x4000#32 0x60005000#32 .kernel,
        .invalidatePage 0x4000#32]).2 0x3ABC#32 = 0x60001ABC#32 := by
  rw [(pageCalls_refine_pageMap rfl wellSeparated_oneTable _).1]
  decide

end Sugarcat
