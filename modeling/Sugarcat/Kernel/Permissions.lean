import Sugarcat.Kernel.PageMap

/-!
# Requested access and granted access

The access asked for passes through two encodings, `archMmuAccToArmv7` and the permission field of a
table word. With SCTLR.AFE set, as `init_enable_mmu` sets it, the hardware does not read that field
as the code writes it: bit 4 is the access flag, AP[1] is bit 5 and AP[2] is bit 9, which the code
never sets.

## What a word grants

`apAccess` reads a word as the hardware does then, and has four outcomes. Since AP[2] is never set,
a page that the code has mapped can always be written by the kernel, and if user mode can read it,
user mode can write it as well.

## Runs

`GrantsAtMost` says that a word grants no more than was asked for. What a page grants is decided by
the word in its table, so the statement is about runs: `TableWords` is the invariant that the word
of a page is the one that the last successful call on it made, and each call preserves it.
`grantsAtMost_iff` then says for which requests it does, whatever was mapped before: a page that is
meant to be read-only is writable from user mode, or by the kernel.
-/

namespace Sugarcat

open ByteMemory

/-! ## What a word grants -/

/-- The access AP[2:1] denotes when SCTLR.AFE is set. -/
inductive ApAccess where
  | privRw
  | allRw
  | privRo
  | allRo
  deriving DecidableEq, Repr

/-- AP[2] is bit 9 of a small page, AP[1] is bit 5. -/
def apAccess (pte : Word) : ApAccess :=
  match pte.getLsbD 9, pte.getLsbD 5 with
  | false, false => .privRw
  | false, true => .allRw
  | true, false => .privRo
  | true, true => .allRo

namespace ApAccess

def userWrite : ApAccess → Bool
  | allRw => true
  | privRw | privRo | allRo => false

def userRead : ApAccess → Bool
  | allRw | allRo => true
  | privRw | privRo => false

def privilegedWrite : ApAccess → Bool
  | privRw | allRw => true
  | privRo | allRo => false

end ApAccess

/-- The word grants no more than the access `f` asks for. -/
structure GrantsAtMost (pte : Word) (f : MmuAccFlags) : Prop where
  userWrite : (apAccess pte).userWrite = true → f = .user
  userRead : (apAccess pte).userRead = true → f = .user ∨ f = .kernUser
  privilegedWrite : (apAccess pte).privilegedWrite = true → f ≠ .kernelRo

/-! ## The word of a page -/

variable {s : Machine}

/-- A small page maps AP[2:1] from its access alone. -/
theorem apAccess_pgtbEntryWord {e : MmuEntry} (he : e.type = .pgTab) :
    apAccess (pgtbEntryWord e.toArmv7Pgtb)
      = if e.accFlags = .kernUser ∨ e.accFlags = .kernelRo then .allRw else .privRw := by
  have htype : e.toArmv7Pgtb.type = .pgtbSmallPg := by rw [MmuEntry.toArmv7Pgtb, he]; rfl
  have hflags : e.toArmv7Pgtb.flags = 0#32 := rfl
  have hperm : e.toArmv7Pgtb.accPerm = archMmuAccToArmv7 e.accFlags := rfl
  have hbit : ∀ i, i = 5 ∨ i = 9 → (pgtbEntryWord e.toArmv7Pgtb).getLsbD i
      = ((archMmuAccToArmv7 e.accFlags).toWord <<< pgtbApShift).getLsbD i := by
    intro i hi
    -- neither the frame nor the type reaches bits 5 and 9
    have hmask : (pgtbSmPgMask : Word).getLsbD i = false := by rcases hi with rfl | rfl <;> rfl
    have hpage : Armv7MmuPgtbType.pgtbSmallPg.toWord.getLsbD i = false := by
      rcases hi with rfl | rfl <;> rfl
    simp only [pgtbEntryWord, htype, hflags, hperm, BitVec.getLsbD_or, BitVec.getLsbD_and, hmask,
      hpage, BitVec.getLsbD_zero, Bool.and_false, Bool.or_false, Bool.false_or]
  rw [apAccess, hbit 5 (by simp), hbit 9 (by simp)]
  cases e.accFlags <;> decide

/-- What the word of a page is after a log of calls that led to `t`. -/
structure TableWords (log : List (PageCall × Errno)) (t : Machine) : Prop where
  enabled : armv7MmuIsEnabled t = true
  separated : WellSeparated t
  /-- The last successful call on a page has left its word. -/
  word : ∀ v c e, lastSuccessful log (pageOf v) = some (c, e) →
    IsTableSlot t (slotIndex v) ∧
      ∃ kvaddr, t.load (ptAddr t v) = pgtbEntryWord (c.entry kvaddr).toArmv7Pgtb

theorem TableWords.exec {log : List (PageCall × Errno)} (h : TableWords log s) (c : PageCall) :
    TableWords (log ++ [(c, (c.exec s).1)]) (c.exec s).2 := by
  refine c.exec_rule h.enabled (fun htab ↦ ?_) (fun log t ht ↦ ?_) ?_
  · refine ⟨h.enabled, h.separated.store_ptAddr htab, ?_⟩
    intro v d e hlast
    rw [lastSuccessful_concat] at hlast
    rw [h.separated.isTableSlot_store htab (slotIndex_lt v), h.separated.ptAddr_store htab]
    by_cases hpage : pageOf v = pageOf c.virtAddr
    · rw [if_pos ⟨rfl, hpage.symm⟩, Option.some_inj, Prod.mk.injEq] at hlast
      obtain ⟨rfl, -⟩ := hlast
      have hv : IsTableSlot s (slotIndex v) := (pageOf_eq_iff.mp hpage).1 ▸ htab
      refine ⟨hv, archMmuGetKernVaddr s, ?_⟩
      rw [h.separated.load_ptAddr_store htab hv, if_pos hpage]
    · rw [if_neg fun h' ↦ hpage h'.2.symm] at hlast
      obtain ⟨hv, kvaddr, hword⟩ := h.word v d e hlast
      refine ⟨hv, kvaddr, ?_⟩
      rw [h.separated.load_ptAddr_store htab hv, if_neg hpage, hword]
  · exact ⟨ht.enabled, ht.separated.archMmuInvalidate, ht.word⟩
  · refine ⟨h.enabled, h.separated, fun v d e hlast ↦ h.word v d e ?_⟩
    rwa [lastSuccessful_concat, if_neg fun h' ↦ Errno.noConfusion h'.1] at hlast

theorem tableWords_exec (hen : armv7MmuIsEnabled s = true) (hsep : WellSeparated s)
    (calls : List PageCall) :
    TableWords (Run.exec PageCall.exec s calls).1 (Run.exec PageCall.exec s calls).2 :=
  Run.exec_invariant ⟨hen, hsep, fun _ _ _ h ↦ by simp [lastSuccessful] at h⟩
    (fun _ _ c h ↦ h.exec c) calls

/-! ## The request and the grant -/

/-- **After any run, a page grants no more than its last mapping asked for exactly when that did not
ask for a page that is read-only.** -/
theorem grantsAtMost_iff (hen : armv7MmuIsEnabled s = true) (hsep : WellSeparated s)
    (calls : List PageCall) {v w p : Addr} {f : MmuAccFlags} {e : Errno}
    (hlast : lastSuccessful (Run.exec PageCall.exec s calls).1 (pageOf v)
      = some (.createEntry w p f, e)) :
    GrantsAtMost ((Run.exec PageCall.exec s calls).2.load
        (ptAddr (Run.exec PageCall.exec s calls).2 v)) f
      ↔ f ≠ .kernUser ∧ f ≠ .kernelRo := by
  obtain ⟨-, kvaddr, hword⟩ := (tableWords_exec hen hsep calls).word v _ e hlast
  have hap : apAccess (pgtbEntryWord (MmuEntry.toArmv7Pgtb ⟨p, w, .pgTab, f⟩))
      = if f = .kernUser ∨ f = .kernelRo then .allRw else .privRw :=
    apAccess_pgtbEntryWord rfl
  rw [hword, PageCall.entry]
  constructor
  · rintro ⟨hwrite, -, -⟩
    rw [hap] at hwrite
    refine ⟨?_, ?_⟩ <;> rintro rfl <;> exact absurd (hwrite rfl) (by decide)
  · rintro ⟨hku, hro⟩
    rw [if_neg (not_or.mpr ⟨hku, hro⟩)] at hap
    refine ⟨?_, ?_, fun _ ↦ hro⟩ <;> rw [hap] <;> exact fun h ↦ absurd h (by decide)

/-- A page mapped for the kernel alone, after one for all. -/
theorem grantsAtMost_iff_oneTable :
    GrantsAtMost ((Run.exec PageCall.exec oneTable [.createEntry 0x3000#32 0x60001000#32 .user,
        .createEntry 0x3000#32 0x60002000#32 .kernel]).2.load
      (ptAddr (Run.exec PageCall.exec oneTable [.createEntry 0x3000#32 0x60001000#32 .user,
        .createEntry 0x3000#32 0x60002000#32 .kernel]).2 0x3000#32)) .kernel :=
  (grantsAtMost_iff (w := 0x3000#32) (p := 0x60002000#32) (e := .esucc) rfl wellSeparated_oneTable _
    rfl).mpr ⟨by decide, by decide⟩

/-- A page that user mode may read: it may write it, too. -/
theorem not_grantsAtMost_oneTable :
    lastSuccessful (Run.exec PageCall.exec oneTable
        [.createEntry 0x3000#32 0x60001000#32 .kernUser]).1 (pageOf 0x3000#32)
      = some (.createEntry 0x3000#32 0x60001000#32 .kernUser, .esucc) ∧
    ¬GrantsAtMost ((Run.exec PageCall.exec oneTable
        [.createEntry 0x3000#32 0x60001000#32 .kernUser]).2.load
      (ptAddr (Run.exec PageCall.exec oneTable
        [.createEntry 0x3000#32 0x60001000#32 .kernUser]).2 0x3000#32)) .kernUser := by
  refine ⟨rfl, ?_⟩
  intro h
  exact absurd (h.userWrite (by decide)) (by decide)

end Sugarcat
