import Sugarcat.Armv7.Offline

/-!
# Entries that are meant to map nothing

An entry of type `PG_TAB_INVAL` removes the mapping of a page. `create_pgtb_entry` masks the
physical address of a large or a small page and leaves that of an invalid entry as it is, so its two
lowest bits end up in the type field of the word that is stored. `create_pgd_entry` drops the
address of an invalid entry.

## What is meant

`InvalidEntryUnmaps` says what such an entry is meant to do: the page of its address is mapped to
nothing afterwards, and no other page is affected. It says so of both ways of making an entry,
through the directories in use and through the base of a region, where that base leads to the table
in use.

## When it does so

`invalidEntryUnmaps_iff` says that it does so when these two bits do not spell the type of a page,
or when there is no table to write to. If they do spell one, the page is mapped. That its
translation is not the zero that stands for no mapping is seen at an address of the page whose last
bit is set, since the bit stays in the translation.
-/

namespace Sugarcat

open ByteMemory

/-- The page of `v` is unmapped in `s'`, and nothing else has changed since `s`. -/
def UnmapsPage (s s' : Machine) (v : Addr) : Prop :=
  ∀ w, virtToPhy s' w = if pageOf w = pageOf v then 0#32 else virtToPhy s w

/-- What is expected of an invalid entry, in the live tables or through the region they are in. -/
structure InvalidEntryUnmaps (s : Machine) (e : MmuEntry) : Prop where
  live : ∀ s', archMmuCreateEntry e s = (.esucc, s') → UnmapsPage s s' e.virtAddr
  /-- The call writes the table that the live directory uses for the address. -/
  offline : ∀ pgBase s', IsTableSlot s (slotIndex e.virtAddr) →
    pgBase ||| (newPgtbIndex e.virtAddr s <<< pgIdxShift) = tableBase s (slotIndex e.virtAddr) →
    archMmuCreateNewEntry pgBase e s = (.esucc, s') → UnmapsPage s s' e.virtAddr

variable {s : Machine} {e : MmuEntry} {pte : Word} {v : Addr}

theorem pgtbEntryWord_pgTabInval (he : e.type = .pgTabInval) :
    pgtbEntryWord e.toArmv7Pgtb &&& pgtbTypeMask = e.phyAddr &&& pgtbTypeMask :=
  pgtbEntryWord_invalid_type (by rw [MmuEntry.toArmv7Pgtb, he]; rfl) BitVec.zero_and

/-- A page has an address whose last bit is set. -/
theorem pageOf_or_one (v : Addr) : pageOf (v ||| 1#32) = pageOf v := by
  have hor : (v ||| 1#32).toNat / 2 ^ 12 = v.toNat / 2 ^ 12 := by
    rw [BitVec.toNat_or, Nat.or_div_two_pow]
    simp
  exact hor

theorem pteTranslate_ne_zero (h : pte &&& pgtbTypeMask = 1#32 ∨ pte &&& pgtbTypeMask = 2#32)
    (v : Addr) : pteTranslate pte (v ||| 1#32) ≠ 0#32 := by
  have hbit : (pteTranslate pte (v ||| 1#32)).getLsbD 0 = true := by
    rw [pteTranslate]
    rcases h with h | h
    · rw [h, if_pos (by decide)]
      simp [show pgtbLgPgMask[0] = false from rfl]
    · rw [h, if_neg (by decide), if_pos (by decide)]
      simp [show pgtbSmPgMask[0] = false from rfl]
  intro hzero
  rw [hzero] at hbit
  exact absurd hbit (by decide)

/-- **An invalid entry unmaps its page exactly when there is no page to write, or its address does
not end in the type of a page.** -/
theorem invalidEntryUnmaps_iff (hen : armv7MmuIsEnabled s = true) (hsep : WellSeparated s)
    (he : e.type = .pgTabInval) :
    InvalidEntryUnmaps s e ↔ ¬IsTableSlot s (slotIndex e.virtAddr) ∨
      e.phyAddr &&& pgtbTypeMask = 0#32 ∨ e.phyAddr &&& pgtbTypeMask = 3#32 := by
  have hcall := archMmuCreateEntry_pgtb hen (Or.inr he)
  constructor
  · intro h
    by_cases htab : IsTableSlot s (slotIndex e.virtAddr)
    · right
      rw [if_pos htab] at hcall
      have hzero := h.live _ hcall (e.virtAddr ||| 1#32)
      rw [virtToPhy, hsep.virtToPhy_store hen htab, if_pos (pageOf_or_one _),
        if_pos (pageOf_or_one _)] at hzero
      by_contra hbad
      rw [not_or] at hbad
      refine absurd hzero (pteTranslate_ne_zero ?_ _)
      rw [pgtbEntryWord_pgTabInval he]
      have hcases := pgtbType_cases e.phyAddr
      tauto
    · exact Or.inl htab
  · intro h
    -- both calls store the same word at the same place
    have hunmaps : IsTableSlot s (slotIndex e.virtAddr) →
        UnmapsPage s (s.store (ptAddr s e.virtAddr) (pgtbEntryWord e.toArmv7Pgtb)) e.virtAddr := by
      intro htab w
      rw [virtToPhy, hsep.virtToPhy_store hen htab]
      split_ifs
      · refine pteTranslate_eq_zero ?_ w
        rw [pgtbEntryWord_pgTabInval he]
        exact h.resolve_left (not_not.mpr htab)
      · rfl
    constructor
    · intro s' hs'
      rw [hcall] at hs'
      split_ifs at hs' with htab
      · rw [Prod.mk.injEq] at hs'
        rw [← hs'.2]
        exact hunmaps htab
      · exact absurd (congrArg Prod.fst hs') (by simp)
    · intro pgBase s' htab hbase hs'
      rw [archMmuCreateNewEntry_pgtb (Or.inr he), hbase, Prod.mk.injEq] at hs'
      rw [← hs'.2]
      exact hunmaps htab

/-- An address that is aligned to a page, as the callers pass it. -/
theorem invalidEntryUnmaps_iff_oneTable :
    InvalidEntryUnmaps oneTable ⟨0x60001000#32, 0x3000#32, .pgTabInval, .kernel⟩ :=
  (invalidEntryUnmaps_iff rfl wellSeparated_oneTable rfl).mpr (Or.inr (Or.inl (by decide)))

/-- An address that ends in the type of a small page. -/
theorem not_invalidEntryUnmaps_oneTable :
    ¬InvalidEntryUnmaps oneTable ⟨0x60001002#32, 0x3000#32, .pgTabInval, .kernel⟩ := by
  intro h
  have hzero := h.live _ rfl 0x3000#32
  exact absurd hzero (by decide)

end Sugarcat
