import Sugarcat.Armv7.Domains
import Sugarcat.Kernel.SpaceHistory
import Sugarcat.Vexpress.AddressSpace

/-!
# Whose permissions are checked

`vexpress_init` makes the domain of users one of managers, and that of the kernel one of clients.
But the tables it enters, those of the kernel half among them, are in the domain of users, like the
sections of the boot code. `isChecked_run` says which accesses are checked in every later run: those
to a MiB whose last entry for a directory was one for the kernel.

## DACR

No call of the memory manager sets a domain, so DACR is the same in every state of a run
(`run_dacr`), and the question is which domain the slot of a MiB names. That a call leaves the
register alone is by its branches, each of which stores a word or does nothing.

## The slots

The slots are known from the log: the last entry for a directory has left its word there, and where
there was none the slot is as it was at the beginning. The domain is a field of the word that no
other field reaches into, so it is read back as it was put there. What the slots are at the
beginning is the work of the set-up, for the halves that are in use, and of whoever prepared the
memory for the others.
-/

namespace Sugarcat

open ByteMemory

/-! ## DACR -/

theorem archMmuCreateEntry_dacr (e : MmuEntry) (s : Machine) :
    (archMmuCreateEntry e s).2.dacr = s.dacr := by
  have hpgd : ∀ x, (armv7MmuMapPgd (some x) s).2.dacr = s.dacr := by
    intro x
    simp only [armv7MmuMapPgd]
    split_ifs <;> rfl
  have hpgtb : ∀ x, (armv7MmuMapPgtb (some x) s).2.dacr = s.dacr := by
    intro x
    simp only [armv7MmuMapPgtb]
    split_ifs
    -- the table is looked for in either directory
    all_goals first
      | rfl
      | split
        · split_ifs <;> rfl
        · rfl
  rw [archMmuCreateEntry]
  cases e.type with
  | pgDir | pgDirInval => exact hpgd _
  | pgTab | pgTabInval => exact hpgtb _

theorem archMmuCreateNewEntry_dacr (b : Addr) (e : MmuEntry) (s : Machine) :
    (archMmuCreateNewEntry b e s).2.dacr = s.dacr := by
  have hpgd : ∀ a x, (armv7MmuMapNewPgd a (some x) s).2.dacr = s.dacr := by
    intro a x
    simp only [armv7MmuMapNewPgd]
    split_ifs <;> rfl
  have hpgtb : ∀ a x, (armv7MmuMapNewPgtb a (some x) s).2.dacr = s.dacr := by
    intro a x
    simp only [armv7MmuMapNewPgtb]
    split_ifs <;> rfl
  rw [archMmuCreateNewEntry]
  cases e.type with
  | pgDir | pgDirInval => exact hpgd _ _
  | pgTab | pgTabInval => exact hpgtb _ _

theorem mmuInvalidatePage_dacr (v : Addr) (s : Machine) :
    (mmuInvalidatePage v s).2.dacr = s.dacr := by
  simp only [mmuInvalidatePage, mmuCreatePgtbEntry]
  split_ifs <;> exact archMmuCreateEntry_dacr _ _

theorem mmuSetUserPageDir_dacr (d : Addr) (s : Machine) :
    (mmuSetUserPageDir d s).2.dacr = s.dacr := by
  simp only [mmuSetUserPageDir, archMmuSetUserPgDir, armv7MmuSetUserPgd]
  split_ifs <;> rfl

namespace SpaceLayout

variable {K : Type*} {l : SpaceLayout K}

/-- No call of the memory manager sets a domain. -/
theorem exec_dacr (l : SpaceLayout K) (c : SpaceCall K) (s : Machine) :
    (l.exec c s).2.dacr = s.dacr := by
  cases c with
  | createEntry e => exact archMmuCreateEntry_dacr e s
  | createNewEntry o e =>
    rw [exec]
    cases e.type <;> exact archMmuCreateNewEntry_dacr _ _ _
  | invalidatePage v => exact mmuInvalidatePage_dacr v s
  | setUserPageDir k => exact mmuSetUserPageDir_dacr _ _

theorem run_dacr (l : SpaceLayout K) (calls : List (SpaceCall K)) (s : Machine) :
    (Run.exec l.exec s calls).2.dacr = s.dacr := by
  induction calls using List.reverseRecOn with
  | nil => rfl
  | append_singleton calls c ih => rw [Run.exec_concat, exec_dacr, ih]

end SpaceLayout

/-! ## The set-up -/

theorem pgdDomain_initSectionWord (p : Addr) : pgdDomain (initSectionWord p) = userDomain := by
  have hsect : (pgdSectMask : Word) &&& pgdDomainMask = 0#32 := rfl
  rw [pgdDomain, initSectionWord, BitVec.and_or_distrib_right, BitVec.and_or_distrib_right,
    BitVec.and_assoc, hsect, BitVec.and_zero]
  rfl

namespace InitLayout

variable {l : InitLayout} {s : Machine}

theorem domainAccess_setUpTables (l : InitLayout) (s : Machine) :
    domainAccess (l.setUpTables s) userDomain = armv7DacrMngr.setWidth 2 ∧
      domainAccess (l.setUpTables s) kernDomain = armv7DacrClient.setWidth 2 := by
  rw [setUpTables_eq, domainAccess_armv7SetDomain (by decide),
    domainAccess_armv7SetDomain (by decide), domainAccess_armv7SetDomain (by decide),
    if_neg (by decide), if_pos rfl, if_pos rfl]
  exact ⟨rfl, rfl⟩

variable (hs : Booted s) (hwin : ∀ r ∈ l.mapped, r.InWindow)
include hs hwin

variable {K : Type*} {o : Option K} {i : ℕ}

theorem pgdDomain_slot_setUpTables (L : l.BootSpaces K) (ho : o = none ∨ o = some L.boot)
    (hi : L.Owns o i) :
    pgdDomain ((L.toSpaceLayout.read (l.setUpTables s) o).slot i) = userDomain := by
  obtain ⟨hmem, hsctlr, httbcr, h0, h1⟩ := l.setUpTables_same s
  have hb : Booted (l.setUpTables s) :=
    (booted_halved hs hwin).congr hmem hsctlr httbcr h0 h1
  have hcnt : userSlotCnt L.pgDiv = 2048 := by
    rw [L.pgDiv_eq]
    rfl
  have hdir : L.pgDir o = kPgd := by
    rcases ho with rfl | rfl
    · exact L.kern_pgDir
    · exact L.boot_pgDir
  rw [slot_read L _ hi hdir]
  obtain ⟨hle, hlt⟩ := hi
  rcases ho with rfl | rfl
  · rw [SpaceMap.first, hcnt] at hle hlt
    rw [SpaceMap.slotCnt, hcnt] at hlt
    obtain ⟨j, rfl⟩ := Nat.exists_eq_add_of_le hle
    have hload : (l.setUpTables s).load (bootSlot (2048 + j)) =
        (l.halved s).load (bootSlot (2048 + j)) := by
      rw [Machine.load, hmem, Machine.load]
    rw [hload, load_halved_slot hs (by omega)]
    exact pgdDomain_pgdEntryWord fitsPgd_kdefEnt.domain rfl
  · rw [SpaceMap.first, SpaceMap.slotCnt, hcnt] at hlt
    rw [hb.user i (by omega), pgdDomain_initSectionWord]

/-- **Whose permissions are checked** after any run, in any space that is switched to: the last
entry for a directory decides, and where there was none nobody's are, unless the memory of the space
was prepared otherwise. -/
theorem isChecked_run [DecidableEq K] (L : l.BootSpaces K) {calls : List (SpaceCall K)}
    (hok : L.Allowed (L.boot, L.toSpaceLayout.read (l.setUpTables s)) calls) {k : K}
    (hlinked : L.Linked (some k)
      (L.alone (L.boot, L.toSpaceLayout.read (l.setUpTables s)) calls (some k)).2) (v : Addr) :
    IsChecked (mmuSetUserPageDir (L.pgDir (some k))
        (Run.exec L.exec (l.setUpTables s) calls).2).2 v ↔
      match lastDir (L.halfLog L.boot (l.setUpTables s) calls (L.halfOf k v)) (slotIndex v) with
      | some d => archMmuAccToDomain d.accFlags = kernDomain
      | none => L.halfOf k v = some k ∧ k ≠ L.boot ∧ domainAccess (l.setUpTables s)
          (pgdDomain ((L.toSpaceLayout.read (l.setUpTables s) (some k)).slot (slotIndex v))) =
            armv7DacrClient.setWidth 2 := by
  have href := refines_setUpTables hs hwin L
  obtain ⟨huser, hkern⟩ := l.domainAccess_setUpTables s
  have hdacr := (mmuSetUserPageDir_dacr (L.pgDir (some k)) _).trans
    (SpaceLayout.run_dacr L.toSpaceLayout calls (l.setUpTables s))
  have hslot := ((href.run_alone hok).2.setUserPageDir hlinked).2.liveSlot_eq v
  dsimp only at hslot
  have hafter : ∀ (h : Half) log, (h.after log).slot (slotIndex v) =
      (lastDir log (slotIndex v)).elim (h.slot (slotIndex v)) fun e ↦ pgdEntryWord e.toArmv7Pgd :=
    fun _ _ ↦ rfl
  rw [IsChecked, domainAccess_congr hdacr, hslot, SpaceLayout.alone_eq_after href hok, hafter]
  cases lastDir (L.halfLog L.boot (l.setUpTables s) calls (L.halfOf k v)) (slotIndex v) with
  | some d =>
    dsimp only [Option.elim_some]
    have hdomain : pgdDomain (pgdEntryWord d.toArmv7Pgd) = archMmuAccToDomain d.accFlags :=
      pgdDomain_pgdEntryWord (archMmuAccToDomain_lt d.accFlags) rfl
    rw [hdomain]
    have hcases : ∀ f, archMmuAccToDomain f = userDomain ∨ archMmuAccToDomain f = kernDomain := by
      intro f
      cases f <;> decide
    rcases hcases d.accFlags with h | h
    · rw [h, huser]
      decide
    · rw [h, hkern]
      exact iff_of_true rfl rfl
  | none =>
    dsimp only [Option.elim_none]
    by_cases hhalf : L.halfOf k v = some k ∧ k ≠ L.boot
    · rw [hhalf.1]
      exact ⟨fun h ↦ ⟨rfl, hhalf.2, h⟩, fun h ↦ h.2.2⟩
    · have hboot : L.halfOf k v = none ∨ L.halfOf k v = some L.boot := by
        rw [SpaceMap.halfOf] at hhalf ⊢
        split_ifs at hhalf ⊢
        · right
          by_contra hne
          exact hhalf ⟨rfl, fun h ↦ hne (congrArg some h)⟩
        · exact Or.inl rfl
      rw [pgdDomain_slot_setUpTables hs hwin L hboot (L.owns_halfOf k v), huser]
      exact iff_of_false (by decide) fun h ↦ hhalf ⟨h.1, h.2.1⟩

omit hs hwin in
/-- A table of the kernel half that is entered once more, as one for the kernel. -/
def kernelTable : SpaceCall Bool :=
  .createNewEntry none ⟨0x60200400#32, 0x80100000#32, .pgDir, .kernel⟩

omit hs hwin in
theorem isChecked_run_evenSpaces :
    IsChecked (mmuSetUserPageDir kPgd (Run.exec evenSpaces.exec (evenImage.setUpTables
      (vexpressBootInit evenImage.toLayout zeroMachine)) [kernelTable]).2).2 0x80100004#32 := by
  have hs := booted_vexpressBootInit evenImage.toLayout zeroMachine
  have hwin : ∀ r ∈ evenImage.mapped, r.InWindow := by decide
  have hok : evenSpaces.Allowed (false, evenSpaces.toSpaceLayout.read
      (evenImage.setUpTables (vexpressBootInit evenImage.toLayout zeroMachine))) [kernelTable] := by
    intro pre c post h
    have hmem : c ∈ [kernelTable] := by
      rw [h]
      simp
    rw [List.mem_singleton.mp hmem]
    exact ⟨by decide, fun _ ↦ by decide⟩
  exact (isChecked_run hs hwin evenSpaces hok (k := false)
    (refines_setUpTables hs hwin evenSpaces).linked_user 0x80100004#32).mpr rfl

end InitLayout

end Sugarcat
