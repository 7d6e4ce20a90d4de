import Sugarcat.Kernel.AddressSpaces

/-!
# What address spaces owe to their past

What a half holds is told from the log of its calls: of a MiB the last entry for its directory
counts, and of a page the last one for its table that was not refused. `virtToPhy_eq_request` says
so of the machine, for any run and any space that is switched to at its end.

## From the log to an address

`Half.after` is the half that a log leaves, slot by slot and word by word. `Half.request` goes one
step further and says what an address is translated to, in the terms of the entries themselves: the
frame that was asked for, or nothing, or what the half had at the beginning if there was no entry.
Between the two there is only the decoding of words that the code has encoded.

The calls of other spaces do not occur. That the log of a half is what its own calls give, in a run
that mixes the calls of all spaces, is what the refinement says.
-/

namespace Sugarcat

open ByteMemory

namespace HalfCall

def entry : HalfCall → MmuEntry
  | .live e | .offline e => e

end HalfCall

/-- An entry for a directory. -/
def MmuEntry.isDir (e : MmuEntry) : Bool :=
  match e.type with
  | .pgDir | .pgDirInval => true
  | .pgTab | .pgTabInval => false

/-- The last entry for the slot of a MiB. -/
def lastDir (log : List (HalfCall × Errno)) (i : ℕ) : Option MmuEntry :=
  (Run.lastMatch (fun x ↦ x.1.entry.isDir && decide (slotIndex x.1.entry.virtAddr = i)) log).map
    fun x ↦ x.1.entry

/-- The last entry for the word of a page that was not refused. -/
def lastPage (log : List (HalfCall × Errno)) (p : ℕ) : Option MmuEntry :=
  (Run.lastMatch (fun x ↦ !x.1.entry.isDir && decide (x.2 = .esucc) &&
    decide (pageOf x.1.entry.virtAddr = p)) log).map fun x ↦ x.1.entry

/-- A half after a log. -/
def Half.after (h : Half) (log : List (HalfCall × Errno)) : Half where
  slot i := (lastDir log i).elim (h.slot i) fun e ↦ pgdEntryWord e.toArmv7Pgd
  word p := (lastPage log p).elim (h.word p) fun e ↦ pgtbEntryWord e.toArmv7Pgtb

/-- What the last entry for a page asks for. -/
def Half.pageRequest (h : Half) (log : List (HalfCall × Errno)) (v : Addr) : Addr :=
  match lastPage log (pageOf v) with
  | some e =>
    if e.type = .pgTab then (e.phyAddr &&& pgtbSmPgMask) ||| (v &&& ~~~pgtbSmPgMask)
    else pteTranslate (pgtbEntryWord e.toArmv7Pgtb) v
  | none => pteTranslate (h.word (pageOf v)) v

/-- What the last entries for an address ask for. -/
def Half.request (h : Half) (log : List (HalfCall × Errno)) (v : Addr) : Addr :=
  match lastDir log (slotIndex v) with
  | some d => if d.type = .pgDir then h.pageRequest log v else 0#32
  | none =>
    if h.slot (slotIndex v) &&& pgdTypeMask = Armv7MmuPgdType.pgdSection.toWord then
      (h.slot (slotIndex v) &&& pgdSectMask) ||| (v &&& ~~~pgdSectMask)
    else if h.IsTable (slotIndex v) then h.pageRequest log v
    else 0#32

variable {log : List (HalfCall × Errno)}

/-! ## One call -/

theorem lastDir_concat (log : List (HalfCall × Errno)) (c : HalfCall) (r : Errno) (i : ℕ) :
    lastDir (log ++ [(c, r)]) i =
      if c.entry.isDir = true ∧ slotIndex c.entry.virtAddr = i then some c.entry
      else lastDir log i := by
  simp only [lastDir, Run.lastMatch_concat, Bool.and_eq_true, decide_eq_true_eq]
  split_ifs <;> rfl

theorem lastPage_concat (log : List (HalfCall × Errno)) (c : HalfCall) (r : Errno) (p : ℕ) :
    lastPage (log ++ [(c, r)]) p =
      if c.entry.isDir = false ∧ r = .esucc ∧ pageOf c.entry.virtAddr = p then some c.entry
      else lastPage log p := by
  simp only [lastPage, Run.lastMatch_concat, Bool.and_eq_true, decide_eq_true_eq,
    Bool.not_eq_true', and_assoc]
  split_ifs <;> rfl

/-- What a call does, by what it is for. -/
theorem HalfCall.step_cases (c : HalfCall) (h : Half) :
    (c.entry.isDir = true ∧ c.step h =
      (.esucc, h.setSlot (slotIndex c.entry.virtAddr) (pgdEntryWord c.entry.toArmv7Pgd))) ∨
    (c.entry.isDir = false ∧ c.step h =
      (.esucc, h.setWord (pageOf c.entry.virtAddr) (pgtbEntryWord c.entry.toArmv7Pgtb))) ∨
    (c.entry.isDir = false ∧ c.step h = (.enotfnd, h)) := by
  cases c with
  | live e =>
    cases htype : e.type with
    | pgDir | pgDirInval => simp [step, entry, MmuEntry.isDir, htype]
    | pgTab | pgTabInval =>
      by_cases htab : h.IsTable (slotIndex e.virtAddr) <;>
        simp [step, entry, MmuEntry.isDir, htype, htab]
  | offline e => cases htype : e.type <;> simp [step, entry, MmuEntry.isDir, htype]

theorem Half.after_concat (h : Half) (log : List (HalfCall × Errno)) (c : HalfCall) :
    h.after (log ++ [(c, (c.step (h.after log)).1)]) = (c.step (h.after log)).2 := by
  rcases c.step_cases (h.after log) with ⟨hdir, hstep⟩ | ⟨hdir, hstep⟩ | ⟨hdir, hstep⟩ <;>
    rw [hstep]
  · have hpage : ∀ p, lastPage (log ++ [(c, .esucc)]) p = lastPage log p := by
      intro p
      rw [lastPage_concat, if_neg fun h' ↦ absurd (hdir.symm.trans h'.1) (by decide)]
    simp only [after, hpage, setSlot, lastDir_concat, hdir, true_and]
    congr 1
    funext i
    rw [Function.update_apply]
    by_cases hi : slotIndex c.entry.virtAddr = i
    · rw [if_pos hi, if_pos hi.symm]
      rfl
    · rw [if_neg hi, if_neg (Ne.symm hi)]
  · have hslot : ∀ i, lastDir (log ++ [(c, .esucc)]) i = lastDir log i := by
      intro i
      rw [lastDir_concat, if_neg fun h' ↦ absurd (hdir.symm.trans h'.1) (by decide)]
    simp only [after, hslot, setWord, lastPage_concat, hdir, true_and]
    congr 1
    funext p
    rw [Function.update_apply]
    by_cases hp : pageOf c.entry.virtAddr = p
    · rw [if_pos hp, if_pos hp.symm]
      rfl
    · rw [if_neg hp, if_neg (Ne.symm hp)]
  · have hslot : ∀ i, lastDir (log ++ [(c, .enotfnd)]) i = lastDir log i := by
      intro i
      rw [lastDir_concat, if_neg fun h' ↦ absurd (hdir.symm.trans h'.1) (by decide)]
    have hpage : ∀ p, lastPage (log ++ [(c, .enotfnd)]) p = lastPage log p := by
      intro p
      rw [lastPage_concat, if_neg fun h' ↦ Errno.noConfusion h'.2.1]
    simp only [after, hslot, hpage]

/-! ## Translation -/

theorem pteTranslate_after (h : Half) (log : List (HalfCall × Errno)) (v : Addr) :
    pteTranslate ((h.after log).word (pageOf v)) v = h.pageRequest log v := by
  have hword : (h.after log).word (pageOf v) =
      (lastPage log (pageOf v)).elim (h.word (pageOf v)) fun e ↦ pgtbEntryWord e.toArmv7Pgtb := rfl
  rw [hword, Half.pageRequest]
  cases lastPage log (pageOf v) with
  | none => rfl
  | some e =>
    dsimp only [Option.elim_some]
    split_ifs with htype
    · have hpage : e.toArmv7Pgtb.type = .pgtbSmallPg := by
        rw [MmuEntry.toArmv7Pgtb, htype]
        rfl
      exact pteTranslate_smallPg hpage BitVec.zero_and BitVec.zero_and v
    · rfl

theorem archMmuAccToDomain_lt (f : MmuAccFlags) : archMmuAccToDomain f < 16#8 := by
  cases f <;> decide

theorem pgdEntryWord_and_type {e : MmuEntry} (he : e.isDir = true) :
    pgdEntryWord e.toArmv7Pgd &&& pgdTypeMask =
      if e.type = .pgDir then Armv7MmuPgdType.pgdTable.toWord
      else Armv7MmuPgdType.pgdInvalid.toWord := by
  have hdom : e.toArmv7Pgd.domain < 16#8 := archMmuAccToDomain_lt e.accFlags
  cases htype : e.type with
  | pgDir =>
    have htable : e.toArmv7Pgd.type = .pgdTable := by
      rw [MmuEntry.toArmv7Pgd, htype]
      rfl
    exact (pgdEntryWord_table htable hdom BitVec.zero_and BitVec.zero_and).1
  | pgDirInval =>
    have hinval : e.toArmv7Pgd.type = .pgdInvalid := by
      rw [MmuEntry.toArmv7Pgd, htype]
      rfl
    have hflags : e.toArmv7Pgd.flags = 0#32 := rfl
    rw [pgdEntryWord, hinval, hflags]
    simp only [BitVec.and_or_distrib_right, (domain_shift_and hdom).1]
    rfl
  | pgTab | pgTabInval =>
    rw [MmuEntry.isDir, htype] at he
    exact absurd he (by decide)

theorem isDir_of_lastDir {i : ℕ} {e : MmuEntry} (he : lastDir log i = some e) :
    e.isDir = true := by
  obtain ⟨x, hx, rfl⟩ := Option.map_eq_some_iff.mp he
  exact (Bool.and_eq_true_iff.mp (Run.mem_of_lastMatch hx).2).1

/-- **A half translates as the last entries ask for.** -/
theorem Half.translate_after (h : Half) (log : List (HalfCall × Errno)) (v : Addr) :
    (h.after log).translate v = h.request log v := by
  have hslot : (h.after log).slot (slotIndex v) = (lastDir log (slotIndex v)).elim
      (h.slot (slotIndex v)) fun e ↦ pgdEntryWord e.toArmv7Pgd := rfl
  simp only [translate, IsTable, pteTranslate_after, hslot, request]
  cases hlast : lastDir log (slotIndex v) with
  | none => rfl
  | some d =>
    rw [Option.elim_some, pgdEntryWord_and_type (isDir_of_lastDir hlast)]
    dsimp only
    split_ifs <;> first | rfl | contradiction

/-! ## Runs -/

theorem Half.exec_eq_after (h : Half) (calls : List HalfCall) :
    (Run.exec HalfCall.step h calls).2 = h.after (Run.exec HalfCall.step h calls).1 := by
  induction calls using List.reverseRecOn with
  | nil => rfl
  | append_singleton calls c ih => rw [Run.exec_concat, ih, h.after_concat]

namespace SpaceLayout

variable {K : Type*} [DecidableEq K] {l : SpaceLayout K} {a : K × (Option K → Half)} {s : Machine}

/-- The log of a half in a run of the machine. -/
def halfLog (l : SpaceLayout K) (k : K) (s : Machine) (calls : List (SpaceCall K)) (o : Option K) :
    List (HalfCall × Errno) :=
  l.dispatch.ownLog o k (Run.exec l.exec s calls).1

theorem alone_eq_after (href : l.Refines a s) {calls : List (SpaceCall K)}
    (hok : l.Allowed a calls) (o : Option K) :
    (l.alone a calls o).2 = (a.2 o).after (l.halfLog a.1 s calls o) := by
  rw [halfLog, (href.run_alone hok).1, alone]
  exact (a.2 o).exec_eq_after _

/-- **A space translates as the last entries for it ask for**, once it is switched to. -/
theorem virtToPhy_eq_request (href : l.Refines a s) {calls : List (SpaceCall K)}
    (hok : l.Allowed a calls) {k : K} (hlinked : l.Linked (some k) (l.alone a calls (some k)).2)
    (v : Addr) :
    virtToPhy (mmuSetUserPageDir (l.pgDir (some k)) (Run.exec l.exec s calls).2).2 v =
      (a.2 (l.halfOf k v)).request (l.halfLog a.1 s calls (l.halfOf k v)) v := by
  have hspace := ((href.run_alone hok).2.setUserPageDir hlinked).2.virtToPhy_eq v
  dsimp only at hspace
  rw [hspace, alone_eq_after href hok, Half.translate_after]

/-- The page of the other space. -/
theorem virtToPhy_eq_request_narrowSpaces :
    virtToPhy (mmuSetUserPageDir 0x20000#32
      (Run.exec narrowSpaces.exec narrowHalf narrowCalls).2).2 0x3ABC#32 = 0x60001ABC#32 :=
  (virtToPhy_eq_request refines_narrowSpaces (allowed_narrowCalls (List.Subset.refl _))
    linked_narrowCalls _).trans (by decide +kernel)

end SpaceLayout

end Sugarcat
