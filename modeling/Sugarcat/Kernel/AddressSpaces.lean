import Sugarcat.Armv7.OfflineBuild
import Sugarcat.Kernel.Mmu
import Sugarcat.Machine.Parts
import Sugarcat.Machine.WordArrays

/-!
# Address spaces side by side

A kernel half that is always in use, and any number of user halves of which one is. A half has a
directory and a region with one table for each of its slots. Entries are created live, in the halves
that are in use, or offline in any half; pages are invalidated, and the user directory is switched.

## The abstract system

The abstract system is a family of halves that know nothing of memory, with the current space as its
control. A half has a word for each of its slots and for each of its pages, and a call writes one of
them or is refused. Since the parts of such a system do not interfere, a half is translated through
as its own calls leave it, whatever else is done to the other ones between them.

## The layout

`SpaceLayout` is what is asked of memory. No two directories or regions of tables overlap, a user
directory is aligned as TTBR0 wants it, and the address of every table is composed by an OR that is
a sum. The last is more than the 4 KiB at which the interface aligns a region: it holds where a
region is aligned to its size, rounded up to a power of two.

## The rules of the calls

The machine refines the abstract system as long as no entry links a slot to a table of another half,
and no space is switched to before its links are in order (`Ok`). `Refines.exec` is the step lemma.
It rests on one fact about memory: a store to a slot or to a word of a table is an update at one
place of the family of arrays. `exec_refines` and `exec_eq_of_own` follow by the rules for runs of
systems of parts.
-/

namespace Sugarcat

open ByteMemory

/-! ## Halves -/

/-- What a half holds: a word for each MiB and a word for each page. -/
structure Half where
  slot : ℕ → Word
  word : ℕ → Word

namespace Half

def IsTable (h : Half) (i : ℕ) : Prop :=
  h.slot i &&& pgdTypeMask = Armv7MmuPgdType.pgdTable.toWord

instance (h : Half) (i : ℕ) : Decidable (h.IsTable i) := inferInstanceAs (Decidable (_ = _))

def translate (h : Half) (v : Addr) : Addr :=
  if h.slot (slotIndex v) &&& pgdTypeMask = Armv7MmuPgdType.pgdSection.toWord then
    (h.slot (slotIndex v) &&& pgdSectMask) ||| (v &&& ~~~pgdSectMask)
  else if h.IsTable (slotIndex v) then pteTranslate (h.word (pageOf v)) v
  else 0#32

def setSlot (h : Half) (i : ℕ) (x : Word) : Half := { h with slot := Function.update h.slot i x }

def setWord (h : Half) (p : ℕ) (x : Word) : Half := { h with word := Function.update h.word p x }

end Half

/-- An entry for a half, in use or not. -/
inductive HalfCall where
  | live (e : MmuEntry)
  | offline (e : MmuEntry)

/-- A page of a half in use needs a table, one of a half out of use is written in any case. -/
def HalfCall.step : HalfCall → Half → Errno × Half
  | .live e, h =>
    match e.type with
    | .pgDirInval | .pgDir => (.esucc, h.setSlot (slotIndex e.virtAddr) (pgdEntryWord e.toArmv7Pgd))
    | .pgTabInval | .pgTab =>
      if h.IsTable (slotIndex e.virtAddr) then
        (.esucc, h.setWord (pageOf e.virtAddr) (pgtbEntryWord e.toArmv7Pgtb))
      else (.enotfnd, h)
  | .offline e, h =>
    match e.type with
    | .pgDirInval | .pgDir => (.esucc, h.setSlot (slotIndex e.virtAddr) (pgdEntryWord e.toArmv7Pgd))
    | .pgTabInval | .pgTab =>
      (.esucc, h.setWord (pageOf e.virtAddr) (pgtbEntryWord e.toArmv7Pgtb))

/-! ## Spaces -/

/-- Where the halves are, `none` being that of the kernel: the base of a directory and the base of a
region of tables. -/
structure SpaceMap (K : Type*) where
  pgDiv : ℕ
  pgDir : Option K → Addr
  pgTbs : Option K → Addr

variable {K : Type*}

namespace SpaceMap

variable (l : SpaceMap K)

/-- The first MiB of a half. -/
def first : Option K → ℕ
  | some _ => 0
  | none => userSlotCnt l.pgDiv

def slotCnt : Option K → ℕ
  | some _ => userSlotCnt l.pgDiv
  | none => 4096 - userSlotCnt l.pgDiv

/-- The half of an address while the space `k` is in use. -/
def halfOf (k : K) (v : Addr) : Option K :=
  if slotIndex v < userSlotCnt l.pgDiv then some k else none

def Owns (o : Option K) (i : ℕ) : Prop := l.first o ≤ i ∧ i < l.first o + l.slotCnt o

instance (o : Option K) (i : ℕ) : Decidable (l.Owns o i) := inferInstanceAs (Decidable (_ ∧ _))

/-- The table that the slot of a MiB is for. -/
def tableOf (o : Option K) (i : ℕ) : Addr :=
  l.pgTbs o + BitVec.ofNat 32 (i - l.first o) * 0x400#32

/-- The beginning of the kernel half. -/
def kernVaddr : Addr := if l.pgDiv > 0 then 1#32 <<< (32 - l.pgDiv) else 0x0#32

end SpaceMap

/-- The slots of a directory, or the words of the tables, of a half. -/
inductive SpaceArray (K : Type*) where
  | slots (o : Option K)
  | words (o : Option K)
  deriving DecidableEq

def SpaceMap.base (l : SpaceMap K) : SpaceArray K → Addr
  | .slots o => l.pgDir o + 4#32 * BitVec.ofNat 32 (l.first o)
  | .words o => l.pgTbs o

def SpaceMap.cnt (l : SpaceMap K) : SpaceArray K → ℕ
  | .slots o => l.slotCnt o
  | .words o => 256 * l.slotCnt o

/-- Halves that are where the code expects them, and have nothing in common. -/
structure SpaceLayout (K : Type*) extends SpaceMap K where
  pgDiv_lt : pgDiv < 8
  user_aligned : ∀ k, 2 ^ (14 - pgDiv) ∣ (pgDir (some k)).toNat
  tables_aligned : ∀ o, 2 ^ 10 ∣ (pgTbs o).toNat
  or_eq_add : ∀ o, ∀ i < toSpaceMap.slotCnt o,
    pgTbs o ||| (BitVec.ofNat 32 i <<< pgIdxShift) = pgTbs o + BitVec.ofNat 32 i * 0x400#32
  apart : ∀ b c, b ≠ c → Apart (toSpaceMap.base b) (4 * toSpaceMap.cnt b) (toSpaceMap.base c)
    (4 * toSpaceMap.cnt c)

/-- A call of the memory manager. -/
inductive SpaceCall (K : Type*) where
  | createEntry (e : MmuEntry)
  | createNewEntry (o : Option K) (e : MmuEntry)
  | invalidatePage (v : Addr)
  | setUserPageDir (k : K)

namespace SpaceLayout

variable (l : SpaceLayout K)

/-- The call, with the base that its entry is for. -/
def exec : SpaceCall K → Machine → Errno × Machine
  | .createEntry e => archMmuCreateEntry e
  | .createNewEntry o e =>
    match e.type with
    | .pgDirInval | .pgDir => archMmuCreateNewEntry (l.pgDir o) e
    | .pgTabInval | .pgTab => archMmuCreateNewEntry (l.pgTbs o) e
  | .invalidatePage v => mmuInvalidatePage v
  | .setUserPageDir k => mmuSetUserPageDir (l.pgDir (some k))

/-- Whom the calls are for. -/
def dispatch : Run.Dispatch (Option K) K (SpaceCall K) HalfCall where
  target k
    | .createEntry e => some (l.halfOf k e.virtAddr, .live e)
    | .createNewEntry o e => some (o, .offline e)
    | .invalidatePage v =>
      some (l.halfOf k v, .live ⟨0x0#32, v, .pgTabInval, invalidateAcc v l.kernVaddr⟩)
    | .setUserPageDir _ => none
  next k
    | .setUserPageDir k' => k'
    | _ => k

/-! ## The relation -/

/-- The slots of a half that name a table name their own. -/
def Linked (o : Option K) (h : Half) : Prop :=
  ∀ i, l.Owns o i → h.IsTable i → h.slot i &&& pgdTableMask = l.tableOf o i

/-- An entry for a directory is for the table of its slot. -/
def LinksOwn (o : Option K) (e : MmuEntry) : Prop :=
  e.type = .pgDir → e.phyAddr &&& pgdTableMask = l.tableOf o (slotIndex e.virtAddr)

/-- What a call asks of its caller. -/
def Ok (a : K × (Option K → Half)) : SpaceCall K → Prop
  | .createEntry e => l.LinksOwn (l.halfOf a.1 e.virtAddr) e
  | .createNewEntry o e => l.Owns o (slotIndex e.virtAddr) ∧ l.LinksOwn o e
  | .invalidatePage _ => True
  | .setUserPageDir k => l.Linked (some k) (a.2 (some k))

def arrays : WordArrays (SpaceArray K) where
  base := l.base
  cnt := l.cnt
  fits b := by
    have hcnt : ∀ o, l.slotCnt o ≤ 4096 := by
      intro o
      cases o with
      | none => exact Nat.sub_le _ _
      | some k =>
        rw [SpaceMap.slotCnt, userSlotCnt_eq l.pgDiv_lt]
        exact Nat.pow_le_pow_right (by omega) (by omega : 12 - l.pgDiv ≤ 12)
    cases b with
    | slots o =>
      have := hcnt o
      rw [SpaceMap.cnt]
      omega
    | words o =>
      have := hcnt o
      rw [SpaceMap.cnt]
      omega
  apart := l.apart

/-- The machine has the halves in memory, and its registers name those in use. -/
structure Refines (a : K × (Option K → Half)) (s : Machine) : Prop where
  enabled : armv7MmuIsEnabled s = true
  pgDiv : armv7MmuGetPgDiv s = l.pgDiv
  user : armv7MmuGetUserPgd s = l.pgDir (some a.1)
  kern : 0 < l.pgDiv → armv7MmuGetKernPgd s = l.pgDir none
  slots : ∀ o, ∀ j < l.slotCnt o,
    l.arrays.word s.mem (.slots o) j = (a.2 o).slot (l.first o + j)
  words : ∀ o, ∀ j < 256 * l.slotCnt o,
    l.arrays.word s.mem (.words o) j = (a.2 o).word (256 * l.first o + j)
  linked_kern : l.Linked none (a.2 none)
  linked_user : l.Linked (some a.1) (a.2 (some a.1))

variable {l} {a : K × (Option K → Half)} {s : Machine} {o : Option K} {i p : ℕ} {v : Addr}
  {x : Word} {e : MmuEntry}

/-! ## Places -/

theorem userSlotCnt_le (l : SpaceLayout K) : userSlotCnt l.pgDiv ≤ 4096 := by
  rw [userSlotCnt_eq l.pgDiv_lt]
  exact Nat.pow_le_pow_right (by omega) (by omega : 12 - l.pgDiv ≤ 12)

theorem owns_halfOf (l : SpaceLayout K) (k : K) (v : Addr) :
    l.Owns (l.halfOf k v) (slotIndex v) := by
  have hle := l.userSlotCnt_le
  have hlt := slotIndex_lt v
  rw [SpaceMap.halfOf]
  split_ifs with h
  · exact ⟨Nat.zero_le _, by rwa [SpaceMap.first, SpaceMap.slotCnt, Nat.zero_add]⟩
  · refine ⟨Nat.not_lt.mp h, ?_⟩
    rw [SpaceMap.first, SpaceMap.slotCnt]
    omega

theorem addr_slots (ho : l.Owns o i) :
    l.arrays.addr (.slots o) (i - l.first o) = l.pgDir o + 4#32 * BitVec.ofNat 32 i := by
  obtain ⟨hle, -⟩ := ho
  have hsum : BitVec.ofNat 32 i =
      BitVec.ofNat 32 (l.first o) + BitVec.ofNat 32 (i - l.first o) := by
    rw [← BitVec.ofNat_add, Nat.add_sub_of_le hle]
  rw [hsum, WordArrays.addr]
  change l.pgDir o + _ + _ = _
  ring

/-- The address of the word of a page, in the table of its MiB. -/
theorem addr_words (ho : l.Owns o (slotIndex v)) :
    l.arrays.addr (.words o) (pageOf v - 256 * l.first o)
      = l.tableOf o (slotIndex v) + 4#32 * pgtbIndex v := by
  obtain ⟨hle, -⟩ := ho
  have hlt := slotIndex_lt v
  have hpage : pageOf v - 256 * l.first o
      = (slotIndex v - l.first o) * 256 + pageOf v % 256 := by
    rw [slotIndex] at hle ⊢
    rw [pageOf]
    omega
  have hidx : pgtbIndex v = BitVec.ofNat 32 (pageOf v % 256) := by
    rw [← toNat_pgtbIndex, BitVec.ofNat_toNat, BitVec.setWidth_eq]
  have hsize : (0x400#32 : Word) = 4#32 * 256#32 := rfl
  rw [WordArrays.addr, hpage, hidx, SpaceMap.tableOf, BitVec.ofNat_add, BitVec.ofNat_mul, hsize]
  change l.pgTbs o + _ = _
  ring

theorem sub_first_lt (ho : l.Owns o (slotIndex v)) : 256 * l.first o ≤ pageOf v ∧
    pageOf v - 256 * l.first o < 256 * l.slotCnt o := by
  obtain ⟨hle, hlt⟩ := ho
  rw [slotIndex] at hle hlt
  rw [pageOf]
  omega

/-! ## Translation -/

theorem Refines.liveSlotAddr_eq (h : l.Refines a s) (v : Addr) : liveSlotAddr s (slotIndex v) =
    l.pgDir (l.halfOf a.1 v) + 4#32 * BitVec.ofNat 32 (slotIndex v) := by
  have hlt := slotIndex_lt v
  rw [liveSlotAddr, h.pgDiv, SpaceMap.halfOf, userSlotCnt_eq l.pgDiv_lt]
  by_cases hv : slotIndex v < 2 ^ (12 - l.pgDiv)
  · rw [if_pos hv, if_neg (by omega), h.user]
  · have hpos : 0 < l.pgDiv := by
      by_contra hzero
      rw [Nat.eq_zero_of_not_pos hzero] at hv
      omega
    rw [if_neg hv, if_pos ⟨hpos, by omega⟩, h.kern hpos]

theorem Refines.liveSlot_eq (h : l.Refines a s) (v : Addr) :
    liveSlot s (slotIndex v) = (a.2 (l.halfOf a.1 v)).slot (slotIndex v) := by
  have ho := l.owns_halfOf a.1 v
  obtain ⟨hle, hlt⟩ := id ho
  rw [liveSlot, h.liveSlotAddr_eq, ← addr_slots ho]
  refine (h.slots _ _ (by omega)).trans ?_
  rw [Nat.add_sub_of_le hle]

theorem Refines.linked (h : l.Refines a s) (v : Addr) :
    l.Linked (l.halfOf a.1 v) (a.2 (l.halfOf a.1 v)) := by
  rw [SpaceMap.halfOf]
  split_ifs
  · exact h.linked_user
  · exact h.linked_kern

theorem Refines.isTableSlot_iff (h : l.Refines a s) (v : Addr) :
    IsTableSlot s (slotIndex v) ↔ (a.2 (l.halfOf a.1 v)).IsTable (slotIndex v) := by
  rw [IsTableSlot, h.liveSlot_eq, Half.IsTable]

theorem Refines.ptAddr_eq (h : l.Refines a s)
    (htab : (a.2 (l.halfOf a.1 v)).IsTable (slotIndex v)) :
    ptAddr s v = l.tableOf (l.halfOf a.1 v) (slotIndex v) + 4#32 * pgtbIndex v := by
  rw [ptAddr, tableBase, h.liveSlot_eq, h.linked v _ (l.owns_halfOf _ _) htab]

theorem Refines.load_word (h : l.Refines a s) (ho : l.Owns o (slotIndex v)) :
    s.load (l.tableOf o (slotIndex v) + 4#32 * pgtbIndex v) = (a.2 o).word (pageOf v) := by
  obtain ⟨hle, hlt⟩ := sub_first_lt ho
  rw [← addr_words ho]
  refine (h.words _ _ hlt).trans ?_
  rw [Nat.add_sub_of_le hle]

/-- **The machine translates as the halves in use do.** -/
theorem Refines.virtToPhy_eq (h : l.Refines a s) (v : Addr) :
    virtToPhy s v = (a.2 (l.halfOf a.1 v)).translate v := by
  rw [virtToPhy, Sugarcat.virtToPhy_eq h.enabled, Half.translate, h.liveSlot_eq]
  refine if_congr Iff.rfl rfl ?_
  by_cases htab : (a.2 (l.halfOf a.1 v)).IsTable (slotIndex v)
  · rw [if_pos htab, if_pos ((h.isTableSlot_iff v).mpr htab), h.ptAddr_eq htab,
      h.load_word (l.owns_halfOf _ _)]
  · rw [if_neg htab, if_neg fun h' ↦ htab ((h.isTableSlot_iff v).mp h')]

/-! ## Entries -/

theorem LinksOwn.word (hlink : l.LinksOwn o e) (htype : e.type = .pgDir ∨ e.type = .pgDirInval)
    (hword : pgdEntryWord e.toArmv7Pgd &&& pgdTypeMask = Armv7MmuPgdType.pgdTable.toWord) :
    pgdEntryWord e.toArmv7Pgd &&& pgdTableMask = l.tableOf o (slotIndex e.virtAddr) := by
  have hdom : e.toArmv7Pgd.domain < 16#8 := by
    change archMmuAccToDomain e.accFlags < 16#8
    cases e.accFlags <;> decide
  rcases htype with h | h
  · have htable : e.toArmv7Pgd.type = .pgdTable := by
      rw [MmuEntry.toArmv7Pgd, h]
      rfl
    rw [(pgdEntryWord_table htable hdom BitVec.zero_and BitVec.zero_and).2]
    exact hlink h
  · have hinval : e.toArmv7Pgd.type = .pgdInvalid := by
      rw [MmuEntry.toArmv7Pgd, h]
      rfl
    have hflags : e.toArmv7Pgd.flags = 0#32 := rfl
    rw [pgdEntryWord, hinval, hflags] at hword
    simp only [BitVec.and_or_distrib_right, (domain_shift_and hdom).1] at hword
    exact absurd hword (by decide)

theorem archMmuCreateEntry_pgd (hen : armv7MmuIsEnabled s = true)
    (htype : e.type = .pgDir ∨ e.type = .pgDirInval) :
    archMmuCreateEntry e s = (.esucc, s.store (liveSlotAddr s (slotIndex e.virtAddr))
      (pgdEntryWord e.toArmv7Pgd)) := by
  have hsupp : armv7IsSupportedPgdType e.toArmv7Pgd.type = true := by
    rcases htype with h | h <;> rw [MmuEntry.toArmv7Pgd, h] <;> rfl
  rw [liveSlotAddr_slotIndex]
  rcases htype with h | h <;>
    simp only [archMmuCreateEntry, h, armv7MmuMapPgd, if_pos hsupp, if_pos hen, createPgdEntry] <;>
      rfl

theorem archMmuCreateNewEntry_pgd (pgBase : Addr) (s : Machine)
    (htype : e.type = .pgDir ∨ e.type = .pgDirInval) :
    archMmuCreateNewEntry pgBase e s =
      (.esucc, s.store (pgBase + 4#32 * BitVec.ofNat 32 (slotIndex e.virtAddr))
        (pgdEntryWord e.toArmv7Pgd)) := by
  have hsupp : armv7IsSupportedPgdType e.toArmv7Pgd.type = true := by
    rcases htype with h | h <;> rw [MmuEntry.toArmv7Pgd, h] <;> rfl
  rw [ofNat_slotIndex]
  rcases htype with h | h <;>
    simp only [archMmuCreateNewEntry, h, armv7MmuMapNewPgd, if_pos hsupp, createPgdEntry] <;> rfl

theorem Refines.newPgtbIndex_eq (h : l.Refines a s) (ho : l.Owns o (slotIndex v)) :
    l.pgTbs o ||| (newPgtbIndex v s <<< pgIdxShift) = l.tableOf o (slotIndex v) := by
  have hlt := slotIndex_lt v
  obtain ⟨hle, hlt'⟩ := ho
  have hpow : 0 < l.pgDiv ∨ 2 ^ (12 - l.pgDiv) = 4096 := by
    rcases Nat.eq_zero_or_pos l.pgDiv with h0 | h0
    · rw [h0]
      exact Or.inr rfl
    · exact Or.inl h0
  have hmib : mibIndex s v = slotIndex v - l.first o := by
    have hcnt := userSlotCnt_eq l.pgDiv_lt
    simp only [mibIndex_eq, kernVaddr_le_iff, splitSlot, h.pgDiv]
    cases o with
    | none =>
      rw [SpaceMap.first, hcnt] at hle hlt' ⊢
      rw [SpaceMap.slotCnt, hcnt] at hlt'
      split_ifs <;> omega
    | some k =>
      rw [SpaceMap.first, SpaceMap.slotCnt, hcnt] at hlt'
      rw [SpaceMap.first]
      split_ifs <;> omega
  have hidx : newPgtbIndex v s = BitVec.ofNat 32 (slotIndex v - l.first o) := by
    rw [← hmib, ← toNat_newPgtbIndex, BitVec.ofNat_toNat, BitVec.setWidth_eq]
  rw [hidx, l.or_eq_add o _ (by omega), SpaceMap.tableOf]

theorem Refines.archMmuInvalidate (h : l.Refines a s) : l.Refines a (archMmuInvalidate s) :=
  ⟨h.enabled, h.pgDiv, h.user, h.kern, h.slots, h.words, h.linked_kern, h.linked_user⟩

/-- A space is switched to. -/
theorem Refines.setUserPageDir (h : l.Refines a s) {k : K}
    (hlinked : l.Linked (some k) (a.2 (some k))) :
    (mmuSetUserPageDir (l.pgDir (some k)) s).1 = .esucc ∧
      l.Refines (k, a.2) (mmuSetUserPageDir (l.pgDir (some k)) s).2 := by
  have halign : archMmuGetUserPgdAlignment s ∣ (l.pgDir (some k)).toNat := by
    rw [archMmuGetUserPgdAlignment, h.pgDiv]
    exact l.user_aligned k
  obtain ⟨u, hu, htwin, httbr0⟩ := archMmuSetUserPgDir_eq halign
  have hen : armv7MmuIsEnabled u = true := by
    rw [← h.enabled, armv7MmuIsEnabled, htwin.sctlr, armv7MmuIsEnabled]
  have hdiv : armv7MmuGetPgDiv u = l.pgDiv := by
    rw [← h.pgDiv, armv7MmuGetPgDiv, htwin.ttbcr, armv7MmuGetPgDiv]
  rw [mmuSetUserPageDir, hu]
  refine ⟨rfl, hen, hdiv, ?_, ?_, ?_, ?_, h.linked_kern, hlinked⟩
  · apply BitVec.eq_of_toNat_eq
    rw [toNat_armv7MmuGetUserPgd hen, httbr0, hdiv]
    exact Nat.div_mul_cancel (l.user_aligned k)
  · intro hpos
    rw [← h.kern hpos, armv7MmuGetKernPgd, armv7MmuGetKernPgd, if_pos hen, if_pos h.enabled,
      htwin.ttbr1]
  · rw [htwin.mem]
    exact h.slots
  · rw [htwin.mem]
    exact h.words

/-! ## Stores -/

variable [DecidableEq K]

/-- The abstract system. -/
def step (l : SpaceLayout K) : SpaceCall K → K × (Option K → Half) →
    Errno × (K × (Option K → Half)) :=
  l.dispatch.step HalfCall.step .esucc

theorem slot_setSlot (f : Option K → Half) (o o' : Option K) (i j : ℕ) (x : Word) :
    (Function.update f o ((f o).setSlot i x) o').slot j =
      if o = o' ∧ i = j then x else (f o').slot j := by
  by_cases ho : o = o'
  · subst ho
    rw [Function.update_self]
    change Function.update (f o).slot i x j = _
    rw [Function.update_apply]
    simp only [true_and, eq_comm]
  · rw [Function.update_of_ne (Ne.symm ho), if_neg fun h ↦ ho h.1]

theorem word_setSlot (f : Option K → Half) (o o' : Option K) (i : ℕ) (x : Word) :
    (Function.update f o ((f o).setSlot i x) o').word = (f o').word := by
  rw [Function.update_apply]
  split_ifs with h
  · rw [h]
    rfl
  · rfl

theorem word_setWord (f : Option K → Half) (o o' : Option K) (i j : ℕ) (x : Word) :
    (Function.update f o ((f o).setWord i x) o').word j =
      if o = o' ∧ i = j then x else (f o').word j := by
  by_cases ho : o = o'
  · subst ho
    rw [Function.update_self]
    change Function.update (f o).word i x j = _
    rw [Function.update_apply]
    simp only [true_and, eq_comm]
  · rw [Function.update_of_ne (Ne.symm ho), if_neg fun h ↦ ho h.1]

theorem slot_setWord (f : Option K → Half) (o o' : Option K) (i : ℕ) (x : Word) :
    (Function.update f o ((f o).setWord i x) o').slot = (f o').slot := by
  rw [Function.update_apply]
  split_ifs with h
  · rw [h]
    rfl
  · rfl

/-- A slot of a half is written, with the table that is its own or none. -/
theorem Refines.storeSlot (h : l.Refines a s) (ho : l.Owns o i)
    (hlink : x &&& pgdTypeMask = Armv7MmuPgdType.pgdTable.toWord →
      x &&& pgdTableMask = l.tableOf o i) :
    l.Refines (a.1, Function.update a.2 o ((a.2 o).setSlot i x))
      (s.store (l.pgDir o + 4#32 * BitVec.ofNat 32 i) x) := by
  have hlinked : ∀ o', l.Linked o' (a.2 o') →
      l.Linked o' (Function.update a.2 o ((a.2 o).setSlot i x) o') := by
    intro o' ho' j hj
    rw [Half.IsTable, slot_setSlot]
    split_ifs with hij
    · obtain ⟨rfl, rfl⟩ := hij
      exact hlink
    · exact ho' j hj
  obtain ⟨hle, hlt⟩ := id ho
  have hcnt : i - l.first o < l.arrays.cnt (.slots o) := by
    change _ < l.slotCnt o
    omega
  rw [← addr_slots ho]
  refine ⟨h.enabled, h.pgDiv, h.user, h.kern, fun o' j hj ↦ ?_, fun o' j hj ↦ ?_,
    hlinked _ h.linked_kern, hlinked _ h.linked_user⟩
  · refine (WordArrays.word_writeWord hcnt hj).trans ?_
    rw [h.slots o' j hj, slot_setSlot]
    refine if_congr ?_ rfl rfl
    rw [SpaceArray.slots.injEq]
    exact and_congr_right fun hoo ↦ by rw [← hoo]; omega
  · refine (WordArrays.word_writeWord hcnt hj).trans ?_
    rw [if_neg (fun h' ↦ nomatch h'.1), h.words o' j hj, word_setSlot]

/-- A word of a table of a half is written. -/
theorem Refines.storeWord (h : l.Refines a s) (ho : l.Owns o (slotIndex v)) :
    l.Refines (a.1, Function.update a.2 o ((a.2 o).setWord (pageOf v) x))
      (s.store (l.tableOf o (slotIndex v) + 4#32 * pgtbIndex v) x) := by
  have hlinked : ∀ o', l.Linked o' (a.2 o') →
      l.Linked o' (Function.update a.2 o ((a.2 o).setWord (pageOf v) x) o') := by
    intro o' ho' j hj
    rw [Half.IsTable, slot_setWord]
    exact ho' j hj
  obtain ⟨hle, hlt⟩ := sub_first_lt ho
  have hcnt : pageOf v - 256 * l.first o < l.arrays.cnt (.words o) := hlt
  rw [← addr_words ho]
  refine ⟨h.enabled, h.pgDiv, h.user, h.kern, fun o' j hj ↦ ?_, fun o' j hj ↦ ?_,
    hlinked _ h.linked_kern, hlinked _ h.linked_user⟩
  · refine (WordArrays.word_writeWord hcnt hj).trans ?_
    rw [if_neg (fun h' ↦ nomatch h'.1), h.slots o' j hj, slot_setWord]
  · refine (WordArrays.word_writeWord hcnt hj).trans ?_
    rw [h.words o' j hj, word_setWord]
    refine if_congr ?_ rfl rfl
    rw [SpaceArray.words.injEq]
    exact and_congr_right fun hoo ↦ by rw [← hoo]; omega

/-! ## One call -/

theorem Refines.createEntry (h : l.Refines a s) (hlink : l.LinksOwn (l.halfOf a.1 e.virtAddr) e) :
    (archMmuCreateEntry e s).1
        = ((HalfCall.live e).step (a.2 (l.halfOf a.1 e.virtAddr))).1 ∧
      l.Refines (a.1, Function.update a.2 (l.halfOf a.1 e.virtAddr)
        ((HalfCall.live e).step (a.2 (l.halfOf a.1 e.virtAddr))).2) (archMmuCreateEntry e s).2 := by
  have ho := l.owns_halfOf a.1 e.virtAddr
  have hdir : e.type = .pgDir ∨ e.type = .pgDirInval → archMmuCreateEntry e s =
      (.esucc, s.store (l.pgDir (l.halfOf a.1 e.virtAddr)
        + 4#32 * BitVec.ofNat 32 (slotIndex e.virtAddr)) (pgdEntryWord e.toArmv7Pgd)) := by
    intro htype
    rw [archMmuCreateEntry_pgd h.enabled htype, h.liveSlotAddr_eq]
  have htab : e.type = .pgTab ∨ e.type = .pgTabInval → archMmuCreateEntry e s =
      if (a.2 (l.halfOf a.1 e.virtAddr)).IsTable (slotIndex e.virtAddr) then
        (.esucc, s.store (l.tableOf (l.halfOf a.1 e.virtAddr) (slotIndex e.virtAddr)
          + 4#32 * pgtbIndex e.virtAddr) (pgtbEntryWord e.toArmv7Pgtb))
      else (.enotfnd, s) := by
    intro htype
    rw [archMmuCreateEntry_pgtb h.enabled htype]
    by_cases ht : (a.2 (l.halfOf a.1 e.virtAddr)).IsTable (slotIndex e.virtAddr)
    · rw [if_pos ht, if_pos ((h.isTableSlot_iff _).mpr ht), h.ptAddr_eq ht]
    · rw [if_neg ht, if_neg fun ht' ↦ ht ((h.isTableSlot_iff _).mp ht')]
  have hsame : l.Refines (a.1, Function.update a.2 (l.halfOf a.1 e.virtAddr)
      (a.2 (l.halfOf a.1 e.virtAddr))) s := by
    rw [Function.update_eq_self]
    exact h
  rw [HalfCall.step]
  cases htype : e.type with
  | pgDir =>
    rw [hdir (Or.inl htype)]
    exact ⟨rfl, h.storeSlot ho (hlink.word (Or.inl htype))⟩
  | pgDirInval =>
    rw [hdir (Or.inr htype)]
    exact ⟨rfl, h.storeSlot ho (hlink.word (Or.inr htype))⟩
  | pgTab =>
    rw [htab (Or.inl htype)]
    dsimp only
    split_ifs
    · exact ⟨rfl, h.storeWord ho⟩
    · exact ⟨rfl, hsame⟩
  | pgTabInval =>
    rw [htab (Or.inr htype)]
    dsimp only
    split_ifs
    · exact ⟨rfl, h.storeWord ho⟩
    · exact ⟨rfl, hsame⟩

theorem Refines.createNewEntry (h : l.Refines a s) (ho : l.Owns o (slotIndex e.virtAddr))
    (hlink : l.LinksOwn o e) :
    (l.exec (.createNewEntry o e) s).1 = ((HalfCall.offline e).step (a.2 o)).1 ∧
      l.Refines (a.1, Function.update a.2 o ((HalfCall.offline e).step (a.2 o)).2)
        (l.exec (.createNewEntry o e) s).2 := by
  have htab : e.type = .pgTab ∨ e.type = .pgTabInval → archMmuCreateNewEntry (l.pgTbs o) e s =
      (.esucc, s.store (l.tableOf o (slotIndex e.virtAddr) + 4#32 * pgtbIndex e.virtAddr)
        (pgtbEntryWord e.toArmv7Pgtb)) := by
    intro htype
    rw [archMmuCreateNewEntry_pgtb htype, h.newPgtbIndex_eq ho]
  rw [HalfCall.step, exec]
  cases htype : e.type with
  | pgDir =>
    dsimp only
    rw [archMmuCreateNewEntry_pgd _ _ (Or.inl htype)]
    exact ⟨rfl, h.storeSlot ho (hlink.word (Or.inl htype))⟩
  | pgDirInval =>
    dsimp only
    rw [archMmuCreateNewEntry_pgd _ _ (Or.inr htype)]
    exact ⟨rfl, h.storeSlot ho (hlink.word (Or.inr htype))⟩
  | pgTab =>
    dsimp only
    rw [htab (Or.inl htype)]
    exact ⟨rfl, h.storeWord ho⟩
  | pgTabInval =>
    dsimp only
    rw [htab (Or.inr htype)]
    exact ⟨rfl, h.storeWord ho⟩

/-- **A call of the machine is one of the abstract system.** -/
theorem Refines.exec (h : l.Refines a s) {c : SpaceCall K} (hok : l.Ok a c) :
    (l.exec c s).1 = (l.step c a).1 ∧ l.Refines (l.step c a).2 (l.exec c s).2 := by
  cases c with
  | createEntry e => exact h.createEntry hok
  | createNewEntry o e => exact h.createNewEntry hok.1 hok.2
  | invalidatePage v =>
    have hkern : archMmuGetKernVaddr s = l.kernVaddr := by
      rw [archMmuGetKernVaddr, h.pgDiv, SpaceMap.kernVaddr]
    obtain ⟨hret, href⟩ := h.createEntry
      (e := ⟨0x0#32, v, .pgTabInval, invalidateAcc v l.kernVaddr⟩)
      fun htype ↦ MmuEntryType.noConfusion htype
    rw [SpaceLayout.exec, mmuInvalidatePage, mmuCreatePgtbEntry, hkern]
    split_ifs
    · exact ⟨hret, href.archMmuInvalidate⟩
    · exact ⟨hret, href⟩
  | setUserPageDir k => exact h.setUserPageDir hok

/-! ## Runs -/

/-- Every call of a run is in order. -/
def Allowed (l : SpaceLayout K) (a : K × (Option K → Half)) (calls : List (SpaceCall K)) : Prop :=
  ∀ pre c post, calls = pre ++ c :: post → l.Ok (Run.exec l.step a pre).2 c

/-- The run of the calls on one half, as if there were no others: their results, and the half at
the end. -/
def alone (l : SpaceLayout K) (a : K × (Option K → Half)) (calls : List (SpaceCall K))
    (o : Option K) : List (HalfCall × Errno) × Half :=
  Run.exec HalfCall.step (a.2 o) (l.dispatch.own o a.1 calls)

/-- **Runs of the machine are runs of the abstract system.** -/
theorem Refines.run (h : l.Refines a s) {calls : List (SpaceCall K)} (hok : l.Allowed a calls) :
    (Run.exec l.exec s calls).1 = (Run.exec l.step a calls).1 ∧
      l.Refines (Run.exec l.step a calls).2 (Run.exec l.exec s calls).2 := by
  induction calls using List.reverseRecOn with
  | nil => exact ⟨rfl, h⟩
  | append_singleton calls c ih =>
    have hpre : l.Allowed a calls := by
      rintro pre d post rfl
      exact hok pre d (post ++ [c]) (by simp)
    obtain ⟨hlog, href⟩ := ih hpre
    obtain ⟨hret, href'⟩ := href.exec (hok calls c [] rfl)
    rw [Run.exec_concat, Run.exec_concat, hlog, hret]
    exact ⟨rfl, href'⟩

theorem Refines.run_alone (h : l.Refines a s) {calls : List (SpaceCall K)}
    (hok : l.Allowed a calls) :
    (∀ o, l.dispatch.ownLog o a.1 (Run.exec l.exec s calls).1 = (l.alone a calls o).1) ∧
      l.Refines ((Run.exec l.step a calls).2.1, fun o ↦ (l.alone a calls o).2)
        (Run.exec l.exec s calls).2 := by
  obtain ⟨hlog, href⟩ := h.run hok
  have halone : ∀ o, (l.dispatch.ownLog o a.1 (Run.exec l.step a calls).1,
      (Run.exec l.step a calls).2.2 o) = l.alone a calls o :=
    fun o ↦ Run.Dispatch.exec_part o calls
  simp only [← halone]
  exact ⟨fun o ↦ by rw [hlog], href⟩

/-- **Each half is what its own calls make of it.** They return what they would without the others,
and once a space is switched to, its addresses are translated as they would be without the calls on
other spaces. -/
theorem exec_refines (h : l.Refines a s) {calls : List (SpaceCall K)} (hok : l.Allowed a calls) :
    (∀ o, l.dispatch.ownLog o a.1 (Run.exec l.exec s calls).1 = (l.alone a calls o).1) ∧
      ∀ k, l.Linked (some k) (l.alone a calls (some k)).2 → ∀ v,
        virtToPhy (mmuSetUserPageDir (l.pgDir (some k)) (Run.exec l.exec s calls).2).2 v =
          (l.alone a calls (l.halfOf k v)).2.translate v := by
  obtain ⟨hlog, href⟩ := h.run_alone hok
  exact ⟨hlog, fun k hlinked v ↦ (href.setUserPageDir hlinked).2.virtToPhy_eq v⟩

/-- **No interference.** Two runs in which the calls on a space are the same, whatever the other
ones are and however they are mixed, return the same from them and leave the space translated
alike. -/
theorem exec_eq_of_own {b : K × (Option K → Half)} {t : Machine} {calls calls' : List (SpaceCall K)}
    {k : K} (h : l.Refines a s) (h' : l.Refines b t) (hok : l.Allowed a calls)
    (hok' : l.Allowed b calls') (hhalf : a.2 (some k) = b.2 (some k))
    (hown : l.dispatch.own (some k) a.1 calls = l.dispatch.own (some k) b.1 calls')
    (hlinked : l.Linked (some k) (l.alone a calls (some k)).2) :
    l.dispatch.ownLog (some k) a.1 (Run.exec l.exec s calls).1
        = l.dispatch.ownLog (some k) b.1 (Run.exec l.exec t calls').1 ∧
      ∀ v, l.halfOf k v = some k →
        virtToPhy (mmuSetUserPageDir (l.pgDir (some k)) (Run.exec l.exec s calls).2).2 v
          = virtToPhy (mmuSetUserPageDir (l.pgDir (some k)) (Run.exec l.exec t calls').2).2 v := by
  have halone : l.alone a calls (some k) = l.alone b calls' (some k) := by
    rw [alone, alone, hhalf, hown]
  have hlinked' := hlinked
  rw [halone] at hlinked'
  obtain ⟨hlog, href⟩ := h.run_alone hok
  obtain ⟨hlog', href'⟩ := h'.run_alone hok'
  refine ⟨by rw [hlog, hlog', halone], ?_⟩
  intro v hv
  rw [(href.setUserPageDir hlinked).2.virtToPhy_eq,
    (href'.setUserPageDir hlinked').2.virtToPhy_eq, hv]
  exact congrArg (fun x ↦ x.2.translate v) halone

/-! ## The spaces of a memory -/

/-- The halves as memory has them. -/
def read (l : SpaceLayout K) (s : Machine) (o : Option K) : Half where
  slot i := l.arrays.word s.mem (.slots o) (i - l.first o)
  word p := l.arrays.word s.mem (.words o) (p - 256 * l.first o)

omit [DecidableEq K] in
theorem refines_read {k : K} (hen : armv7MmuIsEnabled s = true)
    (hdiv : armv7MmuGetPgDiv s = l.pgDiv) (huser : armv7MmuGetUserPgd s = l.pgDir (some k))
    (hkern : 0 < l.pgDiv → armv7MmuGetKernPgd s = l.pgDir none)
    (hlinked_kern : l.Linked none (l.read s none))
    (hlinked_user : l.Linked (some k) (l.read s (some k))) : l.Refines (k, l.read s) s where
  enabled := hen
  pgDiv := hdiv
  user := huser
  kern := hkern
  slots o j _ := by
    change _ = l.arrays.word s.mem (.slots o) (l.first o + j - l.first o)
    rw [Nat.add_sub_cancel_left]
  words o j _ := by
    change _ = l.arrays.word s.mem (.words o) (256 * l.first o + j - 256 * l.first o)
    rw [Nat.add_sub_cancel_left]
  linked_kern := hlinked_kern
  linked_user := hlinked_user

/-! ## Two small spaces -/

omit [DecidableEq K] in
theorem or_eq_add_of_dvd {x : Addr} {n i : ℕ} (hx : 2 ^ n ∣ x.toNat) (hi : i * 0x400 < 2 ^ n)
    (hlt : i < 4096) :
    x ||| (BitVec.ofNat 32 i <<< pgIdxShift) = x + BitVec.ofNat 32 i * 0x400#32 := by
  rw [shiftLeft_tableOffset hlt, Bits.or_eq_add_iff, ← BitVec.toNat_inj, BitVec.toNat_and,
    toNat_tableOffset hlt]
  exact Bits.and_eq_zero_of_dvd_of_lt hx hi

/-- An address for each of three halves. -/
def halfAddr (kern first second : Addr) : Option Bool → Addr
  | none => kern
  | some false => first
  | some true => second

/-- User halves of 32 MiB, the first of them with the directory that is in use. -/
def narrowSpaces : SpaceLayout Bool where
  pgDiv := 7
  pgDir := halfAddr 0x8000#32 0x4000#32 0x20000#32
  pgTbs := halfAddr 0x400000#32 0x40000#32 0x50000#32
  pgDiv_lt := by decide
  user_aligned := by decide
  tables_aligned := by rintro (_ | _ | _) <;> decide
  or_eq_add o i hi := by
    match o with
    | none =>
      have hi' : i < 4064 := hi
      exact or_eq_add_of_dvd (n := 22) (by decide) (by omega) (by omega)
    | some false =>
      have hi' : i < 32 := hi
      exact or_eq_add_of_dvd (n := 15) (by decide) (by omega) (by omega)
    | some true =>
      have hi' : i < 32 := hi
      exact or_eq_add_of_dvd (n := 15) (by decide) (by omega) (by omega)
  apart b c hne := by
    rcases b with (_ | _ | _) | (_ | _ | _) <;> rcases c with (_ | _ | _) | (_ | _ | _) <;>
      first
        | exact absurd rfl hne
        | exact apart_of_le (by decide) (by decide)
        | exact (apart_of_le (by decide) (by decide)).symm

theorem slot_narrowSpaces (o : Option Bool) (i : ℕ) :
    (narrowSpaces.read narrowHalf o).slot i = 0#32 :=
  readWord_zero (narrowSpaces.arrays.addr (.slots o) (i - narrowSpaces.first o))

theorem refines_narrowSpaces :
    narrowSpaces.Refines (false, narrowSpaces.read narrowHalf) narrowHalf := by
  have hzero : ∀ o i, ¬(narrowSpaces.read narrowHalf o).IsTable i := by
    intro o i htab
    rw [Half.IsTable, slot_narrowSpaces] at htab
    exact absurd htab (by decide)
  exact refines_read rfl rfl rfl (fun _ ↦ rfl) (fun i _ htab ↦ absurd htab (hzero _ i))
    fun i _ htab ↦ absurd htab (hzero _ i)

/-- The other space gets a table and a page, and the first one is refused a page. -/
def narrowCalls : List (SpaceCall Bool) :=
  [.createNewEntry (some true) ⟨0x50000#32, 0x0#32, .pgDir, .user⟩,
    .createEntry ⟨0x60002000#32, 0x3000#32, .pgTab, .user⟩,
    .createNewEntry (some true) ⟨0x60001000#32, 0x3000#32, .pgTab, .user⟩]

theorem allowed_narrowCalls {calls : List (SpaceCall Bool)} (h : calls ⊆ narrowCalls) :
    narrowSpaces.Allowed (false, narrowSpaces.read narrowHalf) calls := by
  rintro pre c post rfl
  have hmem : c ∈ narrowCalls := h (by simp)
  simp only [narrowCalls, List.mem_cons, List.not_mem_nil, or_false] at hmem
  rcases hmem with rfl | rfl | rfl
  · exact ⟨by decide, fun _ ↦ rfl⟩
  · exact fun htype ↦ MmuEntryType.noConfusion htype
  · exact ⟨by decide, fun htype ↦ MmuEntryType.noConfusion htype⟩

theorem linked_narrowCalls : narrowSpaces.Linked (some true)
    (narrowSpaces.alone (false, narrowSpaces.read narrowHalf) narrowCalls (some true)).2 := by
  intro i _ htab
  by_cases hi : i = 0
  · subst hi
    rfl
  · have hslot : (narrowSpaces.alone (false, narrowSpaces.read narrowHalf) narrowCalls
        (some true)).2.slot i = 0#32 :=
      (Function.update_of_ne hi _ _).trans (slot_narrowSpaces _ _)
    rw [Half.IsTable, hslot] at htab
    exact absurd htab (by decide)

theorem exec_refines_narrowSpaces :
    virtToPhy (mmuSetUserPageDir 0x20000#32
      (Run.exec narrowSpaces.exec narrowHalf narrowCalls).2).2 0x3ABC#32 = 0x60001ABC#32 :=
  ((exec_refines refines_narrowSpaces (allowed_narrowCalls (List.Subset.refl _))).2 true
    linked_narrowCalls _).trans (by decide)

/-- Without the page that was refused. -/
theorem exec_eq_of_own_narrowSpaces :
    virtToPhy (mmuSetUserPageDir 0x20000#32
        (Run.exec narrowSpaces.exec narrowHalf narrowCalls).2).2 0x3ABC#32 =
      virtToPhy (mmuSetUserPageDir 0x20000#32
        (Run.exec narrowSpaces.exec narrowHalf (narrowCalls.eraseIdx 1)).2).2 0x3ABC#32 :=
  (exec_eq_of_own refines_narrowSpaces refines_narrowSpaces
    (allowed_narrowCalls (List.Subset.refl _)) (allowed_narrowCalls List.eraseIdx_subset)
    rfl rfl linked_narrowCalls).2 _ (by decide)

end SpaceLayout

end Sugarcat
