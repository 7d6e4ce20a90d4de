import Sugarcat.Armv7.Offline
import Sugarcat.Armv7.StoreLoop

/-!
# A user half built offline

A new user half can be built out of use, its directory and its tables written with
`arch_mmu_create_new_entry` before the switch to it, or its tables can be filled after the switch
with `arch_mmu_create_entry`. The first path finds the table of an address by its index in a region,
the second reads the directory back.

`BuildsAlike` says that the first path is not seen before the switch, and leads to the translation
of the second. It takes tables that stand where a directory can name them, at multiples of 1 KiB: of
another base the directory drops the low bits, and the offline path does not.

## The invariant

Both paths store the same words at the same places, so their memories never differ (`Twin`). What
carries this along the second path is that the directory keeps naming the tables of the region
(`Switched`), which the stores to the region do not touch.

## What is not seen

Before the switch, translation depends on the live slots and on the tables they name. `Unseen` says
that a range of addresses has none of these words, and a store to it is then not seen by any
translation (`SameView`). An offline call stores one word of the new directory or of the new tables,
so a run of such calls is not seen either.
-/

namespace Sugarcat

open ByteMemory

/-! ## Building -/

/-- Calls of `arch_mmu_create_new_entry`, each with the directory or region it is about. -/
def createNew (calls : List (Addr × MmuEntry)) (s : Machine) : Machine :=
  calls.foldl (fun s c ↦ (archMmuCreateNewEntry c.1 c.2 s).2) s

/-- Calls of `arch_mmu_create_entry`. -/
def createLive (entries : List MmuEntry) (s : Machine) : Machine :=
  entries.foldl (fun s e ↦ (archMmuCreateEntry e s).2) s

/-- The entry that points slot `i` at the `i`-th table of the region at `pgTbs`. -/
def userDirEntry (pgTbs : Addr) (acc : ℕ → MmuAccFlags) (i : ℕ) : MmuEntry where
  phyAddr := pgTbs + BitVec.ofNat 32 i * 0x400#32
  virtAddr := BitVec.ofNat 32 i <<< 20
  type := .pgDir
  accFlags := acc i

/-- The entries of the directory at `pgDir`, for `n` slots. -/
def dirCalls (pgDir pgTbs : Addr) (acc : ℕ → MmuAccFlags) (n : ℕ) : List (Addr × MmuEntry) :=
  (List.range n).map fun i ↦ (pgDir, userDirEntry pgTbs acc i)

def tabCalls (pgTbs : Addr) (entries : List MmuEntry) : List (Addr × MmuEntry) :=
  entries.map fun e ↦ (pgTbs, e)

/-- The slots of the user half. -/
abbrev userSlots (s : Machine) : ℕ := userSlotCnt (armv7MmuGetPgDiv s)

/-- No live slot and no live table has an address in the range. -/
structure Unseen (s : Machine) (a : Addr) (n : ℕ) : Prop where
  slots : ∀ i < 4096, Apart a n (liveSlotAddr s i) 4
  tables : ∀ i < 4096, IsTableSlot s i → Apart a n (tableBase s i) 0x400

/-- A place for a directory and a region of tables that is not in use. -/
structure OfflineSite (s : Machine) (pgDir pgTbs : Addr) : Prop where
  pgDir_aligned : archMmuGetUserPgdAlignment s ∣ pgDir.toNat
  or_eq_add : ∀ i < userSlots s,
    pgTbs ||| (BitVec.ofNat 32 i <<< pgIdxShift) = pgTbs + BitVec.ofNat 32 i * 0x400#32
  apart : Apart pgDir (userSlots s * 4) pgTbs (userSlots s * 0x400)
  pgDir_unseen : Unseen s pgDir (userSlots s * 4)
  pgTbs_unseen : Unseen s pgTbs (userSlots s * 0x400)

/-- An entry for a page of the user half. -/
structure IsUserPage (s : Machine) (e : MmuEntry) : Prop where
  type : e.type = .pgTab
  user : isHigherHalf e.virtAddr (armv7MmuGetPgDiv s) = false

structure BuildsAlike (s : Machine) (pgDir pgTbs : Addr) (acc : ℕ → MmuAccFlags)
    (entries : List MmuEntry) : Prop where
  /-- The translation does not change until the switch. -/
  unseen : ∀ calls, calls <+: dirCalls pgDir pgTbs acc (userSlots s) ++ tabCalls pgTbs entries →
    ∀ v, virtToPhy (createNew calls s) v = virtToPhy s v
  /-- After the switch it is the one of tables filled after the switch. -/
  alike : ∀ v, virtToPhy (archMmuSetUserPgDir pgDir (createNew
        (dirCalls pgDir pgTbs acc (userSlots s) ++ tabCalls pgTbs entries) s)).2 v
      = virtToPhy (createLive entries (archMmuSetUserPgDir pgDir (createNew
        (dirCalls pgDir pgTbs acc (userSlots s)) s)).2) v

variable {s t live : Machine} {a pgDir pgTbs : Addr} {n : ℕ} {x : Word} {e : MmuEntry}
  {acc : ℕ → MmuAccFlags}

theorem createNew_append (l r : List (Addr × MmuEntry)) (s : Machine) :
    createNew (l ++ r) s = createNew r (createNew l s) := List.foldl_append

/-! ## Stores that are not seen -/

/-- The machine `t` translates as `s` does, with the same words. -/
structure SameView (s t : Machine) : Prop where
  sctlr : t.sctlr = s.sctlr
  ttbcr : t.ttbcr = s.ttbcr
  ttbr0 : t.ttbr0 = s.ttbr0
  ttbr1 : t.ttbr1 = s.ttbr1
  slots : ∀ i < 4096, liveSlot t i = liveSlot s i
  words : ∀ v, IsTableSlot s (slotIndex v) → t.load (ptAddr s v) = s.load (ptAddr s v)

theorem SameView.refl (s : Machine) : SameView s s :=
  ⟨rfl, rfl, rfl, rfl, fun _ _ ↦ rfl, fun _ _ ↦ rfl⟩

theorem apart_word {b k : Addr} {m : ℕ} (h : Apart a n b m) (hk : k.toNat + 4 ≤ n) :
    Apart (a + k) 4 b m := by
  simpa using h.mono (i := k) (j := 0#32) (p := 4) (q := m) hk (by simp)

theorem SameView.store (h : SameView s t) (hun : Unseen s a n) {k : Addr} (hk : k.toNat + 4 ≤ n) :
    SameView s (t.store (a + k) x) := by
  refine ⟨h.sctlr, h.ttbcr, h.ttbr0, h.ttbr1, ?_, ?_⟩
  · intro i hi
    rw [← h.slots i hi]
    have haddr := liveSlotAddr_congr h.sctlr h.ttbcr h.ttbr0 h.ttbr1 i
    refine readWord_writeWord_of_apart _ ?_
    rw [liveSlotAddr_store, haddr]
    exact apart_word (hun.slots i hi) hk
  · intro v hv
    rw [← h.words v hv]
    exact readWord_writeWord_of_apart _
      (apart_ptAddr (apart_word (hun.tables _ (slotIndex_lt v) hv) hk).symm).symm

theorem SameView.virtToPhy_eq (h : SameView s t) (v : Addr) : virtToPhy t v = virtToPhy s v := by
  have hsame : armv7MmuIsEnabled t = armv7MmuIsEnabled s := by
    rw [armv7MmuIsEnabled, h.sctlr, armv7MmuIsEnabled]
  by_cases hen : armv7MmuIsEnabled s = true
  · exact virtToPhy_congr hen (hsame.trans hen) (h.slots _ (slotIndex_lt v)) (h.words v)
  · rw [virtToPhy, virtToPhy, virtToPhy_of_not_enabled hen,
      virtToPhy_of_not_enabled (hsame ▸ hen)]

theorem SameView.armv7MmuGetPgDiv_eq (h : SameView s t) :
    armv7MmuGetPgDiv t = armv7MmuGetPgDiv s := by
  rw [armv7MmuGetPgDiv, h.ttbcr, armv7MmuGetPgDiv]

/-! ## The calls as stores -/

theorem userSlots_le (s : Machine) : userSlots s ≤ 4096 := by
  rw [userSlots, userSlotCnt_eq (armv7MmuGetPgDiv_lt s)]
  exact Nat.pow_le_pow_right (by omega) (by omega : 12 - armv7MmuGetPgDiv s ≤ 12)

theorem newPgtbIndex_of_user {v : Addr} (h : isHigherHalf v (armv7MmuGetPgDiv s) = false) :
    newPgtbIndex v s = BitVec.ofNat 32 (slotIndex v) ∧ slotIndex v < userSlots s := by
  have hlt := armv7MmuGetPgDiv_lt s
  have hslot := slotIndex_lt v
  have hsplit := (isHigherHalf_iff hlt v).not.mp (by simp [h])
  rw [ofNat_slotIndex, userSlots, userSlotCnt_eq hlt, newPgtbIndex]
  by_cases hdiv : armv7MmuGetPgDiv s = 0
  · have hkv : archMmuGetKernVaddr s = 0#32 := by
      rw [archMmuGetKernVaddr, if_neg (by omega)]
    rw [hkv, hdiv]
    refine ⟨?_, hslot⟩
    simp
  · have hbelow : ¬archMmuGetKernVaddr s ≤ v := by
      rw [kernVaddr_le_iff, splitSlot, if_neg hdiv]
      exact fun h ↦ hsplit ⟨by omega, h⟩
    exact ⟨if_neg hbelow, by omega⟩

theorem archMmuCreateNewEntry_userDirEntry (pgDir pgTbs : Addr) (acc : ℕ → MmuAccFlags) {i : ℕ}
    (hi : i < 4096) (t : Machine) :
    archMmuCreateNewEntry pgDir (userDirEntry pgTbs acc i) t
      = (.esucc, t.store (pgDir + 4#32 * BitVec.ofNat 32 i)
          (pgdEntryWord (userDirEntry pgTbs acc i).toArmv7Pgd)) := by
  have hidx : (BitVec.ofNat 32 i <<< 20 : Word) >>> pgdIdxShift = BitVec.ofNat 32 i := by
    apply BitVec.eq_of_toNat_eq
    rw [Bits.toNat_ushiftRight_eq, toNat_ofNat_shiftLeft_mib hi,
      Nat.mul_div_cancel _ (Nat.two_pow_pos 20), Bits.toNat_ofNat_of_lt (by omega)]
  simp only [archMmuCreateNewEntry, userDirEntry, armv7MmuMapNewPgd, createPgdEntry,
    MmuEntry.toArmv7Pgd, archMmuPgdTypeToArmv7, armv7IsSupportedPgdType, hidx, if_true]

/-- Where the offline path puts a page of the user half. -/
theorem archMmuCreateNewEntry_userPage (hsite : OfflineSite s pgDir pgTbs) (he : IsUserPage s e)
    (hdiv : armv7MmuGetPgDiv t = armv7MmuGetPgDiv s) :
    archMmuCreateNewEntry pgTbs e t
      = (.esucc, t.store (pgTbs + (BitVec.ofNat 32 (slotIndex e.virtAddr) * 0x400#32
          + 4#32 * pgtbIndex e.virtAddr)) (pgtbEntryWord e.toArmv7Pgtb)) := by
  obtain ⟨hidx, hlt⟩ := newPgtbIndex_of_user (s := t) (hdiv.symm ▸ he.user)
  have hlt' : slotIndex e.virtAddr < userSlots s := by rwa [userSlots, hdiv] at hlt
  rw [archMmuCreateNewEntry_pgtb (Or.inl he.type), hidx, hsite.or_eq_add _ hlt', add_assoc]

/-! ## Before the switch -/

/-- A call that writes a slot of the new directory, or a page of its tables. -/
def IsOfflineCall (s : Machine) (pgDir pgTbs : Addr) (acc : ℕ → MmuAccFlags)
    (c : Addr × MmuEntry) : Prop :=
  (∃ i < userSlots s, c = (pgDir, userDirEntry pgTbs acc i)) ∨
    ∃ e, IsUserPage s e ∧ c = (pgTbs, e)

theorem isOfflineCall_of_mem {entries : List MmuEntry} (hpages : ∀ e ∈ entries, IsUserPage s e)
    {c : Addr × MmuEntry}
    (hc : c ∈ dirCalls pgDir pgTbs acc (userSlots s) ++ tabCalls pgTbs entries) :
    IsOfflineCall s pgDir pgTbs acc c := by
  rcases List.mem_append.mp hc with hc | hc
  · obtain ⟨i, hi, rfl⟩ := List.mem_map.mp hc
    exact Or.inl ⟨i, List.mem_range.mp hi, rfl⟩
  · obtain ⟨e, he, rfl⟩ := List.mem_map.mp hc
    exact Or.inr ⟨e, hpages e he, rfl⟩

theorem toNat_tableOffset_add (v : Addr) :
    (BitVec.ofNat 32 (slotIndex v) * 0x400#32 + 4#32 * pgtbIndex v).toNat
      = slotIndex v * 0x400 + 4 * (pageOf v % 256) := by
  have := slotIndex_lt v
  rw [BitVec.toNat_add, toNat_tableOffset this, toNat_four_mul_pgtbIndex,
    Nat.mod_eq_of_lt (by omega)]

/-- **An offline call is not seen.** -/
theorem SameView.archMmuCreateNewEntry (h : SameView s t) (hsite : OfflineSite s pgDir pgTbs)
    {c : Addr × MmuEntry} (hc : IsOfflineCall s pgDir pgTbs acc c) :
    SameView s (archMmuCreateNewEntry c.1 c.2 t).2 := by
  have hle := userSlots_le s
  rcases hc with ⟨i, hi, rfl⟩ | ⟨e, he, rfl⟩
  · rw [archMmuCreateNewEntry_userDirEntry _ _ _ (by omega)]
    refine h.store hsite.pgDir_unseen ?_
    rw [toNat_slotOffset (by omega)]
    omega
  · obtain ⟨-, hlt⟩ := newPgtbIndex_of_user he.user
    rw [archMmuCreateNewEntry_userPage hsite he h.armv7MmuGetPgDiv_eq]
    refine h.store hsite.pgTbs_unseen ?_
    rw [toNat_tableOffset_add]
    omega

theorem SameView.createNew (hsite : OfflineSite s pgDir pgTbs) {calls : List (Addr × MmuEntry)}
    (hcalls : ∀ c ∈ calls, IsOfflineCall s pgDir pgTbs acc c) (h : SameView s t) :
    SameView s (createNew calls t) := by
  induction calls generalizing t with
  | nil => exact h
  | cons c calls ih =>
    rw [List.forall_mem_cons] at hcalls
    exact ih hcalls.2 (h.archMmuCreateNewEntry hsite hcalls.1)

/-! ## After the switch -/

/-- The two machines differ in the user directory and the trace only. -/
structure Twin (offline live : Machine) : Prop where
  mem : live.mem = offline.mem
  sctlr : live.sctlr = offline.sctlr
  ttbcr : live.ttbcr = offline.ttbcr
  ttbr1 : live.ttbr1 = offline.ttbr1

theorem archMmuSetUserPgDir_eq (h : archMmuGetUserPgdAlignment t ∣ pgDir.toNat) :
    ∃ u, archMmuSetUserPgDir pgDir t = (.esucc, u) ∧ Twin t u ∧ u.ttbr0 = pgDir := by
  have halign : isAlignedN pgDir (1#32 <<< (ttbrAlign - armv7MmuGetPgDiv t)) = true :=
    (isAlignedN_iff (Bits.toNat_one_shiftLeft
      (show 14 - armv7MmuGetPgDiv t < 32 by omega))).mpr h
  have hor : pgDir ||| (0x0#8 : Byte).zeroExtend 32 = pgDir := by simp
  simp only [archMmuSetUserPgDir, armv7MmuSetUserPgd, halign, if_true, hor]
  split_ifs <;> exact ⟨_, rfl, ⟨rfl, rfl, rfl, rfl⟩, rfl⟩

/-- The live directory is the one at `pgDir`, and its slots name the tables at `pgTbs`. -/
structure Switched (s : Machine) (pgDir pgTbs : Addr) (t : Machine) : Prop where
  enabled : armv7MmuIsEnabled t = true
  pgDiv : armv7MmuGetPgDiv t = armv7MmuGetPgDiv s
  ttbr0 : t.ttbr0 = pgDir
  slots : ∀ i < userSlots s,
    t.load (pgDir + 4#32 * BitVec.ofNat 32 i) &&& pgdTypeMask = Armv7MmuPgdType.pgdTable.toWord ∧
      t.load (pgDir + 4#32 * BitVec.ofNat 32 i) &&& pgdTableMask
        = pgTbs + BitVec.ofNat 32 i * 0x400#32

/-- The live path finds the table that the offline path computes. -/
theorem Switched.ptAddr_eq (h : Switched s pgDir pgTbs t) (hsite : OfflineSite s pgDir pgTbs)
    (he : IsUserPage s e) : IsTableSlot t (slotIndex e.virtAddr) ∧
      ptAddr t e.virtAddr = pgTbs + (BitVec.ofNat 32 (slotIndex e.virtAddr) * 0x400#32
        + 4#32 * pgtbIndex e.virtAddr) := by
  obtain ⟨-, hlt⟩ := newPgtbIndex_of_user he.user
  have hpgd : armv7MmuGetUserPgd t = pgDir := by
    apply BitVec.eq_of_toNat_eq
    rw [toNat_armv7MmuGetUserPgd h.enabled, h.ttbr0, h.pgDiv]
    exact Nat.div_mul_cancel hsite.pgDir_aligned
  have haddr : liveSlotAddr t (slotIndex e.virtAddr)
      = pgDir + 4#32 * BitVec.ofNat 32 (slotIndex e.virtAddr) := by
    rw [liveSlotAddr_slotIndex, h.pgDiv, he.user, hpgd, ofNat_slotIndex]
    rfl
  obtain ⟨htype, hbase⟩ := h.slots _ hlt
  rw [← haddr] at htype hbase
  refine ⟨htype, ?_⟩
  rw [ptAddr, tableBase, liveSlot, hbase, add_assoc]

theorem Switched.store (h : Switched s pgDir pgTbs t) (hsite : OfflineSite s pgDir pgTbs)
    {k : Addr} (hk : k.toNat + 4 ≤ userSlots s * 0x400) :
    Switched s pgDir pgTbs (t.store (pgTbs + k) x) := by
  refine ⟨h.enabled, h.pgDiv, h.ttbr0, ?_⟩
  intro i hi
  have hle := userSlots_le s
  have hload : (t.store (pgTbs + k) x).load (pgDir + 4#32 * BitVec.ofNat 32 i)
      = t.load (pgDir + 4#32 * BitVec.ofNat 32 i) := by
    refine readWord_writeWord_of_apart _ (hsite.apart.symm.mono hk ?_)
    rw [toNat_slotOffset (by omega)]
    omega
  rw [hload]
  exact h.slots i hi

/-- **The two paths store the same words.** -/
theorem Twin.build (hsite : OfflineSite s pgDir pgTbs) {entries : List MmuEntry}
    (hpages : ∀ e ∈ entries, IsUserPage s e) (h : Twin t live)
    (hsw : Switched s pgDir pgTbs live) :
    Twin (createNew (tabCalls pgTbs entries) t) (createLive entries live) ∧
      Switched s pgDir pgTbs (createLive entries live) := by
  induction entries generalizing t live with
  | nil => exact ⟨h, hsw⟩
  | cons e entries ih =>
    rw [List.forall_mem_cons] at hpages
    obtain ⟨he, hpages⟩ := hpages
    obtain ⟨-, hlt⟩ := newPgtbIndex_of_user he.user
    obtain ⟨htab, haddr⟩ := hsw.ptAddr_eq hsite he
    have hdiv : armv7MmuGetPgDiv t = armv7MmuGetPgDiv s := by
      rw [← hsw.pgDiv, armv7MmuGetPgDiv, armv7MmuGetPgDiv, h.ttbcr]
    have hnew := archMmuCreateNewEntry_userPage hsite he hdiv
    have hlive := archMmuCreateEntry_pgtb hsw.enabled (Or.inl he.type)
    rw [if_pos htab, haddr] at hlive
    have hcons : createNew (tabCalls pgTbs (e :: entries)) t
        = createNew (tabCalls pgTbs entries) (archMmuCreateNewEntry pgTbs e t).2 := rfl
    have hcons' : createLive (e :: entries) live
        = createLive entries (archMmuCreateEntry e live).2 := rfl
    rw [hcons, hcons', hnew, hlive]
    refine ih hpages ⟨?_, h.sctlr, h.ttbcr, h.ttbr1⟩ (hsw.store hsite ?_)
    · rw [Machine.store, Machine.store, h.mem]
    · rw [toNat_tableOffset_add]
      omega

theorem createNew_dirCalls (pgDir pgTbs : Addr) (acc : ℕ → MmuAccFlags) (hn : n ≤ 4096)
    (s : Machine) : createNew (dirCalls pgDir pgTbs acc n) s
      = s.storeAll (fun i ↦ pgDir + 4#32 * BitVec.ofNat 32 i)
          (fun i ↦ pgdEntryWord (userDirEntry pgTbs acc i).toArmv7Pgd) n := by
  induction n with
  | zero => rfl
  | succ n ih =>
    rw [Machine.storeAll_succ, ← ih (by omega), dirCalls, List.range_succ, List.map_append,
      createNew_append]
    exact congrArg Prod.snd (archMmuCreateNewEntry_userDirEntry pgDir pgTbs acc (by omega) _)

theorem userDirEntry_word (h : 0x400 ∣ pgTbs.toNat) (acc : ℕ → MmuAccFlags) {i : ℕ}
    (hi : i < 4096) :
    pgdEntryWord (userDirEntry pgTbs acc i).toArmv7Pgd &&& pgdTypeMask
        = Armv7MmuPgdType.pgdTable.toWord ∧
      pgdEntryWord (userDirEntry pgTbs acc i).toArmv7Pgd &&& pgdTableMask
        = pgTbs + BitVec.ofNat 32 i * 0x400#32 := by
  have hdom : archMmuAccToDomain (acc i) < 16#8 := by cases acc i <;> decide
  obtain ⟨htype, hbase⟩ := pgdEntryWord_table (e := (userDirEntry pgTbs acc i).toArmv7Pgd) rfl hdom
    BitVec.zero_and BitVec.zero_and
  refine ⟨htype, hbase.trans (and_pgdTableMask ?_)⟩
  change 2 ^ 10 ∣ (pgTbs + BitVec.ofNat 32 i * 0x400#32).toNat
  rw [BitVec.toNat_add, toNat_tableOffset hi]
  omega

/-- **The switch to the new directory.** -/
theorem Twin.switched (h : Twin (createNew (dirCalls pgDir pgTbs acc (userSlots s)) s) live)
    (hen : armv7MmuIsEnabled s = true) (hsite : OfflineSite s pgDir pgTbs)
    (hdvd : 0x400 ∣ pgTbs.toNat) (hpgd : live.ttbr0 = pgDir) : Switched s pgDir pgTbs live := by
  have hle := userSlots_le s
  have hslots := userSlotCnt_eq (armv7MmuGetPgDiv_lt s)
  have hlt := armv7MmuGetPgDiv_lt s
  rw [createNew_dirCalls pgDir pgTbs acc hle] at h
  obtain ⟨hsctlr, httbcr, -⟩ := s.storeAll_registers (fun i ↦ pgDir + 4#32 * BitVec.ofNat 32 i)
    (fun i ↦ pgdEntryWord (userDirEntry pgTbs acc i).toArmv7Pgd) (userSlots s)
  -- the directory does not reach the top of the address space
  have hpow : userSlots s * 4 = 2 ^ (14 - armv7MmuGetPgDiv s) := by
    rw [userSlots, hslots, show 14 - armv7MmuGetPgDiv s = 12 - armv7MmuGetPgDiv s + 2 by omega,
      pow_add, show (2 : ℕ) ^ 2 = 4 by norm_num]
  have halign : 2 ^ (14 - armv7MmuGetPgDiv s) ∣ pgDir.toNat := hsite.pgDir_aligned
  have haddr : ∀ i < userSlots s, (pgDir + 4#32 * BitVec.ofNat 32 i).toNat
      = pgDir.toNat + 4 * i := fun i hi ↦ toNat_dirSlot (by omega) halign (by omega)
  have hmod : pgDir.toNat % 4 = 0 := by
    have hfour : 2 ^ 2 ∣ pgDir.toNat := (Nat.pow_dvd_pow 2 (by omega)).trans halign
    omega
  refine ⟨?_, ?_, hpgd, ?_⟩
  · rw [armv7MmuIsEnabled, h.sctlr, hsctlr]
    exact hen
  · rw [armv7MmuGetPgDiv, h.ttbcr, httbcr, armv7MmuGetPgDiv]
  · intro i hi
    have hword : (s.storeAll (fun i ↦ pgDir + 4#32 * BitVec.ofNat 32 i)
        (fun i ↦ pgdEntryWord (userDirEntry pgTbs acc i).toArmv7Pgd) (userSlots s)).load
        (pgDir + 4#32 * BitVec.ofNat 32 i)
          = pgdEntryWord (userDirEntry pgTbs acc i).toArmv7Pgd := by
      refine Machine.load_storeAll_of_last (j := i) (fun j hj ↦ ?_) hi fun j hj hij heq ↦ ?_
      · rw [haddr j hj]
        omega
      · have hnat := congrArg BitVec.toNat heq
        rw [haddr j hj, haddr i hi] at hnat
        omega
    obtain ⟨htype, hbase⟩ := userDirEntry_word hdvd acc (show i < 4096 by omega)
    rw [Machine.load, h.mem]
    rw [← hword] at htype hbase
    exact ⟨htype, hbase⟩

theorem createLive_of_not_enabled {entries : List MmuEntry}
    (hpages : ∀ e ∈ entries, IsUserPage s e) (h : ¬armv7MmuIsEnabled t = true) :
    createLive entries t = t := by
  induction entries with
  | nil => rfl
  | cons e entries ih =>
    rw [List.forall_mem_cons] at hpages
    have hcall : (archMmuCreateEntry e t).2 = t := by
      simp only [archMmuCreateEntry, hpages.1.type, armv7MmuMapPgtb, if_neg h]
    have hcons : createLive (e :: entries) t = createLive entries (archMmuCreateEntry e t).2 := rfl
    rw [hcons, hcall, ih hpages.2]

/-- **A user half whose tables are aligned is built offline as it is built live.** -/
theorem buildsAlike (hsite : OfflineSite s pgDir pgTbs) (h : 0x400 ∣ pgTbs.toNat)
    (acc : ℕ → MmuAccFlags) {entries : List MmuEntry} (hpages : ∀ e ∈ entries, IsUserPage s e) :
    BuildsAlike s pgDir pgTbs acc entries := by
  have hview : ∀ calls, calls <+: dirCalls pgDir pgTbs acc (userSlots s) ++ tabCalls pgTbs entries →
      SameView s (createNew calls s) := fun calls hcalls ↦
    (SameView.refl s).createNew hsite fun c hc ↦ isOfflineCall_of_mem hpages (hcalls.subset hc)
  refine ⟨fun calls hcalls v ↦ (hview calls hcalls).virtToPhy_eq v, ?_⟩
  intro v
  have hdir := hview _ (List.prefix_append (dirCalls pgDir pgTbs acc (userSlots s)) _)
  have hall := hview _ (List.prefix_refl _)
  rw [createNew_append] at hall ⊢
  have halign : ∀ t, SameView s t → archMmuGetUserPgdAlignment t ∣ pgDir.toNat := by
    intro t ht
    rw [archMmuGetUserPgdAlignment, ht.armv7MmuGetPgDiv_eq]
    exact hsite.pgDir_aligned
  obtain ⟨u, hswitch, htwin, hpgd⟩ := archMmuSetUserPgDir_eq (halign _ hall)
  obtain ⟨live, hswitch', htwin', hpgd'⟩ := archMmuSetUserPgDir_eq (halign _ hdir)
  rw [hswitch, hswitch']
  by_cases hen : armv7MmuIsEnabled s = true
  · obtain ⟨hbuilt, hsw⟩ := htwin'.build hsite hpages (htwin'.switched hen hsite h hpgd')
    exact virtToPhy_of_same (hbuilt.mem.trans htwin.mem.symm).symm
      (hbuilt.sctlr.trans htwin.sctlr.symm).symm (hbuilt.ttbcr.trans htwin.ttbcr.symm).symm
      (hpgd.trans hsw.ttbr0.symm) (hbuilt.ttbr1.trans htwin.ttbr1.symm).symm v
  · have hoff : ∀ t : Machine, t.sctlr = s.sctlr → ¬armv7MmuIsEnabled t = true := by
      intro t ht
      rw [armv7MmuIsEnabled, ht]
      exact hen
    have hoff' := hoff live (htwin'.sctlr.trans hdir.sctlr)
    rw [createLive_of_not_enabled hpages hoff', virtToPhy, virtToPhy,
      virtToPhy_of_not_enabled (hoff u (htwin.sctlr.trans hall.sctlr)),
      virtToPhy_of_not_enabled hoff']

/-! ## A user half of 32 MiB -/

/-- A user half of 32 slots, and nothing mapped. -/
def narrowHalf : Machine where
  mem := fun _ ↦ 0#8
  sctlr := 1#32
  ttbcr := 7#32
  ttbr0 := 0x4000#32
  ttbr1 := 0x8000#32
  dacr := 0#32
  trace := []

theorem toNat_liveSlotAddr_narrowHalf {i : ℕ} (hi : i < 4096) :
    (liveSlotAddr narrowHalf i).toNat = (if 32 ≤ i then 0x8000 else 0x4000) + 4 * i := by
  have hdiv : armv7MmuGetPgDiv narrowHalf = 7 := rfl
  have hkern : armv7MmuGetKernPgd narrowHalf = 0x8000#32 := rfl
  have huser : armv7MmuGetUserPgd narrowHalf = 0x4000#32 := rfl
  rw [liveSlotAddr, hdiv, hkern, huser]
  by_cases h : 32 ≤ i
  · rw [if_pos h, if_pos ⟨by omega, by omega⟩]
    exact toNat_dirSlot (k := 14) (by omega) (by decide) (by omega)
  · rw [if_neg h, if_neg (by omega)]
    exact toNat_dirSlot (k := 14) (by omega) (by decide) (by omega)

theorem unseen_narrowHalf (hlow : 0x10000 ≤ a.toNat) (hfit : a.toNat + n ≤ 2 ^ 32) :
    Unseen narrowHalf a n := by
  constructor
  · intro i hi y hy hys
    have haddr := toNat_liveSlotAddr_narrowHalf hi
    have hslot : (liveSlotAddr narrowHalf i).toNat < 0x10000 - 4 := by
      rw [haddr]
      split_ifs <;> omega
    rw [inRange_iff hfit] at hy
    rw [inRange_iff (by omega)] at hys
    omega
  · intro i hi htab
    have hzero : liveSlot narrowHalf i = 0#32 := readWord_zero (liveSlotAddr narrowHalf i)
    rw [IsTableSlot, hzero] at htab
    exact absurd htab (by decide)

theorem offlineSite_narrowHalf (hor : ∀ i < 32,
      pgTbs ||| (BitVec.ofNat 32 i <<< pgIdxShift) = pgTbs + BitVec.ofNat 32 i * 0x400#32)
    (hlow : 0x30000 ≤ pgTbs.toNat) (hfit : pgTbs.toNat + 0x8000 ≤ 2 ^ 32) :
    OfflineSite narrowHalf 0x20000#32 pgTbs where
  pgDir_aligned := by decide
  or_eq_add := hor
  apart := by
    intro y hy hy'
    have hsize : userSlots narrowHalf * 0x400 = 0x8000 := rfl
    rw [hsize, inRange_iff hfit] at hy'
    rw [inRange_iff (by decide)] at hy
    have hend : (0x20000#32 : Addr).toNat + userSlots narrowHalf * 4 = 0x20080 := rfl
    omega
  pgDir_unseen := unseen_narrowHalf (by decide) (by decide)
  pgTbs_unseen := unseen_narrowHalf (by omega) hfit

/-- One page, built both ways. -/
theorem buildsAlike_narrowHalf : BuildsAlike narrowHalf 0x20000#32 0x40000#32 (fun _ ↦ .user)
    [⟨0x60001000#32, 0x0#32, .pgTab, .user⟩] :=
  buildsAlike (offlineSite_narrowHalf (by decide) (by decide) (by decide)) (by decide) _
    (by
      intro e he
      rw [List.mem_singleton.mp he]
      exact ⟨rfl, rfl⟩)

/-- The OR is a sum for tables at `0x40200` too, but a directory names the table at `0x40000`. The
offline path writes the page where no walk finds it. -/
theorem not_buildsAlike_narrowHalf :
    OfflineSite narrowHalf 0x20000#32 0x40200#32 ∧
      (∀ e ∈ [(⟨0x60001000#32, 0x0#32, .pgTab, .user⟩ : MmuEntry)], IsUserPage narrowHalf e) ∧
      ¬BuildsAlike narrowHalf 0x20000#32 0x40200#32 (fun _ ↦ .user)
        [⟨0x60001000#32, 0x0#32, .pgTab, .user⟩] := by
  refine ⟨offlineSite_narrowHalf (by decide) (by decide) (by decide), ?_, ?_⟩
  · intro e he
    rw [List.mem_singleton.mp he]
    exact ⟨rfl, rfl⟩
  · intro h
    exact absurd (h.alike 0x0#32) (by decide +kernel)

end Sugarcat
