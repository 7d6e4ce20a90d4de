import Sugarcat.Armv7.LiveTables

/-!
# Where an offline table entry goes

`arch_mmu_create_new_entry` writes into a region of page tables that is not in use yet. The table of
an address is found by its MiB index within its half of the address space, and the address of that
table is composed with a bitwise OR, which is a sum only when the base of the region has no bit in
common with any index. The advertised alignment of a region, 4 KiB, does not ensure that: the tables
of a half span up to 4 MiB.

`PlacesOffline` says what the interface promises for one half, and `placesOffline_iff` gives the
alignment at which the promise is kept.

## The alignment that is needed

If the base is aligned to the size of the region, rounded up to a power of two, then the OR is a
sum, and the tables stand one after the other. The converse goes bit by bit. For every power of two
below that size there is a MiB of the half whose table has it as its index. If the word of that MiB
is where the interface puts it, the base does not have that bit, and a base that has none of these
bits is aligned.

## Where a word went

`WritesAt` says that a call stores one word at an address and changes nothing else. The store is an
event of the trace, so the address is determined by what the call did, also where the word that was
there before is the one that is stored.
-/

namespace Sugarcat

open ByteMemory

/-! ## Halves of the address space -/

/-- Both addresses are below the start of the kernel half, or neither is. -/
def SameHalf (s : Machine) (u v : Addr) : Prop :=
  archMmuGetKernVaddr s ≤ u ↔ archMmuGetKernVaddr s ≤ v

/-- The MiB index of an address, counted from the start of its half. -/
def mibIndex (s : Machine) (v : Addr) : ℕ :=
  if archMmuGetKernVaddr s ≤ v then (v.toNat - (archMmuGetKernVaddr s).toNat) / 2 ^ 20
  else v.toNat / 2 ^ 20

/-- The size of the table region of the half of `u`. -/
def halfPgtbRegSz (s : Machine) (u : Addr) : ℕ :=
  if archMmuGetKernVaddr s ≤ u then archMmuGetKernPgtbRegSz s else archMmuGetUserPgtbRegSz s

/-- The exponent of that size rounded up to a power of two. One slot counts `2 ^ 10` bytes, the user
half has `2 ^ (12 - N)` slots and the kernel half the rest of the `2 ^ 12`. -/
def halfAlignLog (s : Machine) (u : Addr) : ℕ :=
  if archMmuGetKernVaddr s ≤ u then (if armv7MmuGetPgDiv s = 1 then 21 else 22)
  else 22 - armv7MmuGetPgDiv s

variable {s : Machine} {u v w : Addr}

theorem kernVaddr_le_iff : archMmuGetKernVaddr s ≤ u ↔ splitSlot s ≤ slotIndex u := by
  rw [BitVec.le_def, toNat_archMmuGetKernVaddr, slotIndex,
    Nat.le_div_iff_mul_le (Nat.two_pow_pos 20)]

theorem mibIndex_eq (s : Machine) (v : Addr) :
    mibIndex s v
      = if archMmuGetKernVaddr s ≤ v then slotIndex v - splitSlot s else slotIndex v := by
  rw [mibIndex, toNat_archMmuGetKernVaddr, mul_comm, Nat.sub_mul_div]
  rfl

theorem pgDiv_pos_of_lt_kernVaddr (h : ¬archMmuGetKernVaddr s ≤ u) : 0 < armv7MmuGetPgDiv s := by
  by_contra hzero
  rw [kernVaddr_le_iff, splitSlot, if_pos (by omega)] at h
  omega

theorem userSlotCnt_eq {pgDiv : ℕ} (h : pgDiv < 8) : userSlotCnt pgDiv = 2 ^ (12 - pgDiv) := by
  rw [userSlotCnt]
  congr 1
  change 32 - (pgDiv + 20) = 12 - pgDiv
  omega

theorem halfPgtbRegSz_eq (s : Machine) (u : Addr) :
    halfPgtbRegSz s u
      = (if archMmuGetKernVaddr s ≤ u then 4096 - splitSlot s else splitSlot s) * 0x400 := by
  have hslots : 0 < armv7MmuGetPgDiv s → userSlotCnt (armv7MmuGetPgDiv s) = splitSlot s := by
    intro hpos
    rw [userSlotCnt_eq (armv7MmuGetPgDiv_lt s), splitSlot, if_neg (by omega)]
  rw [halfPgtbRegSz]
  split_ifs with h
  · rw [archMmuGetKernPgtbRegSz]
    split_ifs with hpos
    · rw [hslots hpos]
    · rw [splitSlot, if_pos (by omega)]
  · have hpos := pgDiv_pos_of_lt_kernVaddr h
    rw [archMmuGetUserPgtbRegSz, if_pos hpos, hslots hpos]

theorem two_pow_halfAlignLog (s : Machine) (u : Addr) :
    2 ^ halfAlignLog s u
      = if archMmuGetKernVaddr s ≤ u then (if splitSlot s = 2048 then 2 ^ 21 else 2 ^ 22)
        else splitSlot s * 2 ^ 10 := by
  have hlt := armv7MmuGetPgDiv_lt s
  simp only [halfAlignLog, splitSlot_eq_iff]
  split_ifs with h h1
  · rfl
  · rfl
  · have hpos := pgDiv_pos_of_lt_kernVaddr h
    rw [splitSlot, if_neg (by omega), ← pow_add]
    congr 1
    omega

theorem halfPgtbRegSz_le (s : Machine) (u : Addr) :
    halfPgtbRegSz s u ≤ 2 ^ halfAlignLog s u := by
  have hle := splitSlot_le s
  rw [halfPgtbRegSz_eq, two_pow_halfAlignLog]
  split_ifs <;> omega

theorem halfAlignLog_bounds (s : Machine) (u : Addr) :
    15 ≤ halfAlignLog s u ∧ halfAlignLog s u ≤ 22 := by
  have hlt := armv7MmuGetPgDiv_lt s
  rw [halfAlignLog]
  split_ifs <;> omega

/-- The tables of a half stand one after the other in its region. -/
theorem mibIndex_mul_add_le (h : SameHalf s u v) :
    mibIndex s v * 0x400 + 0x400 ≤ halfPgtbRegSz s u := by
  have hv := slotIndex_lt v
  have hle := splitSlot_le s
  rw [SameHalf] at h
  rw [halfPgtbRegSz_eq, mibIndex_eq]
  by_cases hu : archMmuGetKernVaddr s ≤ u
  · have hv' := h.mp hu
    rw [if_pos hu, if_pos hv']
    rw [kernVaddr_le_iff] at hv'
    omega
  · have hv' : ¬archMmuGetKernVaddr s ≤ v := fun hv' ↦ hu (h.mpr hv')
    rw [if_neg hu, if_neg hv']
    rw [kernVaddr_le_iff] at hv'
    omega

/-- Every index up to half of the rounded size is the index of a table of the half. -/
theorem exists_mibIndex_eq {i : ℕ} (hi : 2 * (i * 0x400) ≤ 2 ^ halfAlignLog s u) :
    ∃ v, SameHalf s u v ∧ mibIndex s v = i := by
  have hle := splitSlot_le s
  rw [two_pow_halfAlignLog] at hi
  by_cases hu : archMmuGetKernVaddr s ≤ u
  · have hi' : splitSlot s + i < 4096 := by
      rw [if_pos hu] at hi
      split_ifs at hi <;> omega
    obtain ⟨v, hv⟩ := exists_slotIndex_eq hi'
    have hv' : archMmuGetKernVaddr s ≤ v := by
      rw [kernVaddr_le_iff]
      omega
    refine ⟨v, iff_of_true hu hv', ?_⟩
    rw [mibIndex_eq, if_pos hv', hv]
    omega
  · rw [if_neg hu] at hi
    obtain ⟨v, hv⟩ := exists_slotIndex_eq (i := i) (by omega)
    have hpos := kernVaddr_le_iff.not.mp hu
    have hv' : ¬archMmuGetKernVaddr s ≤ v := by
      rw [kernVaddr_le_iff]
      omega
    exact ⟨v, iff_of_false hu hv', by rw [mibIndex_eq, if_neg hv', hv]⟩

theorem slotIndex_eq_of_mibIndex_eq (hv : SameHalf s u v) (hw : SameHalf s u w)
    (h : mibIndex s v = mibIndex s w) : slotIndex v = slotIndex w := by
  have hvw : archMmuGetKernVaddr s ≤ v ↔ archMmuGetKernVaddr s ≤ w := hv.symm.trans hw
  rw [mibIndex_eq, mibIndex_eq] at h
  by_cases hle : archMmuGetKernVaddr s ≤ v
  · have hle' := hvw.mp hle
    rw [if_pos hle, if_pos hle'] at h
    rw [kernVaddr_le_iff] at hle hle'
    omega
  · rwa [if_neg hle, if_neg fun hle' ↦ hle (hvw.mpr hle')] at h

/-! ## The word of a page -/

/-- Where the interface puts the word of `v` in the region at `pgBase`. -/
def offlineAddr (s : Machine) (pgBase v : Addr) : Addr :=
  pgBase + BitVec.ofNat 32 (mibIndex s v) * 0x400#32 + 4#32 * pgtbIndex v

/-- The call succeeds, stores one word, at `a`, and changes nothing else. -/
def WritesAt (s : Machine) (pgBase : Addr) (entry : MmuEntry) (a : Addr) : Prop :=
  ∃ x, archMmuCreateNewEntry pgBase entry s = (.esucc, s.store a x)

/-- What is expected of the pages of the half of `u` in the region of tables at `pgBase`. -/
structure PlacesOffline (s : Machine) (pgBase u : Addr) : Prop where
  /-- The word of a page is in the table of its MiB, at the index of the page. -/
  word : ∀ e : MmuEntry, e.type = .pgTab → SameHalf s u e.virtAddr →
    WritesAt s pgBase e (offlineAddr s pgBase e.virtAddr)
  /-- It is in the region. -/
  inside : ∀ e : MmuEntry, e.type = .pgTab → SameHalf s u e.virtAddr →
    ∀ a, WritesAt s pgBase e a → ∀ x, InRange a 4 x → InRange pgBase (halfPgtbRegSz s u) x
  /-- It is not that of another page. -/
  distinct : ∀ e f : MmuEntry, e.type = .pgTab → f.type = .pgTab → SameHalf s u e.virtAddr →
    SameHalf s u f.virtAddr → pageOf e.virtAddr ≠ pageOf f.virtAddr →
    ∀ a b, WritesAt s pgBase e a → WritesAt s pgBase f b → Apart a 4 b 4

variable {pgBase : Addr} {e : MmuEntry}

theorem archMmuCreateNewEntry_pgtb (htype : e.type = .pgTab ∨ e.type = .pgTabInval) :
    archMmuCreateNewEntry pgBase e s
      = (.esucc, s.store ((pgBase ||| (newPgtbIndex e.virtAddr s <<< pgIdxShift))
          + 4#32 * pgtbIndex e.virtAddr) (pgtbEntryWord e.toArmv7Pgtb)) := by
  have hsupp : armv7IsSupportedPgtbType e.toArmv7Pgtb.type = true := by
    rcases htype with h | h <;>
      simp [MmuEntry.toArmv7Pgtb, h, archMmuPgtbTypeToArmv7, armv7IsSupportedPgtbType]
  rcases htype with h | h <;>
    simp only [archMmuCreateNewEntry, h, armv7MmuMapNewPgtb, if_pos hsupp, createPgtbEntry] <;>
      rfl

theorem writesAt_iff (he : e.type = .pgTab) {a : Addr} :
    WritesAt s pgBase e a
      ↔ a = (pgBase ||| (newPgtbIndex e.virtAddr s <<< pgIdxShift))
          + 4#32 * pgtbIndex e.virtAddr := by
  rw [WritesAt, archMmuCreateNewEntry_pgtb (Or.inl he)]
  constructor
  · rintro ⟨x, hx⟩
    have htrace := congrArg (fun r ↦ r.2.trace) hx
    simp only [Machine.store, List.append_cancel_left_eq, List.cons.injEq, Event.store.injEq,
      and_true] at htrace
    exact htrace.1.symm
  · rintro rfl
    exact ⟨_, rfl⟩

theorem toNat_newPgtbIndex (s : Machine) (v : Addr) :
    (newPgtbIndex v s).toNat = mibIndex s v := by
  rw [newPgtbIndex, mibIndex]
  by_cases h : archMmuGetKernVaddr s ≤ v
  · rw [if_pos h, if_pos h, Bits.toNat_ushiftRight_eq, BitVec.toNat_sub_of_le h]
  · rw [if_neg h, if_neg h, Bits.toNat_ushiftRight_eq]

theorem mibIndex_lt (s : Machine) (v : Addr) : mibIndex s v < 4096 := by
  have := slotIndex_lt v
  rw [mibIndex_eq]
  split_ifs <;> omega

theorem newPgtbIndex_shift (s : Machine) (v : Addr) :
    newPgtbIndex v s <<< pgIdxShift = BitVec.ofNat 32 (mibIndex s v) * 0x400#32 := by
  have hidx : newPgtbIndex v s = BitVec.ofNat 32 (mibIndex s v) := by
    rw [← toNat_newPgtbIndex, BitVec.ofNat_toNat, BitVec.setWidth_eq]
  rw [hidx, shiftLeft_tableOffset (mibIndex_lt s v)]

/-- The code hits the intended word when the base shares no bit with the offset of the table. -/
theorem writesAt_offlineAddr_iff (he : e.type = .pgTab) :
    WritesAt s pgBase e (offlineAddr s pgBase e.virtAddr)
      ↔ pgBase.toNat &&& (mibIndex s e.virtAddr * 0x400) = 0 := by
  rw [writesAt_iff he, offlineAddr, newPgtbIndex_shift, add_left_inj, eq_comm, Bits.or_eq_add_iff,
    ← BitVec.toNat_inj, BitVec.toNat_and, toNat_tableOffset (mibIndex_lt s _)]
  rfl

/-! ## The alignment that is needed -/

/-- In a region aligned to its rounded size the OR is a sum. -/
theorem toNat_of_writesAt (h : 2 ^ halfAlignLog s u ∣ pgBase.toNat) (he : e.type = .pgTab)
    (hu : SameHalf s u e.virtAddr) {a : Addr} (ha : WritesAt s pgBase e a) :
    a.toNat
      = pgBase.toNat + (mibIndex s e.virtAddr * 0x400 + 4 * (pageOf e.virtAddr % 256)) := by
  have hle := mibIndex_mul_add_le hu
  have hsz := halfPgtbRegSz_le s u
  have hlog := halfAlignLog_bounds s u
  have hfit := Bits.add_two_pow_le_of_dvd (by omega) h pgBase.isLt
  rw [writesAt_iff he, newPgtbIndex_shift] at ha
  rw [ha, BitVec.toNat_add, toNat_four_mul_pgtbIndex,
    Bits.toNat_or_of_dvd_of_lt h (by rw [toNat_tableOffset (mibIndex_lt s _)]; omega),
    toNat_tableOffset (mibIndex_lt s _), Nat.mod_eq_of_lt (by omega), add_assoc]

theorem placesOffline_of_dvd (h : 2 ^ halfAlignLog s u ∣ pgBase.toNat) :
    PlacesOffline s pgBase u where
  word e he hu := by
    have hle := mibIndex_mul_add_le hu
    have hsz := halfPgtbRegSz_le s u
    exact (writesAt_offlineAddr_iff he).mpr (Bits.and_eq_zero_of_dvd_of_lt h (by omega))
  inside e he hu a ha x hx := by
    have haddr := toNat_of_writesAt h he hu ha
    have hle := mibIndex_mul_add_le hu
    have hsz := halfPgtbRegSz_le s u
    have hlog := halfAlignLog_bounds s u
    have hfit := Bits.add_two_pow_le_of_dvd (by omega) h pgBase.isLt
    rw [inRange_iff (by omega)] at hx ⊢
    omega
  distinct e f he hf heu hfu hne a b ha hb := by
    have hea := toNat_of_writesAt h he heu ha
    have hfb := toNat_of_writesAt h hf hfu hb
    have hlog := halfAlignLog_bounds s u
    have hbase : 2 ^ 2 ∣ pgBase.toNat := (Nat.pow_dvd_pow 2 (by omega)).trans h
    refine apart_of_aligned (by omega) (by omega) ?_
    rintro rfl
    refine hne (pageOf_eq_iff.mpr ⟨?_, by omega⟩)
    exact slotIndex_eq_of_mibIndex_eq heu hfu (by omega)

/-- A region in which every word is where the interface puts it misses every bit of its tables'
offsets, one table for each bit. -/
theorem dvd_of_placesOffline (halign : archMmuGetPgtbAlignment ∣ pgBase.toNat)
    (h : PlacesOffline s pgBase u) : 2 ^ halfAlignLog s u ∣ pgBase.toNat := by
  refine Bits.two_pow_dvd_of_forall_and fun t ht ↦ ?_
  by_cases hlow : t < 12
  · exact Bits.and_eq_zero_of_dvd_of_lt (k := 12) halign (Nat.pow_lt_pow_right (by omega) hlow)
  · have hpow : 2 ^ (t - 10) * 0x400 = 2 ^ t := by
      rw [show (0x400 : ℕ) = 2 ^ 10 by norm_num, ← pow_add, Nat.sub_add_cancel (by omega)]
    have hi : 2 * (2 ^ (t - 10) * 0x400) ≤ 2 ^ halfAlignLog s u := by
      rw [hpow, ← pow_succ']
      exact Nat.pow_le_pow_right (by omega) ht
    obtain ⟨v, hv, hmib⟩ := exists_mibIndex_eq hi
    have hword := h.word ⟨0#32, v, .pgTab, .kernel⟩ rfl hv
    rwa [writesAt_offlineAddr_iff rfl, hmib, hpow] at hword

/-- **The words of a half are where the interface puts them exactly when the base of the region is
aligned to the size of the region, rounded up to a power of two.** -/
theorem placesOffline_iff (halign : archMmuGetPgtbAlignment ∣ pgBase.toNat) :
    PlacesOffline s pgBase u ↔ 2 ^ halfAlignLog s u ∣ pgBase.toNat :=
  ⟨dvd_of_placesOffline halign, placesOffline_of_dvd⟩

/-- The kernel half of a 2 GiB split, in a region aligned to its 2 MiB. -/
theorem placesOffline_iff_kernel : PlacesOffline oneTable 0x60200000#32 0x80000000#32 :=
  (placesOffline_iff (by decide)).mpr (by decide)

/-- The user half in a region aligned to one page: the table of MiB `4` is taken to be the first one
of the region. -/
theorem not_placesOffline_oneTable :
    archMmuGetPgtbAlignment ∣ (0x60001000#32 : Addr).toNat ∧
      WritesAt oneTable 0x60001000#32 ⟨0x0#32, 0x400000#32, .pgTab, .user⟩ 0x60001000#32 ∧
      ¬PlacesOffline oneTable 0x60001000#32 0x400000#32 := by
  refine ⟨by decide, (writesAt_iff rfl).mpr rfl, ?_⟩
  intro h
  have hword := h.word ⟨0x0#32, 0x400000#32, .pgTab, .user⟩ rfl Iff.rfl
  rw [writesAt_iff rfl] at hword
  exact absurd hword (by decide)

end Sugarcat
