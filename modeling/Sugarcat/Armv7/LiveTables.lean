import Sugarcat.Armv7.ArchMmu

/-!
# Live directory slots and separated page tables

Whatever the split, exactly one directory word decides the translation of each MiB: a slot of the
TTBR0 directory below the split and a slot of the TTBR1 directory from the split on. Indexing these
*live* slots by MiB hides the choice of directory, and translation becomes one equation in the slot
word and, under a TABLE slot, one word of the table it names.

## Separation

`WellSeparated` asks that the tables named by live slots share no address with each other and with
no live slot. A store to a table then changes the translation of a single page
(`WellSeparated.virtToPhy_store`) and leaves the machine well separated
(`WellSeparated.store_ptAddr`). These two facts carry every result about runs of mapping calls.

## Decoding what was encoded

The words that the mapping code stores have a type field, and an address above it. A small page with
ordinary flags decodes to its own frame, a directory word to its own table, and an invalid word to
nothing unless the address it was given ends in the type of a page. The lemmas say so for the fields
one at a time, since what can go wrong in the source is that one field reaches into the next one.

## What one call does

`armv7MmuMapPgtb_eq` is the specification of a mapping call: a table entry goes to the live table of
its address when there is one, and is refused without any effect otherwise.
-/

namespace Sugarcat

open ByteMemory

/-! ## Live slots -/

/-- The MiB of an address, which is its index in a directory. -/
def slotIndex (v : Addr) : ℕ := v.toNat / 2 ^ 20

/-- The 4 KiB page of an address. -/
def pageOf (v : Addr) : ℕ := v.toNat / 2 ^ 12

/-- The address of the live directory slot of MiB `i`: in the TTBR1 directory from slot
`2 ^ (12 - N)` on when the split `N` is positive, in the TTBR0 directory otherwise. -/
def liveSlotAddr (s : Machine) (i : ℕ) : Addr :=
  (if 0 < armv7MmuGetPgDiv s ∧ 2 ^ (12 - armv7MmuGetPgDiv s) ≤ i then armv7MmuGetKernPgd s
    else armv7MmuGetUserPgd s) + 4#32 * BitVec.ofNat 32 i

def liveSlot (s : Machine) (i : ℕ) : Word := s.load (liveSlotAddr s i)

/-- The live slot of MiB `i` holds a TABLE descriptor. -/
def IsTableSlot (s : Machine) (i : ℕ) : Prop :=
  liveSlot s i &&& pgdTypeMask = Armv7MmuPgdType.pgdTable.toWord

instance (s : Machine) (i : ℕ) : Decidable (IsTableSlot s i) :=
  inferInstanceAs (Decidable (_ = _))

/-- The page table a live TABLE slot names. -/
def tableBase (s : Machine) (i : ℕ) : Addr := liveSlot s i &&& pgdTableMask

/-- The index of a page in its table. -/
def pgtbIndex (v : Addr) : Word := (v >>> pgtbIdxShift) &&& pgtbIdxMask

/-- The address of the table word of `v`, when its slot is a TABLE slot. -/
def ptAddr (s : Machine) (v : Addr) : Addr := tableBase s (slotIndex v) + 4#32 * pgtbIndex v

theorem slotIndex_lt (v : Addr) : slotIndex v < 4096 := by
  have := v.isLt
  rw [slotIndex]
  omega

theorem exists_slotIndex_eq {i : ℕ} (hi : i < 4096) : ∃ v, slotIndex v = i := by
  refine ⟨BitVec.ofNat 32 (i * 2 ^ 20), ?_⟩
  rw [slotIndex, Bits.toNat_ofNat_of_lt (by omega),
    Nat.mul_div_cancel _ (Nat.two_pow_pos 20)]

theorem toNat_ofNat_shiftLeft_mib {i : ℕ} (hi : i < 4096) :
    (BitVec.ofNat 32 i <<< 20).toNat = i * 2 ^ 20 := by
  have hval : (BitVec.ofNat 32 i).toNat = i := Bits.toNat_ofNat_of_lt (by omega)
  rw [Bits.toNat_shiftLeft_of_lt, hval]
  rw [hval]
  exact (Nat.mul_lt_mul_of_pos_right hi (Nat.two_pow_pos 20)).trans_le (by decide)

theorem toNat_tableOffset {i : ℕ} (hi : i < 4096) :
    (BitVec.ofNat 32 i * 0x400#32).toNat = i * 0x400 := by
  rw [BitVec.toNat_mul, BitVec.toNat_ofNat, BitVec.toNat_ofNat, Nat.mod_eq_of_lt (by omega),
    Nat.mod_eq_of_lt (by omega : 0x400 < 2 ^ 32), Nat.mod_eq_of_lt (by omega)]

theorem shiftLeft_tableOffset {i : ℕ} (hi : i < 4096) :
    BitVec.ofNat 32 i <<< pgIdxShift = BitVec.ofNat 32 i * 0x400#32 := by
  have hval : (BitVec.ofNat 32 i).toNat = i := Bits.toNat_ofNat_of_lt (by omega)
  apply BitVec.eq_of_toNat_eq
  rw [toNat_tableOffset hi, Bits.toNat_shiftLeft_of_lt, hval]
  · norm_num
  · rw [hval]
    exact (Nat.mul_lt_mul_of_pos_right hi (Nat.two_pow_pos 10)).trans (by decide)

theorem toNat_slotOffset {i : ℕ} (hi : 4 * i < 2 ^ 32) :
    (4#32 * BitVec.ofNat 32 i).toNat = 4 * i := by
  rw [BitVec.toNat_mul, BitVec.toNat_ofNat, BitVec.toNat_ofNat]
  omega

theorem toNat_dirSlot {x : Addr} {k i : ℕ} (hk : k ≤ 32) (hx : 2 ^ k ∣ x.toNat)
    (hi : 4 * i + 4 ≤ 2 ^ k) : (x + 4#32 * BitVec.ofNat 32 i).toNat = x.toNat + 4 * i := by
  have hfit := Bits.add_two_pow_le_of_dvd hk hx x.isLt
  rw [BitVec.toNat_add, toNat_slotOffset (by omega), Nat.mod_eq_of_lt (by omega)]

theorem armv7MmuGetPgDiv_lt (s : Machine) : armv7MmuGetPgDiv s < 8 := by
  rw [armv7MmuGetPgDiv, Bits.toNat_and_low (k := 3) rfl]
  exact Nat.mod_lt _ (by omega)

theorem ofNat_slotIndex (v : Addr) : BitVec.ofNat 32 (slotIndex v) = v >>> pgdIdxShift := by
  apply BitVec.eq_of_toNat_eq
  have := slotIndex_lt v
  rw [Bits.toNat_ofNat_of_lt (by omega), Bits.toNat_ushiftRight_eq, slotIndex]

/-- The first slot of the kernel half. -/
def splitSlot (s : Machine) : ℕ :=
  if armv7MmuGetPgDiv s = 0 then 0 else 2 ^ (12 - armv7MmuGetPgDiv s)

theorem splitSlot_le (s : Machine) : splitSlot s ≤ 2048 := by
  rw [splitSlot]
  split_ifs with h
  · omega
  · exact Nat.pow_le_pow_right (by omega) (by omega : 12 - armv7MmuGetPgDiv s ≤ 11)

theorem splitSlot_eq_iff (s : Machine) : splitSlot s = 2048 ↔ armv7MmuGetPgDiv s = 1 := by
  have hlt := armv7MmuGetPgDiv_lt s
  rw [splitSlot]
  split_ifs with h
  · simp [h]
  · have hpow : (2048 : ℕ) = 2 ^ 11 := by norm_num
    rw [hpow, Nat.pow_right_inj (by omega : 1 < 2)]
    omega

theorem toNat_archMmuGetKernVaddr (s : Machine) :
    (archMmuGetKernVaddr s).toNat = splitSlot s * 2 ^ 20 := by
  have hlt := armv7MmuGetPgDiv_lt s
  rw [archMmuGetKernVaddr, splitSlot]
  by_cases h : armv7MmuGetPgDiv s = 0
  · simp [h]
  · rw [if_pos (by omega), if_neg h, Bits.toNat_one_shiftLeft (by omega), ← pow_add,
      show 12 - armv7MmuGetPgDiv s + 20 = 32 - armv7MmuGetPgDiv s by omega]

theorem isHigherHalf_iff {n : ℕ} (hn : n < 8) (v : Addr) :
    isHigherHalf v n = true ↔ 0 < n ∧ 2 ^ (12 - n) ≤ slotIndex v := by
  rw [isHigherHalf]
  by_cases h : n > 0
  · have hdiv : (1#32 <<< (32 - n)).toNat = 2 ^ (12 - n) * 2 ^ 20 := by
      rw [Bits.toNat_one_shiftLeft (by omega), ← pow_add, show 12 - n + 20 = 32 - n by omega]
    rw [if_pos h, decide_eq_true_iff, ge_iff_le, BitVec.le_def, hdiv, slotIndex,
      Nat.le_div_iff_mul_le (Nat.two_pow_pos 20)]
    exact ⟨fun hv ↦ ⟨h, hv⟩, fun hv ↦ hv.2⟩
  · simp [h]

theorem liveSlotAddr_slotIndex (s : Machine) (v : Addr) :
    liveSlotAddr s (slotIndex v)
      = (if isHigherHalf v (armv7MmuGetPgDiv s) then armv7MmuGetKernPgd s
          else armv7MmuGetUserPgd s) + 4#32 * (v >>> pgdIdxShift) := by
  rw [liveSlotAddr, ofNat_slotIndex]
  simp only [← isHigherHalf_iff (armv7MmuGetPgDiv_lt s) v]

/-- Which word is the live slot of a MiB is up to the registers. -/
theorem liveSlotAddr_congr {s t : Machine} (hsctlr : t.sctlr = s.sctlr) (httbcr : t.ttbcr = s.ttbcr)
    (h0 : t.ttbr0 = s.ttbr0) (h1 : t.ttbr1 = s.ttbr1) (j : ℕ) :
    liveSlotAddr t j = liveSlotAddr s j := by
  obtain ⟨m, x, y, z, w, d, tr⟩ := s
  obtain ⟨m', x', y', z', w', d', tr'⟩ := t
  simp only at hsctlr httbcr h0 h1
  subst hsctlr httbcr h0 h1
  rfl

/-- Translation is up to the registers and memory. -/
theorem virtToPhy_of_same {s t : Machine} (hmem : t.mem = s.mem) (hsctlr : t.sctlr = s.sctlr)
    (httbcr : t.ttbcr = s.ttbcr) (h0 : t.ttbr0 = s.ttbr0) (h1 : t.ttbr1 = s.ttbr1) (v : Addr) :
    armv7MmuVirtToPhy t v = armv7MmuVirtToPhy s v := by
  obtain ⟨m, x, y, z, w, d, tr⟩ := s
  obtain ⟨m', x', y', z', w', d', tr'⟩ := t
  simp only at hmem hsctlr httbcr h0 h1
  subst hmem hsctlr httbcr h0 h1
  rfl

/-- The user directory is at the address in TTBR0 without its low bits, the more of them the wider
the user half is. -/
theorem toNat_armv7MmuGetUserPgd {s : Machine} (hen : armv7MmuIsEnabled s = true) :
    (armv7MmuGetUserPgd s).toNat
      = s.ttbr0.toNat / 2 ^ (14 - armv7MmuGetPgDiv s) * 2 ^ (14 - armv7MmuGetPgDiv s) := by
  have hpow : 2 ^ (14 - armv7MmuGetPgDiv s) ≤ 2 ^ 14 := Nat.pow_le_pow_right (by omega) (by omega)
  have hpos : 0 < 2 ^ (14 - armv7MmuGetPgDiv s) := Nat.two_pow_pos _
  have hone : (1#32 <<< (14 - armv7MmuGetPgDiv s)).toNat = 2 ^ (14 - armv7MmuGetPgDiv s) :=
    Bits.toNat_one_shiftLeft (by omega)
  rw [armv7MmuGetUserPgd, if_pos hen,
    Bits.toNat_and_high (k := 14 - armv7MmuGetPgDiv s) (by omega)]
  rw [BitVec.toNat_not, BitVec.toNat_sub, hone, BitVec.toNat_ofNat]
  omega

/-- The live slots of the kernel half are words of one directory, which is aligned to 16 KiB. -/
theorem exists_toNat_liveSlotAddr (s : Machine) :
    ∃ d, 2 ^ 14 ∣ d ∧ ∀ j < 4096, splitSlot s ≤ j → (liveSlotAddr s j).toNat = d + 4 * j := by
  have hmask : ∀ x : Word, 2 ^ 14 ∣ (x &&& ttbrMask).toNat := by
    intro x
    rw [Bits.toNat_and_high (k := 14) (by omega) (by decide)]
    exact Nat.dvd_mul_left _ _
  have hlt := armv7MmuGetPgDiv_lt s
  by_cases hdiv : armv7MmuGetPgDiv s = 0
  · have huser : 2 ^ 14 ∣ (armv7MmuGetUserPgd s).toNat := by
      rw [armv7MmuGetUserPgd, hdiv]
      split_ifs
      · exact hmask s.ttbr0
      · exact Nat.dvd_zero _
    refine ⟨(armv7MmuGetUserPgd s).toNat, huser, ?_⟩
    intro j hj _
    rw [liveSlotAddr, if_neg (by omega), toNat_dirSlot (by omega) huser (by omega)]
  · have hkern : 2 ^ 14 ∣ (armv7MmuGetKernPgd s).toNat := by
      rw [armv7MmuGetKernPgd]
      split_ifs
      · exact hmask s.ttbr1
      · exact Nat.dvd_zero _
    refine ⟨(armv7MmuGetKernPgd s).toNat, hkern, ?_⟩
    intro j hj hle
    rw [splitSlot, if_neg hdiv] at hle
    rw [liveSlotAddr, if_pos ⟨by omega, hle⟩, toNat_dirSlot (by omega) hkern (by omega)]

/-! ## Translation by slot and table word -/

/-- What a table word gives for the address `v`. -/
def pteTranslate (pte : Word) (v : Addr) : Addr :=
  if pte &&& pgtbTypeMask = Armv7MmuPgtbType.pgtbLargePg.toWord then
    (pte &&& pgtbLgPgMask) ||| (v &&& ~~~pgtbLgPgMask)
  else if pte &&& pgtbTypeMask = Armv7MmuPgtbType.pgtbSmallPg.toWord then
    (pte &&& pgtbSmPgMask) ||| (v &&& ~~~pgtbSmPgMask)
  else 0#32

theorem pgtbType_cases (x : Word) : x &&& pgtbTypeMask = 0#32 ∨ x &&& pgtbTypeMask = 1#32 ∨
    x &&& pgtbTypeMask = 2#32 ∨ x &&& pgtbTypeMask = 3#32 := by
  have hval : (x &&& pgtbTypeMask).toNat = x.toNat % 4 := Bits.toNat_and_low (k := 2) rfl x
  simp only [← BitVec.toNat_inj, hval, BitVec.toNat_ofNat]
  omega

theorem virtToPhy_eq {s : Machine} (hen : armv7MmuIsEnabled s = true) (v : Addr) :
    armv7MmuVirtToPhy s v
      = if liveSlot s (slotIndex v) &&& pgdTypeMask = Armv7MmuPgdType.pgdSection.toWord then
          (liveSlot s (slotIndex v) &&& pgdSectMask) ||| (v &&& ~~~pgdSectMask)
        else if IsTableSlot s (slotIndex v) then pteTranslate (s.load (ptAddr s v)) v
        else 0#32 := by
  rw [armv7MmuVirtToPhy, if_pos hen]
  simp only [← liveSlotAddr_slotIndex]
  rfl

theorem virtToPhy_of_not_enabled {s : Machine} (h : ¬armv7MmuIsEnabled s = true) (v : Addr) :
    armv7MmuVirtToPhy s v = v := by
  rw [armv7MmuVirtToPhy, if_neg h]

theorem virtToPhy_of_isTableSlot {s : Machine} {v : Addr} (hen : armv7MmuIsEnabled s = true)
    (h : IsTableSlot s (slotIndex v)) :
    armv7MmuVirtToPhy s v = pteTranslate (s.load (ptAddr s v)) v := by
  have hsect : liveSlot s (slotIndex v) &&& pgdTypeMask
      ≠ Armv7MmuPgdType.pgdSection.toWord := by
    rw [show liveSlot s (slotIndex v) &&& pgdTypeMask = _ from h]
    decide
  rw [virtToPhy_eq hen, if_neg hsect, if_pos h]

/-- Two machines that agree on the slot of `v`, and on its table word when there is a table,
translate `v` alike. -/
theorem virtToPhy_congr {s s' : Machine} {v : Addr} (hen : armv7MmuIsEnabled s = true)
    (hen' : armv7MmuIsEnabled s' = true)
    (hslot : liveSlot s' (slotIndex v) = liveSlot s (slotIndex v))
    (hpte : IsTableSlot s (slotIndex v) → s'.load (ptAddr s v) = s.load (ptAddr s v)) :
    armv7MmuVirtToPhy s' v = armv7MmuVirtToPhy s v := by
  have hbase : ptAddr s' v = ptAddr s v := by rw [ptAddr, tableBase, hslot, ptAddr, tableBase]
  have htab : IsTableSlot s' (slotIndex v) ↔ IsTableSlot s (slotIndex v) := by
    rw [IsTableSlot, IsTableSlot, hslot]
  rw [virtToPhy_eq hen', virtToPhy_eq hen, hslot, hbase]
  by_cases h : IsTableSlot s (slotIndex v)
  · rw [hpte h, if_pos h, if_pos (htab.mpr h)]
  · rw [if_neg h, if_neg fun h' ↦ h (htab.mp h')]

/-! ## The words the mapping code stores -/

theorem accPerm_shift_and (acc : Armv7MmuAccPerm) :
    (acc.toWord <<< pgtbApShift) &&& pgtbTypeMask = 0#32 ∧
      (acc.toWord <<< pgtbApShift) &&& pgtbSmPgMask = 0#32 := by
  cases acc <;> decide

/-- A small-page word decodes to its own frame and type when its flags stay out of both fields. -/
theorem pgtbEntryWord_smallPg {e : Armv7MmuPgtbEntry} (he : e.type = .pgtbSmallPg)
    (htype : e.flags &&& pgtbTypeMask = 0#32) (hframe : e.flags &&& pgtbSmPgMask = 0#32) :
    pgtbEntryWord e &&& pgtbTypeMask = Armv7MmuPgtbType.pgtbSmallPg.toWord ∧
      pgtbEntryWord e &&& pgtbSmPgMask = e.phyAddr &&& pgtbSmPgMask := by
  obtain ⟨haccType, haccFrame⟩ := accPerm_shift_and e.accPerm
  simp only [pgtbEntryWord, he, BitVec.and_or_distrib_right, htype, hframe, haccType, haccFrame,
    BitVec.and_assoc, BitVec.or_zero]
  constructor
  · rw [show pgtbSmPgMask &&& pgtbTypeMask = 0#32 from rfl, BitVec.and_zero, BitVec.zero_or]
    rfl
  · rw [BitVec.and_self, show Armv7MmuPgtbType.pgtbSmallPg.toWord &&& pgtbSmPgMask = 0#32 from rfl,
      BitVec.or_zero]

theorem toNat_zeroExtend_byte (b : Byte) : (b.zeroExtend 32 : Word).toNat = b.toNat := by
  have hlt := b.isLt
  simp only [BitVec.truncate_eq_setWidth, BitVec.toNat_setWidth]
  omega

theorem domain_shift_and {d : Byte} (hd : d < 16#8) :
    (d.zeroExtend 32 <<< pgdDomainShift : Word) &&& pgdTypeMask = 0#32 ∧
      (d.zeroExtend 32 <<< pgdDomainShift : Word) &&& pgdTableMask = 0#32 := by
  have hlt : d.toNat < 16 := hd
  have hval : (d.zeroExtend 32 <<< pgdDomainShift : Word).toNat = d.toNat * 2 ^ 5 := by
    have hd32 := toNat_zeroExtend_byte d
    rw [Bits.toNat_shiftLeft_of_lt, hd32]
    rw [hd32]
    exact (Nat.mul_lt_mul_of_pos_right hlt (Nat.two_pow_pos 5)).trans (by decide)
  constructor
  · rw [← BitVec.toNat_inj, Bits.toNat_and_low (k := 2) rfl, hval]
    change d.toNat * 32 % 4 = 0
    omega
  · rw [← BitVec.toNat_inj, Bits.toNat_and_high (k := 10) (by omega) (by decide), hval]
    change d.toNat * 32 / 1024 * 1024 = 0
    omega

theorem and_pgdTableMask {x : Addr} (h : 2 ^ 10 ∣ x.toNat) : x &&& pgdTableMask = x := by
  apply BitVec.eq_of_toNat_eq
  rw [Bits.toNat_and_high (k := 10) (by omega) (by decide), Nat.div_mul_cancel h]

/-- A TABLE word decodes to its own type and table when its domain and flags stay out of both
fields. -/
theorem pgdEntryWord_table {e : Armv7MmuPgdEntry} (he : e.type = .pgdTable)
    (hdom : e.domain < 16#8) (htype : e.flags &&& pgdTypeMask = 0#32)
    (htable : e.flags &&& pgdTableMask = 0#32) :
    pgdEntryWord e &&& pgdTypeMask = Armv7MmuPgdType.pgdTable.toWord ∧
      pgdEntryWord e &&& pgdTableMask = e.phyAddr &&& pgdTableMask := by
  obtain ⟨hdomType, hdomTable⟩ := domain_shift_and hdom
  simp only [pgdEntryWord, he, BitVec.and_or_distrib_right, htype, htable, hdomType, hdomTable,
    BitVec.and_assoc, BitVec.or_zero]
  constructor
  · rw [show pgdTableMask &&& pgdTypeMask = 0#32 from rfl, BitVec.and_zero, BitVec.zero_or]
    rfl
  · rw [BitVec.and_self, show Armv7MmuPgdType.pgdTable.toWord &&& pgdTableMask = 0#32 from rfl,
      BitVec.or_zero]

theorem pteTranslate_smallPg {e : Armv7MmuPgtbEntry} (he : e.type = .pgtbSmallPg)
    (htype : e.flags &&& pgtbTypeMask = 0#32) (hframe : e.flags &&& pgtbSmPgMask = 0#32)
    (v : Addr) :
    pteTranslate (pgtbEntryWord e) v
      = (e.phyAddr &&& pgtbSmPgMask) ||| (v &&& ~~~pgtbSmPgMask) := by
  obtain ⟨ht, hf⟩ := pgtbEntryWord_smallPg he htype hframe
  rw [pteTranslate, ht, hf, if_neg (by decide), if_pos rfl]

theorem pgtbEntryWord_invalid_type {e : Armv7MmuPgtbEntry} (he : e.type = .pgtbInvalid)
    (hflags : e.flags &&& pgtbTypeMask = 0#32) :
    pgtbEntryWord e &&& pgtbTypeMask = e.phyAddr &&& pgtbTypeMask := by
  obtain ⟨hacc, -⟩ := accPerm_shift_and e.accPerm
  simp only [pgtbEntryWord, he, BitVec.and_or_distrib_right, hflags, hacc, BitVec.or_zero]
  exact BitVec.or_zero

theorem pteTranslate_eq_zero {pte : Word}
    (h : pte &&& pgtbTypeMask = 0#32 ∨ pte &&& pgtbTypeMask = 3#32) (v : Addr) :
    pteTranslate pte v = 0#32 := by
  rw [pteTranslate]
  rcases h with h | h <;> rw [h, if_neg (by decide), if_neg (by decide)]

/-! ## Separation -/

structure WellSeparated (s : Machine) : Prop where
  /-- Different live TABLE slots name tables without a common address. -/
  tables : ∀ i < 4096, ∀ j < 4096, i ≠ j → IsTableSlot s i → IsTableSlot s j →
    Apart (tableBase s i) 0x400 (tableBase s j) 0x400
  /-- No table contains a live slot of either directory. -/
  directories : ∀ i < 4096, ∀ j < 4096, IsTableSlot s i →
    Apart (tableBase s i) 0x400 (liveSlotAddr s j) 4

theorem toNat_pgtbIndex (v : Addr) : (pgtbIndex v).toNat = pageOf v % 256 := by
  rw [pgtbIndex, Bits.toNat_and_low (k := 8) rfl, Bits.toNat_ushiftRight_eq, pageOf]
  rfl

theorem toNat_four_mul_pgtbIndex (v : Addr) :
    (4#32 * pgtbIndex v).toNat = 4 * (pageOf v % 256) := by
  rw [BitVec.toNat_mul, toNat_pgtbIndex, BitVec.toNat_ofNat]
  omega

theorem pageOf_eq_iff {v w : Addr} :
    pageOf v = pageOf w ↔ slotIndex v = slotIndex w ∧ pageOf v % 256 = pageOf w % 256 := by
  rw [pageOf, pageOf, slotIndex, slotIndex]
  omega

theorem toNat_tableBase_mod (s : Machine) (i : ℕ) : (tableBase s i).toNat % 1024 = 0 := by
  rw [tableBase, Bits.toNat_and_high (k := 10) (by omega) (by decide)]
  omega

theorem toNat_ptAddr_mod (s : Machine) (v : Addr) : (ptAddr s v).toNat % 4 = 0 := by
  have h := toNat_tableBase_mod s (slotIndex v)
  rw [ptAddr, BitVec.toNat_add, toNat_four_mul_pgtbIndex]
  omega

theorem apart_ptAddr {s : Machine} {v : Addr} {b : Addr} {n : ℕ}
    (h : Apart (tableBase s (slotIndex v)) 0x400 b n) : Apart (ptAddr s v) 4 b n := by
  have hoff := toNat_four_mul_pgtbIndex v
  simpa [ptAddr] using h.mono (i := 4#32 * pgtbIndex v) (j := 0#32) (p := 4) (q := n)
    (by omega) (by simp)

/-- Table words of different pages share no byte. -/
theorem WellSeparated.apart_ptAddr {s : Machine} (h : WellSeparated s) {v w : Addr}
    (hv : IsTableSlot s (slotIndex v)) (hw : IsTableSlot s (slotIndex w))
    (hne : pageOf v ≠ pageOf w) : Apart (ptAddr s v) 4 (ptAddr s w) 4 := by
  by_cases hslot : slotIndex v = slotIndex w
  · refine apart_of_aligned (toNat_ptAddr_mod s v) (toNat_ptAddr_mod s w) fun heq ↦ ?_
    rw [ptAddr, ptAddr, hslot] at heq
    have hidx := congrArg BitVec.toNat (add_left_cancel heq)
    rw [toNat_four_mul_pgtbIndex, toNat_four_mul_pgtbIndex] at hidx
    exact hne (pageOf_eq_iff.mpr ⟨hslot, by omega⟩)
  · have htab := h.tables _ (slotIndex_lt v) _ (slotIndex_lt w) hslot hv hw
    exact (Sugarcat.apart_ptAddr (Sugarcat.apart_ptAddr htab).symm).symm

variable {s : Machine} {v w : Addr} {x : Word}

@[simp] theorem armv7MmuIsEnabled_store (a : Addr) :
    armv7MmuIsEnabled (s.store a x) = armv7MmuIsEnabled s := rfl

@[simp] theorem liveSlotAddr_store (a : Addr) (i : ℕ) :
    liveSlotAddr (s.store a x) i = liveSlotAddr s i := rfl

/-- A store to a table leaves every live slot alone. -/
theorem WellSeparated.liveSlot_store (h : WellSeparated s) (hv : IsTableSlot s (slotIndex v))
    {i : ℕ} (hi : i < 4096) : liveSlot (s.store (ptAddr s v) x) i = liveSlot s i :=
  readWord_writeWord_of_apart _
    (Sugarcat.apart_ptAddr (h.directories _ (slotIndex_lt v) _ hi hv))

theorem WellSeparated.isTableSlot_store (h : WellSeparated s) (hv : IsTableSlot s (slotIndex v))
    {i : ℕ} (hi : i < 4096) : IsTableSlot (s.store (ptAddr s v) x) i ↔ IsTableSlot s i := by
  rw [IsTableSlot, h.liveSlot_store hv hi, IsTableSlot]

theorem WellSeparated.tableBase_store (h : WellSeparated s) (hv : IsTableSlot s (slotIndex v))
    {i : ℕ} (hi : i < 4096) : tableBase (s.store (ptAddr s v) x) i = tableBase s i := by
  rw [tableBase, h.liveSlot_store hv hi, tableBase]

theorem WellSeparated.store_ptAddr (h : WellSeparated s) (hv : IsTableSlot s (slotIndex v)) :
    WellSeparated (s.store (ptAddr s v) x) where
  tables i hi j hj hij hti htj := by
    rw [h.isTableSlot_store hv hi] at hti
    rw [h.isTableSlot_store hv hj] at htj
    rw [h.tableBase_store hv hi, h.tableBase_store hv hj]
    exact h.tables i hi j hj hij hti htj
  directories i hi j hj hti := by
    rw [h.isTableSlot_store hv hi] at hti
    rw [h.tableBase_store hv hi, liveSlotAddr_store]
    exact h.directories i hi j hj hti

theorem WellSeparated.ptAddr_store (h : WellSeparated s) (hv : IsTableSlot s (slotIndex v))
    (w : Addr) : ptAddr (s.store (ptAddr s v) x) w = ptAddr s w := by
  rw [ptAddr, h.tableBase_store hv (slotIndex_lt w), ptAddr]

/-- **A store to the table word of `v` changes that of the page of `v` only.** -/
theorem WellSeparated.load_ptAddr_store (h : WellSeparated s) (hv : IsTableSlot s (slotIndex v))
    (hw : IsTableSlot s (slotIndex w)) :
    (s.store (ptAddr s v) x).load (ptAddr s w)
      = if pageOf w = pageOf v then x else s.load (ptAddr s w) := by
  by_cases hpage : pageOf w = pageOf v
  · obtain ⟨hslot, hidx⟩ := pageOf_eq_iff.mp hpage
    have hoff : pgtbIndex w = pgtbIndex v :=
      BitVec.eq_of_toNat_eq (by rw [toNat_pgtbIndex, toNat_pgtbIndex, hidx])
    have haddr : ptAddr s w = ptAddr s v := by rw [ptAddr, hslot, hoff, ptAddr]
    rw [if_pos hpage, haddr, Machine.load_store_self]
  · rw [if_neg hpage]
    exact readWord_writeWord_of_apart _ (h.apart_ptAddr hv hw (Ne.symm hpage))

/-- **A store to the table word of `v` changes the translation of the page of `v` only.** -/
theorem WellSeparated.virtToPhy_store (h : WellSeparated s) (hen : armv7MmuIsEnabled s = true)
    (hv : IsTableSlot s (slotIndex v)) (w : Addr) :
    armv7MmuVirtToPhy (s.store (ptAddr s v) x) w
      = if pageOf w = pageOf v then pteTranslate x w else armv7MmuVirtToPhy s w := by
  have hen' : armv7MmuIsEnabled (s.store (ptAddr s v) x) = true := hen
  have hwlt := slotIndex_lt w
  by_cases hpage : pageOf w = pageOf v
  · have hw : IsTableSlot s (slotIndex w) := (pageOf_eq_iff.mp hpage).1 ▸ hv
    have hload := h.load_ptAddr_store (x := x) hv hw
    rw [if_pos hpage] at hload ⊢
    rw [virtToPhy_of_isTableSlot hen' ((h.isTableSlot_store hv hwlt).mpr hw), h.ptAddr_store hv,
      hload]
  · rw [if_neg hpage]
    refine virtToPhy_congr hen hen' (h.liveSlot_store hv hwlt) fun hw ↦ ?_
    rw [h.load_ptAddr_store hv hw, if_neg hpage]

/-! ## What one mapping call does -/

theorem getPgdEntry_of_table {pgd : Addr}
    (h : s.load (pgd + 4#32 * (v >>> pgdIdxShift)) &&& pgdTypeMask
      = Armv7MmuPgdType.pgdTable.toWord) :
    ∃ e, getPgdEntry pgd v s = .ok e ∧ e.type = .pgdTable ∧
      e.phyAddr = s.load (pgd + 4#32 * (v >>> pgdIdxShift)) &&& pgdTableMask := by
  simp only [getPgdEntry, h]
  rw [if_neg (by decide), if_pos trivial]
  exact ⟨_, rfl, rfl, rfl⟩

theorem getPgdEntry_of_not_table {pgd : Addr}
    (h : s.load (pgd + 4#32 * (v >>> pgdIdxShift)) &&& pgdTypeMask
      ≠ Armv7MmuPgdType.pgdTable.toWord) :
    getPgdEntry pgd v s = .error .enotfnd ∨
      ∃ e, getPgdEntry pgd v s = .ok e ∧ e.type ≠ .pgdTable := by
  by_cases hsect : s.load (pgd + 4#32 * (v >>> pgdIdxShift)) &&& pgdTypeMask
      = Armv7MmuPgdType.pgdSection.toWord
  · right
    simp only [getPgdEntry, if_pos hsect]
    exact ⟨_, rfl, fun h ↦ Armv7MmuPgdType.noConfusion h⟩
  · left
    rw [getPgdEntry, if_neg hsect, if_neg h]

/-- A supported table entry goes to the live table of its address when there is one, and is refused
without any effect otherwise. -/
theorem armv7MmuMapPgtb_eq {e : Armv7MmuPgtbEntry} (hen : armv7MmuIsEnabled s = true)
    (hsupp : armv7IsSupportedPgtbType e.type = true) :
    armv7MmuMapPgtb (some e) s
      = if IsTableSlot s (slotIndex e.virtAddr) then
          (.esucc, s.store (ptAddr s e.virtAddr) (pgtbEntryWord e))
        else (.enotfnd, s) := by
  simp only [armv7MmuMapPgtb, if_pos hen, if_pos hsupp]
  by_cases htab : IsTableSlot s (slotIndex e.virtAddr)
  · have h := htab
    rw [IsTableSlot, liveSlot, liveSlotAddr_slotIndex] at h
    obtain ⟨d, hget, htype, hphy⟩ := getPgdEntry_of_table h
    rw [← liveSlotAddr_slotIndex] at hphy
    simp only [hget, htype, if_true, if_pos htab, hphy, createPgtbEntry]
    rfl
  · have h := htab
    rw [IsTableSlot, liveSlot, liveSlotAddr_slotIndex] at h
    rw [if_neg htab]
    rcases getPgdEntry_of_not_table h with hget | ⟨d, hget, htype⟩
    · simp only [hget]
    · simp only [hget, if_neg htype]

theorem archMmuCreateEntry_pgtb {entry : MmuEntry} (hen : armv7MmuIsEnabled s = true)
    (htype : entry.type = .pgTab ∨ entry.type = .pgTabInval) :
    archMmuCreateEntry entry s
      = if IsTableSlot s (slotIndex entry.virtAddr) then
          (.esucc, s.store (ptAddr s entry.virtAddr) (pgtbEntryWord entry.toArmv7Pgtb))
        else (.enotfnd, s) := by
  have hsupp : armv7IsSupportedPgtbType entry.toArmv7Pgtb.type = true := by
    rcases htype with h | h <;>
      simp [MmuEntry.toArmv7Pgtb, h, archMmuPgtbTypeToArmv7, armv7IsSupportedPgtbType]
  rw [show entry.virtAddr = entry.toArmv7Pgtb.virtAddr from rfl, ← armv7MmuMapPgtb_eq hen hsupp]
  rcases htype with h | h <;> rw [archMmuCreateEntry, h]

/-! ## A machine with one table -/

/-- A 2 GiB split, an empty TTBR1 directory, and a TTBR0 directory whose only entry maps MiB `0`
through a page table. -/
def oneTable : Machine where
  mem := writeWord (fun _ ↦ 0#8) 0x4000#32 0x10001#32
  sctlr := 1#32
  ttbcr := 1#32
  ttbr0 := 0x4000#32
  ttbr1 := 0x8000#32
  dacr := 0#32
  trace := []

theorem toNat_liveSlotAddr_oneTable {i : ℕ} (hi : i < 4096) :
    (liveSlotAddr oneTable i).toNat = (if 2048 ≤ i then 0x8000 else 0x4000) + 4 * i := by
  have hdiv : armv7MmuGetPgDiv oneTable = 1 := rfl
  have hkern : armv7MmuGetKernPgd oneTable = 0x8000#32 := rfl
  have huser : armv7MmuGetUserPgd oneTable = 0x4000#32 := rfl
  rw [liveSlotAddr, hdiv, hkern, huser]
  by_cases h : 2048 ≤ i
  · rw [if_pos h, if_pos ⟨by omega, by omega⟩]
    exact toNat_dirSlot (k := 14) (by omega) (by decide) (by omega)
  · rw [if_neg h, if_neg (by omega)]
    exact toNat_dirSlot (k := 14) (by omega) (by decide) (by omega)

theorem liveSlot_oneTable {i : ℕ} (hi : i < 4096) :
    liveSlot oneTable i = if i = 0 then 0x10001#32 else 0#32 := by
  have haddr := toNat_liveSlotAddr_oneTable hi
  by_cases h : i = 0
  · subst h
    rfl
  · rw [if_neg h]
    have hne : (0x4000#32 : Addr) ≠ liveSlotAddr oneTable i := by
      intro heq
      rw [← heq] at haddr
      split_ifs at haddr <;> simp at haddr <;> omega
    have hmod : (liveSlotAddr oneTable i).toNat % 4 = 0 := by
      rw [haddr]
      split_ifs <;> omega
    have hload : liveSlot oneTable i = readWord (fun _ ↦ 0#8) (liveSlotAddr oneTable i) :=
      readWord_writeWord_of_ne _ rfl hmod hne
    rw [hload, readWord_zero]

theorem isTableSlot_oneTable {i : ℕ} (hi : i < 4096) : IsTableSlot oneTable i ↔ i = 0 := by
  rw [IsTableSlot, liveSlot_oneTable hi]
  split_ifs with h
  · exact iff_of_true rfl h
  · exact iff_of_false (by decide) h

theorem wellSeparated_oneTable : WellSeparated oneTable where
  tables i hi j hj hij hti htj := by
    rw [isTableSlot_oneTable hi] at hti
    rw [isTableSlot_oneTable hj] at htj
    exact absurd (hti.trans htj.symm) hij
  directories i hi j hj hti := by
    rw [isTableSlot_oneTable hi] at hti
    subst hti
    have haddr := toNat_liveSlotAddr_oneTable hj
    have hbase : tableBase oneTable 0 = 0x10000#32 := rfl
    intro x hx hxs
    rw [hbase, inRange_iff (by decide)] at hx
    rw [inRange_iff (by rw [haddr]; split_ifs <;> omega), haddr] at hxs
    simp only [BitVec.toNat_ofNat] at hx
    split_ifs at hxs <;> omega

end Sugarcat
