import Sugarcat.Armv7.LiveTables

/-!
# The software walk and the hardware's

`hardwareWalk` is the two-level walk over short descriptors as the notes of the repository describe
it, by bit slices of registers, descriptors and addresses: it uses none of the masks of the code.
`armv7MmuVirtToPhy` is meant to return what it finds, and zero when it finds nothing.

## One bit of a type

The code takes the two lowest bits of a table word for its type. Only the upper one of them tells a
small page; the lower one is its execute-never bit. `agreesWithWalk_iff` says that a page with that
bit set is all the code misses: at such a page the walk finds an address and the code returns zero.

## Reading both walks in the same words

The first-level word is chosen from one of two directories, and its address is the same by slices
and by masks (`firstLevel_eq`). The same holds of the second-level word and of the address that a
descriptor stands for, so that the two walks only differ in the case analysis on types, and that is
where they are compared.
-/

namespace Sugarcat

open ByteMemory

/-! ## The walk of the notes -/

/-- TTBR1[31:14] at or above the split, TTBR0[31:14-N] below it. -/
def walkDirectory (s : Machine) (v : Addr) : ℕ :=
  if 0 < armv7MmuGetPgDiv s ∧ 2 ^ (32 - armv7MmuGetPgDiv s) ≤ v.toNat then
    s.ttbr1.toNat / 2 ^ 14 * 2 ^ 14
  else s.ttbr0.toNat / 2 ^ (14 - armv7MmuGetPgDiv s) * 2 ^ (14 - armv7MmuGetPgDiv s)

/-- The directory is indexed by VA[31:20]. -/
def firstLevel (s : Machine) (v : Addr) : Word :=
  s.load (BitVec.ofNat 32 (walkDirectory s v + 4 * (v.extractLsb' 20 12).toNat))

/-- The table at [31:10] of the directory word is indexed by VA[19:12]. -/
def secondLevel (s : Machine) (v : Addr) : Word :=
  s.load ((firstLevel s v).extractLsb' 10 22 ++ 0#10
    + BitVec.ofNat 32 (4 * (v.extractLsb' 12 8).toNat))

/-- Page base address and offset in a small page. -/
def smallPageAddr (t : Word) (v : Addr) : Addr := t.extractLsb' 12 20 ++ v.extractLsb' 0 12

def hardwareWalk (s : Machine) (v : Addr) : Option Addr :=
  let d := firstLevel s v
  if d.extractLsb' 0 2 = 2#2 then some (d.extractLsb' 20 12 ++ v.extractLsb' 0 20)
  else if d.extractLsb' 0 2 = 1#2 then
    let t := secondLevel s v
    -- bit 0 of a small page is its execute-never bit
    if t.getLsbD 1 then some (smallPageAddr t v)
    else if t.getLsbD 0 then some (t.extractLsb' 16 16 ++ v.extractLsb' 0 16)
    else none
  else none

/-- The code returns what the walk finds, and zero when it finds nothing. -/
def AgreesWithWalk (s : Machine) (v : Addr) : Prop :=
  armv7MmuVirtToPhy s v = (hardwareWalk s v).getD 0#32

/-- The walk of `v` ends at a small page with its execute-never bit set, and not at address zero. -/
structure EndsAtXnPage (s : Machine) (v : Addr) : Prop where
  table : (firstLevel s v).extractLsb' 0 2 = 1#2
  page : (secondLevel s v).extractLsb' 0 2 = 3#2
  nonzero : smallPageAddr (secondLevel s v) v ≠ 0#32

/-! ## The words both walks read -/

variable {s : Machine} {v : Addr}

theorem firstLevel_eq (hen : armv7MmuIsEnabled s = true) (v : Addr) :
    firstLevel s v = liveSlot s (slotIndex v) := by
  have hlt := armv7MmuGetPgDiv_lt s
  have hidx : (v.extractLsb' 20 12).toNat = slotIndex v := by
    have := slotIndex_lt v
    rw [Bits.toNat_extractLsb', ← slotIndex, Nat.mod_eq_of_lt (by omega)]
  have hsplit : 0 < armv7MmuGetPgDiv s ∧ 2 ^ (32 - armv7MmuGetPgDiv s) ≤ v.toNat ↔
      0 < armv7MmuGetPgDiv s ∧ 2 ^ (12 - armv7MmuGetPgDiv s) ≤ slotIndex v := by
    rw [slotIndex, Nat.le_div_iff_mul_le (Nat.two_pow_pos 20), ← pow_add,
      show 12 - armv7MmuGetPgDiv s + 20 = 32 - armv7MmuGetPgDiv s by omega]
  have hkern : BitVec.ofNat 32 (s.ttbr1.toNat / 2 ^ 14 * 2 ^ 14) = armv7MmuGetKernPgd s := by
    rw [armv7MmuGetKernPgd, if_pos hen, ← Bits.toNat_and_high (k := 14) (m := ttbrMask) (by omega)
      (by decide), BitVec.ofNat_toNat, BitVec.setWidth_eq]
  have huser : BitVec.ofNat 32 (s.ttbr0.toNat / 2 ^ (14 - armv7MmuGetPgDiv s)
      * 2 ^ (14 - armv7MmuGetPgDiv s)) = armv7MmuGetUserPgd s := by
    rw [← toNat_armv7MmuGetUserPgd hen, BitVec.ofNat_toNat, BitVec.setWidth_eq]
  rw [firstLevel, liveSlot, hidx, walkDirectory, liveSlotAddr, BitVec.ofNat_add, BitVec.ofNat_mul]
  simp only [hsplit]
  split_ifs
  · rw [hkern]
  · rw [huser]

theorem secondLevel_eq (hen : armv7MmuIsEnabled s = true) (v : Addr) :
    secondLevel s v = s.load (ptAddr s v) := by
  have hbase : (liveSlot s (slotIndex v)).extractLsb' 10 22 ++ (0#32 : Word).extractLsb' 0 10
      = tableBase s (slotIndex v) := by
    rw [Bits.append_extractLsb'_eq (n := 22) (k := 10) (m := pgdTableMask) (by decide),
      BitVec.zero_and, BitVec.or_zero]
    rfl
  have hidx : BitVec.ofNat 32 (4 * (v.extractLsb' 12 8).toNat) = 4#32 * pgtbIndex v := by
    apply BitVec.eq_of_toNat_eq
    rw [toNat_four_mul_pgtbIndex, Bits.toNat_extractLsb', pageOf, BitVec.toNat_ofNat]
    omega
  rw [secondLevel, firstLevel_eq hen, hidx, ptAddr, ← hbase]
  rfl

theorem extractLsb'_type_eq_iff (x : Word) (t : BitVec 2) :
    x.extractLsb' 0 2 = t ↔ x &&& pgtbTypeMask = t.setWidth 32 := by
  have hval : (x &&& pgtbTypeMask).toNat = x.toNat % 4 := Bits.toNat_and_low (k := 2) rfl x
  have ht := t.isLt
  rw [← BitVec.toNat_inj, ← BitVec.toNat_inj, Bits.toNat_extractLsb', hval, BitVec.toNat_setWidth,
    Nat.mod_eq_of_lt (by omega : t.toNat < 2 ^ 32), pow_zero, Nat.div_one]
  rfl

theorem smallPageAddr_eq (t : Word) (v : Addr) :
    smallPageAddr t v = (t &&& pgtbSmPgMask) ||| (v &&& ~~~pgtbSmPgMask) :=
  Bits.append_extractLsb'_eq (n := 20) (k := 12) (m := pgtbSmPgMask) (by decide) t v

/-! ## Where they agree -/

theorem pteTranslate_eq_getD (t : Word) (v : Addr) (h : t &&& pgtbTypeMask ≠ 3#32) :
    pteTranslate t v = Option.getD (if t.getLsbD 1 then some (smallPageAddr t v)
      else if t.getLsbD 0 then some (t.extractLsb' 16 16 ++ v.extractLsb' 0 16)
      else none) 0#32 := by
  have hbit : ∀ i < 2, t.getLsbD i = (t &&& pgtbTypeMask).getLsbD i := by
    intro i hi
    have hmask : ∀ i < 2, (pgtbTypeMask : Word).getLsbD i = true := by decide
    rw [BitVec.getLsbD_and, hmask i hi, Bool.and_true]
  rw [pteTranslate, hbit 0 (by omega), hbit 1 (by omega), smallPageAddr_eq]
  rcases pgtbType_cases t with ht | ht | ht | ht
  · rw [ht]
    rfl
  · rw [ht]
    exact (Bits.append_extractLsb'_eq (n := 16) (k := 16) (m := pgtbLgPgMask) (by decide) t v).symm
  · rw [ht]
    rfl
  · exact absurd ht h

theorem hardwareWalk_eq (hen : armv7MmuIsEnabled s = true) (v : Addr) :
    hardwareWalk s v
      = if liveSlot s (slotIndex v) &&& pgdTypeMask = Armv7MmuPgdType.pgdSection.toWord then
          some ((liveSlot s (slotIndex v) &&& pgdSectMask) ||| (v &&& ~~~pgdSectMask))
        else if IsTableSlot s (slotIndex v) then
          if (s.load (ptAddr s v)).getLsbD 1 then some (smallPageAddr (s.load (ptAddr s v)) v)
          else if (s.load (ptAddr s v)).getLsbD 0 then
            some ((s.load (ptAddr s v)).extractLsb' 16 16 ++ v.extractLsb' 0 16)
          else none
        else none := by
  have hsect : (liveSlot s (slotIndex v)).extractLsb' 20 12 ++ v.extractLsb' 0 20
      = (liveSlot s (slotIndex v) &&& pgdSectMask) ||| (v &&& ~~~pgdSectMask) :=
    Bits.append_extractLsb'_eq (n := 12) (k := 20) (m := pgdSectMask) (by decide) _ v
  simp only [hardwareWalk, secondLevel_eq hen, firstLevel_eq hen, extractLsb'_type_eq_iff, hsect]
  rfl

/-- **The software translation is the documented walk, except at small pages with their
execute-never bit set.** -/
theorem agreesWithWalk_iff (hen : armv7MmuIsEnabled s = true) (v : Addr) :
    AgreesWithWalk s v ↔ ¬EndsAtXnPage s v := by
  have htable : (firstLevel s v).extractLsb' 0 2 = 1#2 ↔ IsTableSlot s (slotIndex v) := by
    rw [firstLevel_eq hen, extractLsb'_type_eq_iff]
    rfl
  have hpage : (secondLevel s v).extractLsb' 0 2 = 3#2
      ↔ s.load (ptAddr s v) &&& pgtbTypeMask = 3#32 := by
    rw [secondLevel_eq hen, extractLsb'_type_eq_iff]
    rfl
  rw [AgreesWithWalk, virtToPhy_eq hen, hardwareWalk_eq hen]
  by_cases hsect : liveSlot s (slotIndex v) &&& pgdTypeMask = Armv7MmuPgdType.pgdSection.toWord
  · rw [if_pos hsect, if_pos hsect]
    refine iff_of_true rfl fun h ↦ ?_
    have htab := htable.mp h.table
    rw [IsTableSlot, hsect] at htab
    exact absurd htab (by decide)
  rw [if_neg hsect, if_neg hsect]
  by_cases htab : IsTableSlot s (slotIndex v)
  · rw [if_pos htab, if_pos htab]
    by_cases hxn : s.load (ptAddr s v) &&& pgtbTypeMask = 3#32
    · -- the code finds no page here, the walk a small one
      have hbit : (s.load (ptAddr s v)).getLsbD 1 = true := by
        have h := congrArg (·.getLsbD 1) hxn
        simp only [BitVec.getLsbD_and] at h
        exact (Bool.and_eq_true_iff.mp h).1
      rw [pteTranslate_eq_zero (Or.inr hxn), if_pos hbit, Option.getD_some]
      constructor
      · intro hzero h
        refine h.nonzero ?_
        rw [secondLevel_eq hen, ← hzero]
      · intro h
        by_contra hne
        refine h ⟨htable.mpr htab, hpage.mpr hxn, ?_⟩
        rw [secondLevel_eq hen]
        exact fun heq ↦ hne heq.symm
    · exact iff_of_true (pteTranslate_eq_getD _ v hxn) fun h ↦ hxn (hpage.mp h.page)
  · rw [if_neg htab, if_neg htab]
    exact iff_of_true rfl fun h ↦ htab (htable.mp h.table)

/-- An address of the empty kernel half. -/
theorem agreesWithWalk_iff_oneTable : AgreesWithWalk oneTable 0x80000000#32 :=
  (agreesWithWalk_iff rfl _).mpr fun h ↦ absurd h.table (by decide)

/-- A small page at `0x60001000` that is not to be executed, as the first page of the table. -/
def oneXnPage : Machine := oneTable.store 0x10000#32 0x60001003#32

/-- The walk finds the page, the code does not. -/
theorem not_agreesWithWalk_oneXnPage : ¬AgreesWithWalk oneXnPage 0x0#32 := by
  intro h
  have hwalk : hardwareWalk oneXnPage 0x0#32 = some 0x60001000#32 := by decide
  rw [AgreesWithWalk, hwalk] at h
  exact absurd h (by decide)

end Sugarcat
