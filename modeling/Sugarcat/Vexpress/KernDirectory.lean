import Sugarcat.Vexpress.Init

/-!
# The kernel half of the directory

`init_setup_kern_pgtb` is to point slot `first + i` of the kernel half at the `i`-th table of a
region. It composes both the slot and the address of the table with a bitwise OR. The slot is right
only when `first` is a multiple of the number of slots, so for a split of 0 or 1, and the table only
when the base of the region is aligned to the size of the tables. The base it is called with is
aligned to 1 MiB.

`setsUpKernelHalf_iff` says that it sets up the half in no other case.

## Slots that are missed

For a split of 2 or more the kernel half has more slots than its first slot is a multiple of. Twice
the first slot lacks the bit of the first slot, which every slot that a pass composes has, so that
one is never stored to and keeps its word.

## Tables that are missed

Under a split of 0 or 1 every slot is stored to once. If the base of the region has a bit in common
with the offset of a table, that table is not named by its slot, and each bit below the size of the
region is the offset of some table. So a region for which all tables are named has a base without
any of these bits.
-/

namespace Sugarcat

open ByteMemory

/-- Every slot of the kernel half names its own table of the region, in order. -/
structure FillsKernelHalf (s : Machine) (kernPgtb : MmReg) : Prop where
  slot : ∀ i < 4096 - splitSlot s, IsTableSlot s (splitSlot s + i) ∧
    tableBase s (splitSlot s + i) = kernPgtb.base + BitVec.ofNat 32 i * 0x400#32
  apart : ∀ i < 4096 - splitSlot s, ∀ j < 4096 - splitSlot s, i ≠ j →
    Apart (tableBase s (splitSlot s + i)) 0x400 (tableBase s (splitSlot s + j)) 0x400
  inside : ∀ i < 4096 - splitSlot s, ∀ x, InRange (tableBase s (splitSlot s + i)) 0x400 x →
    InRange kernPgtb.base kernPgtb.size.toNat x

/-- The registers are those of `s` and memory is arbitrary: when the set-up succeeds, it has filled
the kernel half. -/
def SetsUpKernelHalf (s : Machine) (kernPgd kernPgtb : MmReg) (ent : InitMmuEntry) : Prop :=
  ∀ m : Memory, ∀ r : Errno × Machine,
    r = initSetupKernPgtb (some kernPgd) (some kernPgtb) ent { s with mem := m } →
      r.1 = .esucc → FillsKernelHalf r.2 kernPgtb

variable {s : Machine} {kernPgd kernPgtb : MmReg} {ent : InitMmuEntry}

/-! ## What the loop leaves in a slot -/

theorem splitSlot_or_bounds (s : Machine) {i : ℕ} (hi : i < 4096) :
    splitSlot s ≤ splitSlot s ||| i ∧ splitSlot s ||| i < 4096 :=
  ⟨Nat.left_le_or, Nat.or_lt_two_pow (n := 12) (by have := splitSlot_le s; omega) hi⟩

theorem liveSlotAddr_mod (s : Machine) {j : ℕ} (hj : j < 4096) (h : splitSlot s ≤ j) :
    (liveSlotAddr s j).toNat % 4 = 0 := by
  obtain ⟨d, hd, haddr⟩ := exists_toNat_liveSlotAddr s
  rw [haddr j hj h]
  omega

theorem liveSlotAddr_ne (s : Machine) {j k : ℕ} (hj : j < 4096) (hk : k < 4096)
    (hsj : splitSlot s ≤ j) (hsk : splitSlot s ≤ k) (hne : j ≠ k) :
    liveSlotAddr s j ≠ liveSlotAddr s k := by
  obtain ⟨d, -, haddr⟩ := exists_toNat_liveSlotAddr s
  intro heq
  have hnat := congrArg BitVec.toNat heq
  rw [haddr j hj hsj, haddr k hk hsk] at hnat
  omega

theorem liveSlot_initSetupKernPgtb_of_ne (hen : armv7MmuIsEnabled s = true) {j : ℕ} (hj : j < 4096)
    (hsj : splitSlot s ≤ j) (hne : ∀ i < 4096 - splitSlot s, splitSlot s ||| i ≠ j) :
    liveSlot (initSetupKernPgtb (some kernPgd) (some kernPgtb) ent s).2 j = liveSlot s j := by
  rw [initSetupKernPgtb_eq hen]
  obtain ⟨hsctlr, httbcr, h0, h1, -⟩ := s.storeAll_registers
    (fun i ↦ liveSlotAddr s (splitSlot s ||| i))
    (fun i ↦ pgdEntryWord (kernPgdEnt kernPgtb ent (archMmuGetKernVaddr s) i)) (4096 - splitSlot s)
  rw [liveSlot, liveSlotAddr_congr hsctlr httbcr h0 h1]
  refine Machine.load_storeAll_of_ne (fun i hi ↦ ?_) (liveSlotAddr_mod s hj hsj) fun i hi ↦ ?_
  · obtain ⟨hle, hlt⟩ := splitSlot_or_bounds s (i := i) (by omega)
    exact liveSlotAddr_mod s hlt hle
  · obtain ⟨hle, hlt⟩ := splitSlot_or_bounds s (i := i) (by omega)
    exact liveSlotAddr_ne s hlt hj hle hsj (hne i hi)

theorem liveSlot_initSetupKernPgtb (hen : armv7MmuIsEnabled s = true)
    (hor : ∀ i < 4096 - splitSlot s, splitSlot s ||| i = splitSlot s + i) {i : ℕ}
    (hi : i < 4096 - splitSlot s) :
    liveSlot (initSetupKernPgtb (some kernPgd) (some kernPgtb) ent s).2 (splitSlot s + i)
      = pgdEntryWord (kernPgdEnt kernPgtb ent (archMmuGetKernVaddr s) i) := by
  rw [initSetupKernPgtb_eq hen]
  obtain ⟨hsctlr, httbcr, h0, h1, -⟩ := s.storeAll_registers
    (fun i ↦ liveSlotAddr s (splitSlot s ||| i))
    (fun i ↦ pgdEntryWord (kernPgdEnt kernPgtb ent (archMmuGetKernVaddr s) i)) (4096 - splitSlot s)
  rw [liveSlot, liveSlotAddr_congr hsctlr httbcr h0 h1, ← hor i hi]
  refine Machine.load_storeAll_of_last (j := i) (fun k hk ↦ ?_) hi fun k hk hik ↦ ?_
  · obtain ⟨hle, hlt⟩ := splitSlot_or_bounds s (i := k) (by omega)
    exact liveSlotAddr_mod s hlt hle
  · rw [hor k hk, hor i hi]
    exact liveSlotAddr_ne s (by omega) (by omega) (by omega) (by omega) (by omega)

theorem splitSlot_initSetupKernPgtb (hen : armv7MmuIsEnabled s = true) :
    splitSlot (initSetupKernPgtb (some kernPgd) (some kernPgtb) ent s).2 = splitSlot s := by
  rw [initSetupKernPgtb_eq hen]
  obtain ⟨-, httbcr, -⟩ := s.storeAll_registers
    (fun i ↦ liveSlotAddr s (splitSlot s ||| i))
    (fun i ↦ pgdEntryWord (kernPgdEnt kernPgtb ent (archMmuGetKernVaddr s) i)) (4096 - splitSlot s)
  rw [splitSlot, armv7MmuGetPgDiv, httbcr]
  rfl

/-! ## The table a slot names -/

theorem kernPgdEnt_word (hent : ent.FitsPgd) (hbase : 2 ^ 20 ∣ kernPgtb.base.toNat) (v : Addr)
    {i : ℕ} (hi : i < 4096) :
    pgdEntryWord (kernPgdEnt kernPgtb ent v i) &&& pgdTypeMask = Armv7MmuPgdType.pgdTable.toWord ∧
      pgdEntryWord (kernPgdEnt kernPgtb ent v i) &&& pgdTableMask
        = kernPgtb.base ||| BitVec.ofNat 32 i * 0x400#32 := by
  have hword : pgdEntryWord (kernPgdEnt kernPgtb ent v i) &&& pgdTypeMask = _ ∧ _ :=
    pgdEntryWord_table rfl hent.domain hent.flags_type hent.flags_table
  refine ⟨hword.1, hword.2.trans ?_⟩
  have hshift : BitVec.ofNat 32 i <<< divMultPgtb = BitVec.ofNat 32 i * 0x400#32 :=
    shiftLeft_tableOffset hi
  have hoff : 2 ^ 10 ∣ (BitVec.ofNat 32 i * 0x400#32).toNat := by
    rw [toNat_tableOffset hi]
    exact Nat.dvd_mul_left _ _
  rw [kernPgdEnt, hshift, BitVec.and_or_distrib_right, and_pgdTableMask hoff,
    and_pgdTableMask ((Nat.pow_dvd_pow 2 (by omega)).trans hbase)]

theorem tableBase_initSetupKernPgtb (hen : armv7MmuIsEnabled s = true) (hent : ent.FitsPgd)
    (hbase : 2 ^ 20 ∣ kernPgtb.base.toNat)
    (hor : ∀ i < 4096 - splitSlot s, splitSlot s ||| i = splitSlot s + i) {i : ℕ}
    (hi : i < 4096 - splitSlot s) :
    IsTableSlot (initSetupKernPgtb (some kernPgd) (some kernPgtb) ent s).2 (splitSlot s + i) ∧
      tableBase (initSetupKernPgtb (some kernPgd) (some kernPgtb) ent s).2 (splitSlot s + i)
        = kernPgtb.base ||| BitVec.ofNat 32 i * 0x400#32 := by
  obtain ⟨htype, htable⟩ := kernPgdEnt_word hent hbase (archMmuGetKernVaddr s) (i := i) (by omega)
  rw [IsTableSlot, tableBase, liveSlot_initSetupKernPgtb hen hor hi]
  exact ⟨htype, htable⟩

/-! ## When the half is set up -/

/-- For a split of 0 or 1 the first slot is a multiple of the number of slots. -/
theorem splitSlot_of_le_one (h : armv7MmuGetPgDiv s ≤ 1) :
    4096 - splitSlot s = 2 ^ (12 - armv7MmuGetPgDiv s) ∧
      ∀ i < 4096 - splitSlot s, splitSlot s ||| i = splitSlot s + i := by
  rcases Nat.le_one_iff_eq_zero_or_eq_one.mp h with hdiv | hdiv
  · have hfirst : splitSlot s = 0 := by rw [splitSlot, if_pos hdiv]
    rw [hdiv, hfirst]
    exact ⟨rfl, fun i _ ↦ by rw [Nat.zero_or, Nat.zero_add]⟩
  · have hfirst : splitSlot s = 2048 := (splitSlot_eq_iff s).mpr hdiv
    rw [hdiv, hfirst]
    exact ⟨rfl, fun i hi ↦ Bits.or_eq_add_of_dvd_of_lt (k := 11) ⟨1, rfl⟩ hi⟩

/-- For a larger split slots are missed: twice the first slot lacks the bit of the first slot, which
every composed slot has. -/
theorem splitSlot_or_ne (h : 2 ≤ armv7MmuGetPgDiv s) :
    splitSlot s < 4096 - splitSlot s ∧ ∀ i, splitSlot s ||| i ≠ splitSlot s + splitSlot s := by
  have hfirst : splitSlot s = 2 ^ (12 - armv7MmuGetPgDiv s) := by
    rw [splitSlot, if_neg (by omega)]
  have hle : splitSlot s ≤ 2 ^ 10 := by
    rw [hfirst]
    exact Nat.pow_le_pow_right (by omega) (by omega)
  refine ⟨by omega, ?_⟩
  intro i heq
  have hbit := congrArg (·.testBit (12 - armv7MmuGetPgDiv s)) heq
  simp only [Nat.testBit_or] at hbit
  rw [hfirst, ← two_mul, ← pow_succ', Nat.testBit_two_pow_self, Bool.true_or,
    Nat.testBit_two_pow_of_ne (by omega)] at hbit
  exact Bool.noConfusion hbit

theorem setsUpKernelHalf_of_dvd (hen : armv7MmuIsEnabled s = true) (hent : ent.FitsPgd)
    (hsize : (4096 - splitSlot s) * 0x400 ≤ kernPgtb.size.toNat) (hdiv : armv7MmuGetPgDiv s ≤ 1)
    (hbase : 2 ^ (22 - armv7MmuGetPgDiv s) ∣ kernPgtb.base.toNat) :
    SetsUpKernelHalf s kernPgd kernPgtb ent := by
  rintro m r rfl -
  have hen' : armv7MmuIsEnabled { s with mem := m } = true := hen
  have hsplit : splitSlot (initSetupKernPgtb (some kernPgd) (some kernPgtb) ent
      { s with mem := m }).2 = splitSlot s := splitSlot_initSetupKernPgtb hen'
  obtain ⟨hcnt, hor⟩ := splitSlot_of_le_one hdiv
  have hfit := Bits.add_two_pow_le_of_dvd (by omega) hbase kernPgtb.base.isLt
  have hpow : 2 ^ (12 - armv7MmuGetPgDiv s) * 0x400 = 2 ^ (22 - armv7MmuGetPgDiv s) := by
    rw [show (0x400 : ℕ) = 2 ^ 10 by norm_num, ← pow_add]
    congr 1
    omega
  have hoff : ∀ i < 4096 - splitSlot s, (BitVec.ofNat 32 i * 0x400#32).toNat = i * 0x400 ∧
      i * 0x400 + 0x400 ≤ 2 ^ (22 - armv7MmuGetPgDiv s) := by
    intro i hi
    have hle : (i + 1) * 0x400 ≤ 2 ^ (12 - armv7MmuGetPgDiv s) * 0x400 :=
      Nat.mul_le_mul_right _ (hcnt ▸ hi)
    rw [hpow, Nat.add_mul, Nat.one_mul] at hle
    exact ⟨toNat_tableOffset (lt_of_lt_of_le hi (Nat.sub_le _ _)), hle⟩
  have hslot : ∀ i < 4096 - splitSlot s,
      IsTableSlot (initSetupKernPgtb (some kernPgd) (some kernPgtb) ent { s with mem := m }).2
        (splitSlot s + i) ∧
      tableBase (initSetupKernPgtb (some kernPgd) (some kernPgtb) ent { s with mem := m }).2
        (splitSlot s + i) = kernPgtb.base + BitVec.ofNat 32 i * 0x400#32 := by
    intro i hi
    obtain ⟨htab, hval⟩ : _ ∧ tableBase _ (splitSlot s + i) = _ :=
      tableBase_initSetupKernPgtb hen' hent ((Nat.pow_dvd_pow 2 (by omega)).trans hbase) hor hi
    refine ⟨htab, hval.trans ?_⟩
    rw [Bits.or_eq_add_iff, ← BitVec.toNat_inj, BitVec.toNat_and, (hoff i hi).1]
    exact Bits.and_eq_zero_of_dvd_of_lt hbase (by have := (hoff i hi).2; omega)
  refine ⟨?_, ?_, ?_⟩
  · rw [hsplit]
    exact hslot
  · rw [hsplit]
    intro i hi j hj hij x hxi hxj
    rw [(hslot i hi).2] at hxi
    rw [(hslot j hj).2] at hxj
    obtain ⟨hi1, hi2⟩ := hoff i hi
    obtain ⟨hj1, hj2⟩ := hoff j hj
    have hvi : (kernPgtb.base + BitVec.ofNat 32 i * 0x400#32).toNat
        = kernPgtb.base.toNat + i * 0x400 := by
      rw [BitVec.toNat_add, hi1, Nat.mod_eq_of_lt (by omega)]
    have hvj : (kernPgtb.base + BitVec.ofNat 32 j * 0x400#32).toNat
        = kernPgtb.base.toNat + j * 0x400 := by
      rw [BitVec.toNat_add, hj1, Nat.mod_eq_of_lt (by omega)]
    rw [inRange_iff (by omega)] at hxi hxj
    omega
  · rw [hsplit]
    intro i hi x hx
    rw [(hslot i hi).2] at hx
    refine inRange_of_inRange_add ?_ hx
    obtain ⟨hi1, hi2⟩ := hoff i hi
    omega

/-- A set-up that works has a split of 0 or 1, since larger splits leave a slot as it was, and an
aligned region, since each bit of a table's offset is a bit the base does not have. -/
theorem dvd_of_setsUpKernelHalf (hen : armv7MmuIsEnabled s = true) (hent : ent.FitsPgd)
    (hbase : 2 ^ 20 ∣ kernPgtb.base.toNat) (h : SetsUpKernelHalf s kernPgd kernPgtb ent) :
    armv7MmuGetPgDiv s ≤ 1 ∧ 2 ^ (22 - armv7MmuGetPgDiv s) ∣ kernPgtb.base.toNat := by
  have hen' : armv7MmuIsEnabled { s with mem := fun _ ↦ 0#8 } = true := hen
  have hsplit : splitSlot (initSetupKernPgtb (some kernPgd) (some kernPgtb) ent
      { s with mem := fun _ ↦ 0#8 }).2 = splitSlot s := splitSlot_initSetupKernPgtb hen'
  have hfill := (h (fun _ ↦ 0#8) _ rfl (by rw [initSetupKernPgtb_eq hen'])).slot
  rw [hsplit] at hfill
  by_cases hdiv : armv7MmuGetPgDiv s ≤ 1
  · refine ⟨hdiv, ?_⟩
    obtain ⟨hcnt, hor⟩ := splitSlot_of_le_one hdiv
    rw [show 22 - armv7MmuGetPgDiv s = 20 + (2 - armv7MmuGetPgDiv s) by omega]
    refine Bits.two_pow_dvd_of_dvd_of_forall_and hbase fun t ht ↦ ?_
    have hi : 2 ^ t * 2 ^ 10 < 4096 - splitSlot s := by
      rw [hcnt, ← pow_add]
      exact Nat.pow_lt_pow_right (by omega) (by omega)
    obtain ⟨-, hwant⟩ := hfill (2 ^ t * 2 ^ 10) hi
    obtain ⟨-, hgot⟩ : _ ∧ tableBase (initSetupKernPgtb (some kernPgd) (some kernPgtb) ent
        { s with mem := fun _ ↦ 0#8 }).2 (splitSlot s + 2 ^ t * 2 ^ 10) = _ :=
      tableBase_initSetupKernPgtb hen' hent hbase hor hi
    have hand := (Bits.or_eq_add_iff _ _).mp (hgot.symm.trans hwant)
    rw [← BitVec.toNat_inj, BitVec.toNat_and,
      toNat_tableOffset (lt_of_lt_of_le hi (Nat.sub_le _ _))] at hand
    rw [show (2 : ℕ) ^ 20 = 2 ^ 10 * 0x400 by norm_num, ← mul_assoc]
    exact hand
  · exfalso
    obtain ⟨hlt, hne⟩ := splitSlot_or_ne (s := s) (by omega)
    obtain ⟨htab, -⟩ := hfill (splitSlot s) hlt
    have hkeep : liveSlot (initSetupKernPgtb (some kernPgd) (some kernPgtb) ent
        { s with mem := fun _ ↦ 0#8 }).2 (splitSlot s + splitSlot s) = _ :=
      liveSlot_initSetupKernPgtb_of_ne hen' (by omega) (Nat.le_add_right _ _) fun i _ ↦ hne i
    rw [IsTableSlot, hkeep, liveSlot, Machine.load, readWord_zero] at htab
    exact absurd htab (by decide)

/-- **The kernel half is set up exactly when the split is 0 or 1 and the region of tables is aligned
to their size.** -/
theorem setsUpKernelHalf_iff (hen : armv7MmuIsEnabled s = true) (hent : ent.FitsPgd)
    (hbase : 2 ^ 20 ∣ kernPgtb.base.toNat)
    (hsize : (4096 - splitSlot s) * 0x400 ≤ kernPgtb.size.toNat) :
    SetsUpKernelHalf s kernPgd kernPgtb ent
      ↔ armv7MmuGetPgDiv s ≤ 1 ∧ 2 ^ (22 - armv7MmuGetPgDiv s) ∣ kernPgtb.base.toNat :=
  ⟨dvd_of_setsUpKernelHalf hen hent hbase,
    fun h ↦ setsUpKernelHalf_of_dvd hen hent hsize h.1 h.2⟩

/-- The region of an image that ends in an odd MiB, under the split of the boot code. -/
theorem setsUpKernelHalf_iff_oneTable :
    SetsUpKernelHalf oneTable ⟨kPgd, 0x4000#32⟩ ⟨0x60200000#32, 0x200000#32⟩ kdefEnt :=
  (setsUpKernelHalf_iff rfl fitsPgd_kdefEnt (by decide) (by decide)).mpr (by decide)

/-- When the image ends in an even MiB, the slot of the 1025th MiB of the half names the first table
of the region again. -/
theorem not_setsUpKernelHalf_oneTable :
    tableBase (initSetupKernPgtb (some ⟨kPgd, 0x4000#32⟩) (some ⟨0x60100000#32, 0x200000#32⟩)
        kdefEnt oneTable).2 (2048 + 1024) = 0x60100000#32 ∧
      ¬SetsUpKernelHalf oneTable ⟨kPgd, 0x4000#32⟩ ⟨0x60100000#32, 0x200000#32⟩ kdefEnt := by
  have hbase : 2 ^ 20 ∣ (0x60100000#32 : Addr).toNat := by decide
  have hen : armv7MmuIsEnabled oneTable = true := rfl
  obtain ⟨-, hor⟩ := splitSlot_of_le_one (s := oneTable) (by decide)
  have htable : tableBase (initSetupKernPgtb (some ⟨kPgd, 0x4000#32⟩)
      (some ⟨0x60100000#32, 0x200000#32⟩) kdefEnt oneTable).2 (2048 + 1024) = 0x60100000#32 :=
    (tableBase_initSetupKernPgtb hen fitsPgd_kdefEnt hbase hor (by decide)).2
  refine ⟨htable, ?_⟩
  intro h
  have hfill := (h oneTable.mem _ rfl (by rw [initSetupKernPgtb_eq hen])).slot
  obtain ⟨-, hwant⟩ := hfill 1024 (by rw [splitSlot_initSetupKernPgtb hen]; decide)
  rw [splitSlot_initSetupKernPgtb hen] at hwant
  exact absurd (htable.symm.trans hwant) (by decide)

end Sugarcat
