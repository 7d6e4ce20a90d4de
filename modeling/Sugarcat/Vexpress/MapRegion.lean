import Mathlib.Data.Nat.Log
import Sugarcat.Vexpress.Init

/-!
# Mapping a region of the kernel

`init_map_kern_pgtb` enters the pages of a region one by one. It computes three things from the
index of a page: the frame and the index in the table with an OR, and the table with a sum. They
agree on every page when the base of the region is aligned to its size, rounded up to a power of
two.

## When they do not agree

Otherwise take a bit of the base, counted in pages, below that size. If it is one of the lower eight
bits, no pass ever composes the index of the page that has it cleared by a carry, and that page
keeps whatever word memory held. If it is a higher one, the table and the index are right but the
frame of the page is that of an earlier one. This is `mapsRegion_iff`.

## Page numbers

The window of the kernel starts at a multiple of its size, so the pages of it are numbered by
`windowPage`, and the bits of that number are the bits of the address. `mapWordIndex` is the word
that the pass for index `i` of a region that begins at page `b` enters, as a number. With it the
argument is one about the bits of two numbers, and addresses only come in again when a word is
loaded.

The number of passes is the size of the region in pages, rounded up to a power of two, so that pages
behind the region are entered as well. They are part of what a region of that base and that size is
taken to be.
-/

namespace Sugarcat

open ByteMemory

/-! ## Regions and their words -/

/-- A region of whole pages in the 512 MiB window of physical memory. -/
structure MmReg.InWindow (r : MmReg) : Prop where
  base_aligned : r.base.toNat % 4096 = 0
  size_aligned : r.size.toNat % 4096 = 0
  size_pos : 0 < r.size.toNat
  start : 0x60000000 ≤ r.base.toNat
  stop : r.base.toNat + r.size.toNat ≤ 0x80000000

/-- The word of `v` in the region of tables of the kernel half. -/
def kernPgtbWordAddr (kernPgtb : MmReg) (v : Addr) : Addr :=
  kernPgtb.base + (((v - kvStart) >>> initDivMultMb) * 0x400#32 + 4#32 * pgtbIndex v)

/-- The registers are those of `s` and memory is arbitrary: when the mapping succeeds, the word of
every page of the region is that of a small page with its own frame. -/
def MapsRegion (s : Machine) (kernPgtb mapReg : MmReg) (ent : InitMmuEntry) : Prop :=
  ∀ m : Memory, ∀ r : Errno × Machine,
    r = initMapKernPgtb (some kernPgtb) (some mapReg) (some ent) { s with mem := m } →
      r.1 = .esucc → ∀ p : Addr, p.toNat % 4096 = 0 → InRange mapReg.base mapReg.size.toNat p →
        r.2.load (kernPgtbWordAddr kernPgtb (phyToKvm p)) &&& pgtbTypeMask
            = Armv7MmuPgtbType.pgtbSmallPg.toWord ∧
          r.2.load (kernPgtbWordAddr kernPgtb (phyToKvm p)) &&& pgtbSmPgMask = p

/-! ## The number of passes -/

/-- The page count is the size of the region rounded up to a power of two. -/
theorem toNat_mapPgCnt {size : Word} (hpos : 0 < size.toNat) (halign : size.toNat % 4096 = 0) :
    12 ≤ Nat.clog 2 size.toNat ∧
      (mapPgCnt size).toNat = 2 ^ (Nat.clog 2 size.toNat - 12) := by
  have hmsb := toNat_clrLvMsb (x := size) (by omega)
  have hlog : size.toNat.log2 = Nat.log 2 size.toNat := Nat.log2_eq_log_two
  have hle : 2 ^ 12 ≤ size.toNat := by omega
  have h12 : 12 ≤ Nat.log 2 size.toNat := (Nat.le_log_iff_pow_le (by omega) (by omega)).mpr hle
  rw [hlog] at hmsb
  refine ⟨h12.trans (Nat.log_le_clog 2 _), ?_⟩
  rw [mapPgCnt]
  cases hpow : isPowerOfTwo size with
  | true =>
    obtain ⟨k, hk⟩ := (isPowerOfTwo_iff size).mp hpow
    have hlogk : Nat.log 2 size.toNat = k := by rw [hk, Nat.log_pow (by omega)]
    rw [hlogk] at hmsb h12
    rw [if_neg (by decide), Bits.toNat_ushiftRight_eq, hmsb, hk, Nat.clog_pow 2 k (by omega),
      Nat.pow_div h12 (by omega)]
  | false =>
    have hnot : ¬∃ k, size.toNat = 2 ^ k := by
      rw [← isPowerOfTwo_iff, hpow]
      exact Bool.false_ne_true
    have hlt : 2 ^ Nat.log 2 size.toNat < size.toNat :=
      lt_of_le_of_ne (Nat.pow_log_le_self 2 (by omega)) fun h ↦ hnot ⟨_, h.symm⟩
    have hclog : Nat.clog 2 size.toNat = Nat.log 2 size.toNat + 1 := by
      refine le_antisymm ?_ ((Nat.lt_clog_iff_pow_lt (by omega)).mpr hlt)
      exact (Nat.clog_le_iff_le_pow (by omega)).mpr (Nat.lt_pow_succ_log_self (by omega) _).le
    have h11 : divMultPg - 1 ≤ Nat.log 2 size.toNat := le_trans (by decide) h12
    rw [if_pos (by decide), Bits.toNat_ushiftRight_eq, hmsb, hclog, Nat.pow_div h11 (by decide)]
    rfl

/-! ## Page numbers -/

theorem window_or_two_pow {b t : ℕ} (ht : t < 17) (hb : b.testBit t = true) :
    (0x60000 + b) ||| 2 ^ t = 0x60000 + b := by
  have hmod : (0x60000 + b) % 2 ^ 17 = b % 2 ^ 17 := by omega
  have hbit := congrArg (·.testBit t) hmod
  simp only [Nat.testBit_mod_two_pow, ht, decide_true, Bool.true_and, hb] at hbit
  refine Nat.eq_of_testBit_eq fun i ↦ ?_
  rw [Nat.testBit_or]
  by_cases hi : t = i
  · rw [← hi, hbit, Bool.true_or]
  · rw [Nat.testBit_two_pow_of_ne hi, Bool.or_false]

/-- The number of a page in the window. -/
def windowPage (p : Addr) : ℕ := (p.toNat - 0x60000000) / 4096

/-- The index of the word that pass `i` stores, counted from the start of the region of tables, when
the region to map starts at page `b` of the window. -/
def mapWordIndex (b i : ℕ) : ℕ := (b + i) / 256 * 256 + (b ||| i) % 256

theorem mapWordIndex_eq_add {b i : ℕ} (h : (b ||| i) % 256 = (b + i) % 256) :
    mapWordIndex b i = b + i := by
  rw [mapWordIndex, h]
  omega

theorem testBit_mapWordIndex {b t : ℕ} (ht : t < 8) (hb : b.testBit t = true) (i : ℕ) :
    (mapWordIndex b i).testBit t = true := by
  have hmod : mapWordIndex b i % 2 ^ 8 = (b ||| i) % 2 ^ 8 := by
    rw [mapWordIndex]
    omega
  have hbit := congrArg (·.testBit t) hmod
  simp only [Nat.testBit_mod_two_pow, ht, decide_true, Bool.true_and, Nat.testBit_or, hb,
    Bool.true_or] at hbit
  exact hbit

variable {s : Machine} {kernPgtb mapReg : MmReg} {ent : InitMmuEntry}

/-- The address of the `i`-th pass. -/
def mapAddr (s : Machine) (kernPgtb mapReg : MmReg) (i : ℕ) : Addr :=
  (kernPgtb.base ||| ((((phyToKvm mapReg.base - archMmuGetKernVaddr s)
    + (BitVec.ofNat 32 i <<< divMultPg)) >>> initDivMultMb) <<< divMultPgtb))
      + 4#32 * pgtbIndex (phyToKvm mapReg.base ||| (BitVec.ofNat 32 i <<< divMultPg))

theorem initMapKernPgtb_eq (s : Machine) (kernPgtb mapReg : MmReg) (ent : InitMmuEntry) :
    initMapKernPgtb (some kernPgtb) (some mapReg) (some ent) s
      = (.esucc, s.storeAll (mapAddr s kernPgtb mapReg)
          (fun i ↦ pgtbEntryWord (kernPgtbEnt mapReg ent i)) (mapPgCnt mapReg.size).toNat) := by
  rw [initMapKernPgtb]
  exact Machine.upToOk_eq_storeAll fun i _ ↦ rfl

theorem MmReg.InWindow.page {p : Addr} (hp : p.toNat % 4096 = 0) (hstart : 0x60000000 ≤ p.toNat)
    (hstop : p.toNat < 0x80000000) :
    p = kpStart + BitVec.ofNat 32 (windowPage p * 4096) ∧ windowPage p < 2 ^ 17 ∧
      phyToKvm p = kvStart + BitVec.ofNat 32 (windowPage p * 4096) := by
  have hlt : windowPage p < 2 ^ 17 := by
    rw [windowPage]
    omega
  have hval : p = kpStart + BitVec.ofNat 32 (windowPage p * 4096) := by
    apply BitVec.eq_of_toNat_eq
    rw [BitVec.toNat_add, BitVec.toNat_ofNat, BitVec.toNat_ofNat, windowPage]
    omega
  refine ⟨hval, hlt, ?_⟩
  have hoff : (BitVec.ofNat 32 (windowPage p * 4096)).toNat < 2 ^ 29 := by
    rw [BitVec.toNat_ofNat]
    omega
  rw [← phyToKvm_add hoff, ← hval]

theorem toNat_ofNat_shiftLeft_page {i : ℕ} (hi : i < 2 ^ 17) :
    (BitVec.ofNat 32 i <<< divMultPg).toNat = i * 4096 := by
  have hval : (BitVec.ofNat 32 i).toNat = i := Bits.toNat_ofNat_of_lt (by omega)
  rw [Bits.toNat_shiftLeft_of_lt, hval]
  · norm_num
  · rw [hval]
    exact (Nat.mul_lt_mul_of_pos_right hi (Nat.two_pow_pos 12)).trans (by decide)

theorem archMmuGetKernVaddr_of_pgDiv (hdiv : armv7MmuGetPgDiv s = 1) :
    archMmuGetKernVaddr s = kvStart := by
  rw [archMmuGetKernVaddr, hdiv]
  rfl

theorem toNat_mapAddr_of_mib (hdiv : armv7MmuGetPgDiv s = 1) (hbase : 2 ^ 20 ∣ kernPgtb.base.toNat)
    (hreg : mapReg.InWindow) {i : ℕ} (hi : i < 2 ^ 17) :
    (mapAddr s kernPgtb mapReg i).toNat
      = kernPgtb.base.toNat + 4 * mapWordIndex (windowPage mapReg.base) i := by
  obtain ⟨hbaseAl, -, hpos, hstart, hstop⟩ := hreg
  obtain ⟨-, hb, hkvm⟩ := MmReg.InWindow.page hbaseAl hstart (by omega)
  generalize windowPage mapReg.base = b at hb hkvm ⊢
  have hoff : (BitVec.ofNat 32 (b * 4096)).toNat = b * 4096 := Bits.toNat_ofNat_of_lt (by omega)
  -- the table, by a sum
  have htab : ((phyToKvm mapReg.base - archMmuGetKernVaddr s)
      + (BitVec.ofNat 32 i <<< divMultPg)) >>> initDivMultMb
        = BitVec.ofNat 32 ((b + i) / 256) := by
    have hdiff : phyToKvm mapReg.base - archMmuGetKernVaddr s = BitVec.ofNat 32 (b * 4096) := by
      rw [hkvm, archMmuGetKernVaddr_of_pgDiv hdiv]
      ring
    apply BitVec.eq_of_toNat_eq
    rw [Bits.toNat_ushiftRight_eq _ 20, hdiff, BitVec.toNat_add, hoff,
      toNat_ofNat_shiftLeft_page hi, BitVec.toNat_ofNat]
    omega
  -- the index in the table, by an OR
  have hidx : pageOf (phyToKvm mapReg.base ||| (BitVec.ofNat 32 i <<< divMultPg)) % 256
      = (b ||| i) % 256 := by
    have hvpage : (phyToKvm mapReg.base).toNat / 2 ^ 12 = 0x80000 + b := by
      rw [hkvm, BitVec.toNat_add, hoff, BitVec.toNat_ofNat]
      omega
    have hipage : (BitVec.ofNat 32 i <<< divMultPg).toNat / 2 ^ 12 = i := by
      rw [toNat_ofNat_shiftLeft_page hi]
      omega
    have hmod : (0x80000 + b) % 2 ^ 8 = b % 2 ^ 8 := by omega
    rw [pageOf, BitVec.toNat_or, Nat.or_div_two_pow, hvpage, hipage]
    change (_ ||| _) % 2 ^ 8 = (_ ||| _) % 2 ^ 8
    rw [Nat.or_mod_two_pow, hmod, ← Nat.or_mod_two_pow]
  have hlt : (b + i) / 256 < 1024 := by omega
  have htoff := toNat_tableOffset (i := (b + i) / 256) (by omega)
  have hfit := Bits.add_two_pow_le_of_dvd (by omega) hbase kernPgtb.base.isLt
  have hmod := Nat.mod_lt (b ||| i) (by omega : 0 < 256)
  rw [mapAddr, htab, shiftLeft_tableOffset (by omega), BitVec.toNat_add, toNat_four_mul_pgtbIndex,
    hidx, Bits.toNat_or_of_dvd_of_lt hbase (by rw [htoff]; omega), htoff, mapWordIndex,
    Nat.mod_eq_of_lt (by omega)]
  omega

theorem toNat_mapAddr (hdiv : armv7MmuGetPgDiv s = 1) (hbase : 2 ^ 21 ∣ kernPgtb.base.toNat)
    (hreg : mapReg.InWindow) {i : ℕ} (hi : i < 2 ^ 17) :
    (mapAddr s kernPgtb mapReg i).toNat
      = kernPgtb.base.toNat + 4 * mapWordIndex (windowPage mapReg.base) i :=
  toNat_mapAddr_of_mib hdiv ((Nat.pow_dvd_pow 2 (by omega)).trans hbase) hreg hi

theorem toNat_kernPgtbWordAddr (hbase : 2 ^ 21 ∣ kernPgtb.base.toNat) {p : Addr}
    (hp : p.toNat % 4096 = 0) (hstart : 0x60000000 ≤ p.toNat) (hstop : p.toNat < 0x80000000) :
    (kernPgtbWordAddr kernPgtb (phyToKvm p)).toNat
      = kernPgtb.base.toNat + 4 * windowPage p := by
  obtain ⟨-, hb, hkvm⟩ := MmReg.InWindow.page hp hstart hstop
  rw [kernPgtbWordAddr, hkvm]
  generalize windowPage p = b at hb ⊢
  have hoff : (BitVec.ofNat 32 (b * 4096)).toNat = b * 4096 := Bits.toNat_ofNat_of_lt (by omega)
  have htab : (kvStart + BitVec.ofNat 32 (b * 4096) - kvStart) >>> initDivMultMb
      = BitVec.ofNat 32 (b / 256) := by
    apply BitVec.eq_of_toNat_eq
    rw [Bits.toNat_ushiftRight_eq _ 20, add_sub_cancel_left, hoff, BitVec.toNat_ofNat]
    omega
  have hpage : pageOf (kvStart + BitVec.ofNat 32 (b * 4096)) = 0x80000 + b := by
    rw [pageOf, BitVec.toNat_add, hoff, BitVec.toNat_ofNat]
    omega
  have htoff := toNat_tableOffset (i := b / 256) (by omega)
  have hfit := Bits.add_two_pow_le_of_dvd (by omega) hbase kernPgtb.base.isLt
  rw [htab, BitVec.toNat_add, BitVec.toNat_add, toNat_four_mul_pgtbIndex, hpage, htoff]
  omega

/-- The word of a pass: a small page, whose frame is the page number of the base composed with the
index of the pass. -/
theorem kernPgtbEnt_word (hent : ent.FitsPgtb) (hreg : mapReg.InWindow) {i : ℕ} (hi : i < 2 ^ 17) :
    pgtbEntryWord (kernPgtbEnt mapReg ent i) &&& pgtbTypeMask
        = Armv7MmuPgtbType.pgtbSmallPg.toWord ∧
      (pgtbEntryWord (kernPgtbEnt mapReg ent i) &&& pgtbSmPgMask).toNat
        = ((0x60000 + windowPage mapReg.base) ||| i) * 4096 := by
  obtain ⟨htype, hframe⟩ : pgtbEntryWord (kernPgtbEnt mapReg ent i) &&& pgtbTypeMask = _ ∧ _ :=
    pgtbEntryWord_smallPg rfl hent.flags_type hent.flags_frame
  refine ⟨htype, ?_⟩
  have hpage : mapReg.base.toNat / 2 ^ 12 = 0x60000 + windowPage mapReg.base := by
    have := hreg.start
    rw [windowPage]
    omega
  have hipage : (BitVec.ofNat 32 i <<< divMultPg).toNat / 2 ^ 12 = i := by
    rw [toNat_ofNat_shiftLeft_page hi]
    omega
  rw [hframe, kernPgtbEnt, Bits.toNat_and_high (k := 12) (by omega) (by decide), BitVec.toNat_or,
    Nat.or_div_two_pow, hpage, hipage]
  norm_num

theorem MmReg.InWindow.exists_page (hreg : mapReg.InWindow) {k : ℕ}
    (hk : k * 4096 < mapReg.size.toNat) :
    ∃ p : Addr, p.toNat = mapReg.base.toNat + k * 4096 ∧
      InRange mapReg.base mapReg.size.toNat p ∧
        windowPage p = windowPage mapReg.base + k := by
  obtain ⟨hal, hsal, hpos, hstart, hstop⟩ := hreg
  have hoff : (BitVec.ofNat 32 (k * 4096)).toNat = k * 4096 := Bits.toNat_ofNat_of_lt (by omega)
  have hval : (mapReg.base + BitVec.ofNat 32 (k * 4096)).toNat = mapReg.base.toNat + k * 4096 := by
    rw [BitVec.toNat_add, hoff, Nat.mod_eq_of_lt (by omega)]
  refine ⟨mapReg.base + BitVec.ofNat 32 (k * 4096), hval, inRange_add hk (by omega), ?_⟩
  rw [windowPage, hval, windowPage]
  omega

/-! ## When the region is mapped -/

/-- The rounded size of the region, as the exponent of the number of passes. -/
def mapPgLog (size : Word) : ℕ := Nat.clog 2 size.toNat - 12

theorem MmReg.InWindow.mapPgCnt_eq (hreg : mapReg.InWindow) :
    (mapPgCnt mapReg.size).toNat = 2 ^ mapPgLog mapReg.size ∧ mapPgLog mapReg.size ≤ 17 ∧
      Nat.clog 2 mapReg.size.toNat = 12 + mapPgLog mapReg.size := by
  obtain ⟨hal, hsal, hpos, hstart, hstop⟩ := hreg
  obtain ⟨h12, hcnt⟩ := toNat_mapPgCnt hpos hsal
  have h29 : Nat.clog 2 mapReg.size.toNat ≤ 29 :=
    (Nat.clog_le_iff_le_pow (by omega)).mpr (by omega)
  refine ⟨hcnt, ?_, ?_⟩
  · rw [mapPgLog]
    omega
  · rw [mapPgLog]
    omega

theorem MmReg.InWindow.dvd_iff (hreg : mapReg.InWindow) :
    2 ^ Nat.clog 2 mapReg.size.toNat ∣ mapReg.base.toNat
      ↔ 2 ^ mapPgLog mapReg.size ∣ windowPage mapReg.base := by
  obtain ⟨-, h17, hclog⟩ := hreg.mapPgCnt_eq
  have hstart := hreg.start
  have hal := hreg.base_aligned
  have hval : mapReg.base.toNat = 2 ^ 12 * (2 ^ 17 * 3) + 2 ^ 12 * windowPage mapReg.base := by
    rw [windowPage]
    omega
  have hwin : 2 ^ 12 * 2 ^ mapPgLog mapReg.size ∣ 2 ^ 12 * (2 ^ 17 * 3) :=
    Nat.mul_dvd_mul_left _ ((Nat.pow_dvd_pow 2 h17).trans (Nat.dvd_mul_right _ _))
  rw [hclog, pow_add, hval, Nat.dvd_add_right hwin,
    Nat.mul_dvd_mul_iff_left (Nat.two_pow_pos 12)]

variable (hdiv : armv7MmuGetPgDiv s = 1) (hbase : 2 ^ 21 ∣ kernPgtb.base.toNat)
  (hreg : mapReg.InWindow)

include hdiv hbase hreg

theorem toNat_mapAddr_of_lt {i : ℕ} (hi : i < (mapPgCnt mapReg.size).toNat) :
    i < 2 ^ 17 ∧ (mapAddr s kernPgtb mapReg i).toNat
      = kernPgtb.base.toNat + 4 * mapWordIndex (windowPage mapReg.base) i ∧
        (mapAddr s kernPgtb mapReg i).toNat % 4 = 0 := by
  obtain ⟨hcnt, h17, -⟩ := hreg.mapPgCnt_eq
  have hlt : i < 2 ^ 17 := by
    rw [hcnt] at hi
    exact hi.trans_le (Nat.pow_le_pow_right (by omega) h17)
  have haddr := toNat_mapAddr hdiv hbase hreg hlt
  exact ⟨hlt, haddr, by omega⟩

/-- A word that no pass composes keeps its contents. -/
theorem load_initMapKernPgtb_of_ne {a : Addr} {w : ℕ} (ha : a.toNat = kernPgtb.base.toNat + 4 * w)
    (hne : ∀ i < (mapPgCnt mapReg.size).toNat, mapWordIndex (windowPage mapReg.base) i ≠ w) :
    (initMapKernPgtb (some kernPgtb) (some mapReg) (some ent) s).2.load a = s.load a := by
  rw [initMapKernPgtb_eq]
  refine Machine.load_storeAll_of_ne (fun i hi ↦ (toNat_mapAddr_of_lt hdiv hbase hreg hi).2.2)
    (by omega) fun i hi heq ↦ hne i hi ?_
  have haddr := (toNat_mapAddr_of_lt hdiv hbase hreg hi).2.1
  rw [heq, ha] at haddr
  omega

/-- When the index of every page is composed without overlap, each word is that of its own pass. -/
theorem load_initMapKernPgtb {a : Addr} {i : ℕ} (hi : i < (mapPgCnt mapReg.size).toNat)
    (ha : a.toNat = kernPgtb.base.toNat + 4 * (windowPage mapReg.base + i))
    (hadd : ∀ k < (mapPgCnt mapReg.size).toNat,
      mapWordIndex (windowPage mapReg.base) k = windowPage mapReg.base + k) :
    (initMapKernPgtb (some kernPgtb) (some mapReg) (some ent) s).2.load a
      = pgtbEntryWord (kernPgtbEnt mapReg ent i) := by
  have haddr := fun k hk ↦ (toNat_mapAddr_of_lt hdiv hbase hreg (i := k) hk).2.1
  obtain rfl : mapAddr s kernPgtb mapReg i = a := by
    apply BitVec.eq_of_toNat_eq
    rw [haddr i hi, hadd i hi, ha]
  rw [initMapKernPgtb_eq]
  refine Machine.load_storeAll_of_last (fun k hk ↦ (toNat_mapAddr_of_lt hdiv hbase hreg hk).2.2) hi
    fun k hk hik heq ↦ ?_
  have hnat := congrArg BitVec.toNat heq
  rw [haddr k hk, haddr i hi, hadd k hk, hadd i hi] at hnat
  omega

omit hdiv hbase in
theorem exists_page_two_pow {t : ℕ} (ht : t < mapPgLog mapReg.size) :
    2 ^ t < (mapPgCnt mapReg.size).toNat ∧ ∃ p : Addr,
      p.toNat % 4096 = 0 ∧ p.toNat = mapReg.base.toNat + 2 ^ t * 4096 ∧
        InRange mapReg.base mapReg.size.toNat p ∧ p.toNat < 0x80000000 ∧
          windowPage p = windowPage mapReg.base + 2 ^ t := by
  obtain ⟨hcnt, -, hclog⟩ := hreg.mapPgCnt_eq
  have hlt : 2 ^ t < (mapPgCnt mapReg.size).toNat := by
    rw [hcnt]
    exact Nat.pow_lt_pow_right (by omega) ht
  have hsize : 2 ^ t * 4096 < mapReg.size.toNat := by
    have hpow : 2 ^ (t + 12) < mapReg.size.toNat :=
      (Nat.lt_clog_iff_pow_lt (by omega)).mp (by omega)
    rwa [pow_add] at hpow
  obtain ⟨p, hp, hin, hpage⟩ := hreg.exists_page hsize
  have hal := hreg.base_aligned
  have hstop := hreg.stop
  exact ⟨hlt, p, by omega, hp, hin, by omega, hpage⟩

/-- A bit of the base among the lower eight leaves a page as it was. -/
theorem testBit_windowPage_of_lt (h : MapsRegion s kernPgtb mapReg ent) {t : ℕ}
    (ht : t < mapPgLog mapReg.size) (ht8 : t < 8) :
    (windowPage mapReg.base).testBit t = false := by
  by_contra hbit
  rw [Bool.not_eq_false] at hbit
  obtain ⟨-, p, hpal, hp, hin, hlt, hpage⟩ := exists_page_two_pow hreg ht
  have hstart := hreg.start
  have ha := toNat_kernPgtbWordAddr hbase hpal (by omega) hlt
  rw [hpage] at ha
  obtain ⟨htype, -⟩ := h (fun _ ↦ 0#8) _ rfl (by rw [initMapKernPgtb_eq]) p hpal hin
  have hne : ∀ i < (mapPgCnt mapReg.size).toNat,
      mapWordIndex (windowPage mapReg.base) i ≠ windowPage mapReg.base + 2 ^ t := by
    intro i _ heq
    have hset := testBit_mapWordIndex ht8 hbit i
    rw [heq, add_comm, Nat.testBit_two_pow_add_eq, hbit] at hset
    exact Bool.noConfusion hset
  have hdiv' : armv7MmuGetPgDiv { s with mem := fun _ ↦ 0#8 } = 1 := hdiv
  rw [load_initMapKernPgtb_of_ne hdiv' hbase hreg ha hne, Machine.load, readWord_zero] at htype
  exact absurd htype (by decide)

/-- A higher bit of the base is lost in a frame. -/
theorem testBit_windowPage_of_dvd (hent : ent.FitsPgtb) (h : MapsRegion s kernPgtb mapReg ent)
    (h256 : 2 ^ 8 ∣ windowPage mapReg.base) {t : ℕ} (ht : t < mapPgLog mapReg.size) :
    (windowPage mapReg.base).testBit t = false := by
  by_contra hbit
  rw [Bool.not_eq_false] at hbit
  obtain ⟨hcnt, p, hpal, hp, hin, hlt, hpage⟩ := exists_page_two_pow hreg ht
  have hstart := hreg.start
  have hal := hreg.base_aligned
  have ha := toNat_kernPgtbWordAddr hbase hpal (by omega) hlt
  rw [hpage] at ha
  obtain ⟨-, hframe⟩ := h s.mem _ rfl (by rw [initMapKernPgtb_eq]) p hpal hin
  have hadd : ∀ k < (mapPgCnt mapReg.size).toNat,
      mapWordIndex (windowPage mapReg.base) k = windowPage mapReg.base + k := by
    intro k _
    apply mapWordIndex_eq_add
    change _ % 2 ^ 8 = _
    rw [Nat.or_mod_two_pow, Nat.mod_eq_zero_of_dvd h256, Nat.zero_or]
    omega
  rw [load_initMapKernPgtb hdiv hbase hreg hcnt ha hadd] at hframe
  have hword := (kernPgtbEnt_word hent hreg (toNat_mapAddr_of_lt hdiv hbase hreg hcnt).1).2
  have h17 := hreg.mapPgCnt_eq.2.1
  rw [hframe, hp, window_or_two_pow (by omega) hbit, windowPage] at hword
  have := Nat.two_pow_pos t
  omega

/-- **A region is mapped exactly when its base is aligned to its size, rounded up to a power of
two.** -/
theorem mapsRegion_iff (hent : ent.FitsPgtb) :
    MapsRegion s kernPgtb mapReg ent
      ↔ 2 ^ Nat.clog 2 mapReg.size.toNat ∣ mapReg.base.toNat := by
  obtain ⟨hcnt, h17, hclog⟩ := hreg.mapPgCnt_eq
  rw [hreg.dvd_iff]
  constructor
  · intro h
    have hlow := fun t ht ht8 ↦ testBit_windowPage_of_lt hdiv hbase hreg h (t := t) ht ht8
    refine Bits.two_pow_dvd_of_forall_and fun t ht ↦ ?_
    rw [Nat.and_two_pow, Nat.mul_eq_zero, Bool.toNat_eq_zero]
    left
    rcases Nat.lt_or_ge t 8 with ht8 | ht8
    · exact hlow t ht ht8
    · refine testBit_windowPage_of_dvd hdiv hbase hreg hent h ?_ ht
      refine Bits.two_pow_dvd_of_forall_and fun j hj ↦ ?_
      rw [Nat.and_two_pow, hlow j (by omega) hj, Bool.toNat_false, Nat.zero_mul]
  · rintro hdvd m r rfl - p hpal hin
    have hdiv' : armv7MmuGetPgDiv { s with mem := m } = 1 := hdiv
    obtain ⟨hal, hsal, hpos, hstart, hstop⟩ := id hreg
    rw [inRange_iff (by omega)] at hin
    -- the pass of the page
    obtain ⟨k, hk⟩ : ∃ k, p.toNat = mapReg.base.toNat + k * 4096 :=
      ⟨(p.toNat - mapReg.base.toNat) / 4096, by omega⟩
    have hkcnt : k < 2 ^ mapPgLog mapReg.size := by
      have hsize := Nat.le_pow_clog (by omega : 1 < 2) mapReg.size.toNat
      rw [hclog, pow_add] at hsize
      omega
    have hpage : windowPage p = windowPage mapReg.base + k := by
      rw [windowPage, hk, windowPage]
      omega
    have ha := toNat_kernPgtbWordAddr hbase hpal (by omega) (by omega)
    rw [hpage] at ha
    have hadd : ∀ i < (mapPgCnt mapReg.size).toNat,
        mapWordIndex (windowPage mapReg.base) i = windowPage mapReg.base + i := by
      intro i hi
      rw [hcnt] at hi
      exact mapWordIndex_eq_add (by rw [Bits.or_eq_add_of_dvd_of_lt hdvd hi])
    rw [load_initMapKernPgtb hdiv' hbase hreg (hcnt ▸ hkcnt) ha hadd]
    obtain ⟨htype, hframe⟩ := kernPgtbEnt_word hent hreg (i := k)
      (hkcnt.trans_le (Nat.pow_le_pow_right (by omega) h17))
    refine ⟨htype, BitVec.eq_of_toNat_eq ?_⟩
    have hwin : 2 ^ mapPgLog mapReg.size ∣ 0x60000 + windowPage mapReg.base :=
      Nat.dvd_add ((Nat.pow_dvd_pow 2 h17).trans ⟨3, rfl⟩) hdvd
    rw [hframe, Bits.or_eq_add_of_dvd_of_lt hwin hkcnt, hk, windowPage]
    omega

omit hdiv hbase hreg

/-- The kernel's stack, one page. -/
theorem mapsRegion_iff_stack :
    MapsRegion oneTable ⟨0x60200000#32, 0x200000#32⟩ ⟨0x6000A000#32, 0x1000#32⟩ kdefEnt :=
  (mapsRegion_iff rfl (by decide) ⟨rfl, rfl, by decide, by decide, by decide⟩
    fitsPgtb_kdefEnt).mpr (by decide)

/-- Two pages from an odd one: the second keeps the word that memory held. -/
theorem not_mapsRegion_oneTable :
    ¬MapsRegion oneTable ⟨0x60200000#32, 0x200000#32⟩ ⟨0x60001000#32, 0x2000#32⟩ kdefEnt := by
  intro h
  have hreg : MmReg.InWindow ⟨0x60001000#32, 0x2000#32⟩ :=
    ⟨rfl, rfl, by decide, by decide, by decide⟩
  have hbit := testBit_windowPage_of_lt rfl (by decide) hreg h (t := 0) (by decide) (by decide)
  exact absurd hbit (by decide)

end Sugarcat
