import Sugarcat.Armv7.Domains
import Sugarcat.Kernel.AddressSpaces
import Sugarcat.Vexpress.BootInit
import Sugarcat.Vexpress.KernDirectory
import Sugarcat.Vexpress.MapRegion
import Sugarcat.Vexpress.TableRegion

/-!
# The address space that is set up for the kernel

`vexpress_init` clears a region of tables, enters five regions of the kernel into it, and points the
kernel half of the boot directory at the tables. `virtToPhy_setUpTables` says what every address is
translated to then, whatever the image is like: below the split it is its own translation, and above
it what counts is the last pass that entered its word.

## What can go wrong

Two things can go wrong, and both show in the statement. The word of an address is that of another
one 1 GiB below it where the tables begin at an odd MiB, since the directory is filled with an OR.
And the passes of a region that is not aligned to its size enter other words and other frames than
those of its pages. Where the regions are aligned neither happens, and the kernel half is a window
on physical memory, for the pages of the regions and no others.

## The proof

The set-up is a list of stores: the passes of the five regions in their order, and then the slots of
the directory, which lies below the tables. So a word of the tables holds what the last pass in the
list that entered it has stored (`load_filled`), and a slot holds the store of its own pass.

## The spaces that follow

Where the tables begin at an even MiB, the machine that is left behind refines the abstract system
of a kernel half and any number of user halves. So the kernel half stays as it was set up, whatever
is done to the user halves, in every space that can be switched to. For an odd MiB the directory
names each table twice, and there is no such system to refine.
-/

namespace Sugarcat

open ByteMemory

/-! ## The code -/

namespace InitLayout

/-- The page of the stack, which ends where the initialization region of high memory is loaded. -/
def kstackReg (l : InitLayout) : MmReg where
  base := kvmToPhy l.hmiStart - 0x1000#32
  size := 0x1000#32

def mmuPgdReg (_ : InitLayout) : MmReg where
  base := kPgd
  size := 0x4000#32

/-- The regions that are mapped, in this order. -/
def mapped (l : InitLayout) : List MmReg :=
  [l.kinitReg, l.kernReg, l.kstackReg, l.mmuPgtbReg, l.mmuPgdReg]

/-- An error would only be reported. -/
def mapKern (l : InitLayout) (r : MmReg) (s : Machine) : Machine :=
  (initMapKernPgtb (some l.mmuPgtbReg) (some r) (some kdefEnt) s).2

/-- The part of `vexpress_init` that sets up the tables and the domains. -/
def setUpTables (l : InitLayout) (s : Machine) : Machine :=
  let s := { s with mem := memset l.mmuPgtbReg.base 0#8 l.mmuPgtbReg.size s.mem }
  let s := l.mapKern l.kinitReg s
  let s := l.mapKern l.kernReg s
  let s := l.mapKern l.kstackReg s
  let s := l.mapKern l.mmuPgtbReg s
  let s := l.mapKern l.mmuPgdReg s
  let s := s.dsb
  let s := (initSetupKernPgtb (some l.mmuPgdReg) (some l.mmuPgtbReg) kdefEnt s).2
  let s := s.armv7InvalidateUnifiedTlb
  let s := (armv7SetDomain userDomain armv7DacrMngr s).2
  (armv7SetDomain kernDomain armv7DacrClient s).2

/-! ## What is entered -/

/-- The passes of the mapping of a region. -/
def passes (r : MmReg) : List (MmReg × ℕ) :=
  (List.range (mapPgCnt r.size).toNat).map fun i ↦ (r, i)

/-- The last pass that enters word `w` of the tables. -/
def lastPass (l : InitLayout) (w : ℕ) : Option (MmReg × ℕ) :=
  Run.lastMatch (fun x ↦ decide (mapWordIndex (windowPage x.1.base) x.2 = w))
    (l.mapped.flatMap passes)

/-- The number of the frame that a pass enters. -/
def passFrame (x : MmReg × ℕ) : ℕ := (0x60000 + windowPage x.1.base) ||| x.2

/-- The word of the tables that an address of the kernel half is translated by. -/
def kernWord (l : InitLayout) (v : Addr) : ℕ :=
  if l.mmuPgtbReg.base.toNat.testBit 20 then (pageOf v - 2 ^ 19) % 2 ^ 18 else pageOf v - 2 ^ 19

end InitLayout

/-- The pages of a region whose size is rounded up to a power of two. -/
def MmReg.Covers (r : MmReg) (p : Addr) : Prop :=
  r.base.toNat ≤ p.toNat ∧ p.toNat < r.base.toNat + 2 ^ Nat.clog 2 r.size.toNat

instance (r : MmReg) (p : Addr) : Decidable (r.Covers p) :=
  inferInstanceAs (Decidable (_ ∧ _))

instance (r : MmReg) : Decidable r.InWindow :=
  decidable_of_iff (r.base.toNat % 4096 = 0 ∧ r.size.toNat % 4096 = 0 ∧ 0 < r.size.toNat ∧
      0x60000000 ≤ r.base.toNat ∧ r.base.toNat + r.size.toNat ≤ 0x80000000)
    ⟨fun h ↦ ⟨h.1, h.2.1, h.2.2.1, h.2.2.2.1, h.2.2.2.2⟩,
      fun h ↦ ⟨h.base_aligned, h.size_aligned, h.size_pos, h.start, h.stop⟩⟩

/-- The machine is as the boot code leaves it, as far as the lower half goes. -/
structure Booted (s : Machine) : Prop where
  enabled : armv7MmuIsEnabled s = true
  pgDiv : armv7MmuGetPgDiv s = 1
  ttbr0 : s.ttbr0 = kPgd
  ttbr1 : s.ttbr1 = kPgd
  user : ∀ j < 2048, s.load (bootSlot j) = initSectionWord (BitVec.ofNat 32 j <<< divMultMb)

theorem booted_vexpressBootInit (l : Layout) (s : Machine) : Booted (vexpressBootInit l s) := by
  obtain ⟨hen, hdiv, h0, h1⟩ := vexpressBootInit_registers l s
  refine ⟨hen, hdiv, h0, h1, ?_⟩
  intro j hj
  rw [load_bootSlot l s (by omega), if_pos hj]

variable {s t : Machine} {l : InitLayout} {r : MmReg} {v : Addr} {x : MmReg × ℕ}

theorem Booted.directories (hs : Booted s) :
    armv7MmuGetKernPgd s = kPgd ∧ armv7MmuGetUserPgd s = kPgd := by
  constructor
  · rw [armv7MmuGetKernPgd, if_pos hs.enabled, hs.ttbr1]
    rfl
  · rw [armv7MmuGetUserPgd, if_pos hs.enabled, hs.ttbr0, hs.pgDiv]
    rfl

theorem Booted.liveSlotAddr_eq (hs : Booted s) (j : ℕ) : liveSlotAddr s j = bootSlot j := by
  obtain ⟨hkern, huser⟩ := hs.directories
  rw [liveSlotAddr, hkern, huser, ite_self, bootSlot]

theorem Booted.congr (hs : Booted s) (hmem : t.mem = s.mem) (hsctlr : t.sctlr = s.sctlr)
    (httbcr : t.ttbcr = s.ttbcr) (h0 : t.ttbr0 = s.ttbr0) (h1 : t.ttbr1 = s.ttbr1) : Booted t where
  enabled := by rw [← hs.enabled, armv7MmuIsEnabled, hsctlr, armv7MmuIsEnabled]
  pgDiv := by rw [← hs.pgDiv, armv7MmuGetPgDiv, httbcr, armv7MmuGetPgDiv]
  ttbr0 := h0.trans hs.ttbr0
  ttbr1 := h1.trans hs.ttbr1
  user j hj := by rw [← hs.user j hj, Machine.load, hmem, Machine.load]

theorem Booted.virtToPhy_user (hs : Booted s) (hv : v.toNat < 2 ^ 31) :
    armv7MmuVirtToPhy s v = v := by
  have hslot : slotIndex v < 2048 := by
    rw [slotIndex]
    omega
  obtain ⟨htype, hval⟩ := section_translate (BitVec.ofNat 32 (slotIndex v) <<< divMultMb) v
  rw [virtToPhy_eq hs.enabled, liveSlot, hs.liveSlotAddr_eq, hs.user _ hslot, if_pos htype]
  apply BitVec.eq_of_toNat_eq
  rw [hval, toNat_ofNat_shiftLeft_mib (slotIndex_lt v), Nat.mul_div_cancel _ (Nat.two_pow_pos 20),
    slotIndex]
  omega

/-- Composing a base on a MiB boundary with the offset of a table adds it, but for a MiB that the
base has already. -/
theorem toNat_or_tableOffset {b : Addr} (hb : 2 ^ 20 ∣ b.toNat) {i : ℕ} (hi : i < 2048) :
    (b ||| BitVec.ofNat 32 i * 0x400#32).toNat =
      b.toNat + (if b.toNat.testBit 20 then i % 1024 else i) * 0x400 := by
  have hoff := toNat_tableOffset (i := i) (by omega)
  obtain ⟨q, hq⟩ := hb
  have hhigh : (b.toNat ||| i * 0x400) / 2 ^ 20 = q ||| i / 1024 := by
    rw [Nat.or_div_two_pow, hq, Nat.mul_div_cancel_left _ (Nat.two_pow_pos 20)]
    congr 1
    omega
  have hlow : (b.toNat ||| i * 0x400) % 2 ^ 20 = i % 1024 * 0x400 := by
    rw [Nat.or_mod_two_pow, hq, Nat.mul_mod_right, Nat.zero_or]
    omega
  have hbit : b.toNat.testBit 20 = decide (q % 2 = 1) := by
    rw [Nat.testBit_eq_decide_div_mod_eq, hq, Nat.mul_div_cancel_left _ (Nat.two_pow_pos 20)]
  have hor : q ||| i / 1024 = if q % 2 = 1 then q else q + i / 1024 := by
    have hdiv : (q ||| 1) / 2 = q / 2 := by
      have h : (q ||| 1) / 2 ^ 1 = q / 2 ^ 1 ||| 1 / 2 ^ 1 := Nat.or_div_two_pow
      simpa using h
    have hmod : (q ||| 1) % 2 = 1 := by simp
    have hc : i / 1024 = 0 ∨ i / 1024 = 1 := by omega
    rcases hc with hc | hc
    · rw [hc, Nat.or_zero, Nat.add_zero, ite_self]
    · rw [hc]
      split_ifs <;> omega
  rw [BitVec.toNat_or, hoff, hbit]
  simp only [decide_eq_true_eq]
  split_ifs at hor ⊢ <;> omega

namespace InitLayout

/-! ## The tables -/

theorem pgtb_bounds (hwin : l.mmuPgtbReg.InWindow) :
    2 ^ 20 ∣ l.mmuPgtbReg.base.toNat ∧ 0x60100000 ≤ l.mmuPgtbReg.base.toNat ∧
      l.mmuPgtbReg.base.toNat + 0x200000 ≤ 0x80000000 := by
  obtain ⟨hlow, hhigh, hphy⟩ := l.kEnd_bounds
  have hbase := l.toNat_base_mmuPgtbReg
  have hstop : l.mmuPgtbReg.base.toNat + 0x200000 ≤ 0x80000000 := hwin.stop
  rw [hphy] at hbase
  omega

/-- The words that the mapping of a region stores. -/
def entries (l : InitLayout) (s : Machine) (r : MmReg) : List (Addr × Word) :=
  (passes r).map fun x ↦
    (mapAddr s l.mmuPgtbReg x.1 x.2, pgtbEntryWord (kernPgtbEnt x.1 kdefEnt x.2))

theorem mapKern_eq (l : InitLayout) (r : MmReg) (s : Machine) :
    l.mapKern r s = s.storeList (l.entries s r) := by
  rw [mapKern, initMapKernPgtb_eq, Machine.storeAll_eq_storeList, entries, passes, List.map_map]
  rfl

theorem entries_congr (httbcr : t.ttbcr = s.ttbcr) : l.entries t = l.entries s := by
  have haddr : mapAddr t = mapAddr s := by
    funext a b i
    rw [mapAddr, mapAddr, archMmuGetKernVaddr, archMmuGetKernVaddr, armv7MmuGetPgDiv, httbcr,
      armv7MmuGetPgDiv]
  funext r
  rw [entries, haddr, entries]

theorem foldl_mapKern (l : InitLayout) (rs : List MmReg) (s : Machine) :
    rs.foldl (fun s r ↦ l.mapKern r s) s = s.storeList (rs.flatMap (l.entries s)) := by
  induction rs generalizing s with
  | nil => rfl
  | cons r rs ih =>
    have httbcr : (s.storeList (l.entries s r)).ttbcr = s.ttbcr :=
      (Machine.storeList_registers _ _).2.1
    rw [List.foldl_cons, ih, mapKern_eq, entries_congr httbcr, List.flatMap_cons,
      Machine.storeList_append]

/-- The machine before the kernel half is pointed at the tables. -/
def filled (l : InitLayout) (s : Machine) : Machine :=
  { s with mem := memset l.mmuPgtbReg.base 0#8 l.mmuPgtbReg.size s.mem }.storeList
    (l.mapped.flatMap (l.entries s))

theorem filled_registers (l : InitLayout) (s : Machine) :
    (l.filled s).sctlr = s.sctlr ∧ (l.filled s).ttbcr = s.ttbcr ∧
      (l.filled s).ttbr0 = s.ttbr0 ∧ (l.filled s).ttbr1 = s.ttbr1 :=
  Machine.storeList_registers _ _

theorem armv7SetDomain_same (d a : Byte) (s : Machine) :
    (armv7SetDomain d a s).2.mem = s.mem ∧ (armv7SetDomain d a s).2.sctlr = s.sctlr ∧
      (armv7SetDomain d a s).2.ttbcr = s.ttbcr ∧ (armv7SetDomain d a s).2.ttbr0 = s.ttbr0 ∧
        (armv7SetDomain d a s).2.ttbr1 = s.ttbr1 := by
  rw [armv7SetDomain]
  dsimp only
  split_ifs <;> exact ⟨rfl, rfl, rfl, rfl, rfl⟩

/-- The machine behind the set-up of the kernel half. -/
def halved (l : InitLayout) (s : Machine) : Machine :=
  (initSetupKernPgtb (some l.mmuPgdReg) (some l.mmuPgtbReg) kdefEnt (l.filled s).dsb).2

theorem setUpTables_eq (l : InitLayout) (s : Machine) :
    l.setUpTables s = (armv7SetDomain kernDomain armv7DacrClient (armv7SetDomain
      userDomain armv7DacrMngr (l.halved s).armv7InvalidateUnifiedTlb).2).2 := by
  have hfilled : l.filled s = l.mapKern l.mmuPgdReg (l.mapKern l.mmuPgtbReg (l.mapKern l.kstackReg
      (l.mapKern l.kernReg (l.mapKern l.kinitReg
        { s with mem := memset l.mmuPgtbReg.base 0#8 l.mmuPgtbReg.size s.mem })))) := by
    have hfold := l.foldl_mapKern l.mapped
      { s with mem := memset l.mmuPgtbReg.base 0#8 l.mmuPgtbReg.size s.mem }
    simp only [mapped, List.foldl_cons, List.foldl_nil] at hfold
    rw [hfold, filled, mapped]
    rfl
  rw [halved, hfilled, setUpTables]

theorem setUpTables_same (l : InitLayout) (s : Machine) :
    (l.setUpTables s).mem = (l.halved s).mem ∧ (l.setUpTables s).sctlr = (l.halved s).sctlr ∧
      (l.setUpTables s).ttbcr = (l.halved s).ttbcr ∧
        (l.setUpTables s).ttbr0 = (l.halved s).ttbr0 ∧
          (l.setUpTables s).ttbr1 = (l.halved s).ttbr1 := by
  obtain ⟨hmem, hsctlr, httbcr, h0, h1⟩ := armv7SetDomain_same userDomain armv7DacrMngr
    (l.halved s).armv7InvalidateUnifiedTlb
  obtain ⟨hmem', hsctlr', httbcr', h0', h1'⟩ := armv7SetDomain_same kernDomain armv7DacrClient
    (armv7SetDomain userDomain armv7DacrMngr (l.halved s).armv7InvalidateUnifiedTlb).2
  rw [setUpTables_eq]
  exact ⟨hmem'.trans hmem, hsctlr'.trans hsctlr, httbcr'.trans httbcr, h0'.trans h0, h1'.trans h1⟩

theorem virtToPhy_setUpTables_eq (l : InitLayout) (s : Machine) (v : Addr) :
    armv7MmuVirtToPhy (l.setUpTables s) v = armv7MmuVirtToPhy (l.halved s) v := by
  obtain ⟨hmem, hsctlr, httbcr, h0, h1⟩ := l.setUpTables_same s
  exact virtToPhy_of_same hmem hsctlr httbcr h0 h1 v

/-! ## What the tables hold -/

theorem mem_mapped_passes (hx : x ∈ l.mapped.flatMap passes) :
    x.1 ∈ l.mapped ∧ x.2 < (mapPgCnt x.1.size).toNat := by
  obtain ⟨r, hr, hx⟩ := List.mem_flatMap.mp hx
  obtain ⟨i, hi, rfl⟩ := List.mem_map.mp hx
  exact ⟨hr, List.mem_range.mp hi⟩

variable (hs : Booted s) (hwin : ∀ r ∈ l.mapped, r.InWindow)
include hs hwin

theorem pass_bounds (hx : x ∈ l.mapped.flatMap passes) :
    x.2 < 2 ^ 17 ∧ windowPage x.1.base < 2 ^ 17 ∧
      (mapAddr s l.mmuPgtbReg x.1 x.2).toNat =
        l.mmuPgtbReg.base.toNat + 4 * mapWordIndex (windowPage x.1.base) x.2 := by
  obtain ⟨hr, hi⟩ := mem_mapped_passes hx
  have hreg := hwin _ hr
  obtain ⟨hcnt, h17, -⟩ := hreg.mapPgCnt_eq
  have hlt : x.2 < 2 ^ 17 := by
    rw [hcnt] at hi
    exact hi.trans_le (Nat.pow_le_pow_right (by omega) h17)
  have hpgtb : l.mmuPgtbReg ∈ l.mapped := by simp [mapped]
  have hstop := hreg.stop
  have hpos := hreg.size_pos
  refine ⟨hlt, (MmReg.InWindow.page hreg.base_aligned hreg.start (by omega)).2.1, ?_⟩
  exact toNat_mapAddr_of_mib hs.pgDiv (pgtb_bounds (hwin _ hpgtb)).1 hreg hlt

omit hs in
theorem pgtb_bounds_of_windows : 2 ^ 20 ∣ l.mmuPgtbReg.base.toNat ∧
    0x60100000 ≤ l.mmuPgtbReg.base.toNat ∧ l.mmuPgtbReg.base.toNat + 0x200000 ≤ 0x80000000 :=
  pgtb_bounds (hwin _ (by simp [mapped]))

omit hs hwin in
theorem flatMap_entries (l : InitLayout) (s : Machine) :
    l.mapped.flatMap (l.entries s) = (l.mapped.flatMap passes).map fun x ↦
      (mapAddr s l.mmuPgtbReg x.1 x.2, pgtbEntryWord (kernPgtbEnt x.1 kdefEnt x.2)) := by
  rw [List.map_flatMap]
  rfl

theorem entries_bounds {e : Addr × Word} (he : e ∈ l.mapped.flatMap (l.entries s)) :
    e.1.toNat % 4 = 0 ∧ l.mmuPgtbReg.base.toNat ≤ e.1.toNat := by
  obtain ⟨hbase, -, -⟩ := pgtb_bounds_of_windows hwin
  rw [flatMap_entries] at he
  obtain ⟨x, hx, rfl⟩ := List.mem_map.mp he
  have haddr := (pass_bounds hs hwin hx).2.2
  dsimp only
  omega

theorem load_filled_of_below {a : Addr} (ha : a.toNat % 4 = 0)
    (hbelow : a.toNat + 4 ≤ l.mmuPgtbReg.base.toNat) : (l.filled s).load a = s.load a := by
  obtain ⟨hbase, hlow, hhigh⟩ := pgtb_bounds_of_windows hwin
  have hnone : Run.lastMatch (fun x : Addr × Word ↦ decide (x.1 = a))
      (l.mapped.flatMap (l.entries s)) = none := by
    refine Run.lastMatch_eq_none_iff.mpr fun x hx ↦ decide_eq_false ?_
    rintro rfl
    have := (entries_bounds hs hwin hx).2
    omega
  rw [filled, Machine.load_storeList (fun x hx ↦ (entries_bounds hs hwin hx).1) ha, hnone]
  refine readWord_congr fun y hy ↦ ?_
  have hout : ¬InRange l.mmuPgtbReg.base l.mmuPgtbReg.size.toNat y := by
    have hsize : l.mmuPgtbReg.size.toNat = 0x200000 := rfl
    rw [inRange_iff (by omega)] at hy ⊢
    omega
  exact (memset_apply _ _ _ _ y).trans (if_neg hout)

/-- **A word of the tables** is that of the last pass that enters it. -/
theorem load_filled {a : Addr} {w : ℕ} (hw : w < 2 ^ 19)
    (ha : a.toNat = l.mmuPgtbReg.base.toNat + 4 * w) :
    (l.filled s).load a =
      ((l.lastPass w).map fun x ↦ pgtbEntryWord (kernPgtbEnt x.1 kdefEnt x.2)).getD 0#32 := by
  obtain ⟨hbase, hlow, hhigh⟩ := pgtb_bounds_of_windows hwin
  have hcleared : readWord (memset l.mmuPgtbReg.base 0#8 l.mmuPgtbReg.size s.mem) a = 0#32 := by
    rw [← readWord_zero a]
    refine readWord_congr fun y hy ↦ ?_
    have hin : InRange l.mmuPgtbReg.base l.mmuPgtbReg.size.toNat y := by
      have hsize : l.mmuPgtbReg.size.toNat = 0x200000 := rfl
      rw [inRange_iff (by omega)] at hy ⊢
      omega
    rw [memset_apply, if_pos hin]
  have hlast : Run.lastMatch (fun e : Addr × Word ↦ decide (e.1 = a))
      (l.mapped.flatMap (l.entries s)) = (l.lastPass w).map fun x ↦
        (mapAddr s l.mmuPgtbReg x.1 x.2, pgtbEntryWord (kernPgtbEnt x.1 kdefEnt x.2)) := by
    -- rewritten, since the kernel would rather unfold the address than the pair
    have hfst : ∀ (b : Addr) (x : Word), (b, x).1 = b := fun _ _ ↦ rfl
    rw [flatMap_entries, Run.lastMatch_map, lastPass]
    refine congrArg _ (Run.lastMatch_congr fun x hx ↦ ?_)
    have haddr := (pass_bounds hs hwin hx).2.2
    rw [Function.comp_apply, hfst, decide_eq_decide, ← BitVec.toNat_inj]
    omega
  rw [filled, Machine.load_storeList (fun x hx ↦ (entries_bounds hs hwin hx).1) (by omega),
    Machine.load, hcleared, hlast, Option.map_map]
  rfl

/-! ## The directory -/

omit hwin in
theorem filled_state : armv7MmuIsEnabled (l.filled s).dsb = true ∧
    armv7MmuGetPgDiv (l.filled s).dsb = 1 ∧ splitSlot (l.filled s).dsb = 2048 ∧
      ∀ j, liveSlotAddr (l.filled s).dsb j = bootSlot j := by
  obtain ⟨hsctlr, httbcr, h0, h1⟩ := l.filled_registers s
  have hdiv : armv7MmuGetPgDiv (l.filled s).dsb = 1 := by
    rw [← hs.pgDiv, armv7MmuGetPgDiv, armv7MmuGetPgDiv, ← httbcr]
    rfl
  refine ⟨?_, hdiv, (splitSlot_eq_iff _).mpr hdiv, ?_⟩
  · rw [← hs.enabled, armv7MmuIsEnabled, armv7MmuIsEnabled, ← hsctlr]
    rfl
  · intro j
    rw [← hs.liveSlotAddr_eq]
    exact liveSlotAddr_congr hsctlr httbcr h0 h1 j

omit hwin in
theorem halved_eq : l.halved s = (l.filled s).dsb.storeAll (fun i ↦ bootSlot (2048 + i))
    (fun i ↦ pgdEntryWord (kernPgdEnt l.mmuPgtbReg kdefEnt
      (archMmuGetKernVaddr (l.filled s).dsb) i)) 2048 := by
  obtain ⟨hen, hdiv, hsplit, hlive⟩ := filled_state (l := l) hs
  rw [halved, initSetupKernPgtb_eq hen, hsplit]
  refine Machine.storeAll_congr (fun i hi ↦ ?_) fun i _ ↦ rfl
  rw [hlive, Bits.or_eq_add_of_dvd_of_lt (k := 11) (a := 2048) ⟨1, rfl⟩ hi]

omit hwin in
theorem load_halved {a : Addr} (ha : a.toNat % 4 = 0) (hne : ∀ i < 2048, bootSlot (2048 + i) ≠ a) :
    (l.halved s).load a = (l.filled s).load a := by
  rw [halved_eq hs]
  refine (Machine.load_storeAll_of_ne (fun i hi ↦ ?_) ha hne).trans rfl
  rw [toNat_bootSlot (by omega)]
  omega

omit hwin in
theorem load_halved_slot {i : ℕ} (hi : i < 2048) : (l.halved s).load (bootSlot (2048 + i)) =
    pgdEntryWord (kernPgdEnt l.mmuPgtbReg kdefEnt (archMmuGetKernVaddr (l.filled s).dsb) i) := by
  rw [halved_eq hs]
  refine Machine.load_storeAll_of_last (j := i) (fun k hk ↦ ?_) hi fun k hk hik ↦ ?_
  · rw [toNat_bootSlot (by omega)]
    omega
  · exact bootSlot_ne (by omega) (by omega) (by omega)

theorem booted_halved : Booted (l.halved s) := by
  obtain ⟨hbase, hlow, hhigh⟩ := pgtb_bounds_of_windows hwin
  obtain ⟨hsctlr, httbcr, h0, h1⟩ := l.filled_registers s
  obtain ⟨hsctlr', httbcr', h0', h1', -⟩ := (l.filled s).dsb.storeAll_registers
    (fun i ↦ bootSlot (2048 + i)) (fun i ↦ pgdEntryWord (kernPgdEnt l.mmuPgtbReg kdefEnt
      (archMmuGetKernVaddr (l.filled s).dsb) i)) 2048
  rw [← halved_eq hs] at hsctlr' httbcr' h0' h1'
  refine ⟨?_, ?_, (h0'.trans h0).trans hs.ttbr0, (h1'.trans h1).trans hs.ttbr1, ?_⟩
  · rw [← hs.enabled, armv7MmuIsEnabled, armv7MmuIsEnabled, ← hsctlr]
    exact congrArg (fun x ↦ x &&& _ != _) hsctlr'
  · rw [← hs.pgDiv, armv7MmuGetPgDiv, armv7MmuGetPgDiv, ← httbcr]
    exact congrArg (fun x : Word ↦ (x &&& _).toNat) httbcr'
  · intro j hj
    have haddr := toNat_bootSlot (j := j) (by omega)
    rw [load_halved hs (by omega) fun i hi ↦ bootSlot_ne (by omega) (by omega) (by omega),
      load_filled_of_below hs hwin (by omega) (by omega), hs.user j hj]

/-! ## Translation -/

theorem toNat_ptAddr_halved (hv : 2 ^ 31 ≤ v.toNat) :
    IsTableSlot (l.halved s) (slotIndex v) ∧
      (ptAddr (l.halved s) v).toNat = l.mmuPgtbReg.base.toNat + 4 * l.kernWord v ∧
        l.kernWord v < 2 ^ 19 := by
  obtain ⟨hbase, hlow, hhigh⟩ := pgtb_bounds_of_windows hwin
  have hlt := v.isLt
  have hslot : slotIndex v = 2048 + (pageOf v - 2 ^ 19) / 256 := by
    rw [slotIndex, pageOf]
    omega
  have hpage : pageOf v - 2 ^ 19 < 2 ^ 19 ∧ pageOf v % 256 = (pageOf v - 2 ^ 19) % 256 := by
    rw [pageOf]
    omega
  generalize hw : pageOf v - 2 ^ 19 = w at hslot hpage
  obtain ⟨hw19, hpage⟩ := hpage
  obtain ⟨htype, htable⟩ := kernPgdEnt_word fitsPgd_kdefEnt hbase
    (archMmuGetKernVaddr (l.filled s).dsb) (i := w / 256) (by omega)
  have hlive : liveSlot (l.halved s) (slotIndex v) = pgdEntryWord (kernPgdEnt l.mmuPgtbReg kdefEnt
      (archMmuGetKernVaddr (l.filled s).dsb) (w / 256)) := by
    rw [liveSlot, (booted_halved hs hwin).liveSlotAddr_eq, hslot, load_halved_slot hs (by omega)]
  rw [← hlive] at htype htable
  refine ⟨htype, ?_⟩
  have htab : (tableBase (l.halved s) (slotIndex v)).toNat = l.mmuPgtbReg.base.toNat +
      (if l.mmuPgtbReg.base.toNat.testBit 20 then w / 256 % 1024 else w / 256) * 0x400 := by
    rw [tableBase, htable, toNat_or_tableOffset hbase (by omega)]
  rw [ptAddr, BitVec.toNat_add, toNat_four_mul_pgtbIndex, htab, hpage, kernWord, hw]
  split_ifs <;> omega

omit hs hwin in
theorem passFrame_lt (hreg : x.1.InWindow) (hx : x.2 < 2 ^ 17) : passFrame x < 2 ^ 19 := by
  have hstart := hreg.start
  have hstop := hreg.stop
  have hpos := hreg.size_pos
  have hpage := (MmReg.InWindow.page hreg.base_aligned hstart (by omega)).2.1
  exact Nat.or_lt_two_pow (by omega) (by omega)

omit hs hwin in
/-- What the word of a pass translates an address to. -/
theorem pteTranslate_pass (hreg : x.1.InWindow) (hx : x.2 < 2 ^ 17) (v : Addr) :
    pteTranslate (pgtbEntryWord (kernPgtbEnt x.1 kdefEnt x.2)) v =
      ptr (passFrame x * 4096 + v.toNat % 4096) := by
  obtain ⟨htype, hframe⟩ := kernPgtbEnt_word fitsPgtb_kdefEnt hreg hx
  rw [pteTranslate, htype, if_neg (by decide), if_pos rfl]
  have hoff : (v &&& ~~~pgtbSmPgMask).toNat = v.toNat % 4096 :=
    Bits.toNat_and_low (k := 12) (by decide) v
  have hlt := passFrame_lt hreg hx
  have hmod : v.toNat % 4096 < 4096 := Nat.mod_lt _ (by decide)
  change _ = passFrame x * 4096 at hframe
  apply BitVec.eq_of_toNat_eq
  rw [Bits.toNat_or_of_dvd_of_lt (k := 12) (hframe ▸ Nat.dvd_mul_left _ _) (by omega),
    hframe, hoff, toNat_ptr (by omega)]

theorem virtToPhy_kernHalf (hv : 2 ^ 31 ≤ v.toNat) : armv7MmuVirtToPhy (l.setUpTables s) v =
    (l.lastPass (l.kernWord v)).elim 0#32 fun x ↦ ptr (passFrame x * 4096 + v.toNat % 4096) := by
  have hb := booted_halved hs hwin
  obtain ⟨htab, hword, hlt⟩ := toNat_ptAddr_halved hs hwin hv
  obtain ⟨hbase, hlow, hhigh⟩ := pgtb_bounds_of_windows hwin
  rw [virtToPhy_setUpTables_eq, virtToPhy_of_isTableSlot hb.enabled htab,
    load_halved hs (by omega), load_filled hs hwin hlt hword]
  · cases hlast : l.lastPass (l.kernWord v) with
    | none => exact pteTranslate_eq_zero (Or.inl rfl) v
    | some x =>
      have hx := (Run.mem_of_lastMatch hlast).1
      exact pteTranslate_pass (hwin _ (mem_mapped_passes hx).1) (pass_bounds hs hwin hx).1 v
  · intro i hi heq
    rw [← heq, toNat_bootSlot (by omega)] at hword
    omega

/-- **What an address is translated to** once the tables are set up. -/
theorem virtToPhy_setUpTables (v : Addr) :
    armv7MmuVirtToPhy (l.setUpTables s) v =
      if v.toNat < 2 ^ 31 then v
      else (l.lastPass (l.kernWord v)).elim 0#32 fun x ↦
        ptr (passFrame x * 4096 + v.toNat % 4096) := by
  by_cases hv : v.toNat < 2 ^ 31
  · rw [if_pos hv, virtToPhy_setUpTables_eq, (booted_halved hs hwin).virtToPhy_user hv]
  · rw [if_neg hv, virtToPhy_kernHalf hs hwin (Nat.not_lt.mp hv)]

omit hs hwin in
/-- A small image, booted on memory that is zero: its tables begin at an odd MiB, and 1 GiB above
the initialization region is another image of it. -/
theorem virtToPhy_setUpTables_small :
    armv7MmuVirtToPhy (small.setUpTables (vexpressBootInit small.toLayout zeroMachine))
      0xC000C004#32 = 0x6000C004#32 :=
  (virtToPhy_setUpTables (booted_vexpressBootInit _ _) (by decide) _).trans (by decide +kernel)

/-! ## Aligned regions -/

omit hs hwin in
/-- The passes of an aligned region enter the frame of each of its pages, in its own word. -/
theorem pass_eq_add (hreg : x.1.InWindow) (hx : x.2 < (mapPgCnt x.1.size).toNat)
    (hal : 2 ^ Nat.clog 2 x.1.size.toNat ∣ x.1.base.toNat) :
    mapWordIndex (windowPage x.1.base) x.2 = windowPage x.1.base + x.2 ∧
      passFrame x = 0x60000 + (windowPage x.1.base + x.2) := by
  obtain ⟨hcnt, h17, -⟩ := hreg.mapPgCnt_eq
  rw [hcnt] at hx
  have hdvd := hreg.dvd_iff.mp hal
  have hwindow : 2 ^ mapPgLog x.1.size ∣ 0x60000 + windowPage x.1.base :=
    Nat.dvd_add ((Nat.pow_dvd_pow 2 h17).trans ⟨3, rfl⟩) hdvd
  refine ⟨mapWordIndex_eq_add (by rw [Bits.or_eq_add_of_dvd_of_lt hdvd hx]), ?_⟩
  rw [passFrame, Bits.or_eq_add_of_dvd_of_lt hwindow hx, Nat.add_assoc]

omit hs hwin in
theorem covers_iff (hreg : r.InWindow) {p : Addr} {w : ℕ}
    (hp : p.toNat = (0x60000 + w) * 4096 + v.toNat % 4096) :
    r.Covers p ↔ windowPage r.base ≤ w ∧ w < windowPage r.base + (mapPgCnt r.size).toNat := by
  obtain ⟨hcnt, -, hclog⟩ := hreg.mapPgCnt_eq
  have hstart := hreg.start
  have hal := hreg.base_aligned
  have hbase : r.base.toNat = (0x60000 + windowPage r.base) * 4096 := by
    rw [windowPage]
    omega
  rw [MmReg.Covers, hclog, pow_add, hcnt, hp, hbase]
  omega

omit hs in
/-- In aligned regions the passes enter the pages that are covered, each with its own frame. -/
theorem lastPass_of_aligned (hal : ∀ r ∈ l.mapped, 2 ^ Nat.clog 2 r.size.toNat ∣ r.base.toNat)
    {p : Addr} {w : ℕ} (hp : p.toNat = (0x60000 + w) * 4096 + v.toNat % 4096) :
    (l.lastPass w = none → ¬∃ r ∈ l.mapped, r.Covers p) ∧
      ∀ x, l.lastPass w = some x → passFrame x = 0x60000 + w ∧ ∃ r ∈ l.mapped, r.Covers p := by
  constructor
  · rintro hnone ⟨r, hr, hcov⟩
    obtain ⟨hle, hlt⟩ := (covers_iff (hwin r hr) hp).mp hcov
    obtain ⟨i, rfl⟩ := Nat.exists_eq_add_of_le hle
    have hi : i < (mapPgCnt r.size).toNat := by omega
    have hpass : (r, i) ∈ l.mapped.flatMap passes :=
      List.mem_flatMap.mpr ⟨r, hr, List.mem_map.mpr ⟨i, List.mem_range.mpr hi, rfl⟩⟩
    have hne := Run.lastMatch_eq_none_iff.mp hnone _ hpass
    exact of_decide_eq_false hne (pass_eq_add (x := (r, i)) (hwin r hr) hi (hal r hr)).1
  · intro x hlast
    obtain ⟨hmem, hx⟩ := Run.mem_of_lastMatch hlast
    obtain ⟨hr, hi⟩ := mem_mapped_passes hmem
    obtain ⟨hadd, hframe⟩ := pass_eq_add (hwin _ hr) hi (hal _ hr)
    rw [decide_eq_true_iff, hadd] at hx
    rw [hx] at hframe
    exact ⟨hframe, x.1, hr, (covers_iff (hwin _ hr) hp).mpr (by omega)⟩

omit hs hwin in
/-- The tables are aligned like the other regions, so the directory names each of them once. -/
theorem kernWord_of_aligned (hal : ∀ r ∈ l.mapped, 2 ^ Nat.clog 2 r.size.toNat ∣ r.base.toNat) :
    l.kernWord v = pageOf v - 2 ^ 19 := by
  have hsize : l.mmuPgtbReg.size.toNat = 0x200000 := rfl
  have hpow : 0x200000 = 2 ^ 21 := by norm_num
  have hdvd := hal l.mmuPgtbReg (by simp [mapped])
  rw [hsize, hpow, Nat.clog_pow 2 21 (by omega)] at hdvd
  obtain ⟨q, hq⟩ := hdvd
  have hbit : l.mmuPgtbReg.base.toNat.testBit 20 = false := by
    rw [Nat.testBit_eq_decide_div_mod_eq]
    exact decide_eq_false (by omega)
  rw [kernWord, hbit, if_neg Bool.false_ne_true]

/-- **When the regions are aligned** the kernel half is a window on physical memory: each page of
the regions, their sizes rounded up, is found 512 MiB above itself, and no other address is
mapped. -/
theorem virtToPhy_setUpTables_of_aligned
    (hal : ∀ r ∈ l.mapped, 2 ^ Nat.clog 2 r.size.toNat ∣ r.base.toNat) (hv : 2 ^ 31 ≤ v.toNat) :
    armv7MmuVirtToPhy (l.setUpTables s) v =
      if ∃ r ∈ l.mapped, r.Covers (v - 0x20000000#32) then v - 0x20000000#32 else 0#32 := by
  have hle : 0x20000000#32 ≤ v := by
    rw [BitVec.le_def, BitVec.toNat_ofNat]
    omega
  have hphy := BitVec.toNat_sub_of_le hle
  have hword := kernWord_of_aligned hal (v := v)
  have hpage : (v - 0x20000000#32).toNat =
      (0x60000 + (pageOf v - 2 ^ 19)) * 4096 + v.toNat % 4096 := by
    rw [hphy, pageOf, BitVec.toNat_ofNat]
    omega
  obtain ⟨hnone, hsome⟩ := lastPass_of_aligned hwin hal hpage
  rw [virtToPhy_kernHalf hs hwin hv, hword]
  rcases hlast : l.lastPass (pageOf v - 2 ^ 19) with _ | x
  · rw [if_neg (hnone hlast)]
    rfl
  · obtain ⟨hframe, hcov⟩ := hsome x hlast
    rw [if_pos hcov, Option.elim_some, hframe, ← hpage, ptr_toNat]

omit hs hwin in
/-- A kernel that is laid out so. -/
def evenImage : InitLayout where
  lmiBssStart := 0x6007F000#32
  lmiBssEnd := 0x6007F000#32
  kEnd := 0x80180000#32
  lmiStart_le := by decide
  lmiBssStart_le := by decide
  lmiBssEnd_le := by decide
  kEnd_aligned := by decide
  lt_kEnd := by decide
  kEnd_lt := by decide
  hmiStart := 0x80080000#32
  hmiEnd := 0x80100000#32
  hmiStart_eq := by decide
  hmiStart_le := by decide
  hmiEnd_aligned := by decide
  hmiEnd_le := by decide

omit hs hwin in
theorem virtToPhy_setUpTables_evenImage :
    armv7MmuVirtToPhy (evenImage.setUpTables (vexpressBootInit evenImage.toLayout zeroMachine))
      0x80180000#32 = 0#32 :=
  (virtToPhy_setUpTables_of_aligned (booted_vexpressBootInit _ _) (by decide) (by decide)
    (by decide)).trans (by decide)

/-! ## The first space -/

/-- Spaces beside the kernel half and the space of the boot, which share a directory. -/
structure BootSpaces (l : InitLayout) (K : Type*) extends SpaceLayout K where
  boot : K
  pgDiv_eq : pgDiv = 1
  kern_pgDir : pgDir none = kPgd
  kern_pgTbs : pgTbs none = l.mmuPgtbReg.base
  boot_pgDir : pgDir (some boot) = kPgd

variable {K : Type*} {L : l.BootSpaces K} {o : Option K} {i : ℕ}

omit hs hwin in
theorem slot_read (L : l.BootSpaces K) (t : Machine) (ho : L.Owns o i)
    (hdir : L.pgDir o = kPgd) : (L.toSpaceLayout.read t o).slot i = t.load (bootSlot i) := by
  change readWord t.mem (L.arrays.addr (.slots o) (i - L.first o)) = _
  rw [SpaceLayout.addr_slots ho, hdir]
  rfl

/-- **Once the tables are set up the machine refines the spaces that its memory shows.** -/
theorem refines_setUpTables (L : l.BootSpaces K) :
    L.Refines (L.boot, L.toSpaceLayout.read (l.setUpTables s)) (l.setUpTables s) := by
  obtain ⟨hmem, hsctlr, httbcr, h0, h1⟩ := l.setUpTables_same s
  have hb : Booted (l.setUpTables s) :=
    (booted_halved hs hwin).congr hmem hsctlr httbcr h0 h1
  obtain ⟨hkern, huser⟩ := hb.directories
  have hcnt : userSlotCnt L.pgDiv = 2048 := by
    rw [L.pgDiv_eq]
    rfl
  refine SpaceLayout.refines_read hb.enabled (hb.pgDiv.trans L.pgDiv_eq.symm)
    (huser.trans L.boot_pgDir.symm) (fun _ ↦ hkern.trans L.kern_pgDir.symm) (fun i hi _ ↦ ?_)
    fun i hi htab ↦ ?_
  · -- the slots of the kernel half name the tables of its region
    rw [slot_read L _ hi L.kern_pgDir]
    obtain ⟨hle, hlt⟩ := hi
    rw [SpaceMap.first, hcnt] at hle hlt
    rw [SpaceMap.slotCnt, hcnt] at hlt
    obtain ⟨j, rfl⟩ := Nat.exists_eq_add_of_le hle
    have hj : j < 2048 := by omega
    have hload : (l.setUpTables s).load (bootSlot (2048 + j)) =
        (l.halved s).load (bootSlot (2048 + j)) := by
      rw [Machine.load, hmem, Machine.load]
    have hor := L.or_eq_add none j (by rw [SpaceMap.slotCnt, hcnt]; omega)
    rw [shiftLeft_tableOffset (by omega), L.kern_pgTbs] at hor
    rw [hload, load_halved_slot hs hj, (kernPgdEnt_word fitsPgd_kdefEnt
      (pgtb_bounds_of_windows hwin).1 _ (by omega)).2, hor, SpaceMap.tableOf, L.kern_pgTbs,
      SpaceMap.first, hcnt, Nat.add_sub_cancel_left]
  · -- those of the lower half are sections
    have hslot := slot_read L (l.setUpTables s) hi L.boot_pgDir
    obtain ⟨-, hlt⟩ := hi
    rw [SpaceMap.first, SpaceMap.slotCnt, hcnt] at hlt
    rw [Half.IsTable, hslot, hb.user i (by omega), (section_translate _ 0#32).1] at htab
    exact absurd htab (by decide)

/-- **The kernel half lasts.** Whatever is done to user halves after `vexpress_init`, in every space
that can be switched to the kernel half is as it was set up. -/
theorem virtToPhy_run_kernel [DecidableEq K] (L : l.BootSpaces K) {calls : List (SpaceCall K)}
    (hok : L.Allowed (L.boot, L.toSpaceLayout.read (l.setUpTables s)) calls)
    (hown : L.dispatch.own none L.boot calls = []) {k : K}
    (hlinked : L.Linked (some k)
      (L.alone (L.boot, L.toSpaceLayout.read (l.setUpTables s)) calls (some k)).2)
    (hv : 2 ^ 31 ≤ v.toNat) :
    virtToPhy (mmuSetUserPageDir (L.pgDir (some k))
        (Run.exec L.exec (l.setUpTables s) calls).2).2 v =
      (l.lastPass (l.kernWord v)).elim 0#32 fun x ↦ ptr (passFrame x * 4096 + v.toNat % 4096) := by
  have href := refines_setUpTables hs hwin L
  have hhalf : ∀ k', L.halfOf k' v = none := by
    intro k'
    have hcnt : userSlotCnt L.pgDiv = 2048 := by
      rw [L.pgDiv_eq]
      rfl
    refine if_neg ?_
    rw [hcnt, slotIndex]
    omega
  have hboot := href.virtToPhy_eq v
  rw [hhalf] at hboot
  have hspace := ((href.run_alone hok).2.setUserPageDir hlinked).2.virtToPhy_eq v
  dsimp only at hspace
  rw [hspace, hhalf, SpaceLayout.alone, hown, Run.exec_nil, ← hboot, virtToPhy,
    virtToPhy_kernHalf hs hwin hv]

omit hs hwin in
/-- The boot's space and another one, above the tables of the kernel. -/
def evenSpaces : evenImage.BootSpaces Bool where
  pgDiv := 1
  pgDir := SpaceLayout.halfAddr kPgd kPgd 0x60400000#32
  pgTbs := SpaceLayout.halfAddr 0x60200000#32 0x60800000#32 0x60600000#32
  pgDiv_lt := by decide
  user_aligned := by decide
  tables_aligned := by rintro (_ | _ | _) <;> decide
  or_eq_add o i hi := by
    have hi' : i < 2048 := by cases o <;> exact hi
    rcases o with _ | _ | _ <;>
      exact SpaceLayout.or_eq_add_of_dvd (n := 21) (by decide) (by omega) (by omega)
  apart b c hne := by
    rcases b with (_ | _ | _) | (_ | _ | _) <;> rcases c with (_ | _ | _) | (_ | _ | _) <;>
      first
        | exact absurd rfl hne
        | exact apart_of_le (by decide) (by decide)
        | exact (apart_of_le (by decide) (by decide)).symm
  boot := false
  pgDiv_eq := rfl
  kern_pgDir := rfl
  kern_pgTbs := by decide
  boot_pgDir := rfl

omit hs hwin in
/-- The other space gets its first table. -/
theorem virtToPhy_run_kernel_evenSpaces :
    virtToPhy (mmuSetUserPageDir kPgd (Run.exec evenSpaces.exec
        (evenImage.setUpTables (vexpressBootInit evenImage.toLayout zeroMachine))
        [.createNewEntry (some true) ⟨0x60600000#32, 0x0#32, .pgDir, .user⟩]).2).2 0x80100004#32 =
      0x60100004#32 := by
  have hs := booted_vexpressBootInit evenImage.toLayout zeroMachine
  have hwin : ∀ r ∈ evenImage.mapped, r.InWindow := by decide
  have hok : evenSpaces.Allowed (false, evenSpaces.toSpaceLayout.read
      (evenImage.setUpTables (vexpressBootInit evenImage.toLayout zeroMachine)))
      [.createNewEntry (some true) ⟨0x60600000#32, 0x0#32, .pgDir, .user⟩] := by
    intro pre c post h
    have hmem : c ∈ [.createNewEntry (some true) ⟨0x60600000#32, 0x0#32, .pgDir, .user⟩] := by
      rw [h]
      simp
    rw [List.mem_singleton.mp hmem]
    exact ⟨by decide, fun _ ↦ by decide⟩
  exact (virtToPhy_run_kernel hs hwin evenSpaces hok rfl (k := false)
    (refines_setUpTables hs hwin evenSpaces).linked_user (by decide)).trans (by decide +kernel)

end InitLayout

end Sugarcat
