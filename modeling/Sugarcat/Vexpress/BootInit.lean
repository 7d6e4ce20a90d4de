import Sugarcat.Armv7.LiveTables
import Sugarcat.Armv7.StoreLoop
import Sugarcat.Kernel.Mem
import Sugarcat.Vexpress.Layout

/-!
# The first directory

`vexpress_boot_init.c` fills one directory, at `k_pgd`, for both halves: 2048 sections that map the
low 2 GiB to themselves, then the sections of the kernel image. The number of the latter is computed
from the size of the image counted from `lmi_start`, which lies 32 KiB into its first section. When
the image ends in the first 32 KiB of a section, that section is not counted.

## The directory

Both loops are runs of stores to slots, and no slot is stored to twice. So the directory at the call
of `kernel_init` is known word by word (`load_bootSlot`): the identity in the lower half, the
sections of the image in the upper one, and what memory held before in the rest of it.

## What it translates

With the registers that `init_enable_mmu` sets, the same directory serves both halves, which a split
of 2 GiB makes possible: the slots of the kernel half are the upper ones of a directory of 4096.
`bootMapsKernel_iff` says that the first 32 KiB of a section are the only way in which the kernel is
not mapped. For the other direction it takes a memory in which the slot that was left out maps
nothing, and one that is zero is of that kind.
-/

namespace Sugarcat

open ByteMemory

/-! ## The boot code -/

abbrev kernPgdEntryCnt : ℕ := 2048
abbrev divMultMb : ℕ := 20
abbrev armv7DacrMngr : Byte := 0x3#8
abbrev armv7Ttbcr2g2g : Word := 0x1#32

/-- The section word `init_pg_dir_entry` writes. -/
def initSectionWord (phyAddr : Addr) : Word :=
  (phyAddr &&& pgdSectMask) ||| (Armv7MmuAccPerm.accKrwUrw.toWord <<< 10) |||
    Armv7MmuPgdType.pgdSection.toWord

def initPgDirEntry (pgDir phyAddr virtAddr : Addr) (s : Machine) : Machine :=
  s.store (pgDir + 4#32 * (virtAddr >>> divMultMb)) (initSectionWord phyAddr)

def initUserPgDir (uPhyPgDir : Addr) (s : Machine) : Machine :=
  let s' := Loop.upTo (fun i s ↦
    let pvAddr := BitVec.ofNat 32 i <<< divMultMb
    initPgDirEntry uPhyPgDir pvAddr pvAddr s) kernPgdEntryCnt s
  armv7SetTtbr0 s'.dsb uPhyPgDir

def initKernPgDir (kPhyPgDir kPhyStart : Addr) (kSz : Word) (s : Machine) : Machine :=
  let cnt := (kSz >>> divMultMb).toNat + 1
  let s' := Loop.upTo (fun i s ↦
    let pAddr := kPhyStart + (BitVec.ofNat 32 i <<< divMultMb)
    initPgDirEntry kPhyPgDir pAddr (phyToKvm pAddr) s) cnt s
  armv7SetTtbr1 s'.dsb kPhyPgDir

def initEnableMmu (s : Machine) : Machine :=
  let s := armv7SetTtbcr s armv7Ttbcr2g2g
  let s := (armv7SetDomain 0#8 armv7DacrMngr s).2
  let s := armv7SetSctlr s (s.sctlr ||| (armv7SctlrAfe ||| armv7SctlrMmuEnb))
  s.armv7InvalidateUnifiedTlb

/-- The machine on which `kernel_init` is called. The first argument of the source is tested without
effect and the other two are passed on. -/
def vexpressBootInit (l : Layout) (s : Machine) : Machine :=
  let bssSz := l.lmiBssEnd - l.lmiBssStart
  let kSz := kvmToPhy l.kEnd - lmiStart
  let s := { s with mem := memset l.lmiBssStart 0#8 bssSz s.mem }
  let s := initUserPgDir kPgd s
  let s := initKernPgDir kPgd lmiStart kSz s
  initEnableMmu s

/-! ## The words of the directory -/

/-- The slot of MiB `j` in the boot directory. -/
def bootSlot (j : ℕ) : Addr := kPgd + 4#32 * BitVec.ofNat 32 j

theorem toNat_bootSlot {j : ℕ} (hj : j < 4096) : (bootSlot j).toNat = 0x60004000 + 4 * j := by
  rw [bootSlot, BitVec.toNat_add, BitVec.toNat_mul]
  simp only [BitVec.toNat_ofNat]
  omega

theorem bootSlot_ne {i j : ℕ} (hi : i < 4096) (hj : j < 4096) (h : i ≠ j) :
    bootSlot i ≠ bootSlot j := by
  intro heq
  have hnat := congrArg BitVec.toNat heq
  rw [toNat_bootSlot hi, toNat_bootSlot hj] at hnat
  omega

theorem bootSlot_of_toNat {v : Addr} {j : ℕ} (h : v.toNat / 2 ^ 20 = j) :
    kPgd + 4#32 * (v >>> divMultMb) = bootSlot j := by
  rw [bootSlot]
  congr 2
  rw [← h]
  exact (ofNat_slotIndex v).symm

/-- The number of sections the kernel loop maps. -/
def kernSectCnt (l : Layout) : ℕ := ((kvmToPhy l.kEnd - lmiStart) >>> divMultMb).toNat + 1

theorem kernSectCnt_eq (l : Layout) :
    kernSectCnt l = (l.kEnd.toNat - 0x80008000) / 2 ^ 20 + 1 := by
  obtain ⟨hlt, hlt', hconv⟩ := l.kEnd_bounds
  have hlmi : (lmiStart : Addr).toNat = 0x60008000 := rfl
  have hle : lmiStart ≤ kvmToPhy l.kEnd := by
    rw [BitVec.le_def, hconv, hlmi]
    omega
  rw [kernSectCnt, Bits.toNat_ushiftRight_eq, BitVec.toNat_sub_of_le hle, hconv, hlmi,
    Nat.sub_sub]

theorem kernSectCnt_le (l : Layout) : kernSectCnt l ≤ 512 := by
  obtain ⟨-, hlt, -⟩ := l.kEnd_bounds
  rw [kernSectCnt_eq]
  omega

/-- The section the kernel loop maps in its `i`-th pass. -/
def kernSect (i : ℕ) : Addr := lmiStart + (BitVec.ofNat 32 i <<< divMultMb)

theorem toNat_kernSect {i : ℕ} (hi : i < 512) :
    (kernSect i).toNat = 0x60008000 + i * 2 ^ 20 ∧
      kPgd + 4#32 * (phyToKvm (kernSect i) >>> divMultMb) = bootSlot (2048 + i) := by
  have hval : (kernSect i).toNat = 0x60008000 + i * 2 ^ 20 := by
    rw [kernSect, BitVec.toNat_add, toNat_ofNat_shiftLeft_mib (by omega)]
    simp only [BitVec.toNat_ofNat]
    omega
  have hkvm : (phyToKvm (kernSect i)).toNat = 0x80008000 + i * 2 ^ 20 := by
    rw [toNat_phyToKvm, hval]
    · omega
    · rw [BitVec.le_def, hval]
      simp only [BitVec.toNat_ofNat]
      omega
    · rw [BitVec.lt_def, hval]
      simp only [BitVec.toNat_ofNat]
      omega
  exact ⟨hval, bootSlot_of_toNat (by omega)⟩

theorem initUserPgDir_eq (s : Machine) :
    initUserPgDir kPgd s = armv7SetTtbr0 (s.storeAll bootSlot
      (fun i ↦ initSectionWord (BitVec.ofNat 32 i <<< divMultMb)) kernPgdEntryCnt).dsb kPgd := by
  have haddr : ∀ i < kernPgdEntryCnt,
      kPgd + 4#32 * (BitVec.ofNat 32 i <<< divMultMb >>> divMultMb) = bootSlot i := by
    intro i hi
    have hi' : i < 4096 := lt_trans hi (by decide)
    apply bootSlot_of_toNat
    rw [toNat_ofNat_shiftLeft_mib hi', Nat.mul_div_cancel _ (Nat.two_pow_pos 20)]
  rw [← Machine.storeAll_congr haddr fun i _ ↦ rfl]
  rfl

theorem initKernPgDir_eq (l : Layout) (s : Machine) :
    initKernPgDir kPgd lmiStart (kvmToPhy l.kEnd - lmiStart) s
      = armv7SetTtbr1 (s.storeAll (fun i ↦ bootSlot (2048 + i))
          (fun i ↦ initSectionWord (kernSect i)) (kernSectCnt l)).dsb kPgd := by
  have hcnt := kernSectCnt_le l
  have haddr : ∀ i < kernSectCnt l,
      kPgd + 4#32 * (phyToKvm (kernSect i) >>> divMultMb) = bootSlot (2048 + i) :=
    fun i hi ↦ (toNat_kernSect (by omega)).2
  rw [← Machine.storeAll_congr haddr fun i _ ↦ rfl]
  rfl

theorem load_vexpressBootInit (l : Layout) (s : Machine) : ∃ s' : Machine,
    s'.mem = memset l.lmiBssStart 0#8 (l.lmiBssEnd - l.lmiBssStart) s.mem ∧
      ∀ b, (vexpressBootInit l s).load b
        = ((armv7SetTtbr0 (s'.storeAll bootSlot
            (fun i ↦ initSectionWord (BitVec.ofNat 32 i <<< divMultMb)) 2048).dsb
            kPgd).storeAll (fun i ↦ bootSlot (2048 + i)) (fun i ↦ initSectionWord (kernSect i))
            (kernSectCnt l)).load b := by
  refine ⟨{ s with mem := memset l.lmiBssStart 0#8 (l.lmiBssEnd - l.lmiBssStart) s.mem }, rfl,
    fun b ↦ ?_⟩
  simp only [vexpressBootInit, initUserPgDir_eq, initKernPgDir_eq]
  rfl

/-- **The boot directory**: the identity in the lower half, the sections of the image in the upper
one, and what memory held before in the rest of it. -/
theorem load_bootSlot (l : Layout) (s : Machine) {j : ℕ} (hj : j < 4096) :
    (vexpressBootInit l s).load (bootSlot j)
      = if j < 2048 then initSectionWord (BitVec.ofNat 32 j <<< divMultMb)
        else if j < 2048 + kernSectCnt l then initSectionWord (kernSect (j - 2048))
        else readWord (memset l.lmiBssStart 0#8 (l.lmiBssEnd - l.lmiBssStart) s.mem)
          (bootSlot j) := by
  obtain ⟨s', hmem, hload⟩ := load_vexpressBootInit l s
  have hcnt := kernSectCnt_le l
  have halign : ∀ i < 4096, (bootSlot i).toNat % 4 = 0 := by
    intro i hi
    rw [toNat_bootSlot hi]
    omega
  rw [hload]
  by_cases hkern : 2048 ≤ j ∧ j < 2048 + kernSectCnt l
  · obtain ⟨i, rfl⟩ : ∃ i, j = 2048 + i := ⟨j - 2048, by omega⟩
    rw [if_neg (by omega), if_pos hkern.2, Nat.add_sub_cancel_left]
    refine Machine.load_storeAll_of_last (j := i) (fun k hk ↦ halign _ (by omega)) (by omega)
      fun k hk hik ↦ bootSlot_ne (by omega) (by omega) (by omega)
  · have hset : ∀ t : Machine, (armv7SetTtbr0 t.dsb kPgd).load (bootSlot j)
        = t.load (bootSlot j) := fun _ ↦ rfl
    rw [Machine.load_storeAll_of_ne (fun k hk ↦ halign _ (by omega)) (halign j hj)
      fun k hk ↦ bootSlot_ne (by omega) hj (by omega), hset]
    by_cases huser : j < 2048
    · rw [if_pos huser]
      exact Machine.load_storeAll_of_last (fun k hk ↦ halign _ (by omega)) huser
        fun k hk hjk ↦ bootSlot_ne (by omega) hj (by omega)
    · rw [if_neg huser, if_neg (by omega), ← hmem]
      exact Machine.load_storeAll_of_ne (fun k hk ↦ halign _ (by omega)) (halign j hj)
        fun k hk ↦ bootSlot_ne (by omega) hj (by omega)

/-! ## Translation -/

theorem armv7SetDomain_zero (x : Byte) (s : Machine) :
    (armv7SetDomain 0#8 x s).2
      = { s with dacr := (s.dacr &&& ~~~0x3#32) ||| (x.zeroExtend 32 &&& 0x3#32) } := by
  rw [armv7SetDomain, if_pos (by decide)]
  simp [armv7SetDacr]

theorem initEnableMmu_registers (s : Machine) :
    armv7MmuIsEnabled (initEnableMmu s) = true ∧ armv7MmuGetPgDiv (initEnableMmu s) = 1 ∧
      (initEnableMmu s).ttbr0 = s.ttbr0 ∧ (initEnableMmu s).ttbr1 = s.ttbr1 := by
  have hsctlr : (initEnableMmu s).sctlr = s.sctlr ||| 0x20000001#32 := by
    simp only [initEnableMmu, armv7SetDomain_zero]
    rfl
  have httbcr : (initEnableMmu s).ttbcr = 0x1#32 := by
    simp only [initEnableMmu, armv7SetDomain_zero]
    rfl
  refine ⟨?_, by rw [armv7MmuGetPgDiv, httbcr]; rfl, ?_, ?_⟩
  · rw [armv7MmuIsEnabled, hsctlr, bne_iff_ne]
    intro hzero
    have hbit := congrArg (·.getLsbD 0) hzero
    simp at hbit
  all_goals
    simp only [initEnableMmu, armv7SetDomain_zero]
    rfl

theorem vexpressBootInit_registers (l : Layout) (s : Machine) :
    armv7MmuIsEnabled (vexpressBootInit l s) = true ∧
      armv7MmuGetPgDiv (vexpressBootInit l s) = 1 ∧
        (vexpressBootInit l s).ttbr0 = kPgd ∧ (vexpressBootInit l s).ttbr1 = kPgd := by
  obtain ⟨hen, hdiv, h0, h1⟩ := initEnableMmu_registers (initKernPgDir kPgd lmiStart
    (kvmToPhy l.kEnd - lmiStart) (initUserPgDir kPgd
      { s with mem := memset l.lmiBssStart 0#8 (l.lmiBssEnd - l.lmiBssStart) s.mem }))
  refine ⟨hen, hdiv, h0.trans ?_, h1.trans ?_⟩
  · rw [initKernPgDir_eq, initUserPgDir_eq]
    exact (Machine.storeAll_registers _ _ _ _).2.2.1
  · rw [initKernPgDir_eq]
    rfl

/-- Both halves are translated through the boot directory. -/
theorem liveSlotAddr_vexpressBootInit (l : Layout) (s : Machine) (j : ℕ) :
    liveSlotAddr (vexpressBootInit l s) j = bootSlot j := by
  obtain ⟨hen, hdiv, h0, h1⟩ := vexpressBootInit_registers l s
  have hkern : armv7MmuGetKernPgd (vexpressBootInit l s) = kPgd := by
    rw [armv7MmuGetKernPgd, if_pos hen, h1]
    rfl
  have huser : armv7MmuGetUserPgd (vexpressBootInit l s) = kPgd := by
    rw [armv7MmuGetUserPgd, if_pos hen, h0, hdiv]
    rfl
  rw [liveSlotAddr, hkern, huser, ite_self, bootSlot]

theorem section_translate (p v : Addr) :
    initSectionWord p &&& pgdTypeMask = Armv7MmuPgdType.pgdSection.toWord ∧
      ((initSectionWord p &&& pgdSectMask) ||| (v &&& ~~~pgdSectMask)).toNat
        = p.toNat / 2 ^ 20 * 2 ^ 20 + v.toNat % 2 ^ 20 := by
  have hword : initSectionWord p = (p &&& pgdSectMask) ||| 0x402#32 := by
    rw [initSectionWord, BitVec.or_assoc]
    rfl
  have hsect : (p &&& pgdSectMask).toNat = p.toNat / 2 ^ 20 * 2 ^ 20 :=
    Bits.toNat_and_high (by omega) (by decide) p
  have hoff : (v &&& ~~~pgdSectMask).toNat = v.toNat % 2 ^ 20 := Bits.toNat_and_low (by decide) v
  constructor
  · rw [hword, BitVec.and_or_distrib_right, BitVec.and_assoc]
    rw [show pgdSectMask &&& pgdTypeMask = 0#32 from rfl, BitVec.and_zero, BitVec.zero_or]
    rfl
  · rw [hword, BitVec.and_or_distrib_right, BitVec.and_assoc, BitVec.and_self]
    rw [show (0x402#32 : Word) &&& pgdSectMask = 0#32 from rfl, BitVec.or_zero,
      Bits.toNat_or_of_dvd_of_lt (k := 20) ⟨p.toNat / 2 ^ 20, by rw [hsect, mul_comm]⟩
        (by rw [hoff]; exact Nat.mod_lt _ (Nat.two_pow_pos 20)), hsect, hoff]

theorem virtToPhy_vexpressBootInit {l : Layout} {s : Machine} {v p : Addr}
    (h : (vexpressBootInit l s).load (bootSlot (slotIndex v)) = initSectionWord p) :
    (armv7MmuVirtToPhy (vexpressBootInit l s) v).toNat
      = p.toNat / 2 ^ 20 * 2 ^ 20 + v.toNat % 2 ^ 20 := by
  obtain ⟨htype, hval⟩ := section_translate p v
  obtain ⟨hen, -⟩ := vexpressBootInit_registers l s
  rw [virtToPhy_eq hen, liveSlot, liveSlotAddr_vexpressBootInit, h, if_pos htype, hval]

theorem virtToPhy_vexpressBootInit_user (l : Layout) (s : Machine) {v : Addr}
    (hv : v.toNat < 2 ^ 31) : armv7MmuVirtToPhy (vexpressBootInit l s) v = v := by
  have hslot : slotIndex v < 2048 := by
    rw [slotIndex]
    omega
  have hload := load_bootSlot l s (slotIndex_lt v)
  rw [if_pos hslot] at hload
  apply BitVec.eq_of_toNat_eq
  rw [virtToPhy_vexpressBootInit hload, toNat_ofNat_shiftLeft_mib (slotIndex_lt v),
    Nat.mul_div_cancel _ (Nat.two_pow_pos 20), slotIndex]
  omega

/-- An address of the image whose section is mapped is translated to where the image was loaded. -/
theorem virtToPhy_vexpressBootInit_kern (l : Layout) (s : Machine) {v : Addr} (hv : kvStart ≤ v)
    (hvlt : v < 0xA0000000#32) (hslot : slotIndex v < 2048 + kernSectCnt l) :
    armv7MmuVirtToPhy (vexpressBootInit l s) v = kvmToPhy v := by
  have hconv := toNat_kvmToPhy hv hvlt
  rw [BitVec.le_def] at hv
  have hkv : (kvStart : Addr).toNat = 2 ^ 31 := rfl
  have hge : 2048 ≤ slotIndex v := by
    rw [slotIndex]
    omega
  have hcnt := kernSectCnt_le l
  have hload := load_bootSlot l s (slotIndex_lt v)
  rw [if_neg (by omega), if_pos hslot] at hload
  obtain ⟨hsect, -⟩ := toNat_kernSect (i := slotIndex v - 2048) (by omega)
  apply BitVec.eq_of_toNat_eq
  rw [virtToPhy_vexpressBootInit hload, hsect, hconv]
  rw [slotIndex] at hge ⊢
  omega

/-! ## When the whole kernel is mapped -/

/-- The initial memory is arbitrary: below 2 GiB addresses are their own translation, and an address
of the image is translated to where the image was loaded. -/
structure BootMapsKernel (l : Layout) : Prop where
  user : ∀ (s : Machine) (v : Addr), v.toNat < 2 ^ 31 →
    armv7MmuVirtToPhy (vexpressBootInit l s) v = v
  kernel : ∀ (s : Machine) (v : Addr), phyToKvm lmiStart ≤ v → v < l.kEnd →
    armv7MmuVirtToPhy (vexpressBootInit l s) v = kvmToPhy v

/-- A machine whose memory is zero. -/
def zeroMachine : Machine where
  mem := fun _ ↦ 0#8
  sctlr := 0#32
  ttbcr := 0#32
  ttbr0 := 0#32
  ttbr1 := 0#32
  dacr := 0#32
  trace := []

/-- Started on zero memory, the boot code leaves the rest of the upper half unmapped. -/
theorem virtToPhy_vexpressBootInit_zero (l : Layout) {v : Addr}
    (hslot : 2048 + kernSectCnt l ≤ slotIndex v) :
    armv7MmuVirtToPhy (vexpressBootInit l zeroMachine) v = 0#32 := by
  have hzero : memset l.lmiBssStart 0#8 (l.lmiBssEnd - l.lmiBssStart) zeroMachine.mem
      = fun _ ↦ 0#8 := by
    funext x
    rw [memset_apply]
    exact ite_self _
  have hload := load_bootSlot l zeroMachine (slotIndex_lt v)
  rw [if_neg (by omega), if_neg (by omega), hzero, readWord_zero] at hload
  obtain ⟨hen, -⟩ := vexpressBootInit_registers l zeroMachine
  have hlive : liveSlot (vexpressBootInit l zeroMachine) (slotIndex v) = 0#32 := by
    rw [liveSlot, liveSlotAddr_vexpressBootInit, hload]
  have htab : ¬IsTableSlot (vexpressBootInit l zeroMachine) (slotIndex v) := by
    rw [IsTableSlot, hlive]
    decide
  rw [virtToPhy_eq hen, if_neg htab, hlive, if_neg (by decide)]

/-- **The boot code maps the whole kernel, unless the image ends in the first 32 KiB of a
section.** -/
theorem bootMapsKernel_iff (l : Layout) :
    BootMapsKernel l ↔ ¬(0 < l.kEnd.toNat % 2 ^ 20 ∧ l.kEnd.toNat % 2 ^ 20 < 0x8000) := by
  obtain ⟨hlt, hlt', -⟩ := l.kEnd_bounds
  have halign := l.kEnd_aligned
  have hcnt := kernSectCnt_eq l
  have hstart : phyToKvm lmiStart = 0x80008000#32 := rfl
  constructor
  · rintro h ⟨hpos, hsmall⟩
    -- the section in which the image ends is the first one that is not mapped
    obtain ⟨v, hv⟩ : ∃ v : Addr, v.toNat = l.kEnd.toNat / 2 ^ 20 * 2 ^ 20 :=
      ⟨BitVec.ofNat 32 (l.kEnd.toNat / 2 ^ 20 * 2 ^ 20), Bits.toNat_ofNat_of_lt (by omega)⟩
    have hge : phyToKvm lmiStart ≤ v := by
      rw [hstart, BitVec.le_def, hv]
      simp only [BitVec.toNat_ofNat]
      omega
    have hin : v < l.kEnd := by
      rw [BitVec.lt_def, hv]
      omega
    have hslot : 2048 + kernSectCnt l ≤ slotIndex v := by
      rw [slotIndex, hv, hcnt]
      omega
    have hphy := toNat_kvmToPhy (BitVec.le_trans (by decide) hge) (BitVec.lt_trans hin l.kEnd_lt)
    rw [← h.kernel zeroMachine v hge hin, virtToPhy_vexpressBootInit_zero l hslot, hv] at hphy
    simp only [BitVec.toNat_ofNat] at hphy
    omega
  · intro h
    refine ⟨fun s v hv ↦ virtToPhy_vexpressBootInit_user l s hv, ?_⟩
    intro s v hv hvlt
    have hkv : kvStart ≤ v := BitVec.le_trans (by decide) hv
    refine virtToPhy_vexpressBootInit_kern l s hkv (BitVec.lt_trans hvlt l.kEnd_lt) ?_
    rw [BitVec.lt_def] at hvlt
    rw [slotIndex, hcnt]
    omega

/-- An image that ends 4 KiB into its second section. -/
def shortTail : Layout where
  lmiBssStart := 0x60008800#32
  lmiBssEnd := 0x60008800#32
  kEnd := 0x80101000#32
  lmiStart_le := by decide
  lmiBssStart_le := by decide
  lmiBssEnd_le := by decide
  kEnd_aligned := by decide
  lt_kEnd := by decide
  kEnd_lt := by decide

/-- The last page of that image is left unmapped. -/
theorem not_bootMapsKernel_shortTail :
    armv7MmuVirtToPhy (vexpressBootInit shortTail zeroMachine) 0x80100000#32 = 0#32 ∧
      ¬BootMapsKernel shortTail := by
  have hslot : 2048 + kernSectCnt shortTail ≤ slotIndex 0x80100000#32 := by decide
  have hzero := virtToPhy_vexpressBootInit_zero shortTail hslot
  refine ⟨hzero, ?_⟩
  intro h
  have hphy := h.kernel zeroMachine 0x80100000#32 (by decide) (by decide)
  rw [hzero] at hphy
  exact absurd hphy (by decide)

end Sugarcat
