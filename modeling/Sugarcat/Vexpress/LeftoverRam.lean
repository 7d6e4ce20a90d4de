import Sugarcat.Vexpress.BootInit

/-!
# What the boot directory inherits

The two loops of the boot code write the lower half of the directory at `k_pgd`, and the slots of
the kernel image. Nothing clears the other slots of the upper half before the MMU is enabled, so
they hold what memory held before: a word there that reads like a descriptor maps a MiB of the
kernel half to wherever it says.

## Two runs

`BootsIndependently` compares two runs of the boot code, on memories that agree outside of the
directory. It says that they translate every address alike. The addresses that the loops do map do
not depend on memory (`virtToPhy_vexpressBootInit_congr`). The last slot is written for no size of
the kernel, so memories that differ there boot to different translations
(`exists_virtToPhy_bootMmu_ne`).

The last slot is that of the last MiB of the address space. The addresses of the sections are
converted from physical ones, and the conversion clears two of the bits that the last MiB has, so
the slot is missed even for sizes that no image has.
-/

namespace Sugarcat

open ByteMemory

/-- What `vexpress_boot_init` does to the memory management unit, for an image of `kSz` bytes. -/
def bootMmu (kSz : Word) (s : Machine) : Machine :=
  initEnableMmu (initKernPgDir kPgd lmiStart kSz (initUserPgDir kPgd s))

/-- The two memories are equal except in the 16 KiB at `k_pgd`. -/
def EqualOutsidePgd (m m' : Memory) : Prop := ∀ x, ¬InRange kPgd 0x4000 x → m x = m' x

/-- Translation after the boot does not depend on what was in the directory before. -/
def BootsIndependently (kSz : Word) : Prop :=
  ∀ (s : Machine) (m : Memory), EqualOutsidePgd s.mem m →
    ∀ v, virtToPhy (bootMmu kSz s) v = virtToPhy (bootMmu kSz { s with mem := m }) v

theorem vexpressBootInit_eq (l : Layout) (s : Machine) :
    vexpressBootInit l s = bootMmu (kvmToPhy l.kEnd - lmiStart)
      { s with mem := memset l.lmiBssStart 0#8 (l.lmiBssEnd - l.lmiBssStart) s.mem } := rfl

/-! ## What is mapped -/

/-- **What the loops map does not depend on memory.** -/
theorem virtToPhy_vexpressBootInit_congr (l : Layout) (s t : Machine) {v : Addr}
    (hv : slotIndex v < 2048 + kernSectCnt l) :
    virtToPhy (vexpressBootInit l s) v = virtToPhy (vexpressBootInit l t) v := by
  have hs := load_bootSlot l s (slotIndex_lt v)
  have ht := load_bootSlot l t (slotIndex_lt v)
  by_cases huser : slotIndex v < 2048
  · rw [if_pos huser] at hs ht
    apply BitVec.eq_of_toNat_eq
    exact (virtToPhy_vexpressBootInit hs).trans (virtToPhy_vexpressBootInit ht).symm
  · rw [if_neg huser, if_pos hv] at hs ht
    apply BitVec.eq_of_toNat_eq
    exact (virtToPhy_vexpressBootInit hs).trans (virtToPhy_vexpressBootInit ht).symm

/-! ## What is not -/

theorem slotIndex_phyToKvm_ne (p : Addr) : slotIndex (phyToKvm p) ≠ 4095 := by
  intro h
  have hidx : phyToKvm p >>> 20 = 4095#32 := by rw [← ofNat_slotIndex, h]
  -- bit 29 of an address in the window is clear
  have hbit := congrArg (·.getLsbD 9) hidx
  simp [phyToKvm, kpStart, kvStart] at hbit

theorem initKernPgDir_eq_storeAll (kSz : Word) (s : Machine) :
    initKernPgDir kPgd lmiStart kSz s
      = armv7SetTtbr1 (s.storeAll (fun i ↦ bootSlot (slotIndex (phyToKvm (kernSect i))))
          (fun i ↦ initSectionWord (kernSect i)) ((kSz >>> divMultMb).toNat + 1)).dsb kPgd := by
  have haddr : ∀ i, kPgd + 4#32 * (phyToKvm (kernSect i) >>> divMultMb)
      = bootSlot (slotIndex (phyToKvm (kernSect i))) := fun i ↦ bootSlot_of_toNat rfl
  rw [← Machine.storeAll_congr (fun i _ ↦ haddr i) fun i _ ↦ rfl, initKernPgDir]
  rfl

theorem load_bootMmu (kSz : Word) (s : Machine) {j : ℕ} (hj : j < 4096) (huser : 2048 ≤ j)
    (hkern : ∀ p, slotIndex (phyToKvm p) ≠ j) :
    (bootMmu kSz s).load (bootSlot j) = s.load (bootSlot j) := by
  have halign : ∀ i < 4096, (bootSlot i).toNat % 4 = 0 := by
    intro i hi
    rw [toNat_bootSlot hi]
    omega
  have hload : ∀ b, (bootMmu kSz s).load b
      = ((armv7SetTtbr0 (s.storeAll bootSlot
          (fun i ↦ initSectionWord (BitVec.ofNat 32 i <<< divMultMb)) kernPgdEntryCnt).dsb
          kPgd).storeAll (fun i ↦ bootSlot (slotIndex (phyToKvm (kernSect i))))
          (fun i ↦ initSectionWord (kernSect i)) ((kSz >>> divMultMb).toNat + 1)).load b := by
    intro b
    rw [bootMmu, initKernPgDir_eq_storeAll, initUserPgDir_eq]
    simp only [initEnableMmu, armv7SetDomain_zero]
    rfl
  have hset : ∀ t : Machine, (armv7SetTtbr0 t.dsb kPgd).load (bootSlot j)
      = t.load (bootSlot j) := fun _ ↦ rfl
  rw [hload, Machine.load_storeAll_of_ne (fun i _ ↦ halign _ (slotIndex_lt _)) (halign j hj)
    fun i _ ↦ bootSlot_ne (slotIndex_lt _) hj (hkern _), hset]
  have hcnt : kernPgdEntryCnt = 2048 := rfl
  exact Machine.load_storeAll_of_ne (fun i hi ↦ halign _ (by omega)) (halign j hj)
    fun i hi ↦ bootSlot_ne (by omega) hj (by omega)

theorem virtToPhy_bootMmu {kSz : Word} {s : Machine} {p v : Addr} (huser : 2048 ≤ slotIndex v)
    (hkern : ∀ p, slotIndex (phyToKvm p) ≠ slotIndex v)
    (hload : s.load (bootSlot (slotIndex v)) = initSectionWord p) :
    (virtToPhy (bootMmu kSz s) v).toNat = p.toNat / 2 ^ 20 * 2 ^ 20 + v.toNat % 2 ^ 20 := by
  obtain ⟨htype, hval⟩ := section_translate p v
  obtain ⟨hen, hdiv, -, h1⟩ := initEnableMmu_registers
    (initKernPgDir kPgd lmiStart kSz (initUserPgDir kPgd s))
  rw [← bootMmu] at hen hdiv h1
  have httbr1 : (bootMmu kSz s).ttbr1 = kPgd := by
    rw [h1, initKernPgDir_eq_storeAll]
    rfl
  have hkpgd : armv7MmuGetKernPgd (bootMmu kSz s) = kPgd := by
    rw [armv7MmuGetKernPgd, if_pos hen, httbr1]
    rfl
  have hlive : liveSlot (bootMmu kSz s) (slotIndex v) = initSectionWord p := by
    rw [liveSlot, liveSlotAddr, hdiv, if_pos ⟨by omega, huser⟩, hkpgd, ← hload]
    exact load_bootMmu kSz s (slotIndex_lt v) huser hkern
  rw [virtToPhy, virtToPhy_eq hen, hlive, if_pos htype, hval]

/-! ## Two runs -/

/-- The machine with a section at `p` in the last slot of its directory. -/
def withLastSlot (p : Addr) (s : Machine) : Machine :=
  { s with mem := writeWord s.mem (bootSlot 4095) (initSectionWord p) }

theorem equalOutsidePgd_withLastSlot (p : Addr) (s : Machine) :
    EqualOutsidePgd s.mem (withLastSlot p s).mem := by
  intro x hx
  have hoff : (4#32 * BitVec.ofNat 32 4095).toNat + 4 ≤ 0x4000 := by decide
  exact (writeWord_of_not_inRange _ fun hin ↦ hx (inRange_of_inRange_add hoff hin)).symm

theorem virtToPhy_withLastSlot (kSz : Word) (p : Addr) (s : Machine) :
    (virtToPhy (bootMmu kSz (withLastSlot p s)) 0xFFF00000#32).toNat
      = p.toNat / 2 ^ 20 * 2 ^ 20 := by
  have hslot : slotIndex 0xFFF00000#32 = 4095 := by decide
  have hload : (withLastSlot p s).load (bootSlot 4095) = initSectionWord p :=
    readWord_writeWord_self _ _ _
  have hoff : (0xFFF00000#32 : Addr).toNat % 2 ^ 20 = 0 := by decide
  rw [virtToPhy_bootMmu (by rw [hslot]; omega) (by rw [hslot]; exact slotIndex_phyToKvm_ne)
    (by rw [hslot]; exact hload), hoff, Nat.add_zero]

/-- Whatever memory holds, another one that differs in the directory only leads to another
translation. -/
theorem exists_virtToPhy_bootMmu_ne (kSz : Word) (s : Machine) :
    ∃ m, EqualOutsidePgd s.mem m ∧
      virtToPhy (bootMmu kSz s) 0xFFF00000#32
        ≠ virtToPhy (bootMmu kSz { s with mem := m }) 0xFFF00000#32 := by
  -- of two sections, at most one is what the leftover word gives
  by_cases h : virtToPhy (bootMmu kSz s) 0xFFF00000#32
      = virtToPhy (bootMmu kSz (withLastSlot 0x100000#32 s)) 0xFFF00000#32
  · refine ⟨_, equalOutsidePgd_withLastSlot 0x200000#32 s, ?_⟩
    intro heq
    have hnat := congrArg BitVec.toNat (h.symm.trans heq)
    rw [virtToPhy_withLastSlot] at hnat
    exact absurd (hnat.trans (virtToPhy_withLastSlot kSz 0x200000#32 s)) (by decide)
  · exact ⟨_, equalOutsidePgd_withLastSlot 0x100000#32 s, h⟩

/-- **For no size of the kernel is the boot independent of leftover memory.** -/
theorem not_bootsIndependently (kSz : Word) : ¬BootsIndependently kSz := by
  intro h
  obtain ⟨m, hm, hne⟩ := exists_virtToPhy_bootMmu_ne kSz zeroMachine
  exact hne (h zeroMachine m hm _)

/-- Two memories that differ in the last word of the directory, and a kernel of 1 MiB: the last MiB
is translated to `0x100000`, or to `0x200000`. -/
theorem not_bootsIndependently_mib :
    (virtToPhy (bootMmu 0x100000#32 (withLastSlot 0x100000#32 zeroMachine))
        0xFFF00000#32).toNat = 0x100000 ∧
      (virtToPhy (bootMmu 0x100000#32 (withLastSlot 0x200000#32 zeroMachine))
        0xFFF00000#32).toNat = 0x200000 ∧ ¬BootsIndependently 0x100000#32 := by
  have h1 := virtToPhy_withLastSlot 0x100000#32 0x100000#32 zeroMachine
  have h2 := virtToPhy_withLastSlot 0x100000#32 0x200000#32 zeroMachine
  have heq : EqualOutsidePgd (withLastSlot 0x100000#32 zeroMachine).mem
      (withLastSlot 0x200000#32 zeroMachine).mem := fun x hx ↦
    (equalOutsidePgd_withLastSlot _ zeroMachine x hx).symm.trans
      (equalOutsidePgd_withLastSlot _ zeroMachine x hx)
  refine ⟨h1, h2, ?_⟩
  intro h
  have hsame := h (withLastSlot 0x100000#32 zeroMachine) _ heq 0xFFF00000#32
  have hnat := h1.symm.trans ((congrArg BitVec.toNat hsame).trans h2)
  exact absurd hnat (by decide)

end Sugarcat
