import Sugarcat.Kernel.Mem
import Sugarcat.Vexpress.Layout

/-!
# The region of the page tables

`vexpress_init` puts the page tables on the first MiB boundary behind the kernel, and checks the
size of the memory it has found before. The check adds up the sizes of what is in high memory and of
the tables. It leaves out what lies below them, and the gap that the boundary makes.

## What the check is for

`PlacesPgtb` says what is meant: the tables lie apart from the image of the kernel and in the memory
that was found, and clearing them changes nothing outside of it. The first never fails, as the
tables begin behind the image. So all of it is whether they end before the memory does, and
`HoldsImage.placesPgtb_iff` says how much more memory that needs than the check asks for.

`leftOut` is the difference, computed from the layout: what the memory has below the initialization
region, and the rest of the last MiB. `checkSuffices_iff` is then the exact statement, for every
layout that the linker script gives and every memory that holds the image.
-/

namespace Sugarcat

open ByteMemory

/-! ## The regions -/

/-- The symbols of the initialization region in high memory too. It begins behind the page of the
stack, and the kernel begins where it ends. -/
structure InitLayout extends Layout where
  hmiStart : Addr
  hmiEnd : Addr
  hmiStart_eq : hmiStart.toNat = 0x20000000 + ((lmiBssEnd.toNat + 4095) / 4096 * 4096 + 4096)
  hmiStart_le : hmiStart ≤ hmiEnd
  hmiEnd_aligned : hmiEnd.toNat % 4096 = 0
  hmiEnd_le : hmiEnd ≤ kEnd

abbrev maskMb : Word := 0xFFFFF#32

namespace InitLayout

def mmuPgtbReg (l : InitLayout) : MmReg where
  base := (kvmToPhy l.kEnd &&& ~~~maskMb) + 0x100000#32
  size := 0x200000#32

def kinitReg (l : InitLayout) : MmReg where
  base := kvmToPhy l.hmiStart
  size := l.hmiEnd - l.hmiStart

def kernReg (l : InitLayout) : MmReg where
  base := kvmToPhy l.hmiEnd
  size := l.kEnd - l.hmiEnd

/-- The size that the memory has to be above. -/
def minSize (l : InitLayout) : Word := l.kernReg.size + l.kinitReg.size + l.mmuPgtbReg.size

/-- `vexpress_init` does not panic for want of memory. -/
def passesCheck (l : InitLayout) (memReg : MmReg) : Bool := !decide (memReg.size ≤ l.minSize)

/-- What the linker script lays out. -/
def image (l : InitLayout) : MmReg where
  base := kpStart
  size := kvmToPhy l.kEnd - kpStart

/-! ## What is meant -/

/-- The kernel is in the memory. -/
structure HoldsImage (l : InitLayout) (memReg : MmReg) : Prop where
  fits : memReg.limit ≤ 2 ^ 32
  image : ∀ x, l.image.Has x → memReg.Has x

/-- The tables are apart from the kernel and in the memory, so nothing else is cleared. -/
structure PlacesPgtb (l : InitLayout) (memReg : MmReg) : Prop where
  apart : ∀ x, l.mmuPgtbReg.Has x → ¬l.image.Has x
  inside : ∀ x, l.mmuPgtbReg.Has x → memReg.Has x
  clears : ∀ m, EqOutside memReg.Has m (memset l.mmuPgtbReg.base 0#8 l.mmuPgtbReg.size m)

/-- What the check leaves out: the memory below the initialization region, and the gap between the
end of the kernel and the next MiB boundary. -/
def leftOut (l : InitLayout) (memReg : MmReg) : ℕ :=
  ((kvmToPhy l.hmiStart).toNat - memReg.base.toNat) + (0x100000 - l.kEnd.toNat % 0x100000)

variable {l : InitLayout} {memReg : MmReg}

/-! ## Where the regions are -/

theorem toNat_hmiStart (l : InitLayout) : 0x80008000 < l.hmiStart.toNat ∧
    l.hmiStart.toNat ≤ l.hmiEnd.toNat ∧ l.hmiEnd.toNat ≤ l.kEnd.toNat ∧
    (kvmToPhy l.hmiStart).toNat = l.hmiStart.toNat - 0x20000000 := by
  have hlow : lmiStart.toNat ≤ l.lmiBssEnd.toNat :=
    (BitVec.le_def.mp l.lmiStart_le).trans (BitVec.le_def.mp l.lmiBssStart_le)
  have heq := l.hmiStart_eq
  have hle := BitVec.le_def.mp l.hmiStart_le
  have hend := BitVec.le_def.mp l.hmiEnd_le
  have hkEnd := l.kEnd_bounds
  simp only [BitVec.toNat_ofNat] at hlow
  refine ⟨by omega, hle, hend, toNat_kvmToPhy ?_ ?_⟩
  · rw [BitVec.le_def, BitVec.toNat_ofNat]
    omega
  · rw [BitVec.lt_def, BitVec.toNat_ofNat]
    omega

theorem limit_image (l : InitLayout) : l.image.limit = (kvmToPhy l.kEnd).toNat := by
  obtain ⟨hlow, -, hphy⟩ := l.kEnd_bounds
  have hle : kpStart ≤ kvmToPhy l.kEnd := by
    rw [BitVec.le_def, hphy, BitVec.toNat_ofNat]
    omega
  have hle' := BitVec.le_def.mp hle
  change kpStart.toNat + (kvmToPhy l.kEnd - kpStart).toNat = _
  rw [BitVec.toNat_sub_of_le hle, Nat.add_sub_of_le hle']

theorem proper_image (l : InitLayout) : l.image.Proper := by
  obtain ⟨hlow, hhigh, hphy⟩ := l.kEnd_bounds
  have hlimit := l.limit_image
  have hbase : l.image.limit = 0x60000000 + l.image.size.toNat := rfl
  exact ⟨by omega, by omega⟩

theorem toNat_base_mmuPgtbReg (l : InitLayout) : l.mmuPgtbReg.base.toNat
    = (kvmToPhy l.kEnd).toNat + (0x100000 - l.kEnd.toNat % 0x100000) := by
  obtain ⟨hlow, hhigh, hphy⟩ := l.kEnd_bounds
  have hmask := Bits.toNat_and_high (k := 20) (by decide) (m := ~~~maskMb) (by decide)
    (kvmToPhy l.kEnd)
  rw [mmuPgtbReg, BitVec.toNat_add, hmask, hphy, BitVec.toNat_ofNat]
  omega

theorem limit_mmuPgtbReg (l : InitLayout) :
    l.mmuPgtbReg.limit = l.mmuPgtbReg.base.toNat + 0x200000 := rfl

theorem proper_mmuPgtbReg (l : InitLayout) : l.mmuPgtbReg.Proper := by
  obtain ⟨hlow, hhigh, hphy⟩ := l.kEnd_bounds
  have hbase := l.toNat_base_mmuPgtbReg
  exact ⟨Nat.zero_lt_succ _, by rw [limit_mmuPgtbReg]; omega⟩

/-- The tables never overlap the kernel. -/
theorem pgtb_apart_image (l : InitLayout) (x : Addr) (hx : l.mmuPgtbReg.Has x) :
    ¬l.image.Has x := by
  rintro ⟨-, hlt⟩
  have hbase := l.toNat_base_mmuPgtbReg
  have hge := hx.1
  rw [limit_image] at hlt
  omega

theorem toNat_minSize (l : InitLayout) :
    l.minSize.toNat = (l.kEnd.toNat - l.hmiStart.toNat) + 0x200000 := by
  obtain ⟨hlow, hhigh, -⟩ := l.kEnd_bounds
  obtain ⟨hstart, hle, hend, -⟩ := l.toNat_hmiStart
  have hkern : l.kernReg.size.toNat = l.kEnd.toNat - l.hmiEnd.toNat :=
    BitVec.toNat_sub_of_le l.hmiEnd_le
  have hkinit : l.kinitReg.size.toNat = l.hmiEnd.toNat - l.hmiStart.toNat :=
    BitVec.toNat_sub_of_le l.hmiStart_le
  have hpgtb : l.mmuPgtbReg.size.toNat = 0x200000 := rfl
  rw [minSize, BitVec.toNat_add, BitVec.toNat_add, hkern, hkinit, hpgtb]
  omega

/-! ## When there is room -/

theorem HoldsImage.placesPgtb_iff (h : l.HoldsImage memReg) :
    l.PlacesPgtb memReg ↔ l.minSize.toNat + l.leftOut memReg ≤ memReg.size.toNat := by
  obtain ⟨hlow, hhigh, hphy⟩ := l.kEnd_bounds
  obtain ⟨hstart, hle, hend, hstartPhy⟩ := l.toNat_hmiStart
  have hmin := l.toNat_minSize
  have hbase := l.toNat_base_mmuPgtbReg
  obtain ⟨hmemBase, -⟩ := l.proper_image.forall_has_iff.mp h.image
  change memReg.base.toNat ≤ 0x60000000 at hmemBase
  have hlimit : memReg.limit = memReg.base.toNat + memReg.size.toNat := rfl
  have hinside := l.proper_mmuPgtbReg.forall_has_iff (a := memReg)
  rw [limit_mmuPgtbReg] at hinside
  have hroom : (∀ x, l.mmuPgtbReg.Has x → memReg.Has x)
      ↔ l.minSize.toNat + l.leftOut memReg ≤ memReg.size.toNat := by
    rw [hinside, leftOut]
    omega
  rw [← hroom]
  refine ⟨fun hplace ↦ hplace.inside, fun hin ↦ ⟨l.pgtb_apart_image, hin, fun m x hx ↦ ?_⟩⟩
  rw [memset_apply, if_neg]
  exact fun hrange ↦ hx (hin x ((MmReg.has_iff_inRange l.proper_mmuPgtbReg.fits).mpr hrange))

theorem passesCheck_iff : l.passesCheck memReg = true ↔ l.minSize.toNat < memReg.size.toNat := by
  rw [passesCheck, Bool.not_eq_true', decide_eq_false_iff_not, BitVec.le_def, not_le]

/-- **The check is good for every memory but those that are larger than it asks for by less than
what it leaves out.** -/
theorem checkSuffices_iff (h : l.HoldsImage memReg) :
    (l.passesCheck memReg = true → l.PlacesPgtb memReg) ↔
      memReg.size.toNat ≤ (l.kEnd.toNat - l.hmiStart.toNat) + 0x200000 ∨
        (l.kEnd.toNat - l.hmiStart.toNat) + 0x200000 + l.leftOut memReg ≤ memReg.size.toNat := by
  rw [passesCheck_iff, h.placesPgtb_iff, toNat_minSize, imp_iff_not_or, not_lt]

/-- A small kernel. -/
def small : InitLayout where
  lmiBssStart := 0x6000A000#32
  lmiBssEnd := 0x6000A800#32
  kEnd := 0x80020000#32
  lmiStart_le := by decide
  lmiBssStart_le := by decide
  lmiBssEnd_le := by decide
  kEnd_aligned := by decide
  lt_kEnd := by decide
  kEnd_lt := by decide
  hmiStart := 0x8000C000#32
  hmiEnd := 0x8000D000#32
  hmiStart_eq := by decide
  hmiStart_le := by decide
  hmiEnd_aligned := by decide
  hmiEnd_le := by decide

theorem holdsImage_small {size : Word} (h : size = 0x8000000#32 ∨ size = 0x2FF000#32) :
    small.HoldsImage ⟨kpStart, size⟩ := by
  rcases h with rfl | rfl <;>
    exact ⟨by decide, small.proper_image.forall_has_iff.mpr ⟨by decide, by decide⟩⟩

/-- With 128 MiB there is room. -/
theorem checkSuffices_iff_small : small.PlacesPgtb ⟨kpStart, 0x8000000#32⟩ :=
  (checkSuffices_iff (holdsImage_small (Or.inl rfl))).mpr (Or.inr (by decide)) (by decide)

/-- With 3 MiB less a page the check passes, and the tables end one page behind the memory. -/
theorem not_checkSuffices_small :
    small.HoldsImage ⟨kpStart, 0x2FF000#32⟩ ∧ small.passesCheck ⟨kpStart, 0x2FF000#32⟩ = true ∧
      ¬small.PlacesPgtb ⟨kpStart, 0x2FF000#32⟩ := by
  refine ⟨holdsImage_small (Or.inr rfl), by decide, ?_⟩
  intro h
  have hlast := h.inside 0x602FF000#32 (by decide)
  exact absurd hlast (by decide)

end InitLayout

end Sugarcat
