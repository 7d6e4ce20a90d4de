import Sugarcat.Kernel.Regions
import Sugarcat.Util.Bits

/-!
# The image of the kernel

The linker symbols of `kernel.ld` and the two address conversions of `memlayout.h`. The script fixes
the start of the image, the directory and the low initialization region; the other symbols follow
from the sizes of the sections, and a `Layout` is a choice of those that the script can produce: in
the order of the script, with the end of the kernel on a page, and in the window.

## The conversions

The conversions mask and set bits. On the windows they are meant for they are shifts by 512 MiB,
since an offset into a window shares no bit with its start: the physical window begins at
`0x60000000` and the virtual one at `0x80000000`, and both are 512 MiB long. Outside of them the
conversions do something else, so every use states that its address is in the window.
-/

namespace Sugarcat

open ByteMemory

/-! ## Symbols -/

abbrev kpStart : Addr := 0x60000000#32
abbrev kvStart : Addr := 0x80000000#32
abbrev kPgd : Addr := 0x60004000#32
abbrev lmiStart : Addr := 0x60008000#32

def kvmToPhy (address : Addr) : Addr := (address &&& ~~~kvStart) ||| kpStart

def phyToKvm (address : Addr) : Addr := (address &&& ~~~kpStart) ||| kvStart

/-- The symbols whose values depend on the size of the kernel. The image ends on a page boundary
inside the 512 MiB window of the conversions, after the low initialization region. -/
structure Layout where
  lmiBssStart : Addr
  lmiBssEnd : Addr
  kEnd : Addr
  lmiStart_le : lmiStart ≤ lmiBssStart
  lmiBssStart_le : lmiBssStart ≤ lmiBssEnd
  lmiBssEnd_le : lmiBssEnd ≤ kvmToPhy kEnd
  kEnd_aligned : kEnd.toNat % 4096 = 0
  lt_kEnd : 0x80008000#32 < kEnd
  kEnd_lt : kEnd < 0xA0000000#32

/-! ## The conversions on their windows -/

theorem window_add (base : Addr) {k : Addr} (hk : k.toNat < 2 ^ 29) (hbase : 2 ^ 29 ∣ base.toNat) :
    base &&& k = 0#32 ∧ base + k = base ||| k := by
  have hand : base &&& k = 0#32 := by
    rw [← BitVec.toNat_inj, BitVec.toNat_and, Bits.and_eq_zero_of_dvd_of_lt hbase hk]
    rfl
  exact ⟨hand, BitVec.add_eq_or_of_and_eq_zero base k hand⟩

theorem kvmToPhy_add {k : Addr} (hk : k.toNat < 2 ^ 29) : kvmToPhy (kvStart + k) = kpStart + k := by
  obtain ⟨hv, hvadd⟩ := window_add kvStart hk (by decide)
  obtain ⟨-, hpadd⟩ := window_add kpStart hk (by decide)
  rw [kvmToPhy, hvadd, hpadd, Bits.or_and_not_of_and_eq_zero hv, BitVec.or_comm]

theorem phyToKvm_add {k : Addr} (hk : k.toNat < 2 ^ 29) : phyToKvm (kpStart + k) = kvStart + k := by
  obtain ⟨hp, hpadd⟩ := window_add kpStart hk (by decide)
  obtain ⟨-, hvadd⟩ := window_add kvStart hk (by decide)
  rw [phyToKvm, hvadd, hpadd, Bits.or_and_not_of_and_eq_zero hp, BitVec.or_comm]

theorem exists_kvStart_add {v : Addr} (h : kvStart ≤ v) (hlt : v < 0xA0000000#32) :
    ∃ k : Addr, k.toNat < 2 ^ 29 ∧ v = kvStart + k ∧ v.toNat = 2 ^ 31 + k.toNat := by
  have hsub := BitVec.toNat_sub_of_le h
  rw [BitVec.le_def] at h
  rw [BitVec.lt_def] at hlt
  simp only [BitVec.toNat_ofNat] at h hlt hsub
  refine ⟨v - kvStart, by omega, by ring, by omega⟩

theorem exists_kpStart_add {p : Addr} (h : kpStart ≤ p) (hlt : p < 0x80000000#32) :
    ∃ k : Addr, k.toNat < 2 ^ 29 ∧ p = kpStart + k ∧ p.toNat = 0x60000000 + k.toNat := by
  have hsub := BitVec.toNat_sub_of_le h
  rw [BitVec.le_def] at h
  rw [BitVec.lt_def] at hlt
  simp only [BitVec.toNat_ofNat] at h hlt hsub
  refine ⟨p - kpStart, by omega, by ring, by omega⟩

theorem toNat_kvmToPhy {v : Addr} (h : kvStart ≤ v) (hlt : v < 0xA0000000#32) :
    (kvmToPhy v).toNat = v.toNat - 0x20000000 := by
  obtain ⟨k, hk, rfl, hv⟩ := exists_kvStart_add h hlt
  rw [kvmToPhy_add hk, hv, BitVec.toNat_add]
  simp only [BitVec.toNat_ofNat]
  omega

theorem toNat_phyToKvm {p : Addr} (h : kpStart ≤ p) (hlt : p < 0x80000000#32) :
    (phyToKvm p).toNat = p.toNat + 0x20000000 := by
  obtain ⟨k, hk, rfl, hp⟩ := exists_kpStart_add h hlt
  rw [phyToKvm_add hk, hp, BitVec.toNat_add]
  simp only [BitVec.toNat_ofNat]
  omega

theorem Layout.kEnd_bounds (l : Layout) :
    0x80008000 < l.kEnd.toNat ∧ l.kEnd.toNat < 0xA0000000 ∧
      (kvmToPhy l.kEnd).toNat = l.kEnd.toNat - 0x20000000 := by
  have hlt := l.lt_kEnd
  have hlt' := l.kEnd_lt
  have hstart : kvStart < 0x80008000#32 := by decide
  have hconv := toNat_kvmToPhy (BitVec.le_of_lt (BitVec.lt_trans hstart hlt)) hlt'
  rw [BitVec.lt_def] at hlt hlt'
  exact ⟨hlt, hlt', hconv⟩

end Sugarcat
