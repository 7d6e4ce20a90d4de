import Sugarcat.Machine.Memory

/-!
# Regions of memory

`mm_reg` of `mm/mm.h`, and the two tests of that header. Both compute the ends of the regions modulo
`2 ^ 32`, so a region that reaches the top of the address space ends at 0. The test for an overlap
asks whether the second region lies in the first one before anything else.

## What the tests are to mean

A region is a set of addresses. One lies within another if all of its addresses are there, and two
overlap if they share one (`RegionTests`). For regions that are not empty and do not wrap around
both are comparisons of bounds, computed without wrapping.

`regionTests_iff` says for which regions the tests mean that. They are right where the second region
begins below the first one, and otherwise where neither of them reaches the top of the address space
and they do not overlap in part.
-/

namespace Sugarcat

open ByteMemory

/-- `mm_reg` of `mm/mm.h`. -/
@[ext] structure MmReg where
  base : Addr
  size : Word
  deriving DecidableEq

def isWithinRegion (region subRegion : Option MmReg) : Bool :=
  match region, subRegion with
  | some region, some subRegion =>
    let subEnd := subRegion.base + subRegion.size
    let mainEnd := region.base + region.size
    if subRegion.base ≥ region.base then
      if subEnd ≤ mainEnd then true else false
    else false
  | _, _ => false

def isOverlapping (region subRegion : Option MmReg) : Bool :=
  match region, subRegion with
  | some r, some s =>
    let mainEnd := r.base + r.size
    let subEnd := s.base + s.size
    if isWithinRegion region subRegion then
      if subEnd > r.base ∧ s.base < mainEnd then true else false
    else false
  | _, _ => false

/-! ## The addresses of a region -/

namespace MmReg

/-- The first address behind the region, as a number. -/
def limit (r : MmReg) : ℕ := r.base.toNat + r.size.toNat

/-- `x` is an address of the region. -/
def Has (r : MmReg) (x : Addr) : Prop := r.base.toNat ≤ x.toNat ∧ x.toNat < r.limit

instance (r : MmReg) (x : Addr) : Decidable (r.Has x) := inferInstanceAs (Decidable (_ ∧ _))

/-- The region has an address, and does not go around the top of the address space. -/
structure Proper (r : MmReg) : Prop where
  pos : 0 < r.size.toNat
  fits : r.limit ≤ 2 ^ 32

variable {a b r : MmReg}

theorem Proper.base_lt (h : r.Proper) : r.base.toNat < r.limit :=
  Nat.lt_add_of_pos_right h.pos

theorem Proper.has_base (h : r.Proper) : r.Has r.base := ⟨le_rfl, h.base_lt⟩

theorem has_iff_inRange (h : r.limit ≤ 2 ^ 32) {x : Addr} :
    r.Has x ↔ InRange r.base r.size.toNat x := (inRange_iff h).symm

theorem Proper.has_ptr (h : r.Proper) {k : ℕ} (hk : r.base.toNat ≤ k) (hk' : k < r.limit) :
    r.Has (ptr k) := by
  have hfits := h.fits
  rw [Has, toNat_ptr (by omega)]
  exact ⟨hk, hk'⟩

theorem Proper.forall_has_iff (hb : b.Proper) :
    (∀ x, b.Has x → a.Has x) ↔ a.base.toNat ≤ b.base.toNat ∧ b.limit ≤ a.limit := by
  constructor
  · intro h
    have hlt := hb.base_lt
    have hfits := hb.fits
    -- the last address
    have hlast := h _ (hb.has_ptr (k := b.limit - 1) (by omega) (by omega))
    rw [Has, toNat_ptr (by omega)] at hlast
    exact ⟨(h _ hb.has_base).1, by omega⟩
  · rintro ⟨hbase, hlimit⟩ x ⟨hx, hx'⟩
    exact ⟨hbase.trans hx, hx'.trans_le hlimit⟩

theorem Proper.exists_has_iff (ha : a.Proper) (hb : b.Proper) :
    (∃ x, a.Has x ∧ b.Has x) ↔ a.base.toNat < b.limit ∧ b.base.toNat < a.limit := by
  constructor
  · rintro ⟨x, ⟨hax, hax'⟩, hbx, hbx'⟩
    exact ⟨hax.trans_lt hbx', hbx.trans_lt hax'⟩
  · rintro ⟨hab, hba⟩
    -- the larger of the two bases is in both
    rcases le_total a.base.toNat b.base.toNat with hle | hle
    · exact ⟨b.base, ⟨hle, hba⟩, hb.has_base⟩
    · exact ⟨a.base, ha.has_base, hle, hab⟩

theorem Proper.toNat_end (h : r.Proper) :
    (r.base + r.size).toNat = if r.limit < 2 ^ 32 then r.limit else 0 := by
  have hfits := h.fits
  have hlimit : r.limit = r.base.toNat + r.size.toNat := rfl
  rw [BitVec.toNat_add, ← hlimit]
  split_ifs with hlt
  · exact Nat.mod_eq_of_lt hlt
  · rw [le_antisymm hfits (Nat.le_of_not_lt hlt), Nat.mod_self]

end MmReg

/-! ## The tests -/

/-- The tests mean what they say, the second one where the regions are in the order that is
documented. -/
structure RegionTests (a b : MmReg) : Prop where
  within : isWithinRegion (some a) (some b) = true ↔ ∀ x, b.Has x → a.Has x
  overlapping : a.base.toNat ≤ b.base.toNat →
    (isOverlapping (some a) (some b) = true ↔ ∃ x, a.Has x ∧ b.Has x)

variable {a b : MmReg}

theorem isWithinRegion_iff :
    isWithinRegion (some a) (some b) = true ↔ a.base.toNat ≤ b.base.toNat ∧
      (b.base + b.size).toNat ≤ (a.base + a.size).toNat := by
  simp only [isWithinRegion, ge_iff_le, BitVec.le_def]
  split_ifs with hbase hend
  · exact iff_of_true rfl ⟨hbase, hend⟩
  · exact iff_of_false (by decide) fun h ↦ hend h.2
  · exact iff_of_false (by decide) fun h ↦ hbase h.1

theorem isOverlapping_iff :
    isOverlapping (some a) (some b) = true ↔ isWithinRegion (some a) (some b) = true ∧
      a.base.toNat < (b.base + b.size).toNat ∧ b.base.toNat < (a.base + a.size).toNat := by
  simp only [isOverlapping, gt_iff_lt, BitVec.lt_def]
  split_ifs with hin hends
  · exact iff_of_true rfl ⟨hin, hends⟩
  · exact iff_of_false (by decide) fun h ↦ hends h.2
  · exact iff_of_false (by decide) fun h ↦ hin h.1

/-- **The tests fail for regions that reach the top of the address space, and for those that overlap
in part.** -/
theorem regionTests_iff (ha : a.Proper) (hb : b.Proper) :
    RegionTests a b ↔ b.base.toNat < a.base.toNat ∨
      a.limit < 2 ^ 32 ∧ b.limit < 2 ^ 32 ∧ (a.limit ≤ b.base.toNat ∨ b.limit ≤ a.limit) := by
  have hafits := ha.fits
  have hbfits := hb.fits
  have halt := ha.base_lt
  have hblt := hb.base_lt
  have haend := ha.toNat_end
  have hbend := hb.toNat_end
  have hiff : RegionTests a b ↔
      (isWithinRegion (some a) (some b) = true ↔ ∀ x, b.Has x → a.Has x) ∧
        (a.base.toNat ≤ b.base.toNat →
          (isOverlapping (some a) (some b) = true ↔ ∃ x, a.Has x ∧ b.Has x)) :=
    ⟨fun h ↦ ⟨h.within, h.overlapping⟩, fun h ↦ ⟨h.1, h.2⟩⟩
  rw [hiff, isOverlapping_iff, isWithinRegion_iff, hb.forall_has_iff, ha.exists_has_iff hb]
  split_ifs at haend hbend <;> omega

theorem regionTests_iff_inside :
    RegionTests ⟨0x60000000#32, 0x10000000#32⟩ ⟨0x60008000#32, 0x4000#32⟩ :=
  (regionTests_iff ⟨by decide, by decide⟩ ⟨by decide, by decide⟩).mpr
    (Or.inr ⟨by decide, by decide, Or.inr (by decide)⟩)

/-- Two regions that share half of their addresses, and two that end with the address space. -/
theorem not_regionTests_halves :
    ¬RegionTests ⟨0x60000000#32, 0x2000#32⟩ ⟨0x60001000#32, 0x2000#32⟩ ∧
      ¬RegionTests ⟨0xF0000000#32, 0x10000000#32⟩ ⟨0xF0000000#32, 0x1000#32⟩ := by
  constructor
  · intro h
    have hshared := (h.overlapping (by decide)).mpr ⟨0x60001000#32, by decide, by decide⟩
    exact absurd hshared (by decide)
  · intro h
    have hin := h.within.mpr fun x hx ↦
      ⟨hx.1, hx.2.trans (by decide : (0xF0001000 : ℕ) < 0x100000000)⟩
    exact absurd hin (by decide)

end Sugarcat
