import Sugarcat.Armv7.PgdEntry

/-!
# Domains

The descriptor of a MiB names one of sixteen domains, and DACR has two bits for each of them. Of an
access to a domain of the clients the permissions are checked, of one to a domain of the managers
they are not.

DACR is an array of sixteen fields of two bits, and `armv7_set_domain` stores one of them, so what
it does to the others is the general fact about fields of one width. The domain of a descriptor is a
field of the word, at the same place whatever the type of the descriptor is.

`IsChecked` puts the two together: the permissions of an address are checked if the live slot of its
MiB names a domain that is a client. It is what the setting of the domains at boot is for.
-/

namespace Sugarcat

open ByteMemory

abbrev armv7DacrClient : Byte := 0x1#8

/-- What DACR says of a domain. -/
def domainAccess (s : Machine) (d : Byte) : BitVec 2 := s.dacr.extractLsb' (d.toNat * 2) 2

/-- The domain that a descriptor names, as `get_pgd_entry` decodes it. -/
def pgdDomain (ent : Word) : Byte := ((ent &&& pgdDomainMask) >>> pgdDomainShift).setWidth 8

/-- Of an access to the address the permissions are checked. -/
def IsChecked (s : Machine) (v : Addr) : Prop :=
  domainAccess s (pgdDomain (liveSlot s (slotIndex v))) = armv7DacrClient.setWidth 2

variable {s : Machine} {d : Byte}

/-- **One domain is set**, and no other. -/
theorem domainAccess_armv7SetDomain (hd : d < 16#8) (c a : Byte) (s : Machine) :
    domainAccess (armv7SetDomain c a s).2 d =
      if c = d then a.setWidth 2 else domainAccess s d := by
  have hdlt : d.toNat < 16 := hd
  have hword : (a.zeroExtend 32 : Word).setWidth 2 = a.setWidth 2 := by simp
  rw [armv7SetDomain]
  dsimp only
  split_ifs with hc heq heq
  · subst heq
    exact (Bits.extractLsb'_putField (m := 0x3#32) rfl (by omega) (Or.inl rfl)).trans
      ((if_pos rfl).trans hword)
  · have hclt : c.toNat ≤ 15 := hc
    have hne : c.toNat ≠ d.toNat := fun h ↦ heq (BitVec.eq_of_toNat_eq h)
    exact (Bits.extractLsb'_putField (m := 0x3#32) rfl (by omega) (by omega)).trans
      (if_neg (by omega))
  · subst heq
    exact absurd (Nat.le_of_lt_succ hdlt) hc
  · rfl

theorem domainAccess_congr {t : Machine} (h : t.dacr = s.dacr) (d : Byte) :
    domainAccess t d = domainAccess s d := by
  rw [domainAccess, h, domainAccess]

/-- **The domain of an entry is read back** from its word, whatever its type is. -/
theorem pgdDomain_pgdEntryWord {e : Armv7MmuPgdEntry} (hdom : e.domain < 16#8)
    (hflags : e.flags = 0#32) : pgdDomain (pgdEntryWord e) = e.domain := by
  obtain ⟨hwithin, hback⟩ := zeroExtend_domain_within hdom
  have hsect : (pgdSectMask : Word) &&& pgdDomainMask = 0#32 := rfl
  have htable : (pgdTableMask : Word) &&& pgdDomainMask = 0#32 := rfl
  have hperm : (e.accPerm.toWord <<< pgdSectApShift : Word) &&& pgdDomainMask = 0#32 := by
    cases e.accPerm <;> rfl
  have htype : e.type.toWord &&& pgdDomainMask = 0#32 := by cases e.type <;> rfl
  have hfield : pgdEntryWord e &&& pgdDomainMask = e.domain.zeroExtend 32 <<< pgdDomainShift := by
    simp only [pgdEntryWord, BitVec.and_or_distrib_right, hwithin, hflags, htype,
      BitVec.or_zero]
    cases e.type with
    | pgdInvalid | pgdSuperSection => rw [BitVec.zero_and, BitVec.zero_or]
    | pgdTable => rw [BitVec.and_assoc, htable, BitVec.and_zero, BitVec.zero_or]
    | pgdSection =>
      rw [BitVec.and_or_distrib_right, hperm, BitVec.and_assoc, hsect, BitVec.and_zero,
        BitVec.zero_or, BitVec.zero_or]
  rw [pgdDomain, hfield, hback]

end Sugarcat
