import Sugarcat.Armv7.LiveTables
import Sugarcat.Machine.Fields

/-!
# Directory descriptors, written and read back

`create_pgd_entry` puts the fields of an entry into a word and `get_pgd_entry` takes them out again,
each with its own masks and shifts. The fields of either kind of descriptor cover the word without
overlap, so the two are inverse to each other: on entries whose fields fit, up to the bits of the
address below its alignment, and on all words of a kind that is decoded.

## Fields

The address, permission, domain, flags and type of a descriptor are fields in the sense of
`Bits.IsFields`, and the word is their union. A kind without a permission has an empty field for it.
`Armv7MmuPgdEntry.Fits` says that an entry keeps to its fields, and `Armv7MmuPgdEntry.kept` is what
a descriptor of its kind can hold of it.

## Both directions

From an entry to a word and back, each field is read with its mask. From a word to an entry and
back, the masks cover the word, so the union of its fields is the word itself. A word of a kind that
is not decoded gives an error, and these are the words of the two kinds that are neither a section
nor a table.
-/

namespace Sugarcat

open ByteMemory

/-! ## The fields of a kind -/

/-- Where the address of a descriptor stands. -/
def Armv7MmuPgdType.addrMask : Armv7MmuPgdType → Word
  | .pgdSection => pgdSectMask
  | .pgdTable => pgdTableMask
  | .pgdInvalid | .pgdSuperSection => 0#32

/-- Where the permission of a descriptor stands. A table has none. -/
def Armv7MmuPgdType.apMask : Armv7MmuPgdType → Word
  | .pgdSection => pgdApMask
  | .pgdInvalid | .pgdTable | .pgdSuperSection => 0#32

/-- The bits of a descriptor outside its address, domain, permission and type. -/
def Armv7MmuPgdType.flagMask (t : Armv7MmuPgdType) : Word :=
  ~~~(t.addrMask ||| pgdDomainMask ||| t.apMask ||| pgdTypeMask)

/-- The kinds that `get_pgd_entry` decodes. -/
def Armv7MmuPgdType.Decoded (t : Armv7MmuPgdType) : Prop := t = .pgdSection ∨ t = .pgdTable

instance (t : Armv7MmuPgdType) : Decidable t.Decoded := inferInstanceAs (Decidable (_ ∨ _))

/-- An entry of a kind that is decoded, whose domain and flags fit their fields. -/
structure Armv7MmuPgdEntry.Fits (e : Armv7MmuPgdEntry) : Prop where
  type : e.type.Decoded
  domain : e.domain < 16#8
  flags : e.flags &&& e.type.flagMask = e.flags

/-- What a descriptor keeps of an entry: the address down to its alignment, and the permission of a
section. -/
def Armv7MmuPgdEntry.kept (e : Armv7MmuPgdEntry) : Armv7MmuPgdEntry :=
  { e with
    phyAddr := e.phyAddr &&& e.type.addrMask
    accPerm := if e.type = .pgdSection then e.accPerm else .accKrwNou }

/-! ## The domain and the permission -/

theorem zeroExtend_domain_within {d : Byte} (hd : d < 16#8) :
    (d.zeroExtend 32 <<< pgdDomainShift : Word) &&& pgdDomainMask
      = d.zeroExtend 32 <<< pgdDomainShift ∧
    ((d.zeroExtend 32 <<< pgdDomainShift : Word) >>> pgdDomainShift).setWidth 8 = d := by
  have hall : ∀ k : Fin 16,
      ((BitVec.ofNat 8 k).zeroExtend 32 <<< pgdDomainShift : Word) &&& pgdDomainMask
          = (BitVec.ofNat 8 k).zeroExtend 32 <<< pgdDomainShift ∧
        (((BitVec.ofNat 8 k).zeroExtend 32 <<< pgdDomainShift : Word) >>> pgdDomainShift).setWidth 8
          = BitVec.ofNat 8 k := by decide
  simpa using hall ⟨d.toNat, hd⟩

theorem accPerm_within (acc : Armv7MmuAccPerm) :
    (acc.toWord <<< pgdSectApShift) &&& pgdApMask = acc.toWord <<< pgdSectApShift ∧
      .ofWord ((acc.toWord <<< pgdSectApShift) >>> pgdSectApShift) = acc := by
  cases acc <;> decide

/-- Two bits denote the permission that is written as these two bits. -/
theorem Armv7MmuAccPerm.toWord_ofWord {x : Word} (hx : x < 4#32) : (ofWord x).toWord = x := by
  have hall : ∀ k : Fin 4, (ofWord (BitVec.ofNat 32 k)).toWord = BitVec.ofNat 32 k := by decide
  simpa using hall ⟨x.toNat, hx⟩

variable {e : Armv7MmuPgdEntry} {x : Word}

theorem domain_encode_decode (x : Word) :
    ((((x &&& pgdDomainMask) >>> pgdDomainShift).setWidth 8 : Byte).zeroExtend 32
      <<< pgdDomainShift : Word) = x &&& pgdDomainMask := by
  have hsmall : ((x &&& pgdDomainMask) >>> pgdDomainShift).toNat < 2 ^ 8 := by
    have hle : (x &&& pgdDomainMask).toNat ≤ 0x1E0 := Nat.and_le_right
    rw [Bits.toNat_ushiftRight_eq]
    change (x &&& pgdDomainMask).toNat / 32 < 256
    omega
  have hback : ((((x &&& pgdDomainMask) >>> pgdDomainShift).setWidth 8 : Byte).zeroExtend 32 : Word)
      = (x &&& pgdDomainMask) >>> pgdDomainShift := by
    apply BitVec.eq_of_toNat_eq
    simp only [BitVec.truncate_eq_setWidth, BitVec.toNat_setWidth]
    omega
  rw [hback]
  exact Bits.shiftLeft_ushiftRight_of_within (m := pgdDomainMask)
    (by rw [BitVec.and_assoc, BitVec.and_self]) rfl

theorem accPerm_encode_decode (x : Word) :
    (Armv7MmuAccPerm.ofWord ((x &&& pgdApMask) >>> pgdSectApShift)).toWord <<< pgdSectApShift
      = x &&& pgdApMask := by
  have hsmall : (x &&& pgdApMask) >>> pgdSectApShift < 4#32 := by
    have hle : (x &&& pgdApMask).toNat ≤ 0xC00 := Nat.and_le_right
    rw [BitVec.lt_def, Bits.toNat_ushiftRight_eq]
    change (x &&& pgdApMask).toNat / 1024 < 4
    omega
  rw [Armv7MmuAccPerm.toWord_ofWord hsmall]
  exact Bits.shiftLeft_ushiftRight_of_within (m := pgdApMask)
    (by rw [BitVec.and_assoc, BitVec.and_self]) rfl

/-! ## Descriptors as fields -/

/-- The fields that `create_pgd_entry` unites. -/
def Armv7MmuPgdEntry.fields (e : Armv7MmuPgdEntry) : List (Word × Word) :=
  [(e.type.addrMask, e.phyAddr &&& e.type.addrMask),
    (e.type.apMask, if e.type = .pgdSection then e.accPerm.toWord <<< pgdSectApShift else 0#32),
    (pgdDomainMask, e.domain.zeroExtend 32 <<< pgdDomainShift),
    (e.type.flagMask, e.flags),
    (pgdTypeMask, e.type.toWord)]

theorem pgdEntryWord_eq_pack (h : e.type.Decoded) : pgdEntryWord e = Bits.pack e.fields := by
  rcases h with ht | ht <;>
    simp [pgdEntryWord, Armv7MmuPgdEntry.fields, ht, Bits.pack, Armv7MmuPgdType.addrMask,
      BitVec.or_assoc]

theorem Armv7MmuPgdEntry.Fits.isFields (h : e.Fits) : Bits.IsFields e.fields := by
  obtain ⟨hdom, -⟩ := zeroExtend_domain_within h.domain
  have hflags := h.flags
  constructor
  · intro f hf
    simp only [Armv7MmuPgdEntry.fields, List.mem_cons, List.not_mem_nil, or_false] at hf
    rcases hf with rfl | rfl | rfl | rfl | rfl
    · exact by rw [BitVec.and_assoc, BitVec.and_self]
    · rcases h.type with ht | ht
      · rw [if_pos ht, ht]
        exact (accPerm_within e.accPerm).1
      · simp [ht]
    · exact hdom
    · exact hflags
    · rcases h.type with ht | ht <;> rw [ht] <;> rfl
  · rcases h.type with ht | ht <;> simp [Armv7MmuPgdEntry.fields, ht] <;> decide

/-! ## Round trips -/

variable {s : Machine} {pgd v : Addr}

/-- Decoding takes the fields of a descriptor that fits. -/
theorem getPgdEntry_createPgdEntry (h : e.Fits) (pgd : Addr) (s : Machine) :
    getPgdEntry pgd e.virtAddr (createPgdEntry pgd (some e) s).2 = .ok e.kept := by
  have hread : ∀ f ∈ e.fields, pgdEntryWord e &&& f.1 = f.2 := by
    intro f hf
    rw [pgdEntryWord_eq_pack h.type]
    exact h.isFields.pack_and hf
  simp only [Armv7MmuPgdEntry.fields, List.forall_mem_cons, List.not_mem_nil, false_imp_iff,
    implies_true, and_true] at hread
  obtain ⟨haddr, hap, hdom, hflags, htype⟩ := hread
  obtain ⟨-, hdomain⟩ := zeroExtend_domain_within h.domain
  have hperm := (accPerm_within e.accPerm).2
  simp only [createPgdEntry, getPgdEntry, Machine.load_store_self, hdom, hdomain, htype]
  rcases h.type with ht | ht
  · rw [if_pos ht] at hap
    have haddr' : pgdEntryWord e &&& pgdSectMask = e.phyAddr &&& pgdSectMask := by
      rwa [ht] at haddr
    have hap' : pgdEntryWord e &&& pgdApMask = e.accPerm.toWord <<< pgdSectApShift := by
      rwa [ht] at hap
    have hflags' : pgdEntryWord e &&& ~~~(pgdSectMask ||| pgdDomainMask ||| pgdApMask
        ||| pgdTypeMask) = e.flags := by rwa [ht] at hflags
    rw [if_pos (by rw [ht]), haddr', hap', hflags', hperm, Armv7MmuPgdEntry.kept, if_pos ht, ht]
    rfl
  · have haddr' : pgdEntryWord e &&& pgdTableMask = e.phyAddr &&& pgdTableMask := by
      rwa [ht] at haddr
    have hflags' : pgdEntryWord e &&& ~~~(pgdTableMask ||| pgdDomainMask ||| pgdTypeMask)
        = e.flags := by
      rw [ht] at hflags
      simpa [Armv7MmuPgdType.flagMask, Armv7MmuPgdType.addrMask, Armv7MmuPgdType.apMask]
        using hflags
    rw [if_neg (by rw [ht]; decide), if_pos (by rw [ht]), haddr', hflags', Armv7MmuPgdEntry.kept,
      if_neg (by rw [ht]; decide), ht]
    rfl

/-- **Encoding what was decoded gives the word back.** -/
theorem pgdEntryWord_getPgdEntry {e : Armv7MmuPgdEntry} (h : getPgdEntry pgd v s = .ok e) :
    pgdEntryWord e = s.load (pgd + 4#32 * (v >>> pgdIdxShift)) ∧ e.virtAddr = v := by
  rw [getPgdEntry] at h
  generalize s.load (pgd + 4#32 * (v >>> pgdIdxShift)) = ent at h ⊢
  split_ifs at h with hsect htab
  · rw [Except.ok.injEq] at h
    subst h
    refine ⟨?_, rfl⟩
    simp only [pgdEntryWord, domain_encode_decode, accPerm_encode_decode, ← hsect, BitVec.and_assoc,
      ← BitVec.and_or_distrib_left]
    exact BitVec.and_allOnes
  · rw [Except.ok.injEq] at h
    subst h
    refine ⟨?_, rfl⟩
    simp only [pgdEntryWord, domain_encode_decode, ← htab, BitVec.and_assoc,
      ← BitVec.and_or_distrib_left]
    exact BitVec.and_allOnes

theorem exists_getPgdEntry (h : s.load (pgd + 4#32 * (v >>> pgdIdxShift)) &&& pgdTypeMask
      = Armv7MmuPgdType.pgdSection.toWord ∨
    s.load (pgd + 4#32 * (v >>> pgdIdxShift)) &&& pgdTypeMask = Armv7MmuPgdType.pgdTable.toWord) :
    ∃ e, getPgdEntry pgd v s = .ok e := by
  simp only [getPgdEntry]
  rcases h with h | h
  · rw [if_pos h]
    exact ⟨_, rfl⟩
  · rw [h, if_neg (by decide), if_pos rfl]
    exact ⟨_, rfl⟩

/-- **Directory descriptors round-trip.** An entry that fits is read back as what its descriptor
keeps of it; a word of a kind that is decoded is restored by writing back what was decoded; any
other word is not decoded. -/
theorem pgdEntry_roundTrip (s : Machine) (pgd v : Addr) :
    (∀ e : Armv7MmuPgdEntry, e.Fits → e.virtAddr = v →
      (createPgdEntry pgd (some e) s).1 = .esucc ∧
        getPgdEntry pgd v (createPgdEntry pgd (some e) s).2 = .ok e.kept) ∧
    ((s.load (pgd + 4#32 * (v >>> pgdIdxShift)) &&& pgdTypeMask
          = Armv7MmuPgdType.pgdSection.toWord ∨
        s.load (pgd + 4#32 * (v >>> pgdIdxShift)) &&& pgdTypeMask
          = Armv7MmuPgdType.pgdTable.toWord) →
      ∃ e, getPgdEntry pgd v s = .ok e ∧ ∀ t : Machine, createPgdEntry pgd (some e) t
        = (.esucc, t.store (pgd + 4#32 * (v >>> pgdIdxShift))
            (s.load (pgd + 4#32 * (v >>> pgdIdxShift))))) ∧
    (s.load (pgd + 4#32 * (v >>> pgdIdxShift)) &&& pgdTypeMask
        ≠ Armv7MmuPgdType.pgdSection.toWord →
      s.load (pgd + 4#32 * (v >>> pgdIdxShift)) &&& pgdTypeMask
        ≠ Armv7MmuPgdType.pgdTable.toWord →
      getPgdEntry pgd v s = .error .enotfnd) := by
  refine ⟨?_, ?_, ?_⟩
  · rintro e he rfl
    exact ⟨rfl, getPgdEntry_createPgdEntry he pgd s⟩
  · intro hkind
    obtain ⟨e, hget⟩ := exists_getPgdEntry hkind
    obtain ⟨hword, hvirt⟩ := pgdEntryWord_getPgdEntry hget
    refine ⟨e, hget, ?_⟩
    intro t
    rw [createPgdEntry, hword, hvirt]
  · intro hsect htab
    rw [getPgdEntry, if_neg hsect, if_neg htab]

/-- A section with an address that is not aligned, a domain, a permission and two flags. -/
theorem pgdEntry_roundTrip_section :
    getPgdEntry 0x4000#32 0x80100000#32 (createPgdEntry 0x4000#32
        (some ⟨0x60012345#32, 0x80100000#32, 5#8, .accKrwUrw, .pgdSection, 0xC#32⟩) oneTable).2
      = .ok ⟨0x60000000#32, 0x80100000#32, 5#8, .accKrwUrw, .pgdSection, 0xC#32⟩ :=
  ((pgdEntry_roundTrip oneTable 0x4000#32 0x80100000#32).1 _
    ⟨by decide, by decide, by decide⟩ rfl).2

end Sugarcat
