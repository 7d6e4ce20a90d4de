import Sugarcat.Armv6.Mmu
import Sugarcat.Machine.Fields

/-!
# Mapping a page through a table

`armv6_map_pde` puts a table into the directory, and `armv6_map_pte` puts a page into the table it
finds there. The permission of the page is moved to bit 12 instead of bit 4, which is in the address
of the frame, so the two permissions that the code knows never get to where the hardware looks for
them.

## What the hardware finds

`armv6Walk` is the translation by the two levels: the word of the directory that the address selects
has to be that of a table, and the word of the table is the descriptor of the page. `IsSmallPage`
says which frame and which permission a descriptor stands for.

## When the slip makes no difference

`mapsPage_iff` says for which pages that makes no difference. On the way, `frameOf_eq_iff` is for
which the frame is right at least: a shift into a bit that the address has anyway leaves the frame
alone, and a permission of 0 shifted to a wrong place is still 0. A table at 0 is taken for none,
which is the other case in which the page is not mapped.
-/

namespace Sugarcat

open ByteMemory

/-! ## What the hardware finds -/

abbrev armv6TypeMask : Word := 0x3#32

/-- The descriptor of `vaddr`, by way of a table. -/
def armv6Walk (H : MmuHeader) (mvm : Word) (m : Memory) (pgDir vaddr : Addr) : Option Word :=
  let pde := readWord m (pgDir + 4#32 * armv6PdeIndex H mvm vaddr)
  if pde &&& armv6TypeMask = armv6MmuCoarse then
    some (readWord m ((pde &&& pdePteMask) + 4#32 * ((vaddr >>> pteShift) &&& 0xFF#32)))
  else none

/-- A descriptor of a small page with the given frame and permission. -/
structure IsSmallPage (d frame ap : Word) : Prop where
  type : d &&& armv6TypeMask = armv6Mmu4kb
  frame : d &&& pteMask = frame
  ap : (d >>> pteApShift) &&& 0x3#32 = ap

/-- A table at `dir.paddr`, and a page in it. The slot of the directory is not in the table. -/
structure ThroughTable (H : MmuHeader) (mvm : Word) (dir page : Armv6MmuEntry) : Prop where
  dirKind : dir.entry = H.pgDirTable
  pageKind : page.entry = H.pgTableEntry
  pgDir : page.pgDir = dir.pgDir
  index : armv6PdeIndex H mvm page.vaddr = armv6PdeIndex H mvm dir.vaddr
  aligned : dir.paddr.toNat % 1024 = 0
  apart : Apart (dir.pgDir + 4#32 * armv6PdeIndex H mvm dir.vaddr) 4 dir.paddr 1024

/-- The two slots. -/
def MappedSlots (H : MmuHeader) (mvm : Word) (dir page : Armv6MmuEntry) (x : Addr) : Prop :=
  InRange (dir.pgDir + 4#32 * armv6PdeIndex H mvm dir.vaddr) 4 x ∨
    InRange (dir.paddr + 4#32 * ((page.vaddr >>> pteShift) &&& 0xFF#32)) 4 x

/-- Both calls succeed, the walk finds the page with its permission, and nothing but the two slots
is changed. -/
structure MapsPage (H : MmuHeader) (mvm : Word) (m : Memory) (dir page : Armv6MmuEntry) : Prop where
  installs : (armv6MapPde H mvm dir m).1 = 0#32
  maps : (armv6MapPte H mvm page (armv6MapPde H mvm dir m).2).1 = 0#32
  walk : ∃ d, armv6Walk H mvm (armv6MapPte H mvm page (armv6MapPde H mvm dir m).2).2 page.pgDir
      page.vaddr = some d ∧
    IsSmallPage d (page.paddr &&& pteMask) (armv6PgAccToArm H page.access)
  kept : EqOutside (MappedSlots H mvm dir page) m
    (armv6MapPte H mvm page (armv6MapPde H mvm dir m).2).2

variable {H : MmuHeader} {mvm : Word} {m : Memory} {dir page mme : Armv6MmuEntry}

/-! ## The interface -/

theorem archMmuMap_of_dirTable (h : mme.entry = H.pgDirTable) :
    archMmuMap H mvm mme m = armv6MapPde H mvm mme m :=
  if_pos (h ▸ H.dirBit _ (by simp))

theorem archMmuMap_of_tableEntry (h : mme.entry = H.pgTableEntry) :
    archMmuMap H mvm mme m = armv6MapPte H mvm mme m :=
  if_neg (not_not.mpr (h ▸ H.tableBit _ (by simp)))

/-! ## The descriptors -/

/-- The flag that both functions put into a descriptor. -/
def cachedBit (H : MmuHeader) (mme : Armv6MmuEntry) : Word :=
  if mme.flags &&& H.mmuCached ≠ 0#32 then armv6MmuCached else 0#32

theorem cachedBit_cases (H : MmuHeader) (mme : Armv6MmuEntry) :
    cachedBit H mme = armv6MmuCached ∨ cachedBit H mme = 0#32 := by
  rw [cachedBit]
  split_ifs
  · exact Or.inl rfl
  · exact Or.inr rfl

/-- The descriptor of a table. -/
def tableWord (H : MmuHeader) (mme : Armv6MmuEntry) : Word :=
  ((mme.paddr &&& pdePteMask) ||| armv6MmuCoarse) ||| cachedBit H mme

/-- The descriptor of a page. -/
def pageWord (H : MmuHeader) (mme : Armv6MmuEntry) : Word :=
  (((mme.paddr &&& pteMask) ||| armv6Mmu4kb) ||| (armv6PgAccToArm H mme.access <<< pteShift))
    ||| cachedBit H mme

theorem ite_or_cached (x : Word) :
    (if mme.flags &&& H.mmuCached ≠ 0#32 then x ||| armv6MmuCached else x)
      = x ||| cachedBit H mme := by
  rw [cachedBit]
  split_ifs
  · rfl
  · exact BitVec.or_zero.symm

theorem armv6MapPde_of_table (h : mme.entry = H.pgDirTable) (m : Memory) :
    armv6MapPde H mvm mme m
      = (0#32, writeWord m (mme.pgDir + 4#32 * armv6PdeIndex H mvm mme.vaddr)
          (tableWord H mme)) := by
  have hne : mme.entry ≠ H.pgDirEntry := by
    rw [h]
    have hkinds := H.kinds
    simp only [List.nodup_cons, List.mem_cons, not_or] at hkinds
    exact fun heq ↦ hkinds.1.1 heq.symm
  rw [armv6MapPde, if_neg hne, if_pos h, ite_or_cached, tableWord]

theorem armv6MapPte_of_page (h : mme.entry = H.pgTableEntry) {table : Addr}
    (htable : readWord m (mme.pgDir + 4#32 * armv6PdeIndex H mvm mme.vaddr) &&& pdePteMask = table)
    (hne : table ≠ 0#32) :
    armv6MapPte H mvm mme m
      = (0#32, writeWord m (table + 4#32 * ((mme.vaddr >>> pteShift) &&& 0xFF#32))
          (pageWord H mme)) := by
  rw [armv6MapPte]
  dsimp only
  rw [htable, if_neg hne, if_pos h, ite_or_cached, pageWord]

theorem armv6PgAccToArm_cases (H : MmuHeader) (acc : Word) :
    acc = H.kernRw ∧ armv6PgAccToArm H acc = armv6MmuAccKrw ∨
      acc = H.userRw ∧ armv6PgAccToArm H acc = armv6MmuAccUrw ∨
        (acc ≠ H.kernRw ∧ acc ≠ H.userRw) ∧ armv6PgAccToArm H acc = 0#32 := by
  rw [armv6PgAccToArm]
  split_ifs with hkern huser
  · exact Or.inl ⟨hkern, rfl⟩
  · exact Or.inr (Or.inl ⟨huser, rfl⟩)
  · exact Or.inr (Or.inr ⟨⟨hkern, huser⟩, rfl⟩)

theorem armv6PgAccToArm_eq_zero_iff {acc : Word} :
    armv6PgAccToArm H acc = 0#32 ↔ acc ≠ H.kernRw ∧ acc ≠ H.userRw := by
  rcases armv6PgAccToArm_cases H acc with ⟨rfl, hacc⟩ | ⟨rfl, hacc⟩ | ⟨hne, hacc⟩ <;> rw [hacc]
  · exact iff_of_false (by decide) fun h ↦ h.1 rfl
  · exact iff_of_false (by decide) fun h ↦ h.2 rfl
  · exact iff_of_true rfl hne

/-! ## Fields -/

/-- The fields of a descriptor: an address under `mask`, the type, and the flag. -/
def descriptorFields (mask addr type cached : Word) : List (Word × Word) :=
  [(mask, addr), (armv6TypeMask, type), (armv6MmuCached, cached)]

theorem isFields_descriptorFields {mask addr type : Word} (haddr : addr &&& mask = addr)
    (htype : type &&& armv6TypeMask = type)
    (hmask : mask &&& armv6TypeMask = 0#32 ∧ mask &&& armv6MmuCached = 0#32)
    (H : MmuHeader) (mme : Armv6MmuEntry) :
    Bits.IsFields (descriptorFields mask addr type (cachedBit H mme)) := by
  have hcached : cachedBit H mme &&& armv6MmuCached = cachedBit H mme := by
    rcases cachedBit_cases H mme with hcached | hcached <;> rw [hcached] <;> rfl
  refine ⟨?_, ?_⟩
  · simpa [descriptorFields] using ⟨haddr, htype, hcached⟩
  · simpa [descriptorFields] using ⟨hmask, rfl⟩

/-- The address that a page gets: the permission is in it. -/
def frameOf (H : MmuHeader) (mme : Armv6MmuEntry) : Word :=
  (mme.paddr &&& pteMask) ||| (armv6PgAccToArm H mme.access <<< pteShift)

theorem pageWord_eq_pack (H : MmuHeader) (mme : Armv6MmuEntry) : pageWord H mme
    = Bits.pack (descriptorFields pteMask (frameOf H mme) armv6Mmu4kb (cachedBit H mme)) := by
  rw [pageWord, descriptorFields, Bits.pack, Bits.pack, Bits.pack, Bits.pack, frameOf,
    BitVec.or_zero, BitVec.or_assoc _ armv6Mmu4kb, BitVec.or_comm armv6Mmu4kb, BitVec.or_assoc,
    BitVec.or_assoc, BitVec.or_assoc]

theorem tableWord_eq_pack (H : MmuHeader) (mme : Armv6MmuEntry) : tableWord H mme
    = Bits.pack (descriptorFields pdePteMask (mme.paddr &&& pdePteMask) armv6MmuCoarse
        (cachedBit H mme)) := by
  rw [tableWord, descriptorFields, Bits.pack, Bits.pack, Bits.pack, Bits.pack, BitVec.or_zero,
    BitVec.or_assoc]

theorem frameOf_and (H : MmuHeader) (mme : Armv6MmuEntry) :
    frameOf H mme &&& pteMask = frameOf H mme := by
  have hacc : (armv6PgAccToArm H mme.access <<< pteShift) &&& pteMask
      = armv6PgAccToArm H mme.access <<< pteShift := by
    rcases armv6PgAccToArm_cases H mme.access with ⟨-, hacc⟩ | ⟨-, hacc⟩ | ⟨-, hacc⟩ <;>
      rw [hacc] <;> rfl
  rw [frameOf, BitVec.and_or_distrib_right, hacc, BitVec.and_assoc, BitVec.and_self]

/-- **What is in the descriptor of a page.** -/
theorem isSmallPage_pageWord (H : MmuHeader) (mme : Armv6MmuEntry) :
    IsSmallPage (pageWord H mme) (frameOf H mme) 0#32 := by
  have hfields : Bits.IsFields (descriptorFields pteMask (frameOf H mme) armv6Mmu4kb
      (cachedBit H mme)) := isFields_descriptorFields (frameOf_and H mme) rfl ⟨rfl, rfl⟩ H mme
  rw [pageWord_eq_pack]
  refine ⟨hfields.pack_and (f := (armv6TypeMask, armv6Mmu4kb)) (by simp [descriptorFields]),
    hfields.pack_and (f := (pteMask, frameOf H mme)) (by simp [descriptorFields]), ?_⟩
  -- no field has the bits of the permission
  have hap := hfields.pack_and_eq_zero (m := 0x3#32 <<< pteApShift)
    (by simpa [descriptorFields] using ⟨rfl, rfl, rfl⟩)
  have hback : (0x3#32 : Word) = (0x3#32 <<< pteApShift) >>> pteApShift := rfl
  rw [hback, ← BitVec.ushiftRight_and_distrib, hap, BitVec.zero_ushiftRight]

/-- The frame is the one asked for where it has the bits of the permission anyway. -/
theorem frameOf_eq_iff (H : MmuHeader) (mme : Armv6MmuEntry) :
    frameOf H mme = mme.paddr &&& pteMask ↔
      (mme.paddr &&& pteMask) &&& (armv6PgAccToArm H mme.access <<< pteShift)
        = armv6PgAccToArm H mme.access <<< pteShift :=
  Bits.or_eq_left_iff

theorem tableWord_spec (H : MmuHeader) {mme : Armv6MmuEntry} (h : mme.paddr.toNat % 1024 = 0) :
    tableWord H mme &&& armv6TypeMask = armv6MmuCoarse ∧
      tableWord H mme &&& pdePteMask = mme.paddr := by
  have hpaddr : mme.paddr &&& pdePteMask = mme.paddr := by
    apply BitVec.eq_of_toNat_eq
    rw [Bits.toNat_and_high (k := 10) (by decide) (by decide)]
    omega
  have hfields : Bits.IsFields (descriptorFields pdePteMask mme.paddr armv6MmuCoarse
      (cachedBit H mme)) := isFields_descriptorFields hpaddr rfl ⟨rfl, rfl⟩ H mme
  rw [tableWord_eq_pack, hpaddr]
  exact ⟨hfields.pack_and (f := (armv6TypeMask, armv6MmuCoarse)) (by simp [descriptorFields]),
    hfields.pack_and (f := (pdePteMask, mme.paddr)) (by simp [descriptorFields])⟩

/-! ## Both levels -/

theorem ThroughTable.apart_slots (h : ThroughTable H mvm dir page) :
    Apart (dir.pgDir + 4#32 * armv6PdeIndex H mvm dir.vaddr) 4
      (dir.paddr + 4#32 * ((page.vaddr >>> pteShift) &&& 0xFF#32)) 4 := by
  have hindex : ((page.vaddr >>> pteShift) &&& 0xFF#32).toNat < 256 := by
    rw [Bits.toNat_and_low (k := 8) (by decide)]
    exact Nat.mod_lt _ (by decide)
  have hoff : (4#32 * ((page.vaddr >>> pteShift) &&& 0xFF#32)).toNat + 4 ≤ 1024 := by
    rw [BitVec.toNat_mul, BitVec.toNat_ofNat]
    omega
  exact fun x hdir hslot ↦ h.apart x hdir (inRange_of_inRange_add hoff hslot)

/-- What is left behind by both calls, for a table that is not at 0. -/
theorem ThroughTable.mapPte_eq (h : ThroughTable H mvm dir page) (hne : dir.paddr ≠ 0#32)
    (m : Memory) : armv6MapPte H mvm page (armv6MapPde H mvm dir m).2
      = (0#32, writeWord
          (writeWord m (dir.pgDir + 4#32 * armv6PdeIndex H mvm dir.vaddr) (tableWord H dir))
          (dir.paddr + 4#32 * ((page.vaddr >>> pteShift) &&& 0xFF#32)) (pageWord H page)) := by
  rw [armv6MapPde_of_table h.dirKind]
  refine armv6MapPte_of_page h.pageKind ?_ hne
  rw [h.pgDir, h.index, readWord_writeWord_self]
  exact (tableWord_spec H h.aligned).2

/-- A table at 0 is taken for none. -/
theorem ThroughTable.mapPte_of_null (h : ThroughTable H mvm dir page) (hnull : dir.paddr = 0#32)
    (m : Memory) :
    (armv6MapPte H mvm page (armv6MapPde H mvm dir m).2).1 = H.mmuErrNoPageTable := by
  have htable := (tableWord_spec H h.aligned).2
  rw [armv6MapPde_of_table h.dirKind, armv6MapPte]
  dsimp only
  rw [h.pgDir, h.index, readWord_writeWord_self, htable, if_pos hnull]

/-- **A page is mapped through a table as it is asked for exactly where it has none of the two
permissions**, and the table is not at 0. -/
theorem mapsPage_iff (h : ThroughTable H mvm dir page) (m : Memory) :
    MapsPage H mvm m dir page ↔
      dir.paddr ≠ 0#32 ∧ page.access ≠ H.kernRw ∧ page.access ≠ H.userRw := by
  have hdir : armv6MapPde H mvm dir m = _ := armv6MapPde_of_table h.dirKind m
  by_cases hnull : dir.paddr = 0#32
  · refine iff_of_false (fun hmaps ↦ ?_) fun hne ↦ hne.1 hnull
    have hret := hmaps.maps
    rw [h.mapPte_of_null hnull] at hret
    exact H.error_ne_zero hret
  have hpage := h.mapPte_eq hnull m
  have hwalk : armv6Walk H mvm (armv6MapPte H mvm page (armv6MapPde H mvm dir m).2).2 page.pgDir
      page.vaddr = some (pageWord H page) := by
    obtain ⟨htype, htable⟩ := tableWord_spec H h.aligned
    have hread : readWord (armv6MapPte H mvm page (armv6MapPde H mvm dir m).2).2
        (dir.pgDir + 4#32 * armv6PdeIndex H mvm dir.vaddr) = tableWord H dir := by
      rw [hpage, readWord_writeWord_of_apart _ h.apart_slots.symm, readWord_writeWord_self]
    rw [armv6Walk, h.pgDir, h.index, hread, if_pos htype, htable, hpage, readWord_writeWord_self]
  rw [and_iff_right hnull, ← armv6PgAccToArm_eq_zero_iff]
  constructor
  · rintro ⟨-, -, ⟨d, hd, hsmall⟩, -⟩
    obtain rfl := Option.some_inj.mp (hwalk.symm.trans hd)
    exact hsmall.ap.symm.trans (isSmallPage_pageWord H page).ap
  · intro hacc
    have hframe : frameOf H page = page.paddr &&& pteMask := by
      rw [frameOf, hacc, BitVec.zero_shiftLeft, BitVec.or_zero]
    refine ⟨by rw [hdir], by rw [hpage], ⟨_, hwalk, ?_⟩, fun x hx ↦ ?_⟩
    · rw [hacc, ← hframe]
      exact isSmallPage_pageWord H page
    · rw [MappedSlots, not_or] at hx
      rw [hpage]
      exact (writeWord_of_not_inRange _ hx.2).trans (writeWord_of_not_inRange _ hx.1)

/-- Headers with a higher half from `0x80000000` on. -/
def halvesHeader : MmuHeader where
  pgDirEntry := 1#32
  pgDirTable := 3#32
  pgDirTransFault := 5#32
  pgTableEntry := 2#32
  pgTableTransFault := 4#32
  kernRw := 1#32
  userRw := 2#32
  mmuCached := 1#32
  mmuErrNoPageTable := 1#32
  mmuGetHighVaddr := fun _ ↦ 0x80000000#32
  kinds := by decide
  dirBit := by simp
  tableBit := by simp
  error_ne_zero := by decide

/-- A table at `0x8000`, in the directory at `0x4000`. -/
def halvesTable : Armv6MmuEntry where
  entry := halvesHeader.pgDirTable
  pgDir := 0x4000#32
  vaddr := 0x80100000#32
  paddr := 0x8000#32
  access := 0#32
  flags := 0#32

/-- A page in that table, with the given access. -/
def halvesPage (access : Word) : Armv6MmuEntry where
  entry := halvesHeader.pgTableEntry
  pgDir := 0x4000#32
  vaddr := 0x80123000#32
  paddr := 0x60012000#32
  access := access
  flags := 1#32

theorem throughTable_halves (access : Word) :
    ThroughTable halvesHeader 1#32 halvesTable (halvesPage access) where
  dirKind := rfl
  pageKind := rfl
  pgDir := rfl
  index := by
    change armv6PdeIndex halvesHeader 1#32 0x80123000#32
      = armv6PdeIndex halvesHeader 1#32 0x80100000#32
    decide
  aligned := rfl
  apart x hdir htable := by
    rw [inRange_iff (by decide)] at hdir htable
    have hslot : (halvesTable.pgDir
        + 4#32 * armv6PdeIndex halvesHeader 1#32 halvesTable.vaddr).toNat = 0x4004 := by decide
    have hpaddr : halvesTable.paddr.toNat = 0x8000 := rfl
    omega

/-- A page without access. -/
theorem mapsPage_iff_halves :
    MapsPage halvesHeader 1#32 (fun _ ↦ 0#8) halvesTable (halvesPage 0#32) :=
  (mapsPage_iff (throughTable_halves 0#32) _).mpr ⟨by decide, by decide, by decide⟩

/-- A page that the kernel may write gets the frame behind its own, and no permission. -/
theorem not_mapsPage_halves :
    ThroughTable halvesHeader 1#32 halvesTable (halvesPage halvesHeader.kernRw) ∧
      armv6Walk halvesHeader 1#32
          (armv6MapPte halvesHeader 1#32 (halvesPage halvesHeader.kernRw)
            (armv6MapPde halvesHeader 1#32 halvesTable fun _ ↦ 0#8).2).2 0x4000#32 0x80123000#32
        = some 0x6001300A#32 ∧
      ¬MapsPage halvesHeader 1#32 (fun _ ↦ 0#8) halvesTable (halvesPage halvesHeader.kernRw) := by
  have hwalk : armv6Walk halvesHeader 1#32
      (armv6MapPte halvesHeader 1#32 (halvesPage halvesHeader.kernRw)
        (armv6MapPde halvesHeader 1#32 halvesTable fun _ ↦ 0#8).2).2 0x4000#32 0x80123000#32
      = some 0x6001300A#32 := by decide +kernel
  refine ⟨throughTable_halves _, hwalk, ?_⟩
  intro h
  obtain ⟨d, hd, hsmall⟩ := h.walk
  obtain rfl := Option.some_inj.mp (hwalk.symm.trans hd)
  exact absurd hsmall.ap (by decide)

end Sugarcat
