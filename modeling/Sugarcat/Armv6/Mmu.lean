import Sugarcat.Machine.Memory

/-!
# The ARMv6 mapping code

`arch_mmu_map` of `armv6_mmu.c`, and the two functions that it calls. The file is older than the
rest of the source: the kinds of entries, the accesses, the flag and the error that it names are not
defined any more, and neither is `mmu_get_high_vaddr`. They are a parameter here.

`MmuHeader` has what the code relies on: that the kinds it tells apart are different values, that
one bit tells those of the directory from those of a table, and that the error is not the code of
success. Nothing is assumed about which values these are. The entry that is mapped keeps its fields
in the order in which this file reads them, and memory is all the state there is, since the
directory that is written is the one of the entry and not the one in a register.
-/

namespace Sugarcat

open ByteMemory

/-- What `armv6_mmu.c` takes from headers that are gone, and relies on. -/
structure MmuHeader where
  pgDirEntry : Word
  pgDirTable : Word
  pgDirTransFault : Word
  pgTableEntry : Word
  pgTableTransFault : Word
  kernRw : Word
  userRw : Word
  mmuCached : Word
  mmuErrNoPageTable : Word
  /-- Where the higher half begins, for a value of `mmu_vm_map`. -/
  mmuGetHighVaddr : Word → Addr
  kinds : [pgDirEntry, pgDirTable, pgDirTransFault, pgTableEntry, pgTableTransFault].Nodup
  dirBit : ∀ k ∈ [pgDirEntry, pgDirTable, pgDirTransFault], k &&& pgDirEntry ≠ 0#32
  tableBit : ∀ k ∈ [pgTableEntry, pgTableTransFault], k &&& pgDirEntry = 0#32
  error_ne_zero : mmuErrNoPageTable ≠ 0#32

/-- `mmu_entry`, as this file has it. -/
structure Armv6MmuEntry where
  entry : Word
  pgDir : Addr
  vaddr : Addr
  paddr : Addr
  access : Word
  flags : Word

/-! ## Constants of `armv6_mmu.h` and `armv6_mmu.c` -/

abbrev armv6MmuAccKrw : Word := 0x1#32
abbrev armv6MmuAccUrw : Word := 0x3#32
abbrev armv6MmuCached : Word := 0x8#32
abbrev armv6Mmu4kb : Word := 0x2#32
abbrev armv6MmuCoarse : Word := 0x1#32
abbrev armv6MmuSection : Word := 0x2#32
abbrev pdeShift : ℕ := 20
abbrev pdeMask : Word := 0xFFF00000#32
abbrev pdePteMask : Word := 0xFFFFFC00#32
abbrev pdeApShift : ℕ := 10
abbrev pteShift : ℕ := 12
abbrev pteMask : Word := 0xFFFFF000#32
/-- The shift for the permission of a page, which the code does not use. -/
abbrev pteApShift : ℕ := 4

/-! ## The functions -/

section

variable (H : MmuHeader) (mvm : Word)

def armv6PgAccToArm (pgAcc : Word) : Word :=
  if pgAcc = H.kernRw then armv6MmuAccKrw
  else if pgAcc = H.userRw then armv6MmuAccUrw
  else 0#32

/-- The index in the directory, which both functions compute. -/
def armv6PdeIndex (vaddr : Addr) : Word :=
  let higher := H.mmuGetHighVaddr mvm
  if vaddr ≥ higher then (vaddr - higher) >>> pdeShift else vaddr >>> pdeShift

def armv6MapPde (mme : Armv6MmuEntry) (m : Memory) : Word × Memory :=
  let index := armv6PdeIndex H mvm mme.vaddr
  let pde :=
    if mme.entry = H.pgDirEntry then
      ((mme.paddr &&& pdeMask) ||| armv6MmuSection)
        ||| (armv6PgAccToArm H mme.access <<< pdeApShift)
    else if mme.entry = H.pgDirTable then (mme.paddr &&& pdePteMask) ||| armv6MmuCoarse
    else if mme.entry = H.pgDirTransFault then 0#32
    else 0#32
  let pde := if mme.flags &&& H.mmuCached ≠ 0#32 then pde ||| armv6MmuCached else pde
  (0#32, writeWord m (mme.pgDir + 4#32 * index) pde)

def armv6MapPte (mme : Armv6MmuEntry) (m : Memory) : Word × Memory :=
  let index := armv6PdeIndex H mvm mme.vaddr
  let pgTable := readWord m (mme.pgDir + 4#32 * index) &&& pdePteMask
  if pgTable = 0#32 then (H.mmuErrNoPageTable, m)
  else
    let index := (mme.vaddr >>> pteShift) &&& 0xFF#32
    let pte :=
      if mme.entry = H.pgTableEntry then
        ((mme.paddr &&& pteMask) ||| armv6Mmu4kb)
          ||| (armv6PgAccToArm H mme.access <<< pteShift)
      else if mme.entry = H.pgTableTransFault then 0#32
      else 0#32
    let pte := if mme.flags &&& H.mmuCached ≠ 0#32 then pte ||| armv6MmuCached else pte
    (0#32, writeWord m (pgTable + 4#32 * index) pte)

def archMmuMap (mme : Armv6MmuEntry) (m : Memory) : Word × Memory :=
  if mme.entry &&& H.pgDirEntry ≠ 0#32 then armv6MapPde H mvm mme m else armv6MapPte H mvm mme m

end

end Sugarcat
