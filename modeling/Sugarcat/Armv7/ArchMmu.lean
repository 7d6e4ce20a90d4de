import Sugarcat.Armv7.Mmu

/-!
# The architecture interface of the MMU

The entry types of `mm/mmu.h` and the adapter `armv7_arch_mmu.c`, which translates a generic entry
into an ARMv7 one and passes it on. A generic entry says who may access what it maps, and whether it
is a directory entry or a table entry; the adapter chooses a domain, a permission and a descriptor
type for it.

## Fields that are not set

For a directory entry the source leaves `acc_perm` of its local structure unset. The field is read
only for sections, which the adapter never asks for, so the value chosen here is never looked at.

## Two ways to make an entry

`archMmuCreateEntry` goes through the directories in use, and finds the table of a page there.
`archMmuCreateNewEntry` is given the base of a directory or of a region of tables that are not in
use, and computes where the entry goes. The sizes and alignments that it advertises for such a
region are functions of the split, and the callers are to allocate by them.
-/

namespace Sugarcat

open ByteMemory

/-! ## Generic entries -/

inductive MmuAccFlags where
  | user
  | kernUser
  | kernel
  | kernelRo
  | device
  deriving DecidableEq, Repr

inductive MmuEntryType where
  | pgDir
  | pgTab
  | pgDirInval
  | pgTabInval
  deriving DecidableEq, Repr

structure MmuEntry where
  phyAddr : Addr
  virtAddr : Addr
  type : MmuEntryType
  accFlags : MmuAccFlags

/-! ## Translating flags and types -/

abbrev userDomain : Byte := 0#8
abbrev kernDomain : Byte := 1#8

def archMmuAccToDomain : MmuAccFlags → Byte
  | .user | .kernUser => userDomain
  | .kernelRo | .kernel | .device => kernDomain

def archMmuAccToArmv7 : MmuAccFlags → Armv7MmuAccPerm
  | .user => .accKrwUrw
  | .kernUser => .accKroUro
  | .kernel => .accKrwNou
  | .kernelRo => .accKroNou
  | .device => .accKrwNou

def archMmuPgtbTypeToArmv7 : MmuEntryType → Armv7MmuPgtbType
  | .pgTabInval => .pgtbInvalid
  | .pgTab => .pgtbSmallPg
  | .pgDirInval | .pgDir => .pgtbInvalid

def archMmuPgdTypeToArmv7 : MmuEntryType → Armv7MmuPgdType
  | .pgDirInval => .pgdInvalid
  | .pgDir => .pgdTable
  | .pgTabInval | .pgTab => .pgdInvalid

/-- The ARMv7 directory entry the adapter builds. -/
def MmuEntry.toArmv7Pgd (entry : MmuEntry) : Armv7MmuPgdEntry where
  phyAddr := entry.phyAddr
  virtAddr := entry.virtAddr
  domain := archMmuAccToDomain entry.accFlags
  accPerm := .accKrwNou
  type := archMmuPgdTypeToArmv7 entry.type
  flags := 0x0#32

/-- The ARMv7 table entry the adapter builds. -/
def MmuEntry.toArmv7Pgtb (entry : MmuEntry) : Armv7MmuPgtbEntry where
  phyAddr := entry.phyAddr
  virtAddr := entry.virtAddr
  accPerm := archMmuAccToArmv7 entry.accFlags
  type := archMmuPgtbTypeToArmv7 entry.type
  flags := 0x0#32

/-! ## The interface -/

def virtToPhy (s : Machine) (virtAddr : Addr) : Addr := armv7MmuVirtToPhy s virtAddr

def archMmuSetUserPgDir (pageDir : Addr) (s : Machine) : Errno × Machine :=
  armv7MmuSetUserPgd pageDir 0x0#8 s

def archMmuInvalidate (s : Machine) : Machine := s.armv7InvalidateUnifiedTlb

/-- The beginning of the kernel half of the virtual address space. -/
def archMmuGetKernVaddr (s : Machine) : Addr :=
  if armv7MmuGetPgDiv s > 0 then 1#32 <<< (32 - armv7MmuGetPgDiv s) else 0x0#32

/-- Number of directory slots below the split. -/
def userSlotCnt (pgDiv : ℕ) : ℕ := 2 ^ (32 - (pgDiv + pgdIdxShift))

def archMmuGetKernPgtbRegSz (s : Machine) : ℕ :=
  if armv7MmuGetPgDiv s > 0 then (pgdEntryCnt - userSlotCnt (armv7MmuGetPgDiv s)) * pgtbSz
  else pgdEntryCnt * pgtbSz

def archMmuGetUserPgtbRegSz (s : Machine) : ℕ :=
  if armv7MmuGetPgDiv s > 0 then userSlotCnt (armv7MmuGetPgDiv s) * pgtbSz
  else pgdEntryCnt * pgtbSz

def archMmuGetUserPgdAlignment (s : Machine) : ℕ := 2 ^ (ttbrAlign - armv7MmuGetPgDiv s)

def archMmuGetPgtbAlignment : ℕ := 4096

/-- Create an entry in the live directories or tables. -/
def archMmuCreateEntry (entry : MmuEntry) (s : Machine) : Errno × Machine :=
  match entry.type with
  | .pgDirInval | .pgDir => armv7MmuMapPgd (some entry.toArmv7Pgd) s
  | .pgTabInval | .pgTab => armv7MmuMapPgtb (some entry.toArmv7Pgtb) s

/-- Where the table of `virtAddr` stands in a region of tables: its MiB index, counted from the
start of its half. -/
def newPgtbIndex (virtAddr : Addr) (s : Machine) : Word :=
  let kvaddr := archMmuGetKernVaddr s
  if virtAddr ≥ kvaddr then (virtAddr - kvaddr) >>> pgdIdxShift else virtAddr >>> pgdIdxShift

/-- Create an entry in a directory, or in a region of tables, that is not in use. -/
def archMmuCreateNewEntry (pgBase : Addr) (entry : MmuEntry) (s : Machine) : Errno × Machine :=
  match entry.type with
  | .pgDirInval | .pgDir => armv7MmuMapNewPgd pgBase (some entry.toArmv7Pgd) s
  | .pgTabInval | .pgTab =>
    armv7MmuMapNewPgtb (pgBase ||| (newPgtbIndex entry.virtAddr s <<< pgIdxShift))
      (some entry.toArmv7Pgtb) s

end Sugarcat
