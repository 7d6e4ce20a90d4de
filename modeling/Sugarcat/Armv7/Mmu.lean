import Sugarcat.Util.Bits

/-!
# The short-descriptor mapping code

The functions of `armv7_mmu.c` over an explicit machine: the system control registers, flat memory
in which directories and tables are reached at their physical address, and a chronological trace of
descriptor stores, data barriers and TLB invalidations.

## The machine

The trace is there because the order of a store, a barrier and an invalidation is what the hardware
sees, while the memory that is left behind does not show it. Only stores to tables and directories
are events of it. A function that can fail returns its error code with the machine, in the order in
which the source computes the two.

## Pointers

A pointer that the source compares with `NULL` is an `Option` here, so that the `EINVAL` branches
stay in the model. A directory entry or table entry passed by pointer is only read.

## Fields

The structures of an entry keep `acc_perm` and the type as the enumerations of the source. The words
are composed by OR as in the source, with nothing masked that the source does not mask: what a flag
with too many bits does to its neighbours is part of the model.
-/

namespace Sugarcat

open ByteMemory

/-! ## Machine state -/

/-- What the memory system sees: a store to a translation table, a data synchronization barrier, or
an invalidation of the unified TLB. -/
inductive Event where
  | store (addr : Addr) (value : Word)
  | dsb
  | tlbInvalidate
  deriving DecidableEq, Repr

structure Machine where
  mem : Memory
  sctlr : Word
  ttbcr : Word
  ttbr0 : Word
  ttbr1 : Word
  dacr : Word
  /-- What happened so far, oldest first. -/
  trace : List Event

namespace Machine

def load (s : Machine) (a : Addr) : Word := readWord s.mem a

def store (s : Machine) (a : Addr) (v : Word) : Machine :=
  { s with mem := writeWord s.mem a v, trace := s.trace ++ [.store a v] }

def dsb (s : Machine) : Machine := { s with trace := s.trace ++ [.dsb] }

def armv7InvalidateUnifiedTlb (s : Machine) : Machine :=
  { s with trace := s.trace ++ [.tlbInvalidate] }

variable (s : Machine) (a : Addr) (v : Word)

@[simp] theorem load_store_self : (s.store a v).load a = v := readWord_writeWord_self _ _ _

theorem load_store_of_ne {s : Machine} {a b : Addr} {v : Word} (ha : a.toNat % 4 = 0)
    (hb : b.toNat % 4 = 0) (h : a ≠ b) : (s.store a v).load b = s.load b :=
  readWord_writeWord_of_ne v ha hb h

@[simp] theorem store_sctlr : (s.store a v).sctlr = s.sctlr := rfl
@[simp] theorem store_ttbcr : (s.store a v).ttbcr = s.ttbcr := rfl
@[simp] theorem store_ttbr0 : (s.store a v).ttbr0 = s.ttbr0 := rfl
@[simp] theorem store_ttbr1 : (s.store a v).ttbr1 = s.ttbr1 := rfl

end Machine

/-! ## Constants of `armv7_mmu.h` and `armv7_syscntl.h` -/

abbrev pgdEntryCnt : ℕ := 4096
abbrev pgdIdxShift : ℕ := 20
abbrev pgIdxShift : ℕ := 10
abbrev pgdSectApShift : ℕ := 10
abbrev pgdDomainShift : ℕ := 5
abbrev pgdDomainMask : Word := 0x1E0#32
abbrev pgdApMask : Word := 0xC00#32
abbrev pgdTypeMask : Word := 0x3#32
abbrev pgdSectMask : Word := 0xFFF00000#32
abbrev pgdTableMask : Word := 0xFFFFFC00#32
abbrev pgtbSz : ℕ := 0x400
abbrev pgtbApShift : ℕ := 4
abbrev pgtbIdxShift : ℕ := 12
abbrev pgtbIdxMask : Word := 0xFF#32
abbrev pgtbLgPgMask : Word := 0xFFFF0000#32
abbrev pgtbSmPgMask : Word := 0xFFFFF000#32
abbrev pgtbTypeMask : Word := 0x3#32
abbrev ttbcrNMask : Word := 0x7#32
abbrev ttbrAlign : ℕ := 14
abbrev ttbrMask : Word := 0xFFFFC000#32
abbrev armv7SctlrMmuEnb : Word := 0x1#32
abbrev armv7SctlrAfe : Word := 0x20000000#32

/-! ## Descriptors -/

inductive Armv7MmuPgdType where
  | pgdInvalid
  | pgdTable
  | pgdSection
  | pgdSuperSection
  deriving DecidableEq, Repr

inductive Armv7MmuPgtbType where
  | pgtbInvalid
  | pgtbLargePg
  | pgtbSmallPg
  deriving DecidableEq, Repr

inductive Armv7MmuAccPerm where
  | accKrwNou
  | accKrwUrw
  | accKroNou
  | accKroUro
  deriving DecidableEq, Repr

def Armv7MmuPgdType.toWord : Armv7MmuPgdType → Word
  | .pgdInvalid => 0x0#32
  | .pgdTable => 0x1#32
  | .pgdSection => 0x2#32
  | .pgdSuperSection => 0x3#32

def Armv7MmuPgtbType.toWord : Armv7MmuPgtbType → Word
  | .pgtbInvalid => 0x0#32
  | .pgtbLargePg => 0x1#32
  | .pgtbSmallPg => 0x2#32

def Armv7MmuAccPerm.toWord : Armv7MmuAccPerm → Word
  | .accKrwNou => 0x0#32
  | .accKrwUrw => 0x1#32
  | .accKroNou => 0x2#32
  | .accKroUro => 0x3#32

/-- The permission a two-bit field denotes. -/
def Armv7MmuAccPerm.ofWord (x : Word) : Armv7MmuAccPerm :=
  if x = 0x0#32 then .accKrwNou
  else if x = 0x1#32 then .accKrwUrw
  else if x = 0x2#32 then .accKroNou
  else .accKroUro

structure Armv7MmuPgdEntry where
  phyAddr : Addr
  virtAddr : Addr
  domain : Byte
  accPerm : Armv7MmuAccPerm
  type : Armv7MmuPgdType
  flags : Word

structure Armv7MmuPgtbEntry where
  phyAddr : Addr
  virtAddr : Addr
  accPerm : Armv7MmuAccPerm
  type : Armv7MmuPgtbType
  flags : Word

def armv7IsSupportedPgdType : Armv7MmuPgdType → Bool
  | .pgdInvalid | .pgdSection | .pgdTable => true
  | .pgdSuperSection => false

def armv7IsSupportedPgtbType : Armv7MmuPgtbType → Bool
  | .pgtbInvalid | .pgtbSmallPg => true
  | .pgtbLargePg => false

/-! ## Registers -/

def armv7MmuIsEnabled (s : Machine) : Bool := s.sctlr &&& armv7SctlrMmuEnb != 0#32

def armv7MmuGetPgDiv (s : Machine) : ℕ := (s.ttbcr &&& ttbcrNMask).toNat

def armv7SetDacr (s : Machine) (v : Word) : Machine := { s with dacr := v }
def armv7SetTtbcr (s : Machine) (v : Word) : Machine := { s with ttbcr := v }
def armv7SetSctlr (s : Machine) (v : Word) : Machine := { s with sctlr := v }
def armv7SetTtbr0 (s : Machine) (v : Word) : Machine := { s with ttbr0 := v }
def armv7SetTtbr1 (s : Machine) (v : Word) : Machine := { s with ttbr1 := v }

/-- Set the access of one of the sixteen domains. -/
def armv7SetDomain (domain accPerm : Byte) (s : Machine) : Errno × Machine :=
  let shift := domain.toNat * 2
  if domain ≤ 15#8 then
    let reg := s.dacr &&& ~~~(0x3#32 <<< shift)
    (.esucc, armv7SetDacr s (reg ||| ((accPerm.zeroExtend 32 &&& 0x3#32) <<< shift)))
  else (.einval, s)

/-- `virtAddr` is translated through TTBR1 under the split `pgDivN`. -/
def isHigherHalf (virtAddr : Addr) (pgDivN : ℕ) : Bool :=
  if pgDivN > 0 then decide (virtAddr ≥ 1#32 <<< (32 - pgDivN)) else false

def armv7MmuGetKernPgd (s : Machine) : Addr :=
  if armv7MmuIsEnabled s then s.ttbr1 &&& ttbrMask else 0#32

def armv7MmuGetUserPgd (s : Machine) : Addr :=
  if armv7MmuIsEnabled s then
    s.ttbr0 &&& ~~~((1#32 <<< (ttbrAlign - armv7MmuGetPgDiv s)) - 1#32)
  else 0#32

def armv7MmuUpdate (dsb : Bool) (s : Machine) : Machine :=
  if dsb then s.dsb.armv7InvalidateUnifiedTlb else s.armv7InvalidateUnifiedTlb

def armv7MmuSetKernPgd (pgdAddr : Addr) (flags : Byte) (s : Machine) : Errno × Machine :=
  if isAlignedN pgdAddr (1#32 <<< ttbrAlign) then
    let s' := armv7SetTtbr1 s (pgdAddr ||| flags.zeroExtend 32)
    (.esucc, if armv7MmuIsEnabled s' then armv7MmuUpdate false s' else s')
  else (.ealign, s)

def armv7MmuSetUserPgd (pgdAddr : Addr) (flags : Byte) (s : Machine) : Errno × Machine :=
  if isAlignedN pgdAddr (1#32 <<< (ttbrAlign - armv7MmuGetPgDiv s)) then
    let s' := armv7SetTtbr0 s (pgdAddr ||| flags.zeroExtend 32)
    (.esucc, if armv7MmuIsEnabled s' then armv7MmuUpdate false s' else s')
  else (.ealign, s)

/-! ## Translation -/

/-- The physical address of a virtual one, or zero when it is not mapped. -/
def armv7MmuVirtToPhy (s : Machine) (virtAddr : Addr) : Addr :=
  if armv7MmuIsEnabled s then
    let pgDir :=
      if isHigherHalf virtAddr (armv7MmuGetPgDiv s) then armv7MmuGetKernPgd s
      else armv7MmuGetUserPgd s
    let ent := s.load (pgDir + 4#32 * (virtAddr >>> pgdIdxShift))
    if ent &&& pgdTypeMask = Armv7MmuPgdType.pgdSection.toWord then
      (ent &&& pgdSectMask) ||| (virtAddr &&& ~~~pgdSectMask)
    else if ent &&& pgdTypeMask = Armv7MmuPgdType.pgdTable.toWord then
      let pgTb := ent &&& pgdTableMask
      let pte := s.load (pgTb + 4#32 * ((virtAddr >>> pgtbIdxShift) &&& pgtbIdxMask))
      if pte &&& pgtbTypeMask = Armv7MmuPgtbType.pgtbLargePg.toWord then
        (pte &&& pgtbLgPgMask) ||| (virtAddr &&& ~~~pgtbLgPgMask)
      else if pte &&& pgtbTypeMask = Armv7MmuPgtbType.pgtbSmallPg.toWord then
        (pte &&& pgtbSmPgMask) ||| (virtAddr &&& ~~~pgtbSmPgMask)
      else 0#32
    else 0#32
  else virtAddr

/-! ## Creating entries -/

/-- The word `create_pgtb_entry` stores. An entry that is neither a large nor a small page keeps its
whole physical address. -/
def pgtbEntryWord (entry : Armv7MmuPgtbEntry) : Word :=
  let wrEnt :=
    match entry.type with
    | .pgtbLargePg => entry.phyAddr &&& pgtbLgPgMask
    | .pgtbSmallPg => entry.phyAddr &&& pgtbSmPgMask
    | .pgtbInvalid => entry.phyAddr
  wrEnt ||| (entry.accPerm.toWord <<< pgtbApShift) ||| entry.flags ||| entry.type.toWord

def createPgtbEntry (pgtbAddr : Addr) (entry : Option Armv7MmuPgtbEntry) (s : Machine) :
    Errno × Machine :=
  match entry with
  | some entry =>
    let index := (entry.virtAddr >>> pgtbIdxShift) &&& pgtbIdxMask
    (.esucc, s.store (pgtbAddr + 4#32 * index) (pgtbEntryWord entry))
  | none => (.einval, s)

/-- The word `create_pgd_entry` stores. -/
def pgdEntryWord (entry : Armv7MmuPgdEntry) : Word :=
  let wrEnt :=
    match entry.type with
    | .pgdSection =>
      (entry.phyAddr &&& pgdSectMask) ||| (entry.accPerm.toWord <<< pgdSectApShift)
    | .pgdTable => entry.phyAddr &&& pgdTableMask
    | .pgdSuperSection | .pgdInvalid => 0#32
  wrEnt ||| (entry.domain.zeroExtend 32 <<< pgdDomainShift) ||| entry.flags ||| entry.type.toWord

def createPgdEntry (pgdAddr : Addr) (entry : Option Armv7MmuPgdEntry) (s : Machine) :
    Errno × Machine :=
  match entry with
  | some entry =>
    let index := entry.virtAddr >>> pgdIdxShift
    (.esucc, s.store (pgdAddr + 4#32 * index) (pgdEntryWord entry))
  | none => (.einval, s)

/-- The directory entry of `virtAddr`, decoded, in the directory at `pgdAddr`. -/
def getPgdEntry (pgdAddr virtAddr : Addr) (s : Machine) : Except Errno Armv7MmuPgdEntry :=
  let ent := s.load (pgdAddr + 4#32 * (virtAddr >>> pgdIdxShift))
  let domain := ((ent &&& pgdDomainMask) >>> pgdDomainShift).setWidth 8
  if ent &&& pgdTypeMask = Armv7MmuPgdType.pgdSection.toWord then
    .ok { phyAddr := ent &&& pgdSectMask
          virtAddr := virtAddr
          domain := domain
          accPerm := .ofWord ((ent &&& pgdApMask) >>> pgdSectApShift)
          type := .pgdSection
          flags := ent &&& ~~~(pgdSectMask ||| pgdDomainMask ||| pgdApMask ||| pgdTypeMask) }
  else if ent &&& pgdTypeMask = Armv7MmuPgdType.pgdTable.toWord then
    .ok { phyAddr := ent &&& pgdTableMask
          virtAddr := virtAddr
          domain := domain
          accPerm := .accKrwNou
          type := .pgdTable
          flags := ent &&& ~~~(pgdTableMask ||| pgdDomainMask ||| pgdTypeMask) }
  else .error .enotfnd

/-! ## Mapping -/

def armv7MmuMapPgd (pgdEnt : Option Armv7MmuPgdEntry) (s : Machine) : Errno × Machine :=
  match pgdEnt with
  | some ent =>
    if armv7IsSupportedPgdType ent.type then
      if armv7MmuIsEnabled s then
        let pgdAddr :=
          if isHigherHalf ent.virtAddr (armv7MmuGetPgDiv s) then armv7MmuGetKernPgd s
          else armv7MmuGetUserPgd s
        createPgdEntry pgdAddr (some ent) s
      else (.enotenb, s)
    else (.enotsupp, s)
  | none => (.einval, s)

def armv7MmuMapNewPgd (pgdAddr : Addr) (pgdEnt : Option Armv7MmuPgdEntry) (s : Machine) :
    Errno × Machine :=
  match pgdEnt with
  | some ent =>
    if armv7IsSupportedPgdType ent.type then createPgdEntry pgdAddr (some ent) s
    else (.enotsupp, s)
  | none => (.einval, s)

def armv7MmuMapPgtb (pgtbEnt : Option Armv7MmuPgtbEntry) (s : Machine) : Errno × Machine :=
  match pgtbEnt with
  | some ent =>
    if armv7MmuIsEnabled s then
      if armv7IsSupportedPgtbType ent.type then
        let pgdAddr :=
          if isHigherHalf ent.virtAddr (armv7MmuGetPgDiv s) then armv7MmuGetKernPgd s
          else armv7MmuGetUserPgd s
        match getPgdEntry pgdAddr ent.virtAddr s with
        | .ok pgdEnt =>
          if pgdEnt.type = .pgdTable then createPgtbEntry pgdEnt.phyAddr (some ent) s
          else (.enotfnd, s)
        | .error e => (e, s)
      else (.enotsupp, s)
    else (.enotenb, s)
  | none => (.einval, s)

def armv7MmuMapNewPgtb (pgtbAddr : Addr) (pgtbEnt : Option Armv7MmuPgtbEntry) (s : Machine) :
    Errno × Machine :=
  match pgtbEnt with
  | some ent =>
    if armv7IsSupportedPgtbType ent.type then createPgtbEntry pgtbAddr (some ent) s
    else (.enotsupp, s)
  | none => (.einval, s)

end Sugarcat
