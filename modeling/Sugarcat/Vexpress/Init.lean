import Sugarcat.Armv7.LiveTables
import Sugarcat.Armv7.StoreLoop
import Sugarcat.Vexpress.Layout

/-!
# Kernel page tables

The two functions of `vexpress_init.c` that set up the page tables of the kernel half:
`init_setup_kern_pgtb` points the slots of the live directory at a region of tables, and
`init_map_kern_pgtb` enters the pages of a region into those tables.

## Runs of stores

Neither can fail half way: no pass of their loops returns an error, so each is a run of stores. What
is left to say about them is where the stores go and which words they store, and that is the matter
of the two files on the directory and on a region. Both functions check their pointers before the
first pass, which is the only way in which they report an error.

## Characteristics

The characteristics that the source gives to its entries, `kdef_ent`, fit the fields of a descriptor
of either level: the domain is one of the sixteen, and the flags stay out of the address and of the
type. The functions take them as an argument, so the general statements ask for that and no more.
-/

namespace Sugarcat

open ByteMemory

structure InitMmuEntry where
  perms : Armv7MmuAccPerm
  domain : Byte
  flags : Word

def kdefEnt : InitMmuEntry where
  perms := .accKrwNou
  domain := 0#8
  flags := 0#32

abbrev initDivMultMb : ℕ := 20
abbrev divMultPgtb : ℕ := 10
abbrev divMultPg : ℕ := 12

/-- The directory entry of the `i`-th pass of `init_setup_kern_pgtb`. The initializer of the source
names no access permission, which leaves the first one. -/
def kernPgdEnt (kernPgtb : MmReg) (ent : InitMmuEntry) (virtAddr : Addr) (i : ℕ) :
    Armv7MmuPgdEntry where
  phyAddr := kernPgtb.base ||| (BitVec.ofNat 32 i <<< divMultPgtb)
  virtAddr := virtAddr ||| (BitVec.ofNat 32 i <<< initDivMultMb)
  domain := ent.domain
  accPerm := .accKrwNou
  type := .pgdTable
  flags := ent.flags

def initSetupKernPgtb (kernPgd kernPgtb : Option MmReg) (ent : InitMmuEntry) (s : Machine) :
    Errno × Machine :=
  let pgDivN := armv7MmuGetPgDiv s
  match kernPgd, kernPgtb with
  | some _, some kernPgtb =>
    let pgtbCnt :=
      if pgDivN > 0 then pgdEntryCnt - 2 ^ (32 - (pgDivN + initDivMultMb)) else pgdEntryCnt
    let virtAddr := if pgDivN > 0 then 1#32 <<< (32 - pgDivN) else 0x0#32
    Loop.upToOk .esucc (fun i s ↦ armv7MmuMapPgd (some (kernPgdEnt kernPgtb ent virtAddr i)) s)
      pgtbCnt s
  | _, _ => (.einval, s)

/-- The table entry of the `i`-th pass of `init_map_kern_pgtb`. -/
def kernPgtbEnt (mapReg : MmReg) (ent : InitMmuEntry) (i : ℕ) : Armv7MmuPgtbEntry where
  phyAddr := mapReg.base ||| (BitVec.ofNat 32 i <<< divMultPg)
  virtAddr := phyToKvm mapReg.base ||| (BitVec.ofNat 32 i <<< divMultPg)
  accPerm := ent.perms
  type := .pgtbSmallPg
  flags := ent.flags

/-- The number of passes of `init_map_kern_pgtb`. -/
def mapPgCnt (size : Word) : Word :=
  if !isPowerOfTwo size then clrLvMsb size >>> (divMultPg - 1) else clrLvMsb size >>> divMultPg

def initMapKernPgtb (kernPgtb mapReg : Option MmReg) (ent : Option InitMmuEntry) (s : Machine) :
    Errno × Machine :=
  let pgDivN := armv7MmuGetPgDiv s
  match kernPgtb, mapReg, ent with
  | some kernPgtb, some mapReg, some ent =>
    let virtAddr := phyToKvm mapReg.base
    let vStart := if pgDivN > 0 then 1#32 <<< (32 - pgDivN) else 0x0#32
    Loop.upToOk .esucc (fun i s ↦
      let index := ((virtAddr - vStart) + (BitVec.ofNat 32 i <<< divMultPg)) >>> initDivMultMb
      armv7MmuMapNewPgtb (kernPgtb.base ||| (index <<< divMultPgtb))
        (some (kernPgtbEnt mapReg ent i)) s) (mapPgCnt mapReg.size).toNat s
  | _, _, _ => (.einval, s)

/-! ## Characteristics of entries -/

/-- The domain and the flags leave the type and the table base of a directory word alone. -/
structure InitMmuEntry.FitsPgd (ent : InitMmuEntry) : Prop where
  domain : ent.domain < 16#8
  flags_type : ent.flags &&& pgdTypeMask = 0#32
  flags_table : ent.flags &&& pgdTableMask = 0#32

/-- The flags leave the type and the frame of a table word alone. -/
structure InitMmuEntry.FitsPgtb (ent : InitMmuEntry) : Prop where
  flags_type : ent.flags &&& pgtbTypeMask = 0#32
  flags_frame : ent.flags &&& pgtbSmPgMask = 0#32

theorem fitsPgd_kdefEnt : kdefEnt.FitsPgd := ⟨by decide, by decide, by decide⟩

theorem fitsPgtb_kdefEnt : kdefEnt.FitsPgtb := ⟨by decide, by decide⟩

/-! ## The loops as runs of stores -/

theorem armv7MmuMapPgd_eq {s : Machine} {e : Armv7MmuPgdEntry} (hen : armv7MmuIsEnabled s = true)
    (hsupp : armv7IsSupportedPgdType e.type = true) :
    armv7MmuMapPgd (some e) s
      = (.esucc, s.store (liveSlotAddr s (slotIndex e.virtAddr)) (pgdEntryWord e)) := by
  simp only [armv7MmuMapPgd, if_pos hen, if_pos hsupp, liveSlotAddr_slotIndex, createPgdEntry]

theorem slotIndex_kernVaddr_or (s : Machine) {i : ℕ} (hi : i < 4096) :
    slotIndex (archMmuGetKernVaddr s ||| (BitVec.ofNat 32 i <<< initDivMultMb))
      = splitSlot s ||| i := by
  rw [slotIndex, BitVec.toNat_or, toNat_archMmuGetKernVaddr, toNat_ofNat_shiftLeft_mib hi,
    Nat.or_div_two_pow, Nat.mul_div_cancel _ (Nat.two_pow_pos 20),
    Nat.mul_div_cancel _ (Nat.two_pow_pos 20)]

/-- The set-up of the kernel half, as stores to live slots. -/
theorem initSetupKernPgtb_eq {s : Machine} (hen : armv7MmuIsEnabled s = true)
    (kernPgd kernPgtb : MmReg) (ent : InitMmuEntry) :
    initSetupKernPgtb (some kernPgd) (some kernPgtb) ent s
      = (.esucc, s.storeAll (fun i ↦ liveSlotAddr s (splitSlot s ||| i))
          (fun i ↦ pgdEntryWord (kernPgdEnt kernPgtb ent (archMmuGetKernVaddr s) i))
          (4096 - splitSlot s)) := by
  have hcnt : (if armv7MmuGetPgDiv s > 0 then
      pgdEntryCnt - 2 ^ (32 - (armv7MmuGetPgDiv s + initDivMultMb)) else pgdEntryCnt)
        = 4096 - splitSlot s := by
    rw [splitSlot]
    by_cases h : armv7MmuGetPgDiv s = 0
    · rw [if_neg (by omega), if_pos h]
    · have hexp : 32 - (armv7MmuGetPgDiv s + 20) = 12 - armv7MmuGetPgDiv s := by omega
      rw [if_pos (by omega), if_neg h, hexp]
  simp only [initSetupKernPgtb, hcnt]
  refine Machine.upToOk_eq_storeAll fun i hi ↦ ?_
  obtain ⟨hsctlr, httbcr, h0, h1, -⟩ := s.storeAll_registers
    (fun i ↦ liveSlotAddr s (splitSlot s ||| i))
    (fun i ↦ pgdEntryWord (kernPgdEnt kernPgtb ent (archMmuGetKernVaddr s) i)) i
  have hen' : armv7MmuIsEnabled (s.storeAll (fun i ↦ liveSlotAddr s (splitSlot s ||| i))
      (fun i ↦ pgdEntryWord (kernPgdEnt kernPgtb ent (archMmuGetKernVaddr s) i)) i) = true := by
    rw [armv7MmuIsEnabled, hsctlr]
    exact hen
  have hslot := slotIndex_kernVaddr_or s (i := i) (by omega)
  refine (armv7MmuMapPgd_eq hen' rfl).trans ?_
  rw [liveSlotAddr_congr hsctlr httbcr h0 h1]
  exact congrArg (fun j ↦ (Errno.esucc, Machine.store _ (liveSlotAddr s j) _)) hslot

end Sugarcat
