import Sugarcat.Armv7.ArchMmu
import Sugarcat.Machine.Loop

/-!
# The generic MMU interface

`mmu.c`: removing the mapping of one page, or of a region page by page. The region loop of the
source never advances its counter `i`, so its only way out is an error of the table write; the model
keeps the counter and the test on it as they stand.

The loop may not end, so the call takes the number of passes that one is ready to wait for, and
`none` means that it was still running then. Whether an address is removed with the access of the
kernel or of the user is decided once for each page, by where the kernel half begins.
-/

namespace Sugarcat

open ByteMemory

/-- `PG_SZ` of `types.h`. -/
abbrev pgSz : Word := 4096#32

def mmuCreatePgtbEntry (virtAddr phyAddr : Addr) (accFlags : MmuAccFlags) (type : MmuEntryType)
    (invalidate : Bool) (s : Machine) : Errno × Machine :=
  let r := archMmuCreateEntry ⟨phyAddr, virtAddr, type, accFlags⟩ s
  if r.1 = .esucc ∧ invalidate then (r.1, archMmuInvalidate r.2) else r

def mmuSetUserPageDir (pageDir : Addr) (s : Machine) : Errno × Machine :=
  archMmuSetUserPgDir pageDir s

/-- The access the invalidation code passes for a page of either half. -/
def invalidateAcc (virtAddr kvaddr : Addr) : MmuAccFlags :=
  if virtAddr ≥ kvaddr then .kernel else .user

def mmuInvalidatePage (virtAddr : Addr) (s : Machine) : Errno × Machine :=
  mmuCreatePgtbEntry virtAddr 0x0#32 (invalidateAcc virtAddr (archMmuGetKernVaddr s)) .pgTabInval
    true s

/-- The variables of the region loop. -/
structure RegionLoop where
  ret : Errno
  i : ℤ
  virtAddr : Addr
  machine : Machine

/-- One pass of the region loop. The counter is tested and not advanced. -/
def mmuInvalidateRegionStep (pgCnt : ℤ) (kvaddr : Addr) (l : RegionLoop) :
    RegionLoop ⊕ (Errno × Machine) :=
  if l.ret = .esucc ∧ l.i < pgCnt then
    let r := mmuCreatePgtbEntry l.virtAddr 0x0#32 (invalidateAcc l.virtAddr kvaddr) .pgTabInval
      false l.machine
    .inl { ret := r.1, i := l.i, virtAddr := l.virtAddr + pgSz, machine := r.2 }
  else .inr (l.ret, l.machine)

/-- Remove the mapping of `pgCnt` pages; `none` when the loop is still running after `calls` calls
of `mmuCreatePgtbEntry`. -/
def mmuInvalidateRegion (calls : ℕ) (virtAddr : Addr) (pgCnt : ℤ) (s : Machine) :
    Option (Errno × Machine) :=
  if pgCnt > 0 then
    (Loop.run (mmuInvalidateRegionStep pgCnt (archMmuGetKernVaddr s)) calls
      ⟨.esucc, 0, virtAddr, s⟩).map fun r ↦
        if r.1 = .esucc then (r.1, archMmuInvalidate r.2.dsb) else r
  else some (.einval, s)

end Sugarcat
