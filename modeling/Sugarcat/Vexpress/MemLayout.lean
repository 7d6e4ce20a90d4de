import Sugarcat.Fdt.Cells
import Sugarcat.Fdt.Footprint
import Sugarcat.Util.Sprintf
import Sugarcat.Vexpress.Layout

/-!
# Regions from the device tree

The functions of `kernel/memlayout.c` that look for the memory the kernel runs in and for the
initial ramdisk, and the one of `vexpress_init.c` that is like the first of them. The caller's
region is a value that is returned, changed or not. What is printed is left out.

`getMemReg` is the text that the two functions for memory share, with the address they put into the
name as a parameter, and each of them keeps its own definition. The literals of the source are
addresses of strings, and what has to stand there is a matter of the statements.

## What a discovery is

`Discovers` says what each of the three functions is meant to do, for any notion of the region that
is looked for: the code of success and that region if there is one, and otherwise an error and the
region of the caller as it was. `outcome` is the result of that shape, so that what the code
computes can be compared with it by the region alone.
-/

namespace Sugarcat

open ByteMemory

/-- Where the string literals are. -/
structure Literals where
  slash : Addr
  memoryAt : Addr
  memory : Addr
  reg : Addr
  chosen : Addr
  linuxInitrdStart : Addr
  linuxInitrdEnd : Addr
  initrdStart : Addr

/-! ## Memory -/

/-- The bodies of `mlay_get_phy_mem_reg` and `init_get_mem_fdt`, which differ in the address they
print. The output of `sprintf` goes to `buf`, of 32 bytes, and `scratch` is its own buffer. -/
def getMemReg (start : Addr) (lit : Literals) (buf scratch : Addr) (m : Memory) (fdtBase : Addr)
    (memReg : MmReg) : Option (Errno × MmReg) :=
  (sprintf m buf lit.memoryAt scratch [start]).bind fun m ↦
    (fdtGetNode m lit.slash buf fdtBase).bind fun node ↦
      (if node = 0#32 then fdtGetNode m lit.slash lit.memory fdtBase else some node).bind fun node ↦
        if node ≠ 0#32 then
          (fdtGetProperty m fdtBase node lit.reg).map fun prop ↦
            if prop ≠ 0#32 then
              (.esucc, ⟨be32 m (propData prop), be32 m (propData prop + 4#32)⟩)
            else (.enotfnd, memReg)
        else some (.enotfnd, memReg)

def mlayGetPhyMemReg : Literals → Addr → Addr → Memory → Addr → MmReg → Option (Errno × MmReg) :=
  getMemReg kpStart

/-- It prints the virtual address. -/
def initGetMemFdt : Literals → Addr → Addr → Memory → Addr → MmReg → Option (Errno × MmReg) :=
  getMemReg kvStart

/-! ## The initial ramdisk -/

/-- `be32_to_cpu(*prop->data)`: a single, unsigned character is read. -/
def initrdCell (m : Memory) (prop : Addr) : Word := be32ToCpu ((m (propData prop)).zeroExtend 32)

def mlayGetInitrdReg (lit : Literals) (m : Memory) (fdtBase : Addr) (initrdReg : MmReg) :
    Option (Errno × MmReg) :=
  (fdtGetNode m lit.slash lit.chosen fdtBase).bind fun node ↦
    if node ≠ 0#32 then
      (fdtGetProperty m fdtBase node lit.linuxInitrdStart).bind fun sProp ↦
        if sProp ≠ 0#32 then
          (fdtGetProperty m fdtBase node lit.linuxInitrdEnd).map fun eProp ↦
            if eProp ≠ 0#32 then
              (.esucc, ⟨initrdCell m sProp, initrdCell m eProp - initrdCell m sProp⟩)
            else (.enotfnd, initrdReg)
        else
          (fdtGetProperty m fdtBase node lit.initrdStart).map fun sProp ↦
            -- for this form nothing is assigned
            if sProp ≠ 0#32 then (.esucc, initrdReg) else (.enotfnd, initrdReg)
    else some (.enotfnd, initrdReg)

/-! ## What a discovery is -/

/-- A region that is looked for is returned, and nothing is where there is none. -/
structure Discovers (IsRegion : MmReg → Prop) (Absent : Prop) (reg : MmReg) (res : Errno × MmReg) :
    Prop where
  found : (∃ r, IsRegion r) → ∃ r, IsRegion r ∧ res = (.esucc, r)
  absent : Absent → res = (.enotfnd, reg)

/-- The outcome of a search that leaves the caller's region where it finds none. -/
def outcome (reg : MmReg) (found : Option MmReg) : Errno × MmReg :=
  found.elim (.enotfnd, reg) fun r ↦ (.esucc, r)

theorem outcome_eq_esucc_iff {reg r : MmReg} {found : Option MmReg} :
    outcome reg found = (.esucc, r) ↔ found = some r := by
  cases found <;> simp [outcome]

theorem outcome_eq_enotfnd_iff {reg r : MmReg} {found : Option MmReg} :
    outcome reg found = (.enotfnd, r) ↔ found = none ∧ reg = r := by
  cases found <;> simp [outcome]

theorem discovers_outcome_iff {IsRegion : MmReg → Prop} {Absent : Prop} {reg : MmReg}
    {found : Option MmReg} :
    Discovers IsRegion Absent reg (outcome reg found)
      ↔ ((∃ r, IsRegion r) → ∃ r, IsRegion r ∧ found = some r) ∧ (Absent → found = none) := by
  constructor
  · rintro ⟨hfound, habsent⟩
    simp only [outcome_eq_esucc_iff] at hfound
    exact ⟨hfound, fun h ↦ (outcome_eq_enotfnd_iff.mp (habsent h)).1⟩
  · rintro ⟨hfound, habsent⟩
    refine ⟨?_, fun h ↦ outcome_eq_enotfnd_iff.mpr ⟨habsent h, rfl⟩⟩
    simp only [outcome_eq_esucc_iff]
    exact hfound

/-! ## Names -/

/-- `memory@0x`, which is what the format has before its directive. -/
def memoryAtBytes : List Byte :=
  [0x6D#8, 0x65#8, 0x6D#8, 0x6F#8, 0x72#8, 0x79#8, 0x40#8, 0x30#8, 0x78#8]

/-- The format `memory@0x%x`, with a newline at its end. -/
def memoryAtFormat : CString := ⟨memoryAtBytes ++ [0x25#8, 0x78#8, 0x0A#8], by decide⟩

theorem zero_notMem_reg : 0#8 ∉ [0x72#8, 0x65#8, 0x67#8] := by decide

def regName : CString := ⟨[0x72#8, 0x65#8, 0x67#8], zero_notMem_reg⟩

/-- Every property of `n` whose name begins with `name` is called `name`. -/
def OnlyCalled (names : Word → CString) (name : CString) (n : DtNode) : Prop :=
  ∀ p ∈ n.props, name.bytes <+: (names p.nameOffset).bytes → (names p.nameOffset).bytes = name.bytes

/-- The four bytes of a word, the most significant one first. -/
def bytesBe (v : Word) : List Byte :=
  [v.extractLsb' 24 8, v.extractLsb' 16 8, v.extractLsb' 8 8, v.extractLsb' 0 8]

variable {m : Memory} {a fdtBase slash : Addr} {root n : DtNode} {x : ℕ} {names : Word → CString}
  {s name : CString} {p : DtProp}

/-- A property that is called by a name is the first like it, then. -/
theorem exists_propLike_of_called (hp : n.called names name = some p)
    (honly : OnlyCalled names name n) (x : ℕ) :
    ∃ y, propLike names name x n = some (y, p) := by
  rw [DtNode.called_eq names name n x, Option.map_eq_some_iff] at hp
  obtain ⟨⟨y, p⟩, hp, rfl⟩ := hp
  refine ⟨y, ?_⟩
  rw [← hp]
  refine List.find?_congr fun p hp ↦
    decide_eq_decide.mpr ⟨honly p.2 (DtNode.mem_props hp), fun heq ↦ ?_⟩
  rw [heq]

theorem LiteralAt.fdtGetNode_like (h : LiteralAt m a s) (htree : FlatTree m fdtBase root)
    (hslash : LiteralAt m slash slashString) (hne : ¬s.bytes <+: slashString.bytes) :
    fdtGetNode m slash a fdtBase = some (foundPtr (nodeLike s (structStart m fdtBase) root)) := by
  have hnode := htree.fdtGetNode_like h.at h.pos h.fits hslash.at hslash.pos hslash.fits hne
  rwa [ptr_toNat, ptr_toNat] at hnode

theorem LiteralAt.fdtGetProperty_like (h : LiteralAt m a s) (htree : FlatTree m fdtBase root)
    (hnames : Named m fdtBase root names) (hn : (x, n) ∈ root.nodesAt (structStart m fdtBase)) :
    fdtGetProperty m fdtBase (ptr x) a = some (foundPtr (propLike names s x n)) := by
  have hprop := htree.fdtGetProperty_like hnames hn h.at h.pos h.fits
  rwa [ptr_toNat] at hprop

end Sugarcat
