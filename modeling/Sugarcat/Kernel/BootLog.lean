import Sugarcat.Fdt.Dump
import Sugarcat.Kernel.KernelInit
import Sugarcat.Vexpress.Initrd
import Sugarcat.Vexpress.PhysicalMemory

/-!
# The log of the boot

`kernel_init` as a whole: it clears the bss, prints the device tree, and says what it finds of
memory and of the initial ramdisk. `install_ivt` only sets a register and is left out.

## What survives

Every function that it calls writes to memory, if only to a buffer on the stack, so what one of them
is promised has to survive those before it. `BootData` is what all of them read: the tree, its names
and the string literals. It stands outside of `F`, where all of the writes are, and `BootData.keep`
says that it is still there after any of them. With that each call is told from the memory before
the boot, and so is the whole log.

## Where things lie

`BootSpace` says what is in `F`: the bss of the kernel and the buffers of the calls. `tabs` is in
the bss, with its 256 bytes, and that it is empty when the tree is printed is the work of
`clearBss`. The bss of the initialization region has to be empty. The source swaps the operands of
its size, so if it is not empty nearly the whole address space is cleared, the tree included. A tree
of 256 levels or more does not fit `tabs`, and then nothing is said.

## One region for two searches

The same `mem_reg` is used for both searches, so the second one is said to have found what the first
one did where it assigns nothing.
-/

namespace Sugarcat

open ByteMemory

/-! ## The code -/

/-- The values of `errno.h`. -/
def Errno.code : Errno → Word
  | .esucc => 0#32
  | .einval => 1#32
  | .enotfnd => 2#32
  | .enotinit => 3#32
  | .enotsupp => 4#32
  | .ealign => 5#32
  | .enotenb => 6#32
  | .esize => 7#32

/-- Where the literals are, for the searches, for `dump_fdt` and for what is printed here. -/
structure BootLiterals where
  lookup : Literals
  dump : DumpLiterals
  inside : Addr
  error : Addr
  region : Addr
  startData : Addr
  endData : Addr

/-- Where the buffers on the stack are: those of the printer when `kernel_init`, `dump_fdt` and
`mlay_get_initrd_reg` call it, and the two of `mlay_get_phy_mem_reg`. -/
structure BootFrames where
  own : Addr
  dump : Addr
  initrd : Addr
  name : Addr
  scratch : Addr

/-- Memory, and what has been sent. -/
structure Console where
  mem : Memory
  sent : List Byte

namespace Console

def kprintf (c : Console) (format buf : Addr) (va : List Word) : Option Console :=
  (machEarlyKprintf c.mem format buf va).map fun out ↦ ⟨out.mem, c.sent ++ out.sent⟩

def printFdt (c : Console) (lits : DumpLiterals) (tabs buf fdtBase : Addr) : Option Console :=
  (dumpFdt lits tabs buf fdtBase c.mem).map fun out ↦ ⟨out.mem, c.sent ++ out.sent⟩

/-- `mlay_get_phy_mem_reg`, where only `sprintf` writes to memory. -/
def getPhyMemReg (c : Console) (lit : Literals) (buf scratch fdtBase : Addr) (memReg : MmReg) :
    Option ((Errno × MmReg) × Console) :=
  (mlayGetPhyMemReg lit buf scratch c.mem fdtBase memReg).bind fun res ↦
    (sprintf c.mem buf lit.memoryAt scratch [kpStart]).map fun m ↦ (res, ⟨m, c.sent⟩)

/-- `mlay_get_initrd_reg`, with what it prints. -/
def getInitrdReg (c : Console) (lits : BootLiterals) (buf fdtBase : Addr) (initrdReg : MmReg) :
    Option ((Errno × MmReg) × Console) :=
  let lit := lits.lookup
  (fdtGetNode c.mem lit.slash lit.chosen fdtBase).bind fun node ↦
    if node ≠ 0#32 then
      (fdtGetProperty c.mem fdtBase node lit.linuxInitrdStart).bind fun sProp ↦
        if sProp ≠ 0#32 then
          (fdtGetProperty c.mem fdtBase node lit.linuxInitrdEnd).bind fun eProp ↦
            if eProp ≠ 0#32 then
              (c.kprintf lits.startData buf [propData sProp, initrdCell c.mem sProp]).bind fun c ↦
                (c.kprintf lits.endData buf [propData eProp, initrdCell c.mem eProp]).map fun c ↦
                  ((.esucc, ⟨initrdCell c.mem sProp,
                    initrdCell c.mem eProp - initrdCell c.mem sProp⟩), c)
            else some ((.enotfnd, initrdReg), c)
        else
          (fdtGetProperty c.mem fdtBase node lit.initrdStart).map fun sProp ↦
            if sProp ≠ 0#32 then ((.esucc, initrdReg), c) else ((.enotfnd, initrdReg), c)
    else some ((.enotfnd, initrdReg), c)

/-- What `kernel_init` does with the result of a search. -/
def report (c : Console) (lits : BootLiterals) (buf : Addr) (res : Errno × MmReg) (size : Word) :
    Option Console :=
  if res.1 ≠ .esucc then c.kprintf lits.error buf [res.1.code]
  else c.kprintf lits.region buf [res.2.base, size]

end Console

/-- `kernel_init`, with `memReg` what is on the stack for `mem_reg`. -/
def kernelInit (L : BssLayout) (lits : BootLiterals) (frames : BootFrames) (tabs fdtBase : Addr)
    (memReg : MmReg) (m : Memory) : Option Console :=
  (Console.kprintf ⟨L.clearBss m, []⟩ lits.inside frames.own []).bind fun c ↦
    (c.printFdt lits.dump tabs frames.dump fdtBase).bind fun c ↦
      (c.getPhyMemReg lits.lookup frames.name frames.scratch fdtBase memReg).bind fun found ↦
        (found.2.report lits frames.own found.1 (found.1.2.size / 0x100000#32)).bind fun c ↦
          (c.getInitrdReg lits frames.initrd fdtBase found.1.2).bind fun found ↦
            found.2.report lits frames.own found.1 found.1.2.size

/-! ## The texts -/

/-- `"inside kernel_init\n"`. -/
def insideText : List Byte :=
  [0x69#8, 0x6E#8, 0x73#8, 0x69#8, 0x64#8, 0x65#8, 0x20#8, 0x6B#8, 0x65#8, 0x72#8, 0x6E#8, 0x65#8,
    0x6C#8, 0x5F#8, 0x69#8, 0x6E#8, 0x69#8, 0x74#8, 0x0A#8]

/-- `"error: "`. -/
def errorText : List Byte := [0x65#8, 0x72#8, 0x72#8, 0x6F#8, 0x72#8, 0x3A#8, 0x20#8]

/-- `"memory region: 0x"`. -/
def regionText : List Byte :=
  [0x6D#8, 0x65#8, 0x6D#8, 0x6F#8, 0x72#8, 0x79#8, 0x20#8, 0x72#8, 0x65#8, 0x67#8, 0x69#8, 0x6F#8,
    0x6E#8, 0x3A#8, 0x20#8, 0x30#8, 0x78#8]

/-- `", sized "`. -/
def sizedText : List Byte := [0x2C#8, 0x20#8, 0x73#8, 0x69#8, 0x7A#8, 0x65#8, 0x64#8, 0x20#8]

/-- `"0x"`. -/
def zeroXText : List Byte := [0x30#8, 0x78#8]

/-- `", s_prop->data: 0x"`, with the first character of the name of the pointer as `c`. -/
def dataText (c : Byte) : List Byte :=
  [0x2C#8, 0x20#8, c, 0x5F#8, 0x70#8, 0x72#8, 0x6F#8, 0x70#8, 0x2D#8, 0x3E#8, 0x64#8, 0x61#8,
    0x74#8, 0x61#8, 0x3A#8, 0x20#8, 0x30#8, 0x78#8]

theorem insideText_ordinary : ∀ b ∈ insideText, b ≠ 0#8 ∧ b ≠ 0x25#8 := by decide

theorem errorText_ordinary : ∀ b ∈ errorText, b ≠ 0#8 ∧ b ≠ 0x25#8 := by decide

theorem regionText_ordinary : ∀ b ∈ regionText, b ≠ 0#8 ∧ b ≠ 0x25#8 := by decide

theorem sizedText_ordinary : ∀ b ∈ sizedText, b ≠ 0#8 ∧ b ≠ 0x25#8 := by decide

theorem zeroXText_ordinary : ∀ b ∈ zeroXText, b ≠ 0#8 ∧ b ≠ 0x25#8 := by decide

theorem startText_ordinary : ∀ b ∈ dataText 0x73#8, b ≠ 0#8 ∧ b ≠ 0x25#8 := by decide

theorem endText_ordinary : ∀ b ∈ dataText 0x65#8, b ≠ 0#8 ∧ b ≠ 0x25#8 := by decide

/-- `"inside kernel_init\n"`. -/
def insidePieces : List Piece := charsOf insideText insideText_ordinary

/-- A text, and what is printed behind it. -/
structure LinePart where
  text : List Byte
  ordinary : ∀ b ∈ text, b ≠ 0#8 ∧ b ≠ 0x25#8
  piece : Piece

/-- The pieces of a line. -/
def linePieces (parts : List LinePart) : List Piece :=
  parts.flatMap (fun p ↦ charsOf p.text p.ordinary ++ [p.piece]) ++
    charsOf lineText lineText_ordinary

/-- A line as it is printed. -/
def lineOf (parts : List LinePart) : List Byte :=
  parts.flatMap (fun p ↦ p.text ++ p.piece.text) ++ lineText

/-- `"error: %i\n"`. -/
def errorParts (e : Word) : List LinePart := [⟨_, errorText_ordinary, .int e⟩]

/-- `"memory region: 0x%x, sized %i\n"`. -/
def regionParts (base size : Word) : List LinePart :=
  [⟨_, regionText_ordinary, .hex base⟩, ⟨_, sizedText_ordinary, .int size⟩]

/-- `"0x%x, s_prop->data: 0x%x\n"`. -/
def startParts (data v : Word) : List LinePart :=
  [⟨_, zeroXText_ordinary, .hex data⟩, ⟨_, startText_ordinary, .hex v⟩]

/-- `"0x%x, e_prop->data: 0x%x\n"`. -/
def endParts (data v : Word) : List LinePart :=
  [⟨_, zeroXText_ordinary, .hex data⟩, ⟨_, endText_ordinary, .hex v⟩]

section Lines

variable (parts : List LinePart)

theorem formatOf_linePieces :
    formatOf (linePieces parts) = parts.flatMap (fun p ↦ p.text ++ p.piece.bytes) ++ lineText := by
  rw [linePieces, formatOf_append, formatOf_charsOf, formatOf, List.flatMap_assoc]
  congr 1
  refine List.flatMap_congr fun p _ ↦ ?_
  exact (formatOf_append _ _).trans (congrArg₂ _ (formatOf_charsOf _) (List.append_nil _))

theorem argsOf_linePieces : argsOf (linePieces parts) = parts.flatMap (·.piece.args) := by
  rw [linePieces, argsOf_append, argsOf_charsOf, List.append_nil, argsOf, List.flatMap_assoc]
  refine List.flatMap_congr fun p _ ↦ ?_
  exact (argsOf_append _ _).trans (congrArg₂ _ (argsOf_charsOf _) (List.append_nil _))

theorem textOf_linePieces : textOf (linePieces parts) = lineOf parts := by
  rw [linePieces, textOf_append, textOf_charsOf, textOf, List.flatMap_assoc, lineOf]
  congr 1
  refine List.flatMap_congr fun p _ ↦ ?_
  exact (textOf_append _ _).trans (congrArg₂ _ (textOf_charsOf _) (List.append_nil _))

variable {parts} in
theorem ready_linePieces {F : Addr → Prop} {m : Memory} (h : ∀ p ∈ parts, p.piece.Ready F m) :
    ∀ c ∈ linePieces parts, c.Ready F m := by
  intro c hc
  rcases List.mem_append.mp hc with hc | hc
  · obtain ⟨p, hp, hc⟩ := List.mem_flatMap.mp hc
    rcases List.mem_append.mp hc with hc | hc
    · exact ready_of_mem_charsOf _ hc
    · exact List.mem_singleton.mp hc ▸ h p hp
  · exact ready_of_mem_charsOf _ hc

end Lines

/-! ## What is logged -/

/-- What is said of the result of a search. -/
def reportText (res : Errno × MmReg) (size : Word) : List Byte :=
  if res.1 ≠ .esucc then lineOf (errorParts res.1.code)
  else lineOf (regionParts res.2.base size)

/-- What `mlay_get_phy_mem_reg` returns. -/
def foundMemory (m : Memory) (fdtBase : Addr) (names : Word → CString) (root : DtNode)
    (memReg : MmReg) : Errno × MmReg :=
  outcome memReg ((takenReg (structStart m fdtBase) names root).map fun p ↦
    ⟨be32 m (ptr (p.1 + 12)), be32 m (ptr (p.1 + 16))⟩)

/-- What `mlay_get_initrd_reg` returns. -/
def foundInitrd (m : Memory) (fdtBase : Addr) (names : Word → CString) (root : DtNode)
    (initrdReg : MmReg) : Errno × MmReg :=
  outcome initrdReg (takenInitrd m (structStart m fdtBase) names root initrdReg)

/-- The properties of the first form, if both are there. -/
def takenEnds (a : ℕ) (names : Word → CString) (root : DtNode) : Option (ℕ × ℕ) :=
  (nodeLike chosenName a root).bind fun n ↦
    (propLike names linuxInitrdStartName n.1 n.2).bind fun s ↦
      (propLike names linuxInitrdEndName n.1 n.2).map fun e ↦ (s.1, e.1)

/-- What `mlay_get_initrd_reg` prints. -/
def endsText (m : Memory) (fdtBase : Addr) (names : Word → CString) (root : DtNode) : List Byte :=
  ((takenEnds (structStart m fdtBase) names root).map fun p ↦
    lineOf (startParts (ptr (p.1 + 12)) (initrdCell m (ptr p.1))) ++
      lineOf (endParts (ptr (p.2 + 12)) (initrdCell m (ptr p.2)))).getD []

/-- The whole log, as the memory at the start of the boot has it. -/
def bootLog (m : Memory) (fdtBase : Addr) (names : Word → CString) (root : DtNode)
    (memReg : MmReg) : List Byte :=
  let memory := foundMemory m fdtBase names root memReg
  let initrd := foundInitrd m fdtBase names root memory.2
  insideText ++ (root.text names 0 ++ (reportText memory (memory.2.size / 0x100000#32) ++
    (endsText m fdtBase names root ++ reportText initrd initrd.2.size)))

/-! ## What is relied on -/

/-- The literals stand in memory, outside of `F`. -/
structure BootLiterals.Stand (F : Addr → Prop) (m : Memory) (lits : BootLiterals) : Prop where
  dump : DumpFormats F m lits.dump
  slash : LiteralApart F m lits.lookup.slash slashString
  memoryAt : LiteralApart F m lits.lookup.memoryAt memoryAtFormat
  memory : LiteralApart F m lits.lookup.memory memoryName
  reg : LiteralApart F m lits.lookup.reg regName
  chosen : LiteralApart F m lits.lookup.chosen chosenName
  linuxInitrdStart : LiteralApart F m lits.lookup.linuxInitrdStart linuxInitrdStartName
  linuxInitrdEnd : LiteralApart F m lits.lookup.linuxInitrdEnd linuxInitrdEndName
  initrdStart : LiteralApart F m lits.lookup.initrdStart initrdStartName
  inside : LiteralApart F m lits.inside (formatString insidePieces)
  error : LiteralApart F m lits.error (formatString (linePieces (errorParts 0#32)))
  region : LiteralApart F m lits.region (formatString (linePieces (regionParts 0#32 0#32)))
  startData : LiteralApart F m lits.startData (formatString (linePieces (startParts 0#32 0#32)))
  endData : LiteralApart F m lits.endData (formatString (linePieces (endParts 0#32 0#32)))

/-- What is read: the tree, with names that have no newline, and the literals. -/
structure BootData (F : Addr → Prop) (m : Memory) (lits : BootLiterals) (fdtBase : Addr)
    (root : DtNode) (names : Word → CString) : Prop where
  tree : FlatTree m fdtBase root
  named : Named m fdtBase root names
  lines : ∀ n ∈ root.preorder, 0x0A#8 ∉ n.name.bytes
  apart : TreeApart F m fdtBase root names
  literals : lits.Stand F m

/-- What is written is in `F`, and `tabs` is in the bss of the kernel. That of the initialization
region is empty: the operands of its `memset` are swapped, and where it is not empty the tree is
cleared as well. -/
structure BootSpace (F : Addr → Prop) (L : BssLayout) (frames : BootFrames) (tabs : Addr) :
    Prop where
  hmi_empty : L.hmiBssEnd = L.hmiBssStart
  bss : ∀ x, L.InKBss x → F x
  tabs_mem : ∀ x, InRange tabs 256 x → L.InKBss x
  tabs_fits : 0 < tabs.toNat ∧ tabs.toNat + 256 ≤ 2 ^ 32
  own : ScratchFits frames.own
  own_mem : ∀ x, InRange frames.own 11 x → F x
  initrd : ScratchFits frames.initrd
  initrd_mem : ∀ x, InRange frames.initrd 11 x → F x
  name_fits : 0 < frames.name.toNat ∧ frames.name.toNat + 32 < 2 ^ 32
  scratch_fits : 0 < frames.scratch.toNat ∧ frames.scratch.toNat + 11 < 2 ^ 32
  buffers : frames.name.toNat + 32 ≤ frames.scratch.toNat ∨
    frames.scratch.toNat + 11 ≤ frames.name.toNat
  buffers_mem : ∀ x, Buffers frames.name.toNat 32 frames.scratch.toNat x → F x

variable {F : Addr → Prop} {m m' : Memory} {lits : BootLiterals} {fdtBase : Addr}
  {root : DtNode} {names : Word → CString} {L : BssLayout} {frames : BootFrames} {tabs : Addr}

/-! ## What survives -/

theorem LiteralApart.keep {a : Addr} {s : CString} (h : LiteralApart F m a s)
    (hm : EqOutside F m m') : LiteralApart F m' a s :=
  ⟨h.of_eqOutside hm, h.apart⟩

theorem BootLiterals.Stand.keep (h : lits.Stand F m) (hm : EqOutside F m m') : lits.Stand F m' :=
  ⟨⟨h.dump.1.keep hm, h.dump.2.keep hm, h.dump.3.keep hm, h.dump.4.keep hm⟩, h.slash.keep hm,
    h.memoryAt.keep hm, h.memory.keep hm, h.reg.keep hm, h.chosen.keep hm,
    h.linuxInitrdStart.keep hm, h.linuxInitrdEnd.keep hm, h.initrdStart.keep hm, h.inside.keep hm,
    h.error.keep hm, h.region.keep hm, h.startData.keep hm, h.endData.keep hm⟩

theorem TreeApart.nameStart_eq (h : TreeApart F m fdtBase root names) (hm : EqOutside F m m')
    (k : Word) : nameStart m' fdtBase k = nameStart m fdtBase k := by
  rw [nameStart, h.dtStringsOffset_eq hm, nameStart]

theorem TreeApart.keep (h : TreeApart F m fdtBase root names) (hm : EqOutside F m m') :
    TreeApart F m' fdtBase root names := by
  refine ⟨h.header, ?_, ?_⟩
  · rw [h.structStart_eq hm]
    exact h.block
  · intro n hn p hp
    rw [h.nameStart_eq hm]
    exact h.strings n hn p hp

theorem TreeApart.mono {G : Addr → Prop} (h : TreeApart F m fdtBase root names)
    (hG : ∀ x, G x → F x) :
    TreeApart G m fdtBase root names :=
  ⟨fun i hi hx ↦ h.header i hi (hG _ hx), fun i hi hx ↦ h.block i hi (hG _ hx),
    fun n hn p hp i hi hx ↦ h.strings n hn p hp i hi (hG _ hx)⟩

/-- **What the boot reads is still there** after writes to `F`. -/
theorem BootData.keep (h : BootData F m lits fdtBase root names) (hm : EqOutside F m m') :
    BootData F m' lits fdtBase root names :=
  ⟨h.tree.of_eqOutside h.apart hm, h.named.of_eqOutside h.apart hm, h.lines, h.apart.keep hm,
    h.literals.keep hm⟩

theorem TreeApart.initrdCell_eq (h : TreeApart F m fdtBase root names) (hm : EqOutside F m m')
    {n : DtNode} {x y : ℕ} {p : DtProp} (hn : (x, n) ∈ root.nodesAt (structStart m fdtBase))
    (hp : (y, p) ∈ n.propsAt x) : initrdCell m' (ptr y) = initrdCell m (ptr y) := by
  obtain ⟨hle, hend⟩ := DtNode.le_of_mem_propsAt hn hp
  obtain ⟨j, rfl⟩ := Nat.exists_eq_add_of_le hle
  have hout := h.block (j + 12) (by omega)
  rw [← Nat.add_assoc] at hout
  rw [initrdCell_ptr, initrdCell_ptr, hm _ hout]

/-! ## What is found stays the same -/

section Kept

variable (h : BootData F m lits fdtBase root names) (hm : EqOutside F m m')
include h hm

theorem BootData.foundMemory_eq (memReg : MmReg) :
    foundMemory m' fdtBase names root memReg = foundMemory m fdtBase names root memReg := by
  rw [foundMemory, foundMemory, h.apart.structStart_eq hm]
  refine congrArg (outcome memReg) (Option.map_congr fun p hp ↦ ?_)
  obtain ⟨n, hnode, hprop⟩ := Option.bind_eq_some_iff.mp hp
  have hn : n ∈ root.nodesAt (structStart m fdtBase) := List.mem_of_find?_eq_some hnode
  have hp : p ∈ n.2.propsAt n.1 := List.mem_of_find?_eq_some hprop
  rw [h.apart.be32_prop hm hn hp (by omega), h.apart.be32_prop hm hn hp (by omega)]

theorem BootData.foundInitrd_eq (initrdReg : MmReg) :
    foundInitrd m' fdtBase names root initrdReg = foundInitrd m fdtBase names root initrdReg := by
  rw [foundInitrd, foundInitrd, h.apart.structStart_eq hm, takenInitrd, takenInitrd]
  refine congrArg (outcome initrdReg) (Option.bind_congr fun n hnode ↦ ?_)
  have hn : n ∈ root.nodesAt (structStart m fdtBase) := List.mem_of_find?_eq_some hnode
  cases hstart : propLike names linuxInitrdStartName n.1 n.2 with
  | none => rfl
  | some s =>
    have hs : s ∈ n.2.propsAt n.1 := List.mem_of_find?_eq_some hstart
    refine Option.map_congr fun e hend ↦ ?_
    have he : e ∈ n.2.propsAt n.1 := List.mem_of_find?_eq_some hend
    rw [h.apart.initrdCell_eq hm hn hs, h.apart.initrdCell_eq hm hn he]

theorem BootData.endsText_eq :
    endsText m' fdtBase names root = endsText m fdtBase names root := by
  rw [endsText, endsText, h.apart.structStart_eq hm]
  refine congrArg (Option.getD · []) (Option.map_congr fun p hp ↦ ?_)
  obtain ⟨n, hnode, hn⟩ := Option.bind_eq_some_iff.mp hp
  obtain ⟨s, hstart, hs⟩ := Option.bind_eq_some_iff.mp hn
  obtain ⟨e, hend, rfl⟩ := Option.map_eq_some_iff.mp hs
  have hn : n ∈ root.nodesAt (structStart m fdtBase) := List.mem_of_find?_eq_some hnode
  have hs : s ∈ n.2.propsAt n.1 := List.mem_of_find?_eq_some hstart
  have he : e ∈ n.2.propsAt n.1 := List.mem_of_find?_eq_some hend
  rw [h.apart.initrdCell_eq hm hn hs, h.apart.initrdCell_eq hm hn he]

end Kept

/-! ## The calls -/

variable {c : Console}

theorem Console.exists_kprintf {format buf : Addr} {fmt : CString} {cs : List Piece}
    (hbuf : ScratchFits buf) (hF : ∀ x, InRange buf 11 x → F x)
    (hfmt : LiteralApart F c.mem format fmt) (hcs : formatOf cs = fmt.bytes)
    (hready : ∀ d ∈ cs, d.Ready F c.mem) {va : List Word} (hva : argsOf cs = va) :
    ∃ m', c.kprintf format buf va = some ⟨m', c.sent ++ textOf cs⟩ ∧ EqOutside F c.mem m' := by
  obtain rfl : formatString cs = fmt := CString.ext hcs
  have hin : UartInputs c.mem format buf cs :=
    ⟨hbuf, hfmt.mono hF, fun d hd ↦ (hready d hd).mono hF⟩
  obtain ⟨m', hend, hm'⟩ := hin.exists_end_eqOutside []
  rw [List.append_nil, hva] at hend
  exact ⟨m', by rw [kprintf, machEarlyKprintf, hend, Option.map_some], hm'.mono hF⟩

theorem Console.kprintf_inside {format : Addr}
    (hfmt : LiteralAt c.mem format (formatString insidePieces)) (buf : Addr) :
    c.kprintf format buf [] = some ⟨c.mem, c.sent ++ insideText⟩ := by
  have hplain : ∀ d ∈ insidePieces, d.Plain c.mem := by
    intro d hd
    obtain ⟨b, -, rfl⟩ := List.mem_map.mp hd
    trivial
  have hprint := uartPrintf_plain hfmt hplain buf []
  rw [insidePieces, argsOf_charsOf, textOf_charsOf, List.append_nil] at hprint
  rw [kprintf, machEarlyKprintf, hprint, Option.map_some]

/-- A line with numbers in it. -/
theorem Console.exists_line {format buf : Addr} (parts : List LinePart) {parts' : List LinePart}
    (hbuf : ScratchFits buf) (hF : ∀ x, InRange buf 11 x → F x)
    (hfmt : LiteralApart F c.mem format (formatString (linePieces parts')))
    (hsame : parts.map (fun p ↦ (p.text, p.piece.bytes)) =
      parts'.map fun p ↦ (p.text, p.piece.bytes))
    (hready : ∀ p ∈ parts, p.piece.Ready F c.mem) :
    ∃ m', c.kprintf format buf (parts.flatMap (·.piece.args)) = some ⟨m', c.sent ++ lineOf parts⟩ ∧
      EqOutside F c.mem m' := by
  have hbytes : formatOf (linePieces parts) = formatOf (linePieces parts') := by
    have hflat : ∀ l : List LinePart, l.flatMap (fun p ↦ p.text ++ p.piece.bytes) =
        (l.map fun p ↦ (p.text, p.piece.bytes)).flatMap fun x ↦ x.1 ++ x.2 :=
      fun l ↦ by rw [List.flatMap_map]
    rw [formatOf_linePieces, formatOf_linePieces, hflat, hflat, hsame]
  obtain ⟨m', hprint, hm'⟩ := exists_kprintf hbuf hF hfmt hbytes (ready_linePieces hready)
    (argsOf_linePieces parts)
  rw [textOf_linePieces] at hprint
  exact ⟨m', hprint, hm'⟩

theorem Console.exists_printFdt (h : BootData F c.mem lits fdtBase root names)
    (hF : ∀ x, InRange tabs 256 x → F x) (hfits : 0 < tabs.toNat ∧ tabs.toNat + 256 ≤ 2 ^ 32)
    (hempty : c.mem tabs = 0#8) (hheight : root.height < 256) (buf : Addr) :
    ∃ m', c.printFdt lits.dump tabs buf fdtBase = some ⟨m', c.sent ++ root.text names 0⟩ ∧
      EqOutside F c.mem m' := by
  have hformats := h.literals.dump
  have hin : DumpInputs lits.dump tabs fdtBase root names c.mem :=
    ⟨h.tree, h.named, ⟨⟨hformats.1.mono hF, hformats.2.mono hF, hformats.3.mono hF,
      hformats.4.mono hF⟩, hfits.1, hfits.2⟩, h.apart.mono hF, hempty⟩
  refine ⟨tabsMemory tabs c.mem (0, root.height), ?_, ?_⟩
  · rw [printFdt, dumpFdt, fdtGetRootNode_eq hin.tree.magic, hin.run_dumpFdtStep buf,
      Option.join_some, if_pos hheight, Option.map_some]
  · exact (eqOutside_tabsMemory (Nat.zero_le _) hheight).mono hF

theorem Console.exists_getPhyMemReg (h : BootData F c.mem lits fdtBase root names)
    (hspace : BootSpace F L frames tabs) (memReg : MmReg) :
    ∃ m', c.getPhyMemReg lits.lookup frames.name frames.scratch fdtBase memReg =
        some (foundMemory c.mem fdtBase names root memReg, ⟨m', c.sent⟩) ∧
      EqOutside F c.mem m' := by
  have hF := hspace.buffers_mem
  have hin : MemInputs lits.lookup frames.name frames.scratch c.mem fdtBase root names :=
    ⟨h.tree, h.named, h.lines, h.apart.mono hF, h.literals.slash.mono hF,
      h.literals.memoryAt.mono hF, h.literals.memory.mono hF, h.literals.reg.mono hF,
      hspace.name_fits, hspace.scratch_fits, hspace.buffers⟩
  obtain ⟨m', hsprintf, -, hm'⟩ := hin.exists_sprintf kpStart
  refine ⟨m', ?_, hm'.mono hF⟩
  rw [getPhyMemReg, mlayGetPhyMemReg, hin.getMemReg_eq, Option.bind_some, hsprintf,
    Option.map_some, foundMemory]

theorem Errno.code_toInt (e : Errno) : -1000000000 < e.code.toInt := by cases e <;> decide

/-- What is said of a search, where the size fits the buffer if there is one. -/
theorem Console.exists_report (h : BootData F c.mem lits fdtBase root names) {buf : Addr}
    (hbuf : ScratchFits buf) (hF : ∀ x, InRange buf 11 x → F x) {r : Errno × MmReg}
    {size : Word} (hsize : r.1 = .esucc → -1000000000 < size.toInt) :
    ∃ m', c.report lits buf r size = some ⟨m', c.sent ++ reportText r size⟩ ∧
      EqOutside F c.mem m' := by
  by_cases hres : r.1 = .esucc
  · have hready : ∀ p ∈ regionParts r.2.base size, p.piece.Ready F c.mem := by
      simp [regionParts, Piece.Ready, hsize hres]
    obtain ⟨m', hprint, hm'⟩ := exists_line (regionParts r.2.base size) hbuf hF
      h.literals.region rfl hready
    refine ⟨m', ?_, hm'⟩
    rw [report, reportText, if_neg (not_not.mpr hres), if_neg (not_not.mpr hres)]
    exact hprint
  · have hready : ∀ p ∈ errorParts r.1.code, p.piece.Ready F c.mem := by
      simp [errorParts, Piece.Ready, r.1.code_toInt]
    obtain ⟨m', hprint, hm'⟩ := exists_line (errorParts r.1.code) hbuf hF h.literals.error rfl
      hready
    refine ⟨m', ?_, hm'⟩
    rw [report, reportText, if_pos hres, if_pos hres]
    exact hprint

/-- `mlay_get_initrd_reg`: where both ends are found it prints two lines, and reads the cells again
after each of them. -/
theorem Console.exists_getInitrdReg (h : BootData F c.mem lits fdtBase root names) {buf : Addr}
    (hbuf : ScratchFits buf) (hF : ∀ x, InRange buf 11 x → F x) (initrdReg : MmReg) :
    ∃ m', c.getInitrdReg lits buf fdtBase initrdReg =
        some (foundInitrd c.mem fdtBase names root initrdReg,
          ⟨m', c.sent ++ endsText c.mem fdtBase names root⟩) ∧
      EqOutside F c.mem m' := by
  have hnull : ¬(0#32 : Addr) ≠ 0#32 := not_not.mpr rfl
  have hlits := h.literals
  -- nothing is printed
  have hsilent : ∀ res : Errno × MmReg, ∃ m', some (res, c) = some (res, ⟨m', c.sent ++ []⟩) ∧
      EqOutside F c.mem m' :=
    fun res ↦ ⟨c.mem, by rw [List.append_nil], EqOutside.refl _ _⟩
  rw [getInitrdReg, hlits.chosen.literal.fdtGetNode_like h.tree hlits.slash.literal (by decide),
    Option.bind_some, foundInitrd, takenInitrd, endsText, takenEnds]
  cases hnode : nodeLike chosenName (structStart c.mem fdtBase) root with
  | none =>
    rw [foundPtr_none, if_neg hnull]
    exact hsilent _
  | some n =>
    have hn : n ∈ root.nodesAt (structStart c.mem fdtBase) := List.mem_of_find?_eq_some hnode
    rw [foundPtr_some, if_pos (h.tree.iterates_nodes.ne_stop (List.mem_map_of_mem hn)),
      hlits.linuxInitrdStart.literal.fdtGetProperty_like h.tree h.named hn, Option.bind_some,
      Option.bind_some, Option.bind_some]
    cases hstart : propLike names linuxInitrdStartName n.1 n.2 with
    | none =>
      rw [foundPtr_none, if_neg hnull,
        hlits.initrdStart.literal.fdtGetProperty_like h.tree h.named hn, Option.map_some]
      cases hplain : propLike names initrdStartName n.1 n.2 with
      | none =>
        rw [foundPtr_none, if_neg hnull]
        exact hsilent _
      | some p =>
        rw [foundPtr_some, if_pos (h.tree.ptr_ne_of_propLike hn hplain)]
        exact hsilent _
    | some s =>
      rw [foundPtr_some, if_pos (h.tree.ptr_ne_of_propLike hn hstart),
        hlits.linuxInitrdEnd.literal.fdtGetProperty_like h.tree h.named hn, Option.bind_some]
      cases hend : propLike names linuxInitrdEndName n.1 n.2 with
      | none =>
        rw [foundPtr_none, if_neg hnull]
        exact hsilent _
      | some e =>
        have hs : s ∈ n.2.propsAt n.1 := List.mem_of_find?_eq_some hstart
        have he : e ∈ n.2.propsAt n.1 := List.mem_of_find?_eq_some hend
        rw [foundPtr_some, if_pos (h.tree.ptr_ne_of_propLike hn hend), propData_ptr, propData_ptr]
        obtain ⟨m₁, hprint₁, hm₁⟩ := exists_line
          (startParts (ptr (s.1 + 12)) (initrdCell c.mem (ptr s.1))) hbuf hF hlits.startData rfl
          (by simp [startParts, Piece.Ready])
        set c₁ : Console :=
          ⟨m₁, c.sent ++ lineOf (startParts (ptr (s.1 + 12)) (initrdCell c.mem (ptr s.1)))⟩ with hc₁
        have hlit₁ := hlits.endData.keep hm₁
        obtain ⟨m₂, hprint₂, hm₂⟩ := exists_line (c := c₁)
          (endParts (ptr (e.1 + 12)) (initrdCell c.mem (ptr e.1))) hbuf hF hlit₁ rfl
          (by simp [endParts, Piece.Ready])
        have hcell : ∀ m', EqOutside F c.mem m' →
            initrdCell m' (ptr s.1) = initrdCell c.mem (ptr s.1) ∧
              initrdCell m' (ptr e.1) = initrdCell c.mem (ptr e.1) :=
          fun _ hm ↦ ⟨h.apart.initrdCell_eq hm hn hs, h.apart.initrdCell_eq hm hn he⟩
        have hline₁ : c.kprintf lits.startData buf [ptr (s.1 + 12), initrdCell c.mem (ptr s.1)] =
            some c₁ := hprint₁
        have hline₂ : c₁.kprintf lits.endData buf [ptr (e.1 + 12), initrdCell c₁.mem (ptr e.1)] =
            some ⟨m₂, c₁.sent ++
              lineOf (endParts (ptr (e.1 + 12)) (initrdCell c.mem (ptr e.1)))⟩ := by
          rw [(hcell c₁.mem hm₁).2]
          exact hprint₂
        refine ⟨m₂, ?_, hm₁.trans hm₂⟩
        rw [hline₁, Option.bind_some, hline₂, Option.map_some]
        dsimp only
        rw [(hcell m₂ (hm₁.trans hm₂)).1, (hcell m₂ (hm₁.trans hm₂)).2, hc₁, List.append_assoc]
        rfl

/-! ## The boot -/

theorem BssLayout.eqOutside_clearBss (L : BssLayout) (hempty : L.hmiBssEnd = L.hmiBssStart)
    (m : Memory) : EqOutside L.InKBss m (L.clearBss m) := by
  intro x hx
  have hnone : ¬InRange L.hmiBssStart (L.hmiBssStart - L.hmiBssEnd).toNat x := by
    rw [hempty, sub_self]
    exact Nat.not_lt_zero _
  exact (L.clearBss_apply m x).trans (if_neg (not_or.mpr ⟨hx, hnone⟩))

theorem toInt_mebibytes (size : Word) : -1000000000 < (size / 0x100000#32).toInt := by
  have hlt : (size / 0x100000#32).toNat < 2 ^ 31 := by
    have := size.isLt
    rw [BitVec.toNat_udiv]
    change size.toNat / 0x100000 < 2 ^ 31
    omega
  rw [BitVec.toInt_eq_toNat_of_lt (by omega)]
  omega

/-- The literals that `banksMemory` does not have. -/
def bootLiteralBytes : List Byte :=
  [chosenName, linuxInitrdStartName, linuxInitrdEndName, initrdStartName, beginNodeFormat,
    rootNodeFormat, endNodeFormat, propFormat, formatString insidePieces,
    formatString (linePieces (errorParts 0#32)), formatString (linePieces (regionParts 0#32 0#32)),
    formatString (linePieces (startParts 0#32 0#32)),
    formatString (linePieces (endParts 0#32 0#32))].flatMap fun s ↦ s.bytes ++ [0#8]

def bootLiterals : BootLiterals where
  lookup := { banksLiterals with
    chosen := 0x2000#32
    linuxInitrdStart := 0x2007#32
    linuxInitrdEnd := 0x201A#32
    initrdStart := 0x202B#32 }
  dump := ⟨0x2038#32, 0x2040#32, 0x2045#32, 0x204B#32⟩
  inside := 0x2051#32
  error := 0x2065#32
  region := 0x2070#32
  startData := 0x208F#32
  endData := 0x20A9#32

def bootFrames : BootFrames := ⟨0x9000#32, 0x9010#32, 0x9020#32, 0x9100#32, 0x9130#32⟩

/-- The tree, the literals, and ones everywhere else. -/
def bootMemory : Memory := fun x ↦
  if x < 0x2000#32 then banksMemory kpStart otherStart x
  else bootLiteralBytes.getD (x - 0x2000#32).toNat 1#8

/-- The bss and the stack are from `0x8000` on. -/
def BootWrites (x : Addr) : Prop := 0x8000#32 ≤ x

instance (x : Addr) : Decidable (BootWrites x) := inferInstanceAs (Decidable (_ ≤ _))

/-- No bss in the initialization region, and 512 bytes in the kernel. -/
def bootLayout : BssLayout where
  hmiBssStart := 0x8000#32
  hmiBssEnd := 0x8000#32
  kBssStart := 0x8000#32
  kBssEnd := 0x8200#32
  hmi_le := Nat.le_refl _
  k_le := by decide

theorem bootWrites_of_inRange {a x : Addr} {n : ℕ} (hn : a.toNat + n ≤ 2 ^ 32)
    (ha : 0x8000#32 ≤ a) (hx : InRange a n x) : BootWrites x := by
  rw [inRange_iff hn] at hx
  rw [BootWrites, BitVec.le_def]
  exact (BitVec.le_def.mp ha).trans hx.1

theorem bootSpace_banks :
    BootSpace BootWrites bootLayout bootFrames 0x8010#32 where
  hmi_empty := rfl
  bss x hx := BitVec.le_def.mpr hx.1
  tabs_mem x hx := by
    rw [inRange_iff (by decide)] at hx
    change 0x8010 ≤ x.toNat ∧ x.toNat < 0x8010 + 256 at hx
    change 0x8000 ≤ x.toNat ∧ x.toNat < 0x8200
    omega
  tabs_fits := by decide
  own := ⟨by decide, by decide⟩
  own_mem _ := bootWrites_of_inRange (by decide) (by decide)
  initrd := ⟨by decide, by decide⟩
  initrd_mem _ := bootWrites_of_inRange (by decide) (by decide)
  name_fits := by decide
  scratch_fits := by decide
  buffers := by decide
  buffers_mem _ hx := hx.elim (bootWrites_of_inRange (by decide) (by decide))
    (bootWrites_of_inRange (by decide) (by decide))

theorem bootData_banks : BootData BootWrites bootMemory bootLiterals 0x1000#32
    (banksRoot kpStart otherStart) banksNames where
  tree := ⟨by decide, by decide, by decide, by decide +kernel⟩
  named := ⟨by decide, by decide +kernel, by decide +kernel⟩
  lines := by decide +kernel
  apart := ⟨by decide +kernel, by decide +kernel, by decide +kernel⟩
  literals :=
    { dump := ⟨⟨by decide +kernel, by decide +kernel⟩, ⟨by decide +kernel, by decide +kernel⟩,
        ⟨by decide +kernel, by decide +kernel⟩, ⟨by decide +kernel, by decide +kernel⟩⟩
      slash := ⟨by decide +kernel, by decide +kernel⟩
      memoryAt := ⟨by decide +kernel, by decide +kernel⟩
      memory := ⟨by decide +kernel, by decide +kernel⟩
      reg := ⟨by decide +kernel, by decide +kernel⟩
      chosen := ⟨by decide +kernel, by decide +kernel⟩
      linuxInitrdStart := ⟨by decide +kernel, by decide +kernel⟩
      linuxInitrdEnd := ⟨by decide +kernel, by decide +kernel⟩
      initrdStart := ⟨by decide +kernel, by decide +kernel⟩
      inside := ⟨by decide +kernel, by decide +kernel⟩
      error := ⟨by decide +kernel, by decide +kernel⟩
      region := ⟨by decide +kernel, by decide +kernel⟩
      startData := ⟨by decide +kernel, by decide +kernel⟩
      endData := ⟨by decide +kernel, by decide +kernel⟩ }

end Sugarcat
