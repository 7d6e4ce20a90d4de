import Sugarcat.Vexpress.MemLayout

/-!
# Finding physical memory

`mlay_get_phy_mem_reg` is meant to find the node `memory@0x60000000`, named after the start of the
kernel. The name it asks for ends in a newline, and behind that is what the buffer held before, as
there is no terminator. No node has such a name, so what was meant as a fallback decides: the first
node whose name begins with `memory` is taken.

## What is meant

`KernelMemory` is the region of the node that is named after the start of the kernel, and begins
there. `NoMemory` says that no node is called `memory`, with or without a unit address. The source
has a second function that is like the first one, and both are in the statement.

## What is computed

`MemInputs.getMemReg_eq` says what the code computes, on any tree none of whose names has a newline
in it: the first region that is found by prefix. `discoversMemory_iff` says when that is as good as
the node that is meant. It may be another node, as long as its region is the same.

The buffers and the literals stand outside of the tree. `sprintf` writes to the buffers before the
tree is read, and the tree is the same behind it.
-/

namespace Sugarcat

open ByteMemory

/-! ## What is meant -/

/-- `memory@0x60000000`, for an address. -/
def memoryAtName (start : Addr) : CString where
  bytes := memoryAtBytes ++ hexDigits start.toNat
  nonzero := by
    rw [List.mem_append, not_or]
    exact ⟨by decide, zero_notMem_hexDigits _⟩

/-- The property `reg` of a node, when it is one pair. -/
def DtNode.reg (names : Word → CString) (n : DtNode) : Option MmReg :=
  (n.called names regName).bind fun p ↦
    if p.value.length = 8 then some ⟨cell p.value 0, cell p.value 1⟩ else none

/-- `r` is the region of a node that is named after the start of the kernel, and starts there. -/
def KernelMemory (names : Word → CString) (root : DtNode) (r : MmReg) : Prop :=
  r.base = kpStart ∧
    ∃ n ∈ root.preorder, n.name.bytes = (memoryAtName kpStart).bytes ∧ n.reg names = some r

/-- No node is a memory node. -/
def NoMemory (root : DtNode) : Prop :=
  ∀ n ∈ root.preorder, ¬Designates memoryName.bytes n.name.bytes

/-- The kernel's memory is returned if it is in the tree, and nothing if no memory is. -/
def DiscoversMemory (names : Word → CString) (root : DtNode) : MmReg → Errno × MmReg → Prop :=
  Discovers (KernelMemory names root) (NoMemory root)

/-! ## What is found -/

/-- The first property with a name that `reg` begins, of the first node with a name that `memory`
begins. -/
def takenReg (a : ℕ) (names : Word → CString) (root : DtNode) : Option (ℕ × DtProp) :=
  (nodeLike memoryName a root).bind fun n ↦ propLike names regName n.1 n.2

/-- That property holds the cells of the kernel's memory if it is in the tree, and there is no such
property if no memory is. -/
structure TakesMemory (m : Memory) (a : ℕ) (names : Word → CString) (root : DtNode) : Prop where
  kernel : (∃ r, KernelMemory names root r) →
    ∃ r p, KernelMemory names root r ∧ takenReg a names root = some p ∧
      be32 m (ptr (p.1 + 12)) = r.base ∧ be32 m (ptr (p.1 + 16)) = r.size
  absent : NoMemory root → takenReg a names root = none

/-! ## What is in memory -/

/-- The tree and the literals are in memory, apart from the two buffers. The name of a node is of
letters, digits and punctuation, so it has no newline. -/
structure MemInputs (lit : Literals) (buf scratch : Addr) (m : Memory) (fdtBase : Addr)
    (root : DtNode) (names : Word → CString) : Prop where
  tree : FlatTree m fdtBase root
  named : Named m fdtBase root names
  lines : ∀ n ∈ root.preorder, 0x0A#8 ∉ n.name.bytes
  apart : TreeApart (Buffers buf.toNat 32 scratch.toNat) m fdtBase root names
  slash : LiteralApart (Buffers buf.toNat 32 scratch.toNat) m lit.slash slashString
  memoryAt : LiteralApart (Buffers buf.toNat 32 scratch.toNat) m lit.memoryAt memoryAtFormat
  memory : LiteralApart (Buffers buf.toNat 32 scratch.toNat) m lit.memory memoryName
  reg : LiteralApart (Buffers buf.toNat 32 scratch.toNat) m lit.reg regName
  buf_fits : 0 < buf.toNat ∧ buf.toNat + 32 < 2 ^ 32
  scratch_fits : 0 < scratch.toNat ∧ scratch.toNat + 11 < 2 ^ 32
  buffers : buf.toNat + 32 ≤ scratch.toNat ∨ scratch.toNat + 11 ≤ buf.toNat

variable {lit : Literals} {buf scratch start fdtBase : Addr} {m : Memory} {root n : DtNode} {x : ℕ}
  {names : Word → CString} {r : MmReg}

/-- The pieces of the format, with the address. -/
def memoryAtPieces (start : Addr) : List Piece :=
  charsOf memoryAtBytes (by decide) ++ [.hex start, .char 0x0A#8 (by decide) (by decide)]

theorem formatString_memoryAt (start : Addr) :
    formatString (memoryAtPieces start) = memoryAtFormat := by
  have hbytes : formatOf (memoryAtPieces start) = memoryAtFormat.bytes := by
    rw [memoryAtPieces, formatOf_append, formatOf_charsOf]
    rfl
  exact CString.ext hbytes

theorem textOf_memoryAt (start : Addr) :
    textOf (memoryAtPieces start) = memoryAtBytes ++ hexDigits start.toNat ++ [0x0A#8] := by
  rw [memoryAtPieces, textOf_append, textOf_charsOf, List.append_assoc]
  rfl

theorem argsOf_memoryAt (start : Addr) : argsOf (memoryAtPieces start) = [start] := by
  rw [memoryAtPieces, argsOf_append, argsOf_charsOf]
  rfl

theorem MemInputs.sprintfInputs (h : MemInputs lit buf scratch m fdtBase root names)
    (start : Addr) : SprintfInputs m buf 32 lit.memoryAt scratch (memoryAtPieces start) where
  fit := ⟨h.buf_fits.1, h.buf_fits.2, h.scratch_fits.1, h.scratch_fits.2, h.buffers⟩
  format := (formatString_memoryAt start).symm ▸ h.memoryAt
  ready c hc := by
    rw [memoryAtPieces, List.mem_append, List.mem_cons, List.mem_singleton] at hc
    rcases hc with hc | rfl | rfl
    · exact ready_of_mem_charsOf _ hc
    · trivial
    · trivial
  room := by
    have hlen := length_hexDigits_le start.isLt
    rw [textOf_memoryAt, List.length_append, List.length_append, List.length_singleton,
      memoryAtBytes]
    change 9 + _ + 1 ≤ 32
    omega

theorem MemInputs.exists_sprintf (h : MemInputs lit buf scratch m fdtBase root names)
    (start : Addr) :
    ∃ m', sprintf m buf lit.memoryAt scratch [start] = some m' ∧
      BytesAt m' buf.toNat (memoryAtBytes ++ hexDigits start.toNat ++ [0x0A#8]) ∧
      EqOutside (Buffers buf.toNat 32 scratch.toNat) m m' := by
  obtain ⟨m', hend, hbytes, hm'⟩ := (h.sprintfInputs start).exists_end []
  have hbuf : buf ≠ 0#32 := ne_zero_of_toNat_pos h.buf_fits.1
  rw [argsOf_memoryAt, List.append_nil] at hend
  rw [textOf_memoryAt] at hbytes
  exact ⟨m', by rw [sprintf_eq_map_end hbuf h.memoryAt.literal.ne_null, hend, Option.map_some],
    hbytes, hm'⟩

/-- What ends in a newline is the name of no node, whatever comes behind it. -/
theorem nodeHit_newline {m : Memory} {buf slash : Addr} {x : ℕ} {n : DtNode} {s : List Byte}
    (hslash : LiteralAt m slash slashString) (hbuf : buf ≠ 0#32)
    (hbytes : BytesAt m buf.toNat (s ++ [0x0A#8])) (hs : 0#8 ∉ s) (hfirst : m buf ≠ 0x2F#8)
    (hat : (Token.beginNode n.name).At m x) (hfits : x + (Token.beginNode n.name).size < 2 ^ 32)
    (hline : 0x0A#8 ∉ n.name.bytes) : nodeHit m slash buf (ptr x) = some false := by
  have hread : ∀ i, (hi : i < (s ++ [0x0A#8]).length) → m (buf + ptr i) = (s ++ [0x0A#8])[i] := by
    intro i hi
    have hi' := hbytes i hi
    rwa [← ptr_add, ptr_toNat] at hi'
  have hlen : (s ++ [0x0A#8]).length = s.length + 1 := by simp
  have hchars : ∀ i ≤ s.length, m (buf + ptr i) ≠ 0#8 := by
    intro i hi hzero
    have hmem : (0#8 : Byte) ∈ s ++ [0x0A#8] := by
      rw [← hzero, hread i (by omega)]
      exact List.getElem_mem _
    rw [List.mem_append, List.mem_singleton] at hmem
    exact hmem.elim hs (by decide)
  rw [Token.size] at hfits
  have hdata := nodeData_ptr x
  have hdatanull : nodeData (ptr x) ≠ 0#32 := hdata ▸ ptr_ne_zero (by omega) (by omega)
  -- the name ends before the newline, or has something else in its place
  have hdiff : ∃ k ≤ s.length, m (buf + ptr k) ≠ m (nodeData (ptr x) + ptr k) := by
    rcases Nat.lt_or_ge s.length n.name.bytes.length with hlt | hge
    · refine ⟨s.length, le_rfl, fun heq ↦ hline ?_⟩
      rw [hread s.length (by omega), List.getElem_concat_length rfl, hdata, ptr_add,
        hat.2.1 s.length hlt] at heq
      exact heq ▸ List.getElem_mem _
    · refine ⟨n.name.bytes.length, hge, fun heq ↦ hchars _ hge ?_⟩
      rw [heq, hdata, ptr_add]
      exact hat.2.2
  obtain ⟨k, hk, hne⟩ := hdiff
  have hslash0 : m slash = 0x2F#8 := by
    have hat0 := hslash.at.1 0 (by decide)
    rw [Nat.add_zero, ptr_toNat] at hat0
    exact hat0
  obtain ⟨d, hd, hd0⟩ := strcmp_ne_zero hslash.at.2 hbuf hdatanull
    (fun i hi ↦ hchars i (hi.trans hk)) hne
  obtain ⟨e, he, he0⟩ := strcmp_ne_zero (k := 0) hslash.at.2 hbuf hslash.ne_null
    (fun i hi ↦ hchars i (hi.trans (Nat.zero_le _)))
    (by rw [add_ptr_zero, add_ptr_zero, hslash0]; exact hfirst)
  rw [nodeHit, hd, Option.bind_some, if_neg hd0, he, Option.bind_some, if_neg he0]

/-- **What the code computes.** -/
theorem MemInputs.getMemReg_eq (h : MemInputs lit buf scratch m fdtBase root names) (start : Addr)
    (memReg : MmReg) :
    getMemReg start lit buf scratch m fdtBase memReg
      = some (outcome memReg ((takenReg (structStart m fdtBase) names root).map fun p ↦
          ⟨be32 m (ptr (p.1 + 12)), be32 m (ptr (p.1 + 16))⟩)) := by
  obtain ⟨m', hrun, hbytes, hm'⟩ := h.exists_sprintf start
  have htree := h.tree.of_eqOutside h.apart hm'
  have hnamed := h.named.of_eqOutside h.apart hm'
  have hslash := h.slash.of_eqOutside hm'
  have hbuf : buf ≠ 0#32 := ne_zero_of_toNat_pos h.buf_fits.1
  have hchar : m' buf = 0x6D#8 := by
    have hat := hbytes 0 (by simp [memoryAtBytes])
    rw [Nat.add_zero, ptr_toNat] at hat
    exact hat
  have htest : ∀ n ∈ root.nodesAt (structStart m' fdtBase),
      nodeHit m' lit.slash buf (ptr n.1) = some false := by
    intro n hn
    obtain ⟨hat, -, hfits⟩ := htree.at_beginNode hn
    exact nodeHit_newline hslash hbuf hbytes (memoryAtName start).nonzero
      (by rw [hchar]; decide) hat hfits (h.lines n.2 (DtNode.mem_preorder hn))
  have hfirst : fdtGetNode m' lit.slash buf fdtBase = some 0#32 := by
    rw [htree.fdtGetNode_of_test hbuf htest, List.find?_eq_none.mpr (by simp)]
    rfl
  have hsecond := (h.memory.of_eqOutside hm').fdtGetNode_like htree hslash (by decide)
  rw [h.apart.structStart_eq hm'] at hsecond
  rw [getMemReg, hrun, Option.bind_some, hfirst, Option.bind_some, if_pos rfl, hsecond,
    Option.bind_some, takenReg]
  cases hnode : nodeLike memoryName (structStart m fdtBase) root with
  | none =>
    rw [foundPtr_none, if_neg (not_not.mpr rfl)]
    rfl
  | some n =>
    have hn : n ∈ root.nodesAt (structStart m fdtBase) := List.mem_of_find?_eq_some hnode
    have hn' := hn
    rw [← h.apart.structStart_eq hm'] at hn'
    rw [foundPtr_some, if_pos (h.tree.iterates_nodes.ne_stop (List.mem_map_of_mem hn)),
      (h.reg.of_eqOutside hm').fdtGetProperty_like htree hnamed hn', Option.map_some,
      Option.bind_some]
    cases hprop : propLike names regName n.1 n.2 with
    | none =>
      rw [foundPtr_none, if_neg (not_not.mpr rfl)]
      rfl
    | some p =>
      have hp : p ∈ n.2.propsAt n.1 := List.mem_of_find?_eq_some hprop
      rw [foundPtr_some, if_pos (h.tree.ptr_ne_of_propLike hn hprop), propData_ptr,
        show (4#32 : Word) = ptr 4 from rfl, ptr_add, h.apart.be32_prop hm' hn hp (by omega),
        Nat.add_assoc, h.apart.be32_prop hm' hn hp (by omega)]
      rfl

theorem MemInputs.discoversMemory_iff_of_start
    (h : MemInputs lit buf scratch m fdtBase root names) (start : Addr) (memReg : MmReg) :
    (∃ res, getMemReg start lit buf scratch m fdtBase memReg = some res ∧
        DiscoversMemory names root memReg res)
      ↔ TakesMemory m (structStart m fdtBase) names root := by
  rw [h.getMemReg_eq]
  simp only [Option.some.injEq, exists_eq_left', DiscoversMemory, discovers_outcome_iff,
    Option.map_eq_none_iff, Option.map_eq_some_iff, MmReg.ext_iff]
  constructor
  · rintro ⟨hfound, habsent⟩
    refine ⟨?_, habsent⟩
    intro hr
    obtain ⟨r, hmem, p, hp, hbase, hsize⟩ := hfound hr
    exact ⟨r, p, hmem, hp, hbase, hsize⟩
  · intro ht
    refine ⟨?_, ht.absent⟩
    intro hr
    obtain ⟨r, p, hmem, hp, hbase, hsize⟩ := ht.kernel hr
    exact ⟨r, hmem, p, hp, hbase, hsize⟩

/-- **The kernel's memory is found exactly when the first node whose name begins with `memory` is as
good**, and the same holds of the function that is like it. -/
theorem discoversMemory_iff (h : MemInputs lit buf scratch m fdtBase root names) (memReg : MmReg) :
    ((∃ res, mlayGetPhyMemReg lit buf scratch m fdtBase memReg = some res ∧
          DiscoversMemory names root memReg res)
        ↔ TakesMemory m (structStart m fdtBase) names root) ∧
      ((∃ res, initGetMemFdt lit buf scratch m fdtBase memReg = some res ∧
          DiscoversMemory names root memReg res)
        ↔ TakesMemory m (structStart m fdtBase) names root) :=
  ⟨h.discoversMemory_iff_of_start kpStart memReg, h.discoversMemory_iff_of_start kvStart memReg⟩

theorem FlatTree.takesMemory (h : FlatTree m fdtBase root)
    (hnode : nodeLike memoryName (structStart m fdtBase) root = some (x, n))
    (hname : n.name.bytes = (memoryAtName kpStart).bytes) (hreg : n.reg names = some r)
    (hbase : r.base = kpStart) (honly : OnlyCalled names regName n) :
    TakesMemory m (structStart m fdtBase) names root := by
  have hn : (x, n) ∈ root.nodesAt (structStart m fdtBase) := List.mem_of_find?_eq_some hnode
  have hmem : n ∈ root.preorder := DtNode.mem_preorder hn
  obtain ⟨p, hp, hpair⟩ := Option.bind_eq_some_iff.mp hreg
  obtain ⟨hlen, hr⟩ := Option.ite_none_right_eq_some.mp hpair
  obtain rfl := Option.some_inj.mp hr
  obtain ⟨y, htaken⟩ := exists_propLike_of_called hp honly x
  have hvalue := h.bytesAt_value hn (List.mem_of_find?_eq_some htaken)
  refine ⟨fun _ ↦ ⟨_, (y, p), ⟨hbase, n, hmem, hname, hreg⟩, ?_, ?_, ?_⟩, fun hno ↦ ?_⟩
  · rw [takenReg, hnode, Option.bind_some, htaken]
  · exact be32_cell hvalue (i := 0) (by omega)
  · exact be32_cell hvalue (i := 1) (by omega)
  · refine absurd ?_ (hno n hmem)
    rw [hname]
    decide +kernel

/-! ## Two banks -/

/-- 256 MiB of memory from an address on. -/
def bank (start : Addr) : DtNode :=
  .mk (memoryAtName start) 0 [⟨27#32, bytesBe start ++ bytesBe 0x10000000#32, 0⟩] [] 0

/-- One address cell, one size cell, and two banks. -/
def banksRoot (s t : Addr) : DtNode :=
  .mk .empty 0 [⟨0#32, bytesBe 1#32, 0⟩, ⟨15#32, bytesBe 1#32, 0⟩] [bank s, bank t] 0

def addressCellsName : CString :=
  ⟨[0x23#8, 0x61#8, 0x64#8, 0x64#8, 0x72#8, 0x65#8, 0x73#8, 0x73#8, 0x2D#8, 0x63#8, 0x65#8, 0x6C#8,
    0x6C#8, 0x73#8], by decide⟩

def banksNames (k : Word) : CString :=
  if k = 0#32 then addressCellsName else if k = 15#32 then sizeCellsName else regName

def bankBytes (start : Addr) : List Byte :=
  bytesBe 1#32 ++ (memoryAtName start).bytes ++ [0#8, 0#8, 0#8] ++
    bytesBe 3#32 ++ bytesBe 8#32 ++ bytesBe 27#32 ++ bytesBe start ++ bytesBe 0x10000000#32 ++
    bytesBe 2#32

def banksBytes (s t : Addr) : List Byte :=
  [0xD00DFEED#32, 0xD7#32, 0x28#32, 0xB8#32, 0#32, 17#32, 16#32, 0#32, 0x1F#32, 0x90#32].flatMap
      bytesBe ++
    -- the structure block
    [1#32, 0#32, 3#32, 4#32, 0#32, 1#32, 3#32, 4#32, 15#32, 1#32].flatMap bytesBe ++ bankBytes s ++
      bankBytes t ++ bytesBe 2#32 ++ bytesBe 9#32 ++
    -- the strings block
    addressCellsName.bytes ++ [0#8] ++ sizeCellsName.bytes ++ [0#8] ++ regName.bytes ++ [0#8] ++
    -- the literals
    slashString.bytes ++ [0#8] ++ memoryAtFormat.bytes ++ [0#8] ++ memoryName.bytes ++ [0#8] ++
      regName.bytes ++ [0#8]

def banksMemory (s t : Addr) : Memory := fun x ↦ (banksBytes s t).getD (x - 0x1000#32).toNat 0#8

def banksLiterals : Literals where
  slash := 0x10D7#32
  memoryAt := 0x10D9#32
  memory := 0x10E6#32
  reg := 0x10ED#32
  chosen := 0#32
  linuxInitrdStart := 0#32
  linuxInitrdEnd := 0#32
  initrdStart := 0#32

theorem preorder_banksRoot (s t : Addr) :
    (banksRoot s t).preorder = [banksRoot s t, bank s, bank t] := by
  simp [banksRoot, bank, DtNode.preorder, forestPreorder]

/-- The bank that the kernel is not in. -/
def otherStart : Addr := 0x70000000#32

theorem memInputs_banks {s t : Addr}
    (h : s = kpStart ∧ t = otherStart ∨ s = otherStart ∧ t = kpStart) :
    MemInputs banksLiterals 0x2000#32 0x2100#32 (banksMemory s t) 0x1000#32 (banksRoot s t)
      banksNames := by
  rcases h with ⟨rfl, rfl⟩ | ⟨rfl, rfl⟩ <;>
    exact {
      tree := ⟨by decide, by decide, by decide, by decide +kernel⟩
      named := ⟨by decide, by decide +kernel, by decide +kernel⟩
      lines := by decide +kernel
      apart := ⟨by decide +kernel, by decide +kernel, by decide +kernel⟩
      slash := ⟨by decide +kernel, by decide +kernel⟩
      memoryAt := ⟨by decide +kernel, by decide +kernel⟩
      memory := ⟨by decide +kernel, by decide +kernel⟩
      reg := ⟨by decide +kernel, by decide +kernel⟩
      buf_fits := by decide
      scratch_fits := by decide
      buffers := by decide }

/-- Where the kernel's bank comes first, it is returned. -/
theorem discoversMemory_iff_banks :
    ∃ res, mlayGetPhyMemReg banksLiterals 0x2000#32 0x2100#32 (banksMemory kpStart otherStart)
        0x1000#32 ⟨0#32, 0#32⟩ = some res ∧
      DiscoversMemory banksNames (banksRoot kpStart otherStart) ⟨0#32, 0#32⟩ res := by
  refine (discoversMemory_iff (memInputs_banks (Or.inl ⟨rfl, rfl⟩)) _).1.mpr
    ⟨fun _ ↦ ?_, fun h ↦ ?_⟩
  · refine ⟨⟨kpStart, 0x10000000#32⟩,
      (0x1068, ⟨27#32, bytesBe kpStart ++ bytesBe 0x10000000#32, 0⟩),
      ⟨rfl, bank kpStart, by simp [preorder_banksRoot], rfl, rfl⟩, rfl, ?_⟩
    decide +kernel
  · exact absurd (h (bank kpStart) (by simp [preorder_banksRoot]))
      (by decide +kernel)

/-- Where the other bank comes first, that is returned. -/
theorem not_discoversMemory_banks :
    MemInputs banksLiterals 0x2000#32 0x2100#32 (banksMemory otherStart kpStart) 0x1000#32
        (banksRoot otherStart kpStart) banksNames ∧
      ((banksRoot otherStart kpStart).props.map fun p ↦ (banksNames p.nameOffset, cell p.value 0))
        = [(addressCellsName, 1#32), (sizeCellsName, 1#32)] ∧
      (∀ n ∈ (banksRoot otherStart kpStart).preorder, Designates memoryName.bytes n.name.bytes →
        (n.reg banksNames).isSome) ∧
      KernelMemory banksNames (banksRoot otherStart kpStart) ⟨kpStart, 0x10000000#32⟩ ∧
      mlayGetPhyMemReg banksLiterals 0x2000#32 0x2100#32 (banksMemory otherStart kpStart) 0x1000#32
        ⟨0#32, 0#32⟩ = some (.esucc, ⟨otherStart, 0x10000000#32⟩) ∧
      ¬∃ res, mlayGetPhyMemReg banksLiterals 0x2000#32 0x2100#32 (banksMemory otherStart kpStart)
          0x1000#32 ⟨0#32, 0#32⟩ = some res ∧
        DiscoversMemory banksNames (banksRoot otherStart kpStart) ⟨0#32, 0#32⟩ res := by
  have hin := memInputs_banks (Or.inr ⟨rfl, rfl⟩ : otherStart = kpStart ∧ kpStart = otherStart ∨
    otherStart = otherStart ∧ kpStart = kpStart)
  have hkern : KernelMemory banksNames (banksRoot otherStart kpStart) ⟨kpStart, 0x10000000#32⟩ :=
    ⟨rfl, bank kpStart, by simp [preorder_banksRoot], rfl, rfl⟩
  have hrun : mlayGetPhyMemReg banksLiterals 0x2000#32 0x2100#32 (banksMemory otherStart kpStart)
      0x1000#32 ⟨0#32, 0#32⟩ = some (.esucc, ⟨otherStart, 0x10000000#32⟩) := by
    rw [mlayGetPhyMemReg, hin.getMemReg_eq]
    decide +kernel
  refine ⟨hin, rfl, by decide +kernel, hkern, hrun, ?_⟩
  rintro ⟨res, heq, hres⟩
  rw [hrun, Option.some_inj] at heq
  obtain ⟨r, hr, hcode⟩ := hres.found ⟨_, hkern⟩
  have hbase : otherStart = r.base := congrArg MmReg.base (Prod.mk.inj (heq.trans hcode)).2
  rw [hr.1] at hbase
  exact absurd hbase (by decide)

end Sugarcat
