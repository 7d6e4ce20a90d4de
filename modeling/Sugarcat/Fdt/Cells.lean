import Sugarcat.Fdt.NodeLookup
import Sugarcat.Fdt.PropertyLookup

/-!
# Cells

A property of one or more big-endian words holds them as cells. `fdtGetCellSize` is meant to return
the cell of `#size-cells` that holds for a node, which is its own or else that of the root. It reads
the cell of the root only: the value is decoded in the branch for nodes that have no property of
their own, and for all others the initial 0 is returned.

## What the searches come to

The lookups in memory return pointers, and what a pointer is worth depends on the tree. `propLike`
is what a search for a property comes to, the first whose name begins with the one asked for, and
`propCalled` what it is meant to come to, the first of exactly that name. `nodeLike` is what a
search for a node comes to. All three are functions on the tree alone, with the place of what is
found, and `foundPtr` makes the returned pointer of it. The functions further up, which look for
memory and for the ramdisk, are computed through them.

## Cells in memory

`cell` reads a word of a value, most significant byte first, and `be32_cell` says that this is what
the code loads, where the value lies in memory as the tree has it.
-/

namespace Sugarcat

open ByteMemory

/-! ## What is found -/

/-- The first property of the node `n` at `x` whose name begins with `name`. -/
def propLike (names : Word → CString) (name : CString) (x : ℕ) (n : DtNode) : Option (ℕ × DtProp) :=
  (n.propsAt x).find? fun p ↦ decide (name.bytes <+: (names p.2.nameOffset).bytes)

/-- The first property of the node `n` at `x` that is called `name`. -/
def propCalled (names : Word → CString) (name : CString) (x : ℕ) (n : DtNode) :
    Option (ℕ × DtProp) :=
  (n.propsAt x).find? fun p ↦ decide ((names p.2.nameOffset).bytes = name.bytes)

/-- The first property of a node that is called `name`, wherever the node is. -/
def DtNode.called (names : Word → CString) (name : CString) (n : DtNode) : Option DtProp :=
  (propCalled names name 0 n).map Prod.snd

/-- The first node, in pre-order, whose name begins with `name`. -/
def nodeLike (name : CString) (a : ℕ) (root : DtNode) : Option (ℕ × DtNode) :=
  (root.nodesAt a).find? fun n ↦ decide (name.bytes <+: n.2.name.bytes)

/-- The pointer to what is found, or `NULL`. -/
def foundPtr {α : Type*} (o : Option (ℕ × α)) : Addr := (o.map fun p ↦ ptr p.1).getD 0#32

@[simp] theorem foundPtr_none {α : Type*} : foundPtr (none : Option (ℕ × α)) = 0#32 := rfl

@[simp] theorem foundPtr_some {α : Type*} (p : ℕ × α) : foundPtr (some p) = ptr p.1 := rfl

variable {m : Memory} {fdtBase : Addr} {root n : DtNode} {x q r y : ℕ} {names : Word → CString}
  {name : CString} {p : DtProp} {s : List Byte}

theorem FlatTree.fdtGetNode_like (h : FlatTree m fdtBase root) (hname : name.At m q) (hq : 0 < q)
    (hqfits : q + name.bytes.length < 2 ^ 32) (hslash : slashString.At m r) (hr : 0 < r)
    (hrfits : r + 1 < 2 ^ 32) (hne : ¬name.bytes <+: slashString.bytes) :
    fdtGetNode m (ptr r) (ptr q) fdtBase
      = some (foundPtr (nodeLike name (structStart m fdtBase) root)) := by
  rw [h.fdtGetNode_eq hname hq hqfits hslash hr hrfits]
  simp only [hne, false_and, or_false]
  rfl

theorem propLike_eq_none_iff :
    propLike names name x n = none
      ↔ ∀ p ∈ n.props, ¬name.bytes <+: (names p.nameOffset).bytes := by
  rw [propLike, List.find?_eq_none, ← n.map_snd_propsAt x, List.forall_mem_map]
  simp

theorem DtNode.called_eq (names : Word → CString) (name : CString) (n : DtNode) (x : ℕ) :
    n.called names name = (propCalled names name x n).map Prod.snd := by
  have hprops : ∀ y, (propCalled names name y n).map Prod.snd
      = n.props.find? fun p ↦ decide ((names p.nameOffset).bytes = name.bytes) := fun y ↦ by
    rw [propCalled, ← n.map_snd_propsAt y, List.find?_map]
    rfl
  rw [DtNode.called, hprops, hprops]

/-- Where nothing is like the name, nothing is called by it. -/
theorem propCalled_eq_none_of_propLike (h : propLike names name x n = none) :
    propCalled names name x n = none := by
  rw [propLike, List.find?_eq_none] at h
  refine List.find?_eq_none.mpr fun p hp hname ↦ h p hp ?_
  rw [decide_eq_true_iff] at hname ⊢
  rw [hname]

theorem FlatTree.fdtGetProperty_like (h : FlatTree m fdtBase root)
    (hnames : Named m fdtBase root names) (hn : (x, n) ∈ root.nodesAt (structStart m fdtBase))
    (hname : name.At m q) (hq : 0 < q) (hqfits : q + name.bytes.length < 2 ^ 32) :
    fdtGetProperty m fdtBase (ptr x) (ptr q) = some (foundPtr (propLike names name x n)) :=
  h.fdtGetProperty_eq hnames hn hname hq hqfits

theorem FlatTree.ptr_ne_of_propLike (h : FlatTree m fdtBase root)
    (hn : (x, n) ∈ root.nodesAt (structStart m fdtBase))
    (hp : propLike names name x n = some (y, p)) : ptr y ≠ 0#32 := by
  obtain ⟨z, hiter⟩ := h.iterates_props hn
  exact hiter.ne_stop (List.mem_map_of_mem (List.mem_of_find?_eq_some hp))

theorem FlatTree.root_mem (m : Memory) (fdtBase : Addr) (root : DtNode) :
    (structStart m fdtBase, root) ∈ root.nodesAt (structStart m fdtBase) := by
  obtain ⟨rest, hnodes⟩ := root.nodesAt_eq_cons (structStart m fdtBase)
  rw [hnodes]
  exact List.mem_cons_self

/-! ## Cells of a property -/

/-- The cell at the index `i` of a value. -/
def cell (s : List Byte) (i : ℕ) : Word :=
  s.getD (4 * i) 0#8 ++ s.getD (4 * i + 1) 0#8 ++ s.getD (4 * i + 2) 0#8 ++ s.getD (4 * i + 3) 0#8

/-- What is read at a cell of a value in memory. -/
theorem be32_cell (h : BytesAt m x s) {i : ℕ} (hi : 4 * i + 4 ≤ s.length) :
    be32 m (ptr (x + 4 * i)) = cell s i := by
  have hbyte : ∀ k < 4, m (ptr (x + 4 * i) + ptr k) = s.getD (4 * i + k) 0#8 := by
    intro k hk
    rw [ptr_add, Nat.add_assoc, h (4 * i + k) (by omega), List.getD_eq_getElem _ _ (by omega)]
  have h0 := hbyte 0 (by omega)
  rw [add_ptr_zero, Nat.add_zero] at h0
  rw [be32_eq, h0, cell]
  exact congrArg₂ _ (congrArg₂ _ (congrArg₂ _ rfl (hbyte 1 (by omega))) (hbyte 2 (by omega)))
    (hbyte 3 (by omega))

theorem FlatTree.bytesAt_value (h : FlatTree m fdtBase root)
    (hn : (x, n) ∈ root.nodesAt (structStart m fdtBase)) (hp : (y, p) ∈ n.propsAt x) :
    BytesAt m (y + 12) p.value := by
  obtain ⟨t, us, -, -, henc, -, -, -⟩ := h.encodes_body hn
  exact (DtNode.at_of_mem_propsAt (encodes_append.mp henc).1 hp).2.2.2

/-! ## Size cells -/

/-- `#size-cells`. -/
def sizeCellsName : CString :=
  ⟨[0x23#8, 0x73#8, 0x69#8, 0x7A#8, 0x65#8, 0x2D#8, 0x63#8, 0x65#8, 0x6C#8, 0x6C#8, 0x73#8],
    by decide⟩

/-- The first cell of a property, and 0 where there is none. -/
def firstCell (m : Memory) : Option (ℕ × DtProp) → Word
  | none => 0#32
  | some p => be32 m (ptr (p.1 + 12))

/-- The size cells that hold for the node `n` at `x`: its own, or else those of the root. -/
def sizeCells (m : Memory) (fdtBase : Addr) (root : DtNode) (names : Word → CString) (x : ℕ)
    (n : DtNode) : Word :=
  firstCell m ((propCalled names sizeCellsName x n).or
    (propCalled names sizeCellsName (structStart m fdtBase) root))

/-- What the code computes: nothing where the node has a property like it. -/
theorem FlatTree.fdtGetCellSize_eq (h : FlatTree m fdtBase root)
    (hnames : Named m fdtBase root names) (hn : (x, n) ∈ root.nodesAt (structStart m fdtBase))
    (hname : sizeCellsName.At m q) (hq : 0 < q)
    (hqfits : q + sizeCellsName.bytes.length < 2 ^ 32) :
    fdtGetCellSize m (ptr q) fdtBase (ptr x)
      = some (if (propLike names sizeCellsName x n).isSome then 0#32
          else firstCell m (propLike names sizeCellsName (structStart m fdtBase) root)) := by
  have hroot := FlatTree.root_mem m fdtBase root
  have hx : ptr x ≠ 0#32 := h.iterates_nodes.ne_stop (List.mem_map_of_mem hn)
  rw [fdtGetCellSize, if_pos hx, h.fdtGetProperty_like hnames hn hname hq hqfits, Option.bind_some,
    fdtGetRootNode_eq h.magic, h.fdtGetProperty_like hnames hroot hname hq hqfits, Option.map_some]
  cases hown : propLike names sizeCellsName x n with
  | some p =>
    rw [foundPtr_some, if_neg (h.ptr_ne_of_propLike hn hown)]
    rfl
  | none =>
    rw [foundPtr_none, if_pos rfl]
    cases hinh : propLike names sizeCellsName (structStart m fdtBase) root with
    | none => rfl
    | some p =>
      rw [foundPtr_some, if_pos (h.ptr_ne_of_propLike hroot hinh), propData_ptr]
      rfl

/-- **The size cells are returned exactly where the node has no property like them, and the first
like them at the root is as good as the right one; or where they are 0 anyway.** -/
theorem getsCellSize_iff (h : FlatTree m fdtBase root) (hnames : Named m fdtBase root names)
    (hn : (x, n) ∈ root.nodesAt (structStart m fdtBase)) (hname : sizeCellsName.At m q)
    (hq : 0 < q) (hqfits : q + sizeCellsName.bytes.length < 2 ^ 32) :
    fdtGetCellSize m (ptr q) fdtBase (ptr x) = some (sizeCells m fdtBase root names x n)
      ↔ (∀ p ∈ n.props, ¬sizeCellsName.bytes <+: (names p.nameOffset).bytes) ∧
          firstCell m (propLike names sizeCellsName (structStart m fdtBase) root)
            = firstCell m (propCalled names sizeCellsName (structStart m fdtBase) root) ∨
        ¬(∀ p ∈ n.props, ¬sizeCellsName.bytes <+: (names p.nameOffset).bytes) ∧
          sizeCells m fdtBase root names x n = 0#32 := by
  rw [h.fdtGetCellSize_eq hnames hn hname hq hqfits, Option.some_inj,
    ← propLike_eq_none_iff (x := x)]
  cases hown : propLike names sizeCellsName x n with
  | some p => simp [eq_comm]
  | none =>
    have hcalled := propCalled_eq_none_of_propLike hown
    simp [sizeCells, hcalled]

/-- The node `b`, without properties. -/
def cellsChild : DtNode := .mk ⟨[0x62#8], by decide⟩ 0 [] [] 0

/-- A root with a cell of `#size-cells`. -/
def cellsRoot : DtNode := .mk .empty 0 [⟨0#32, [0#8, 0#8, 0#8, 1#8], 0⟩] [cellsChild] 0

def cellsBytes : List Byte :=
  [0xD0#8, 0x0D#8, 0xFE#8, 0xED#8, 0#8, 0#8, 0#8, 0x60#8,
    0#8, 0#8, 0#8, 0x28#8, 0#8, 0#8, 0#8, 0x54#8,
    0#8, 0#8, 0#8, 0#8, 0#8, 0#8, 0#8, 0x11#8, 0#8, 0#8, 0#8, 0x10#8, 0#8, 0#8, 0#8, 0#8,
    0#8, 0#8, 0#8, 0x0C#8, 0#8, 0#8, 0#8, 0x2C#8,
    -- the structure block
    0#8, 0#8, 0#8, 0x01#8, 0#8, 0#8, 0#8, 0#8,
    0#8, 0#8, 0#8, 0x03#8, 0#8, 0#8, 0#8, 0x04#8, 0#8, 0#8, 0#8, 0#8, 0#8, 0#8, 0#8, 0x01#8,
    0#8, 0#8, 0#8, 0x01#8, 0x62#8, 0#8, 0#8, 0#8, 0#8, 0#8, 0#8, 0x02#8,
    0#8, 0#8, 0#8, 0x02#8, 0#8, 0#8, 0#8, 0x09#8,
    -- the strings block
    0x23#8, 0x73#8, 0x69#8, 0x7A#8, 0x65#8, 0x2D#8, 0x63#8, 0x65#8, 0x6C#8, 0x6C#8, 0x73#8, 0#8]

def cellsMemory : Memory := fun x ↦ cellsBytes.getD (x - 0x1000#32).toNat 0#8

theorem flatTree_cells : FlatTree cellsMemory 0x1000#32 cellsRoot :=
  ⟨by decide, by decide, by decide, by decide⟩

theorem named_cells : Named cellsMemory 0x1000#32 cellsRoot fun _ ↦ sizeCellsName :=
  ⟨by decide, by decide, by decide⟩

/-- Asked at the node `b`, the code returns the size cells of the root. -/
theorem getsCellSize_iff_child :
    fdtGetCellSize cellsMemory (ptr 0x1054) 0x1000#32 (ptr 0x1040)
      = some (sizeCells cellsMemory 0x1000#32 cellsRoot (fun _ ↦ sizeCellsName) 0x1040
          cellsChild) :=
  (getsCellSize_iff flatTree_cells named_cells (List.mem_cons_of_mem _ List.mem_cons_self)
    (by decide) (by decide) (by decide)).mpr (Or.inl ⟨by decide, by decide⟩)

/-- Asked at the root itself, it returns 0. -/
theorem not_getsCellSize_root :
    FlatTree cellsMemory 0x1000#32 cellsRoot ∧
      Named cellsMemory 0x1000#32 cellsRoot (fun _ ↦ sizeCellsName) ∧
      sizeCells cellsMemory 0x1000#32 cellsRoot (fun _ ↦ sizeCellsName) 0x1028 cellsRoot = 1#32 ∧
      fdtGetCellSize cellsMemory (ptr 0x1054) 0x1000#32 (ptr 0x1028) = some 0#32 :=
  ⟨flatTree_cells, named_cells, by decide, by decide +kernel⟩

end Sugarcat
