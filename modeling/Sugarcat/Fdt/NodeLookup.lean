import Mathlib.Data.List.Find
import Sugarcat.Fdt.Walk

/-!
# Looking up a node

`fdtGetNode` is meant to return the first node, in pre-order, that has a given name, with or without
a unit address after it. It compares with `strcmp`, which looks at no more characters than the name
that is asked for has: `memory` is found in `memory@60000000`, and in `memory-controller@100e0000`.

The root has no name in the flattened format. It is asked for by `/`, which is the other test that
`nodeHit` makes.

## When the right one is found

The search goes through the nodes in the order in which the tree is walked, so what it finds is
`List.find?` on the nodes in pre-order, with the test that the name begins with the one asked for
(`FlatTree.fdtGetNode_eq`). A node that is asked for passes it, and so may others. `getsNode_iff`
says when the first node whose name begins with the one asked for is the right one: every node whose
name only begins with it comes later.
-/

namespace Sugarcat

open ByteMemory

/-! ## Names -/

/-- The literal `"/"`. -/
def slashString : CString := ⟨[0x2F#8], by decide⟩

/-- What may follow the `@` of a name. -/
def IsUnitAddress (s : List Byte) : Prop := s ≠ [] ∧ 0x40#8 ∉ s

instance (s : List Byte) : Decidable (IsUnitAddress s) := inferInstanceAs (Decidable (_ ∧ _))

/-- `name` designates a node called `s`: it is `s`, or `s` without its unit address. -/
def Designates (name s : List Byte) : Prop :=
  s = name ∨ name ++ [0x40#8] <+: s ∧ IsUnitAddress (s.drop (name.length + 1))

instance (name s : List Byte) : Decidable (Designates name s) :=
  inferInstanceAs (Decidable (_ ∨ _ ∧ _))

/-- The root for `/`, and else the first node that the name designates, or `NULL`. -/
def nodeNamed (name : CString) (a : ℕ) (root : DtNode) : Addr :=
  if name.bytes = slashString.bytes then ptr a
  else (((root.nodesAt a).find? fun n ↦ decide (Designates name.bytes n.2.name.bytes)).map
    fun n ↦ ptr n.1).getD 0#32

variable {m : Memory} {fdtBase slash : Addr} {root n : DtNode} {x q r : ℕ} {name : CString}

theorem Designates.isPrefix {name s : List Byte} (h : Designates name s) : name <+: s := by
  rcases h with rfl | ⟨h, -⟩
  · exact List.prefix_refl _
  · exact (List.prefix_append _ _).trans h

theorem eq_slash_of_isPrefix {s : List Byte} (h : s <+: slashString.bytes) (hne : s ≠ []) :
    s = slashString.bytes := by
  obtain ⟨b, s, rfl⟩ := List.exists_cons_of_ne_nil hne
  obtain ⟨rfl, hs⟩ := List.cons_prefix_cons.mp h
  rw [List.prefix_nil.mp hs]
  rfl

/-! ## The search -/

/-- A node passes the tests when its name begins with the one asked for. For `/`, a node without a
name passes them, too. -/
theorem nodeHit_at (hname : name.At m q) (hq : 0 < q) (hqfits : q + name.bytes.length < 2 ^ 32)
    (hslash : slashString.At m r) (hr : 0 < r) (hrfits : r + 1 < 2 ^ 32)
    (hat : (Token.beginNode n.name).At m x) (hx : x + (Token.beginNode n.name).size < 2 ^ 32) :
    nodeHit m (ptr r) (ptr q) (ptr x)
      = some (decide (name.bytes <+: n.name.bytes ∨
          name.bytes <+: slashString.bytes ∧ n.name.bytes = [])) := by
  rw [Token.size] at hx
  obtain ⟨d, hcmp, hd⟩ := strcmp_eq hname hat.2 hq (by omega) hqfits (by omega)
  obtain ⟨d', hcmp', hd'⟩ := strcmp_eq hname hslash hq hr hqfits hrfits
  have hlen := strlen_eq hat.2 (by omega) (by omega)
  have hempty : (BitVec.ofNat 32 n.name.bytes.length == 0#32) = true ↔ n.name.bytes = [] := by
    rw [beq_iff_eq, ← BitVec.toNat_inj, BitVec.toNat_ofNat, Nat.mod_eq_of_lt (by omega)]
    exact List.length_eq_zero_iff
  rw [nodeHit, nodeData_ptr, hcmp, Option.bind_some, hcmp', Option.bind_some, hlen, Option.map_some]
  by_cases hzero : d = 0
  · rw [if_pos hzero, Option.some_inj, eq_comm, decide_eq_true_iff]
    exact Or.inl (hd.mp hzero)
  by_cases hzero' : d' = 0
  · rw [if_neg hzero, if_pos hzero', Option.some_inj, Bool.eq_iff_iff, decide_eq_true_iff, hempty]
    exact ⟨fun h ↦ Or.inr ⟨hd'.mp hzero', h⟩, fun h ↦ (h.resolve_left (hd.not.mp hzero)).2⟩
  · rw [if_neg hzero, if_neg hzero', Option.some_inj, eq_comm, decide_eq_false_iff_not, not_or]
    exact ⟨hd.not.mp hzero, fun h ↦ hd'.not.mp hzero' h.1⟩

/-- The search goes through the nodes of the tree, for any name whose tests return. -/
theorem FlatTree.fdtGetNode_of_test (h : FlatTree m fdtBase root) {name : Addr}
    (hname : name ≠ 0#32) {test : ℕ × DtNode → Bool}
    (htest : ∀ n ∈ root.nodesAt (structStart m fdtBase),
      nodeHit m slash name (ptr n.1) = some (test n)) :
    fdtGetNode m slash name fdtBase
      = some ((((root.nodesAt (structStart m fdtBase)).find? test).map fun n ↦ ptr n.1).getD
          0#32) := by
  have hrun : Loop.run (nodeSearchStep m slash name) _ (fdtGetRootNode m fdtBase) = _ :=
    h.iterates_nodes.walk.run_searchStep ?_ ?_ (by simp)
  · have hlen := length_positions_le (· == fdtBeginNode) (structStart m fdtBase) root.tokens
    have hsize := length_le_tokensSize root.tokens
    have hfits := h.fits
    rw [tokensSize_append] at hfits
    rw [root.positions_tokens, List.length_map] at hlen
    have hpass : ∀ n ∈ root.nodesAt (structStart m fdtBase),
        (nodeHit m slash name (ptr n.1) == some true) = test n := by
      intro n hn
      rw [htest n hn]
      simp
    rw [List.find?_map] at hrun
    rw [fdtGetNode, if_pos ⟨hname, h.magic⟩, Loop.run_mono (by rw [List.length_map]; omega) hrun,
      Option.join_some, ← List.find?_congr hpass]
    rfl
  · intro w hw
    rw [bne_iff_ne]
    exact h.iterates_nodes.ne_stop hw
  · intro w hw
    obtain ⟨n, hn, rfl⟩ := List.mem_map.mp hw
    rw [htest n hn]
    rfl

theorem FlatTree.at_beginNode (h : FlatTree m fdtBase root)
    (hn : (x, n) ∈ root.nodesAt (structStart m fdtBase)) :
    (Token.beginNode n.name).At m x ∧ 0 < x ∧ x + (Token.beginNode n.name).size < 2 ^ 32 := by
  obtain ⟨t, us, -, hbegin, -, -, hpos, hfits⟩ := h.encodes_body hn
  have htsize := t.four_le_size
  rw [tokensSize_append, tokensSize] at hfits
  exact ⟨hbegin, hpos, by omega⟩

/-- **The code finds the first node whose name begins with the one asked for.** -/
theorem FlatTree.fdtGetNode_eq (h : FlatTree m fdtBase root) (hname : name.At m q) (hq : 0 < q)
    (hqfits : q + name.bytes.length < 2 ^ 32) (hslash : slashString.At m r) (hr : 0 < r)
    (hrfits : r + 1 < 2 ^ 32) :
    fdtGetNode m (ptr r) (ptr q) fdtBase
      = some ((((root.nodesAt (structStart m fdtBase)).find? fun n ↦
          decide (name.bytes <+: n.2.name.bytes ∨
            name.bytes <+: slashString.bytes ∧ n.2.name.bytes = [])).map fun n ↦ ptr n.1).getD
              0#32) := by
  refine h.fdtGetNode_of_test (ptr_ne_zero hq (by omega)) fun n hn ↦ ?_
  obtain ⟨hbegin, -, hfits⟩ := h.at_beginNode hn
  exact nodeHit_at hname hq hqfits hslash hr hrfits hbegin hfits

/-! ## When it is the right one -/

/-- **The node that is asked for is found exactly when every node whose name only begins with that
of it comes later.** -/
theorem getsNode_iff (h : FlatTree m fdtBase root) (hroot : root.name.bytes = [])
    (hname : name.At m q) (hq : 0 < q) (hqfits : q + name.bytes.length < 2 ^ 32)
    (hne : name.bytes ≠ []) (hslash : slashString.At m r) (hr : 0 < r) (hrfits : r + 1 < 2 ^ 32) :
    fdtGetNode m (ptr r) (ptr q) fdtBase = some (nodeNamed name (structStart m fdtBase) root)
      ↔ name.bytes = slashString.bytes ∨
        FirstIs (fun n : ℕ × DtNode ↦ Designates name.bytes n.2.name.bytes)
          (fun n ↦ name.bytes <+: n.2.name.bytes) (root.nodesAt (structStart m fdtBase)) := by
  rw [h.fdtGetNode_eq hname hq hqfits hslash hr hrfits, Option.some_inj, nodeNamed]
  by_cases hs : name.bytes = slashString.bytes
  · rw [if_pos hs]
    refine iff_of_true ?_ (Or.inl hs)
    obtain ⟨rest, hnodes⟩ := root.nodesAt_eq_cons (structStart m fdtBase)
    rw [hnodes, List.find?_cons_of_pos]
    · rfl
    · rw [decide_eq_true_iff, hs]
      exact Or.inr ⟨List.prefix_refl _, hroot⟩
  · have hno : ¬name.bytes <+: slashString.bytes :=
      fun hpre ↦ hs (eq_slash_of_isPrefix hpre hne)
    simp only [hno, false_and, or_false]
    rw [if_neg hs, or_iff_right hs]
    exact map_find?_eq_iff (fun n hn ↦ h.iterates_nodes.ne_stop (List.mem_map_of_mem hn))
      h.iterates_nodes.nodup fun n hn ↦ hn.isPrefix

/-- The names `memory-controller@100e0000`, `memory@60000000` and `memory`. -/
def controllerName : CString :=
  ⟨[0x6D#8, 0x65#8, 0x6D#8, 0x6F#8, 0x72#8, 0x79#8, 0x2D#8, 0x63#8, 0x6F#8, 0x6E#8, 0x74#8, 0x72#8,
    0x6F#8, 0x6C#8, 0x6C#8, 0x65#8, 0x72#8, 0x40#8, 0x31#8, 0x30#8, 0x30#8, 0x65#8, 0x30#8, 0x30#8,
    0x30#8, 0x30#8], by decide⟩

def memoryNodeName : CString :=
  ⟨[0x6D#8, 0x65#8, 0x6D#8, 0x6F#8, 0x72#8, 0x79#8, 0x40#8, 0x36#8, 0x30#8, 0x30#8, 0x30#8, 0x30#8,
    0x30#8, 0x30#8, 0x30#8], by decide⟩

def memoryName : CString :=
  ⟨[0x6D#8, 0x65#8, 0x6D#8, 0x6F#8, 0x72#8, 0x79#8], by decide⟩

/-- A root with a memory controller and a memory, in this order. -/
def boardRoot : DtNode :=
  .mk .empty 0 [] [.mk controllerName 0 [] [] 0, .mk memoryNodeName 0 [] [] 0] 0

def boardBytes : List Byte :=
  [0xD0#8, 0x0D#8, 0xFE#8, 0xED#8, 0#8, 0#8, 0#8, 0x74#8,
    0#8, 0#8, 0#8, 0x28#8, 0#8, 0#8, 0#8, 0x74#8,
    0#8, 0#8, 0#8, 0#8, 0#8, 0#8, 0#8, 0x11#8, 0#8, 0#8, 0#8, 0x10#8, 0#8, 0#8, 0#8, 0#8,
    0#8, 0#8, 0#8, 0#8, 0#8, 0#8, 0#8, 0x4C#8,
    -- the structure block
    0#8, 0#8, 0#8, 0x01#8, 0#8, 0#8, 0#8, 0#8,
    0#8, 0#8, 0#8, 0x01#8,
    0x6D#8, 0x65#8, 0x6D#8, 0x6F#8, 0x72#8, 0x79#8, 0x2D#8,
    0x63#8, 0x6F#8, 0x6E#8, 0x74#8, 0x72#8, 0x6F#8, 0x6C#8,
    0x6C#8, 0x65#8, 0x72#8, 0x40#8, 0x31#8, 0x30#8, 0x30#8,
    0x65#8, 0x30#8, 0x30#8, 0x30#8, 0x30#8, 0#8, 0#8,
    0#8, 0#8, 0#8, 0x02#8,
    0#8, 0#8, 0#8, 0x01#8,
    0x6D#8, 0x65#8, 0x6D#8, 0x6F#8, 0x72#8, 0x79#8, 0x40#8, 0x36#8,
    0x30#8, 0x30#8, 0x30#8, 0x30#8, 0x30#8, 0x30#8, 0x30#8, 0#8,
    0#8, 0#8, 0#8, 0x02#8, 0#8, 0#8, 0#8, 0x02#8, 0#8, 0#8, 0#8, 0x09#8,
    -- what is asked for
    0x6D#8, 0x65#8, 0x6D#8, 0x6F#8, 0x72#8, 0x79#8, 0#8,
    0x2F#8, 0#8]

def boardMemory : Memory := fun x ↦ boardBytes.getD (x - 0x1000#32).toNat 0#8

theorem flatTree_board : FlatTree boardMemory 0x1000#32 boardRoot :=
  ⟨by decide, by decide, by decide, by decide⟩

/-- Asked for `memory@60000000`, the code returns it. -/
theorem getsNode_iff_board :
    fdtGetNode boardMemory 0x107B#32 0x1058#32 0x1000#32
      = some (nodeNamed memoryNodeName (structStart boardMemory 0x1000#32) boardRoot) := by
  refine (getsNode_iff (q := 0x1058) (r := 0x107B) flatTree_board rfl (by decide) (by decide)
    (by decide) (by decide) (by decide) (by decide) (by decide)).mpr (Or.inr ?_)
  refine firstIs_cons.mpr (Or.inr ⟨by decide, ?_⟩)
  refine firstIs_cons.mpr (Or.inr ⟨by decide, ?_⟩)
  exact firstIs_cons.mpr (Or.inl (by decide))

/-- Asked for `memory`, the code returns the memory controller. -/
theorem not_getsNode_board :
    FlatTree boardMemory 0x1000#32 boardRoot ∧ boardRoot.name.bytes = [] ∧
      memoryName.At boardMemory 0x1074 ∧ slashString.At boardMemory 0x107B ∧
      nodeNamed memoryName (structStart boardMemory 0x1000#32) boardRoot = 0x1054#32 ∧
      fdtGetNode boardMemory 0x107B#32 0x1074#32 0x1000#32 = some 0x1030#32 :=
  ⟨flatTree_board, rfl, by decide, by decide, by decide, by decide +kernel⟩

end Sugarcat
