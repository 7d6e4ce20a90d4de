import Sugarcat.Fdt.Tree
import Sugarcat.Machine.Iteration

/-!
# Walking a device tree

Where a token stands, `fdtGetNextTag` leads to the next one: names and values of any length are
skipped with their padding, whatever bytes are in them. A scan over a stretch of tokens therefore
meets the wanted ones in order (`exists_seek`), and for the tokens of a tree these are its nodes in
pre-order, or the properties of one node.

## From tokens to nodes

The walk over the nodes goes through the tokens of the whole tree, and every token that begins a
node is at the place of a node. The walk over the properties of a node goes through a stretch that
begins behind its name, and ends at the first token that begins or ends a node. That such a token
follows, whether the node has children or not, is `exists_forestTokens_eq_cons`.

`walks_flatTree` puts the two walks together as one statement about the image, with the order and
that nothing is met twice.
-/

namespace Sugarcat

open ByteMemory

/-! ## One tag -/

theorem alignUp_ptr (n : ℕ) : alignUp (ptr n) 4#32 = ptr ((n + 3) / 4 * 4) := by
  apply BitVec.eq_of_toNat_eq
  rw [alignUp, Bits.toNat_and_high (k := 2) (by decide) (by decide),
    show (4#32 - 1#32 : Word) = ptr 3 from rfl, ptr_add, BitVec.toNat_ofNat, BitVec.toNat_ofNat]
  omega

variable {m : Memory} {a : ℕ} {t : Token}

theorem fdtGetTagSize_at (h : t.At m a) (hpos : 0 < a) (hfits : a + t.size < 2 ^ 32) :
    ∃ n : ℕ, fdtGetTagSize m (ptr a) = some (BitVec.ofNat 32 n) ∧ t.size = (n + 3) / 4 * 4 := by
  have hne := ptr_ne_zero hpos (by omega)
  rw [fdtGetTagSize, if_pos hne, h.1]
  cases t with
  | beginNode name =>
    refine ⟨4 + (name.bytes.length + 1), ?_, rfl⟩
    have hlen : strlen m (nodeData (ptr a)) = some (BitVec.ofNat 32 name.bytes.length) := by
      rw [nodeData_ptr]
      refine strlen_eq h.2 (by omega) ?_
      rw [Token.size] at hfits
      omega
    have htag : (Token.beginNode name).tag = fdtBeginNode := rfl
    rw [if_pos htag, hlen, BitVec.ofNat_add, BitVec.ofNat_add]
    rfl
  | prop nameOffset value =>
    refine ⟨12 + value.length, ?_, rfl⟩
    have hlen : propLength m (ptr a) = BitVec.ofNat 32 value.length := by
      rw [propLength_ptr]
      exact h.2.1
    have htag : (Token.prop nameOffset value).tag = fdtProp := rfl
    rw [htag, if_neg (by decide), if_pos rfl, hlen, BitVec.ofNat_add]
  | endNode => exact ⟨4, rfl, rfl⟩
  | nop => exact ⟨4, rfl, rfl⟩
  | fin => exact ⟨4, rfl, rfl⟩

/-- **The next tag is that of the next token.** -/
theorem fdtGetNextTag_at (h : t.At m a) (hend : t.tag ≠ fdtEnd) (ha : a % 4 = 0) (hpos : 0 < a)
    (hfits : a + t.size < 2 ^ 32) : fdtGetNextTag m (ptr a) = some (ptr (a + t.size)) := by
  obtain ⟨n, hsize, hn⟩ := fdtGetTagSize_at h hpos hfits
  rw [fdtGetNextTag, if_pos ⟨ptr_ne_zero hpos (by omega), by rw [h.1]; exact hend⟩, hsize,
    Option.map_some, ptr_add, alignUp_ptr, hn]
  congr 2
  omega

theorem walk_tokens {ts : List Token} (h : Encodes m a ts) (ha : a % 4 = 0) (hpos : 0 < a)
    (hfits : a + tokensSize ts < 2 ^ 32) (hend : ∀ t ∈ ts, t.tag ≠ fdtEnd) :
    Walk (fdtGetNextTag m) (ptr a) ((positions (fun _ ↦ true) a ts).map ptr)
      (ptr (a + tokensSize ts)) := by
  induction ts generalizing a with
  | nil => exact .nil _
  | cons t ts ih =>
    obtain ⟨ht, hts⟩ := h
    rw [List.forall_mem_cons] at hend
    have hmod := t.size_mod
    rw [tokensSize] at hfits
    have hnext := fdtGetNextTag_at ht hend.1 ha hpos (by omega)
    rw [positions, if_pos rfl, List.map_cons, tokensSize, ← Nat.add_assoc]
    exact .cons hnext (ih hts (by omega) (by omega) (by omega) hend.2)

/-- A test that only some tags pass looks at no others. -/
theorem find?_positions {ts : List Token} (want : Word → Bool) (h : Encodes m a ts)
    {p : Addr → Bool} (hp : ∀ x, want (be32 m x) = false → p x = false) :
    ((positions (fun _ ↦ true) a ts).map ptr).find? p
      = ((positions want a ts).map ptr).find? p := by
  induction ts generalizing a with
  | nil => rfl
  | cons t ts ih =>
    obtain ⟨ht, hts⟩ := h
    rw [positions, if_pos rfl, positions, List.map_cons]
    cases hw : want t.tag with
    | true => rw [if_pos rfl, List.map_cons, List.find?_cons, List.find?_cons, ih hts]
    | false =>
      rw [if_neg (by simp), List.find?_cons_of_neg, ih hts]
      rw [hp (ptr a) (by rw [ht.1]; exact hw)]
      simp

/-! ## Scans -/

variable {halt want : Word → Bool} {body rest : List Token}

theorem seekStep_halt (h : t.At m a) (ht : halt t.tag = true) :
    seekStep halt want m (ptr a) = .inr (some 0#32) := by
  rw [seekStep, h.1, if_neg (by simp [ht])]

theorem seekStep_want (h : t.At m a) (hpos : 0 < a) (hfits : a < 2 ^ 32)
    (ht : halt t.tag = false) (hw : want t.tag = true) :
    seekStep halt want m (ptr a) = .inr (some (ptr a)) := by
  rw [seekStep, h.1, if_pos ⟨ptr_ne_zero hpos hfits, ht⟩, if_pos hw]

theorem seekStep_skip (h : t.At m a) (hend : t.tag ≠ fdtEnd) (ha : a % 4 = 0) (hpos : 0 < a)
    (hfits : a + t.size < 2 ^ 32) (ht : halt t.tag = false) (hw : want t.tag = false) :
    seekStep halt want m (ptr a) = .inl (ptr (a + t.size)) := by
  rw [seekStep, h.1, if_pos ⟨ptr_ne_zero hpos (by omega), ht⟩, if_neg (by simp [hw]),
    fdtGetNextTag_at h hend ha hpos hfits]

/-- A scan over `body` up to a token that halts it meets the wanted tokens of `body`. -/
theorem exists_seek (halt want : Word → Bool) (h : Encodes m a (body ++ t :: rest)) (ha : a % 4 = 0)
    (hpos : 0 < a) (hfits : a + tokensSize (body ++ t :: rest) ≤ 2 ^ 32) (ht : halt t.tag = true)
    (hbody : ∀ s ∈ body, halt s.tag = false ∧ s.tag ≠ fdtEnd) :
    ∃ y, Loop.run (seekStep halt want m) body.length (ptr a) = some (some y) ∧
      Iterates 0#32 (seekAfter halt want m) y ((positions want a body).map ptr) := by
  -- induction on the tokens before the halting one; `a` moves to the next tag
  induction body generalizing a with
  | nil => exact ⟨0#32, Loop.run_of_exit (seekStep_halt h.1 ht) _, .nil⟩
  | cons s body ih =>
    obtain ⟨hs, hrest⟩ := h
    obtain ⟨hhalt, hend⟩ := hbody s List.mem_cons_self
    rw [List.cons_append, tokensSize] at hfits
    have hsmod := s.size_mod
    have htsize := t.four_le_size
    have hlen := length_le_tokensSize (body ++ t :: rest)
    rw [tokensSize_append, tokensSize] at hfits hlen
    rw [List.length_append, List.length_cons] at hlen
    obtain ⟨y, hrun, hiter⟩ := ih hrest (by omega) (by omega)
      (by rw [tokensSize_append, tokensSize]; omega) fun u hu ↦ hbody u (List.mem_cons_of_mem _ hu)
    have hnext := fdtGetNextTag_at hs hend ha hpos (by omega)
    rw [positions]
    cases hw : want s.tag with
    | true =>
      -- the scan ends here, and the one that `seekAfter` starts finds what was found from there on
      have hne := ptr_ne_zero hpos (show a < 2 ^ 32 by omega)
      refine ⟨ptr a, Loop.run_of_exit (seekStep_want hs hpos (by omega) hhalt hw) _, ?_⟩
      rw [if_pos rfl, List.map_cons]
      refine .cons hne ?_ hiter
      rw [seekAfter, if_pos hne, hnext, Option.bind_some, seek,
        Loop.run_mono (by omega) hrun, Option.join_some]
    | false =>
      refine ⟨y, ?_, ?_⟩
      · rw [List.length_cons, Loop.run_succ (seekStep_skip hs hend ha hpos (by omega) hhalt hw)]
        exact hrun
      · rw [if_neg (by simp)]
        exact hiter

/-! ## The nodes of a tree -/

variable {fdtBase : Addr} {root n : DtNode} {x : ℕ}

theorem exists_tokens_eq_cons (n : DtNode) : ∃ name ts, n.tokens = .beginNode name :: ts := by
  obtain ⟨name, k, props, children, e⟩ := n
  exact ⟨name, _, by rw [DtNode.tokens, headTokens, List.cons_append]⟩

theorem FlatTree.pos (h : FlatTree m fdtBase root) : 0 < structStart m fdtBase := by
  refine Nat.pos_of_ne_zero fun hzero ↦ ?_
  obtain ⟨name, ts, htokens⟩ := exists_tokens_eq_cons root
  have hbegin := h.tokens
  rw [htokens, List.cons_append, hzero] at hbegin
  have hbase : fdtBase = 0#32 := BitVec.eq_of_toNat_eq (Nat.eq_zero_of_add_eq_zero_right hzero)
  have hmagic := h.magic
  rw [isUsingFdt, beq_iff_eq, hbase] at hmagic
  have htag : be32 m (ptr 0) = fdtBeginNode := hbegin.1.1
  exact absurd (hmagic.symm.trans htag) (by decide)

theorem fdtGetRootNode_eq (h : isUsingFdt m fdtBase = true) :
    fdtGetRootNode m fdtBase = ptr (structStart m fdtBase) := by
  rw [fdtGetRootNode, if_pos h, structStart, ← ptr_add, ptr_toNat, ptr_toNat]

theorem FlatTree.encodes_node (h : FlatTree m fdtBase root)
    (hn : (x, n) ∈ root.nodesAt (structStart m fdtBase)) :
    ∃ rest, Encodes m x (n.tokens ++ rest) ∧ x % 4 = 0 ∧ 0 < x ∧
      x + tokensSize (n.tokens ++ rest) ≤ 2 ^ 32 := by
  obtain ⟨pre, post, htokens, rfl⟩ := root.exists_tokens hn
  have hsplit : root.tokens ++ [.fin] = pre ++ (n.tokens ++ (post ++ [.fin])) := by
    rw [htokens]
    simp
  have henc := h.tokens
  have hfits := h.fits
  have haligned := h.aligned
  have hpos := h.pos
  have hmod := tokensSize_mod pre
  rw [hsplit] at henc hfits
  rw [tokensSize_append] at hfits
  exact ⟨post ++ [.fin], (encodes_append.mp henc).2, by omega, by omega, by omega⟩

/-- From the root on, the nodes in pre-order. -/
theorem FlatTree.iterates_nodes (h : FlatTree m fdtBase root) :
    Iterates 0#32 (fdtGetNextNode m) (fdtGetRootNode m fdtBase)
      ((root.nodesAt (structStart m fdtBase)).map fun x ↦ ptr x.1) := by
  obtain ⟨y, -, hiter⟩ := exists_seek (· == fdtEnd) (· == fdtBeginNode) h.tokens h.aligned h.pos
    h.fits rfl fun s hs ↦
      ⟨beq_eq_false_iff_ne.mpr (root.tag_of_mem_tokens hs), root.tag_of_mem_tokens hs⟩
  rw [root.positions_tokens, List.map_map] at hiter
  have hhead : y = fdtGetRootNode m fdtBase := by
    obtain ⟨name, k, props, children, e⟩ := root
    rw [fdtGetRootNode_eq h.magic]
    rw [DtNode.nodesAt, List.map_cons] at hiter
    exact hiter.head_eq
  rw [← hhead]
  exact hiter

/-- What follows the properties of a node is the beginning or the end of a node. -/
theorem exists_forestTokens_eq_cons (ns : List DtNode) (ts : List Token) :
    ∃ t rest, forestTokens ns ++ .endNode :: ts = t :: rest ∧
      (t.tag = fdtEndNode ∨ t.tag = fdtBeginNode) := by
  cases ns with
  | nil => exact ⟨.endNode, ts, rfl, Or.inl rfl⟩
  | cons n ns =>
    obtain ⟨name, us, htokens⟩ := exists_tokens_eq_cons n
    exact ⟨.beginNode name, _, by rw [forestTokens, htokens, List.cons_append, List.cons_append],
      Or.inr rfl⟩

/-- Where a node is, the tokens of its body follow, and then a token that ends its properties. -/
theorem FlatTree.encodes_body (h : FlatTree m fdtBase root)
    (hn : (x, n) ∈ root.nodesAt (structStart m fdtBase)) :
    ∃ t us, (t.tag = fdtEndNode ∨ t.tag = fdtBeginNode) ∧
      (Token.beginNode n.name).At m x ∧
      Encodes m (x + (Token.beginNode n.name).size) (n.body ++ t :: us) ∧ x % 4 = 0 ∧ 0 < x ∧
      x + (Token.beginNode n.name).size + tokensSize (n.body ++ t :: us) ≤ 2 ^ 32 := by
  obtain ⟨rest, henc, hx, hpos, hfits⟩ := h.encodes_node hn
  obtain ⟨name, k, props, children, e⟩ := n
  obtain ⟨t, us, hnext, ht⟩ := exists_forestTokens_eq_cons children (nopTokens e ++ rest)
  have hsplit : (DtNode.mk name k props children e).tokens ++ rest =
      .beginNode name :: ((nopTokens k ++ propsTokens props) ++ t :: us) := by
    rw [DtNode.tokens, headTokens, ← hnext]
    simp
  rw [hsplit] at henc hfits
  rw [tokensSize, ← Nat.add_assoc] at hfits
  exact ⟨t, us, ht, henc.1, henc.2, hx, hpos, hfits⟩

theorem FlatTree.iterates_props (h : FlatTree m fdtBase root)
    (hn : (x, n) ∈ root.nodesAt (structStart m fdtBase)) :
    ∃ y, Iterates 0#32 (fdtGetNextProperty m) y ((n.propsAt x).map fun p ↦ ptr p.1) := by
  obtain ⟨t, us, ht, -, henc, hx, hpos, hfits⟩ := h.encodes_body hn
  have hmod := (Token.beginNode n.name).size_mod
  have hbody : ∀ s ∈ n.body,
      (s.tag == fdtEndNode || s.tag == fdtBeginNode) = false ∧ s.tag ≠ fdtEnd := by
    intro s hs
    rcases DtNode.tag_of_mem_body hs with htag | htag <;> rw [htag] <;> decide
  obtain ⟨y, -, hiter⟩ := exists_seek (fun tag ↦ tag == fdtEndNode || tag == fdtBeginNode)
    (· == fdtProp) henc (by omega) (by omega) hfits
    (by rcases ht with ht | ht <;> rw [ht] <;> rfl) hbody
  rw [n.positions_body, List.map_map] at hiter
  exact ⟨y, hiter⟩

/-- **The walk over a flattened tree.** From the root node, `fdtGetNextNode` leads through all nodes
in pre-order, each of them once, and then to `NULL`; from any property of a node,
`fdtGetNextProperty` leads through the rest of them in order, and then to `NULL`. -/
theorem walks_flatTree (h : FlatTree m fdtBase root) :
    Iterates 0#32 (fdtGetNextNode m) (fdtGetRootNode m fdtBase)
        ((root.nodesAt (structStart m fdtBase)).map fun x ↦ ptr x.1) ∧
      ((root.nodesAt (structStart m fdtBase)).map fun x ↦ ptr x.1).Nodup ∧
      (root.nodesAt (structStart m fdtBase)).map Prod.snd = root.preorder ∧
      ∀ x n, (x, n) ∈ root.nodesAt (structStart m fdtBase) →
        ∀ l y p r, n.propsAt x = l ++ (y, p) :: r →
          Iterates 0#32 (fdtGetNextProperty m) (ptr y) (ptr y :: r.map fun p ↦ ptr p.1) := by
  refine ⟨h.iterates_nodes, h.iterates_nodes.nodup, root.map_snd_nodesAt _, ?_⟩
  intro x n hn l y p r hprops
  obtain ⟨z, hiter⟩ := h.iterates_props hn
  rw [hprops, List.map_append, List.map_cons] at hiter
  exact hiter.suffix

/-- A root with one property, whose value reads like a tag, a word without meaning, and a child. -/
def oneChild : DtNode :=
  .mk ⟨[], by decide⟩ 0 [⟨0#32, [0#8, 0#8, 0#8, 1#8], 1⟩] [.mk ⟨[0x61#8], by decide⟩ 0 [] [] 0] 0

def oneChildBytes : List Byte :=
  [0xD0#8, 0x0D#8, 0xFE#8, 0xED#8, 0#8, 0#8, 0#8, 0#8, 0#8, 0#8, 0#8, 0x10#8, 0#8, 0#8, 0#8, 0#8,
    0#8, 0#8, 0#8, 1#8, 0#8, 0#8, 0#8, 0#8,
    0#8, 0#8, 0#8, 3#8, 0#8, 0#8, 0#8, 4#8, 0#8, 0#8, 0#8, 0#8, 0#8, 0#8, 0#8, 1#8,
    0#8, 0#8, 0#8, 4#8,
    0#8, 0#8, 0#8, 1#8, 0x61#8, 0#8, 0#8, 0#8, 0#8, 0#8, 0#8, 2#8,
    0#8, 0#8, 0#8, 2#8, 0#8, 0#8, 0#8, 9#8]

def oneChildMemory : Memory := fun x ↦ oneChildBytes.getD (x - 0x1000#32).toNat 0#8

theorem flatTree_oneChild : FlatTree oneChildMemory 0x1000#32 oneChild :=
  ⟨by decide, by decide, by decide, by decide⟩

/-- The root and its child stand at `0x1010` and `0x102C`. -/
theorem walks_flatTree_oneChild :
    Iterates 0#32 (fdtGetNextNode oneChildMemory) (fdtGetRootNode oneChildMemory 0x1000#32)
      [0x1010#32, 0x102C#32] :=
  (walks_flatTree flatTree_oneChild).1

end Sugarcat
