import Sugarcat.Fdt.PropertyLookup

/-!
# The bytes of a tree

A flattened tree depends on its header, its structure block and the names in its strings block. A
change of memory anywhere else leaves it a flattened tree of the same nodes, with the same names, at
the same places.

This is the frame property of the format. Code that reads the tree several times, and writes a
buffer, a string or the kernel's own data in between, reads the same tree each time as long as
`TreeApart` keeps what it writes away from these bytes.

## The proof

The proof follows the layout: a token depends on the bytes that it takes up, a sequence of tokens on
those of its tokens, and a name on its characters and the terminator. The header is read word by
word. The place of the structure block and of the names is itself computed from the header, so the
header comes first.

The strings block has no bounds in the proof. Of the names only those matter that a property of the
tree refers to, and what lies between them may change.
-/

namespace Sugarcat

open ByteMemory

variable {F : Addr → Prop} {m m' : Memory} {fdtBase : Addr} {root : DtNode} {a : ℕ} {t : Token}
  {ts : List Token} {names : Word → CString}

theorem be32_of_eqOutside (hm : EqOutside F m m') {b : Addr} (hF : ∀ i < 4, ¬F (b + ptr i)) :
    be32 m' b = be32 m b := by
  have h0 := hm _ (hF 0 (by omega))
  have h1 := hm _ (hF 1 (by omega))
  have h2 := hm _ (hF 2 (by omega))
  have h3 := hm _ (hF 3 (by omega))
  rw [add_ptr_zero] at h0
  rw [be32_eq, be32_eq, h0]
  exact congrArg₂ _ (congrArg₂ _ (congrArg₂ _ rfl h1) h2) h3

/-! ## The structure block -/

theorem Token.At.of_eqOutside (h : t.At m a) (hm : EqOutside F m m')
    (hF : ∀ i < t.size, ¬F (ptr (a + i))) : t.At m' a := by
  have hword : ∀ k, k + 4 ≤ t.size → be32 m' (ptr (a + k)) = be32 m (ptr (a + k)) := by
    intro k hk
    refine be32_of_eqOutside hm fun i hi ↦ ?_
    rw [ptr_add, Nat.add_assoc]
    exact hF (k + i) (by omega)
  refine ⟨(hword 0 (by have := t.four_le_size; omega)).trans h.1, ?_⟩
  cases t with
  | beginNode name =>
    rw [Token.size] at hF
    refine CString.At.of_eqOutside h.2 hm fun i hi ↦ ?_
    rw [Nat.add_assoc]
    exact hF (4 + i) (by omega)
  | prop nameOffset value =>
    rw [Token.size] at hF hword
    refine ⟨(hword 4 (by omega)).trans h.2.1, (hword 8 (by omega)).trans h.2.2.1, ?_⟩
    refine h.2.2.2.of_eqOutside hm fun i hi ↦ ?_
    rw [Nat.add_assoc]
    exact hF (12 + i) (by omega)
  | endNode => trivial
  | nop => trivial
  | fin => trivial

theorem Encodes.of_eqOutside (h : Encodes m a ts) (hm : EqOutside F m m')
    (hF : ∀ i < tokensSize ts, ¬F (ptr (a + i))) : Encodes m' a ts := by
  induction ts generalizing a with
  | nil => trivial
  | cons t ts ih =>
    rw [tokensSize] at hF
    refine ⟨h.1.of_eqOutside hm fun i hi ↦ hF i (by omega), ih h.2 fun i hi ↦ ?_⟩
    rw [Nat.add_assoc]
    exact hF (t.size + i) (by omega)

/-! ## Properties -/

theorem le_of_mem_propListAt {props : List DtProp} {y : ℕ} {p : DtProp}
    (hp : (y, p) ∈ propListAt a props) : a ≤ y ∧ y + 12 ≤ a + tokensSize (propsTokens props) := by
  induction props generalizing a with
  | nil => simp [propListAt] at hp
  | cons p' ps ih =>
    have hcons : propsTokens (p' :: ps) = p'.tokens ++ propsTokens ps := rfl
    rw [hcons, tokensSize_append]
    rw [propListAt, List.mem_cons] at hp
    rcases hp with heq | hp
    · obtain ⟨rfl, rfl⟩ := Prod.mk.inj heq
      rw [DtProp.tokens, tokensSize, Token.size]
      omega
    · have hle := ih hp
      omega

theorem DtNode.le_of_mem_propsAt {root n : DtNode} {x y : ℕ} {p : DtProp}
    (hn : (x, n) ∈ root.nodesAt a) (hp : (y, p) ∈ n.propsAt x) :
    a ≤ y ∧ y + 20 ≤ a + tokensSize (root.tokens ++ [.fin]) := by
  obtain ⟨pre, post, htokens, rfl⟩ := root.exists_tokens hn
  obtain ⟨name, k, props, children, e⟩ := n
  have hle := le_of_mem_propListAt hp
  have hend := Token.endNode.four_le_size
  have hfin := Token.fin.four_le_size
  rw [htokens, DtNode.tokens, headTokens]
  simp only [tokensSize_append, tokensSize] at hle ⊢
  omega

/-! ## The tree -/

/-- No byte of the tree is in `F`. -/
structure TreeApart (F : Addr → Prop) (m : Memory) (fdtBase : Addr) (root : DtNode)
    (names : Word → CString) : Prop where
  header : ∀ i < sizeofFdtHeader, ¬F (fdtBase + ptr i)
  block : ∀ i < tokensSize (root.tokens ++ [.fin]), ¬F (ptr (structStart m fdtBase + i))
  strings : ∀ n ∈ root.preorder, ∀ p ∈ n.props, ∀ i < (names p.nameOffset).bytes.length + 1,
    ¬F (ptr (nameStart m fdtBase p.nameOffset + i))

theorem TreeApart.be32_header (h : TreeApart F m fdtBase root names) (hm : EqOutside F m m')
    {k : ℕ} (hk : k + 4 ≤ sizeofFdtHeader) :
    be32 m' (fdtBase + ptr k) = be32 m (fdtBase + ptr k) := by
  refine be32_of_eqOutside hm fun i hi ↦ ?_
  rw [add_assoc, ptr_add]
  exact h.header (k + i) (by omega)

theorem TreeApart.structStart_eq (h : TreeApart F m fdtBase root names) (hm : EqOutside F m m') :
    structStart m' fdtBase = structStart m fdtBase := by
  have hword : dtStructOffset m' fdtBase = dtStructOffset m fdtBase :=
    h.be32_header hm (k := 8) (by decide)
  rw [structStart, hword, structStart]

theorem TreeApart.dtStringsOffset_eq (h : TreeApart F m fdtBase root names)
    (hm : EqOutside F m m') : dtStringsOffset m' fdtBase = dtStringsOffset m fdtBase :=
  h.be32_header hm (k := 12) (by decide)

/-- **A tree stays a tree where none of its bytes changes.** -/
theorem FlatTree.of_eqOutside (h : FlatTree m fdtBase root)
    (hapart : TreeApart F m fdtBase root names) (hm : EqOutside F m m') :
    FlatTree m' fdtBase root := by
  have hmagic : be32 m' fdtBase = be32 m fdtBase := by
    have hword := hapart.be32_header hm (k := 0) (by decide)
    rwa [add_ptr_zero] at hword
  have hstart := hapart.structStart_eq hm
  refine ⟨?_, ?_, ?_, ?_⟩
  · rw [isUsingFdt, hmagic]
    exact h.magic
  · rw [hstart]
    exact h.aligned
  · rw [hstart]
    exact h.fits
  · rw [hstart]
    exact h.tokens.of_eqOutside hm hapart.block

theorem Named.of_eqOutside (h : Named m fdtBase root names)
    (hapart : TreeApart F m fdtBase root names) (hm : EqOutside F m m') :
    Named m' fdtBase root names := by
  have hoffset := hapart.dtStringsOffset_eq hm
  have hstart : ∀ k, nameStart m' fdtBase k = nameStart m fdtBase k := fun k ↦ by
    rw [nameStart, hoffset, nameStart]
  refine ⟨?_, ?_, ?_⟩
  · rw [hoffset]
    exact h.offset
  · intro n hn p hp
    rw [hstart]
    exact (h.name n hn p hp).of_eqOutside hm (hapart.strings n hn p hp)
  · intro n hn p hp
    rw [hstart]
    exact h.fits n hn p hp

theorem TreeApart.be32_prop (h : TreeApart F m fdtBase root names) (hm : EqOutside F m m')
    {n : DtNode} {x y : ℕ} {p : DtProp} (hn : (x, n) ∈ root.nodesAt (structStart m fdtBase))
    (hp : (y, p) ∈ n.propsAt x) {k : ℕ} (hk : k ≤ 16) :
    be32 m' (ptr (y + k)) = be32 m (ptr (y + k)) := by
  obtain ⟨hle, hend⟩ := DtNode.le_of_mem_propsAt hn hp
  refine be32_of_eqOutside hm fun i hi ↦ ?_
  obtain ⟨j, rfl⟩ := Nat.exists_eq_add_of_le hle
  rw [ptr_add, Nat.add_assoc, Nat.add_assoc]
  exact h.block (j + (k + i)) (by omega)

end Sugarcat
