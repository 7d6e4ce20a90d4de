import Sugarcat.Fdt.Scan

/-!
# Device trees and their layout

A device tree as the flattened format lays it out: a node begins with its name, then come its
properties, its children and its end, and any number of words that mean nothing may follow each
token. `DtNode.tokens` is that sequence of tokens, and `Encodes` says that it stands in memory.
Names and values are padded up to the next word, with bytes that may be anything.

## Why tokens

A scan sees a flat sequence of tags, and the tree is nested. The tokens are between the two: the
tokens of a tree are computed by recursion on it, and what stands in memory, where each token is and
which of them a scan stops at are facts about lists. Every lemma on sequences is stated once and
used for properties, for children and for the whole tree.

## Where things are

`DtNode.nodesAt` and `DtNode.propsAt` say where the nodes and the properties are, computed from the
sizes of what comes before them. A position in a sequence of tokens is the position of a node
exactly if the token there is one that begins a node (`DtNode.positions_tokens`), and likewise for
properties.

`FlatTree` is the whole image: the magic number, a structure block that is aligned and lies inside
memory, and in it the tokens of the root and the end of the block.
-/

namespace Sugarcat

open ByteMemory

/-! ## Tokens -/

/-- A token of the structure block, with what is stored in it. -/
inductive Token where
  | beginNode (name : CString)
  | endNode
  | prop (nameOffset : Word) (value : List Byte)
  | nop
  | fin

namespace Token

def tag : Token → Word
  | beginNode _ => fdtBeginNode
  | endNode => fdtEndNode
  | prop _ _ => fdtProp
  | nop => fdtNop
  | fin => fdtEnd

/-- The number of bytes up to the next token. -/
def size : Token → ℕ
  | beginNode name => (4 + (name.bytes.length + 1) + 3) / 4 * 4
  | prop _ value => (12 + value.length + 3) / 4 * 4
  | _ => 4

/-- The token stands in memory at `a`. -/
def At (m : Memory) (a : ℕ) (t : Token) : Prop :=
  be32 m (ptr a) = t.tag ∧
    match t with
    | beginNode name => name.At m (a + 4)
    | prop nameOffset value => be32 m (ptr (a + 4)) = BitVec.ofNat 32 value.length ∧
        be32 m (ptr (a + 8)) = nameOffset ∧ BytesAt m (a + 12) value
    | _ => True

instance (m : Memory) (a : ℕ) : (t : Token) → Decidable (t.At m a)
  | beginNode _ => inferInstanceAs (Decidable (_ ∧ CString.At _ _ _))
  | prop _ _ => inferInstanceAs (Decidable (_ ∧ _ ∧ _ ∧ BytesAt _ _ _))
  | endNode | nop | fin => inferInstanceAs (Decidable (_ ∧ True))

theorem size_mod (t : Token) : t.size % 4 = 0 := by
  cases t <;> simp [size]

theorem four_le_size (t : Token) : 4 ≤ t.size := by
  cases t <;> simp only [size] <;> omega

end Token

/-- The number of bytes the tokens take up. -/
def tokensSize : List Token → ℕ
  | [] => 0
  | t :: ts => t.size + tokensSize ts

/-- The tokens stand in memory one after the other, from `a` on. -/
def Encodes (m : Memory) (a : ℕ) : List Token → Prop
  | [] => True
  | t :: ts => t.At m a ∧ Encodes m (a + t.size) ts

instance Encodes.decidable (m : Memory) (a : ℕ) : (ts : List Token) → Decidable (Encodes m a ts)
  | [] => inferInstanceAs (Decidable True)
  | t :: ts =>
    have := Encodes.decidable m (a + t.size) ts
    inferInstanceAs (Decidable (t.At m a ∧ Encodes m (a + t.size) ts))

/-- The positions of the tokens with a wanted tag, when the first token is at `a`. -/
def positions (want : Word → Bool) (a : ℕ) : List Token → List ℕ
  | [] => []
  | t :: ts => if want t.tag then a :: positions want (a + t.size) ts
      else positions want (a + t.size) ts

/-! ## Trees -/

/-- A property, and the number of `FDT_NOP` words after it. -/
structure DtProp where
  nameOffset : Word
  value : List Byte
  nops : ℕ

/-- A node, with the numbers of `FDT_NOP` words after its name and after its end. -/
inductive DtNode where
  | mk (name : CString) (nameNops : ℕ) (props : List DtProp) (children : List DtNode) (endNops : ℕ)

namespace DtNode

def name : DtNode → CString
  | mk name _ _ _ _ => name

def props : DtNode → List DtProp
  | mk _ _ props _ _ => props

end DtNode

/-- Words that mean nothing. -/
def nopTokens (n : ℕ) : List Token := List.replicate n .nop

def DtProp.tokens (p : DtProp) : List Token := .prop p.nameOffset p.value :: nopTokens p.nops

def propsTokens (props : List DtProp) : List Token := props.flatMap DtProp.tokens

/-- The tokens between the name of a node and its children. -/
def DtNode.body : DtNode → List Token
  | .mk _ nameNops props _ _ => nopTokens nameNops ++ propsTokens props

/-- The tokens before the children of a node. -/
def headTokens (name : CString) (nameNops : ℕ) (props : List DtProp) : List Token :=
  .beginNode name :: (nopTokens nameNops ++ propsTokens props)

mutual

def DtNode.tokens : DtNode → List Token
  | .mk name nameNops props children endNops =>
    headTokens name nameNops props ++ (forestTokens children ++ .endNode :: nopTokens endNops)

def forestTokens : List DtNode → List Token
  | [] => []
  | n :: ns => n.tokens ++ forestTokens ns

end

mutual

def DtNode.preorder : DtNode → List DtNode
  | .mk name nameNops props children endNops =>
    .mk name nameNops props children endNops :: forestPreorder children

def forestPreorder : List DtNode → List DtNode
  | [] => []
  | n :: ns => n.preorder ++ forestPreorder ns

end

mutual

/-- The nodes of a tree that starts at `a`, each with its position, in pre-order. -/
def DtNode.nodesAt (a : ℕ) : DtNode → List (ℕ × DtNode)
  | .mk name nameNops props children endNops =>
    (a, .mk name nameNops props children endNops) ::
      forestNodesAt (a + tokensSize (headTokens name nameNops props)) children

def forestNodesAt (a : ℕ) : List DtNode → List (ℕ × DtNode)
  | [] => []
  | n :: ns => n.nodesAt a ++ forestNodesAt (a + tokensSize n.tokens) ns

end

/-- The properties from `a` on, each with its position. -/
def propListAt (a : ℕ) : List DtProp → List (ℕ × DtProp)
  | [] => []
  | p :: ps => (a, p) :: propListAt (a + tokensSize p.tokens) ps

/-- The properties of a node that starts at `a`, each with its position. -/
def DtNode.propsAt (a : ℕ) : DtNode → List (ℕ × DtProp)
  | .mk name nameNops props _ _ =>
    propListAt (a + tokensSize (.beginNode name :: nopTokens nameNops)) props

/-! ## The flattened tree -/

/-- Where the structure block of the tree at `fdtBase` starts. -/
def structStart (m : Memory) (fdtBase : Addr) : ℕ :=
  fdtBase.toNat + (dtStructOffset m fdtBase).toNat

/-- `root` is flattened at `fdtBase`: the header has the magic number, and the structure block is
aligned and inside memory. -/
structure FlatTree (m : Memory) (fdtBase : Addr) (root : DtNode) : Prop where
  magic : isUsingFdt m fdtBase = true
  aligned : structStart m fdtBase % 4 = 0
  fits : structStart m fdtBase + tokensSize (root.tokens ++ [.fin]) ≤ 2 ^ 32
  tokens : Encodes m (structStart m fdtBase) (root.tokens ++ [.fin])

/-! ## Sequences of tokens -/

variable {m : Memory} {a : ℕ} {l r ts : List Token} {want : Word → Bool}

@[simp] theorem tokensSize_append (l r : List Token) :
    tokensSize (l ++ r) = tokensSize l + tokensSize r := by
  induction l with
  | nil => simp [tokensSize]
  | cons t l ih => simp [tokensSize, ih, Nat.add_assoc]

theorem tokensSize_mod (ts : List Token) : tokensSize ts % 4 = 0 := by
  induction ts with
  | nil => rfl
  | cons t ts ih =>
    have ht := t.size_mod
    rw [tokensSize]
    omega

theorem length_le_tokensSize (ts : List Token) : ts.length ≤ tokensSize ts := by
  induction ts with
  | nil => simp
  | cons t ts ih =>
    have ht := t.four_le_size
    rw [tokensSize, List.length_cons]
    omega

theorem encodes_append :
    Encodes m a (l ++ r) ↔ Encodes m a l ∧ Encodes m (a + tokensSize l) r := by
  induction l generalizing a with
  | nil => simp [Encodes, tokensSize]
  | cons t l ih => simp [Encodes, tokensSize, ih, and_assoc, Nat.add_assoc]

theorem positions_append (want : Word → Bool) (a : ℕ) (l r : List Token) :
    positions want a (l ++ r) = positions want a l ++ positions want (a + tokensSize l) r := by
  induction l generalizing a with
  | nil => simp [positions, tokensSize]
  | cons t l ih =>
    rw [List.cons_append, positions, positions, ih, tokensSize]
    split_ifs <;> simp [Nat.add_assoc]

theorem positions_eq_nil (h : ∀ t ∈ ts, want t.tag = false) (a : ℕ) : positions want a ts = [] := by
  induction ts generalizing a with
  | nil => rfl
  | cons t ts ih =>
    rw [positions, if_neg (by simp [h t List.mem_cons_self])]
    exact ih (fun s hs ↦ h s (List.mem_cons_of_mem _ hs)) _

theorem length_positions_le (want : Word → Bool) (a : ℕ) (ts : List Token) :
    (positions want a ts).length ≤ ts.length := by
  induction ts generalizing a with
  | nil => exact le_rfl
  | cons t ts ih =>
    rw [positions]
    split_ifs
    · exact Nat.succ_le_succ (ih _)
    · exact (ih _).trans (Nat.le_succ _)

theorem exists_token_of_mem_positions (h : Encodes m a ts) {y : ℕ} (hy : y ∈ positions want a ts) :
    ∃ t ∈ ts, t.At m y ∧ a ≤ y ∧ y < a + tokensSize ts := by
  induction ts generalizing a with
  | nil => exact absurd hy List.not_mem_nil
  | cons t ts ih =>
    obtain ⟨ht, hts⟩ := h
    have hsize := t.four_le_size
    have hmem : y = a ∨ y ∈ positions want (a + t.size) ts := by
      rw [positions] at hy
      split_ifs at hy
      · exact List.mem_cons.mp hy
      · exact Or.inr hy
    rw [tokensSize]
    rcases hmem with rfl | hmem
    · exact ⟨t, List.mem_cons_self, ht, le_rfl, by omega⟩
    · obtain ⟨s, hs, hat, hle, hlt⟩ := ih hts hmem
      exact ⟨s, List.mem_cons_of_mem _ hs, hat, by omega, by omega⟩

theorem tag_of_mem_nopTokens {n : ℕ} {t : Token} (h : t ∈ nopTokens n) : t.tag = fdtNop := by
  rw [List.eq_of_mem_replicate h]
  rfl

/-! ## Sequences of properties -/

theorem tag_of_mem_propsTokens {props : List DtProp} {t : Token} (h : t ∈ propsTokens props) :
    t.tag = fdtProp ∨ t.tag = fdtNop := by
  obtain ⟨p, -, ht⟩ := List.mem_flatMap.mp h
  rcases List.mem_cons.mp ht with rfl | ht
  · exact Or.inl rfl
  · exact Or.inr (tag_of_mem_nopTokens ht)

theorem positions_propsTokens (a : ℕ) (props : List DtProp) :
    positions (· == fdtProp) a (propsTokens props) = (propListAt a props).map Prod.fst := by
  induction props generalizing a with
  | nil => rfl
  | cons p ps ih =>
    have hnops : positions (· == fdtProp) (a + (Token.prop p.nameOffset p.value).size)
        (nopTokens p.nops) = [] :=
      positions_eq_nil (fun t ht ↦ by rw [tag_of_mem_nopTokens ht]; rfl) _
    have hcons : propsTokens (p :: ps) = p.tokens ++ propsTokens ps := rfl
    rw [hcons, positions_append, ih, propListAt, List.map_cons]
    rw [DtProp.tokens, positions, if_pos (by rfl), hnops]
    rfl

theorem map_snd_propListAt (a : ℕ) (props : List DtProp) :
    (propListAt a props).map Prod.snd = props := by
  induction props generalizing a with
  | nil => rfl
  | cons p ps ih => rw [propListAt, List.map_cons, ih]

theorem at_of_mem_propListAt {props : List DtProp} {y : ℕ} {p : DtProp}
    (h : Encodes m a (propsTokens props)) (hp : (y, p) ∈ propListAt a props) :
    (Token.prop p.nameOffset p.value).At m y := by
  induction props generalizing a with
  | nil => simp [propListAt] at hp
  | cons p' ps ih =>
    have hcons : propsTokens (p' :: ps) = p'.tokens ++ propsTokens ps := rfl
    rw [hcons, encodes_append] at h
    rw [propListAt, List.mem_cons] at hp
    rcases hp with heq | hp
    · obtain ⟨rfl, rfl⟩ := Prod.mk.inj heq
      exact h.1.1
    · exact ih h.2 hp

/-! ## The body of a node -/

theorem DtNode.map_snd_propsAt (n : DtNode) (x : ℕ) : (n.propsAt x).map Prod.snd = n.props := by
  obtain ⟨name, k, props, children, e⟩ := n
  exact map_snd_propListAt _ _

theorem DtNode.mem_props {n : DtNode} {x : ℕ} {p : ℕ × DtProp} (h : p ∈ n.propsAt x) :
    p.2 ∈ n.props :=
  n.map_snd_propsAt x ▸ List.mem_map_of_mem h

theorem DtNode.tag_of_mem_body {n : DtNode} {t : Token} (h : t ∈ n.body) :
    t.tag = fdtProp ∨ t.tag = fdtNop := by
  obtain ⟨name, k, props, children, e⟩ := n
  rcases List.mem_append.mp h with h | h
  · exact Or.inr (tag_of_mem_nopTokens h)
  · exact tag_of_mem_propsTokens h

theorem DtNode.positions_body (n : DtNode) (x : ℕ) :
    positions (· == fdtProp) (x + (Token.beginNode n.name).size) n.body
      = (n.propsAt x).map Prod.fst := by
  obtain ⟨name, k, props, children, e⟩ := n
  have hnops : positions (· == fdtProp) (x + (Token.beginNode name).size) (nopTokens k) = [] :=
    positions_eq_nil (fun s hs ↦ by rw [tag_of_mem_nopTokens hs]; rfl) _
  rw [DtNode.body, DtNode.name, positions_append, hnops, List.nil_append, positions_propsTokens,
    Nat.add_assoc]
  rfl

theorem DtNode.at_of_mem_propsAt {n : DtNode} {x y : ℕ} {p : DtProp}
    (h : Encodes m (x + (Token.beginNode n.name).size) n.body) (hp : (y, p) ∈ n.propsAt x) :
    (Token.prop p.nameOffset p.value).At m y := by
  obtain ⟨name, k, props, children, e⟩ := n
  rw [DtNode.body, encodes_append, Nat.add_assoc] at h
  exact at_of_mem_propListAt h.2 hp

/-! ## Trees as tokens -/

theorem tag_of_mem_headTokens {name : CString} {k : ℕ} {props : List DtProp} {t : Token}
    (h : t ∈ headTokens name k props) : t.tag ≠ fdtEnd := by
  rw [headTokens, List.mem_cons, List.mem_append] at h
  rcases h with rfl | h | h
  · change fdtBeginNode ≠ fdtEnd
    decide
  · rw [tag_of_mem_nopTokens h]
    decide
  · rcases tag_of_mem_propsTokens h with htag | htag <;> rw [htag] <;> decide

mutual

theorem DtNode.tag_of_mem_tokens : ∀ (n : DtNode) {t : Token}, t ∈ n.tokens → t.tag ≠ fdtEnd
  | .mk name k props children e, t, h => by
    rw [DtNode.tokens, List.mem_append, List.mem_append, List.mem_cons] at h
    rcases h with h | h | rfl | h
    · exact tag_of_mem_headTokens h
    · exact tag_of_mem_forestTokens children h
    · decide
    · rw [tag_of_mem_nopTokens h]
      decide

theorem tag_of_mem_forestTokens : ∀ (ns : List DtNode) {t : Token}, t ∈ forestTokens ns →
    t.tag ≠ fdtEnd
  | [], t, h => by simp [forestTokens] at h
  | n :: ns, t, h => by
    rw [forestTokens, List.mem_append] at h
    rcases h with h | h
    · exact n.tag_of_mem_tokens h
    · exact tag_of_mem_forestTokens ns h

end

mutual

theorem DtNode.map_snd_nodesAt : ∀ (n : DtNode) (a : ℕ), (n.nodesAt a).map Prod.snd = n.preorder
  | .mk name k props children e, a => by
    rw [DtNode.nodesAt, DtNode.preorder, List.map_cons, map_snd_forestNodesAt children]

theorem map_snd_forestNodesAt : ∀ (ns : List DtNode) (a : ℕ),
    (forestNodesAt a ns).map Prod.snd = forestPreorder ns
  | [], _ => rfl
  | n :: ns, a => by
    rw [forestNodesAt, forestPreorder, List.map_append, n.map_snd_nodesAt,
      map_snd_forestNodesAt ns]

end

theorem DtNode.mem_preorder {root : DtNode} {a : ℕ} {n : ℕ × DtNode} (h : n ∈ root.nodesAt a) :
    n.2 ∈ root.preorder :=
  root.map_snd_nodesAt a ▸ List.mem_map_of_mem h

/-- A tree begins with its root. -/
theorem DtNode.nodesAt_eq_cons (n : DtNode) (a : ℕ) : ∃ rest, n.nodesAt a = (a, n) :: rest := by
  obtain ⟨name, k, props, children, e⟩ := n
  exact ⟨_, by rw [DtNode.nodesAt]⟩

mutual

/-- The begin tokens of a tree are where its nodes are. -/
theorem DtNode.positions_tokens : ∀ (n : DtNode) (a : ℕ),
    positions (· == fdtBeginNode) a n.tokens = (n.nodesAt a).map Prod.fst
  | .mk name k props children e, a => by
    -- before its children a node has one begin token, its own, and after them none
    have hhead : positions (· == fdtBeginNode) a (headTokens name k props) = [a] := by
      rw [headTokens, positions, if_pos (by rfl), positions_eq_nil]
      intro t ht
      rcases List.mem_append.mp ht with ht | ht
      · rw [tag_of_mem_nopTokens ht]
        rfl
      · rcases tag_of_mem_propsTokens ht with htag | htag <;> rw [htag] <;> rfl
    have htail : ∀ x, positions (· == fdtBeginNode) x (.endNode :: nopTokens e) = [] := by
      refine positions_eq_nil fun t ht ↦ ?_
      rcases List.mem_cons.mp ht with rfl | ht
      · rfl
      · rw [tag_of_mem_nopTokens ht]
        rfl
    rw [DtNode.tokens, positions_append, positions_append, hhead, htail, List.append_nil,
      positions_forestTokens children, DtNode.nodesAt]
    rfl

theorem positions_forestTokens : ∀ (ns : List DtNode) (a : ℕ),
    positions (· == fdtBeginNode) a (forestTokens ns) = (forestNodesAt a ns).map Prod.fst
  | [], _ => rfl
  | n :: ns, a => by
    rw [forestTokens, positions_append, n.positions_tokens, positions_forestTokens ns,
      forestNodesAt, List.map_append]

end

mutual

/-- The tokens of every node are a stretch of those of the tree. -/
theorem DtNode.exists_tokens : ∀ (n : DtNode) {a x : ℕ} {n' : DtNode}, (x, n') ∈ n.nodesAt a →
    ∃ pre post, n.tokens = pre ++ (n'.tokens ++ post) ∧ x = a + tokensSize pre
  | .mk name k props children e, a, x, n', h => by
    rw [DtNode.nodesAt, List.mem_cons] at h
    rcases h with heq | h
    · obtain ⟨rfl, rfl⟩ := Prod.mk.inj heq
      exact ⟨[], [], by simp, by simp [tokensSize]⟩
    · obtain ⟨pre, post, htokens, rfl⟩ := exists_forestTokens children h
      refine ⟨headTokens name k props ++ pre, post ++ .endNode :: nopTokens e, ?_, ?_⟩
      · rw [DtNode.tokens, htokens]
        simp
      · rw [tokensSize_append, Nat.add_assoc]

theorem exists_forestTokens : ∀ (ns : List DtNode) {a x : ℕ} {n' : DtNode},
    (x, n') ∈ forestNodesAt a ns →
      ∃ pre post, forestTokens ns = pre ++ (n'.tokens ++ post) ∧ x = a + tokensSize pre
  | [], a, x, n', h => by simp [forestNodesAt] at h
  | n :: ns, a, x, n', h => by
    rw [forestNodesAt, List.mem_append] at h
    rcases h with h | h
    · obtain ⟨pre, post, htokens, rfl⟩ := n.exists_tokens h
      exact ⟨pre, post ++ forestTokens ns, by simp [forestTokens, htokens], rfl⟩
    · obtain ⟨pre, post, htokens, rfl⟩ := exists_forestTokens ns h
      refine ⟨n.tokens ++ pre, post, by simp [forestTokens, htokens], ?_⟩
      rw [tokensSize_append, Nat.add_assoc]

end

end Sugarcat
