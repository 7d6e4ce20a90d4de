import Mathlib.Data.List.Find
import Sugarcat.Fdt.Walk

/-!
# Looking up a property

`fdtGetProperty` is meant to return the first property of a node that has a given name. It compares
with `strcmp`, which looks at no more characters than the name that is asked for has: `reg` is found
in `reg-names`.

## The search

The search begins at the first tag behind the name of the node, and it ends at the first tag that
begins or ends a node. In between there are the properties of the node and tags that mean nothing.
It meets the properties in order, whatever their values are, so it finds the first one whose name
begins with the name asked for (`FlatTree.fdtGetProperty_eq`).

`getsProperty_iff` says when that is the right one. A property of exactly that name is always found
by the test, so the code can only go wrong by stopping too early, at a property whose name is
longer. A name that no other name of the node begins with is safe, in any order of the properties.
-/

namespace Sugarcat

open ByteMemory

/-! ## Names -/

/-- Where the name at `nameOffset` of the strings block is. -/
def nameStart (m : Memory) (fdtBase : Addr) (nameOffset : Word) : ℕ :=
  fdtBase.toNat + nameOffset.toNat + (dtStringsOffset m fdtBase).toNat

/-- The strings block follows the header, and `names` are the names of the properties of `root`, by
their offsets. -/
structure Named (m : Memory) (fdtBase : Addr) (root : DtNode) (names : Word → CString) : Prop where
  offset : sizeofFdtHeader ≤ (dtStringsOffset m fdtBase).toNat
  name : ∀ n ∈ root.preorder, ∀ p ∈ n.props,
    (names p.nameOffset).At m (nameStart m fdtBase p.nameOffset)
  fits : ∀ n ∈ root.preorder, ∀ p ∈ n.props,
    nameStart m fdtBase p.nameOffset + (names p.nameOffset).bytes.length < 2 ^ 32

/-- The first property of the node `n` at `x` that has the name, or `NULL`. -/
def propertyNamed (names : Word → CString) (name : CString) (x : ℕ) (n : DtNode) : Addr :=
  (((n.propsAt x).find? fun p ↦ decide ((names p.2.nameOffset).bytes = name.bytes)).map
    fun p ↦ ptr p.1).getD 0#32

variable {m : Memory} {fdtBase : Addr} {root n : DtNode} {x q : ℕ} {names : Word → CString}
  {name : CString}

theorem Named.props (h : Named m fdtBase root names)
    (hn : (x, n) ∈ root.nodesAt (structStart m fdtBase)) {y : ℕ} {p : DtProp}
    (hp : (y, p) ∈ n.propsAt x) :
    (names p.nameOffset).At m (nameStart m fdtBase p.nameOffset) ∧
      nameStart m fdtBase p.nameOffset + (names p.nameOffset).bytes.length < 2 ^ 32 := by
  have hn' : n ∈ root.preorder := DtNode.mem_preorder hn
  have hp' : p ∈ n.props := DtNode.mem_props hp
  exact ⟨h.name n hn' p hp', h.fits n hn' p hp'⟩

theorem fdtGetString_eq (m : Memory) (fdtBase : Addr) (nameOffset : Word) :
    fdtGetString m fdtBase nameOffset = ptr (nameStart m fdtBase nameOffset) := by
  rw [nameStart, ← ptr_add, ← ptr_add, ptr_toNat, ptr_toNat, ptr_toNat, fdtGetString]

/-! ## The search -/

theorem propHit_of_ne {a : Addr} (h : be32 m a ≠ fdtProp) (property : Addr) :
    propHit m fdtBase property a = some false := if_neg h

theorem propHit_at (hname : name.At m q) (hq : 0 < q) (hqfits : q + name.bytes.length < 2 ^ 32)
    {y : ℕ} {p : DtProp} (hat : (Token.prop p.nameOffset p.value).At m y)
    (hoffset : sizeofFdtHeader ≤ (dtStringsOffset m fdtBase).toNat)
    (hp : (names p.nameOffset).At m (nameStart m fdtBase p.nameOffset))
    (hpfits : nameStart m fdtBase p.nameOffset + (names p.nameOffset).bytes.length < 2 ^ 32) :
    propHit m fdtBase (ptr q) (ptr y)
      = some (decide (name.bytes <+: (names p.nameOffset).bytes)) := by
  have hpos : 0 < nameStart m fdtBase p.nameOffset := by
    have hheader : 40 ≤ (dtStringsOffset m fdtBase).toNat := hoffset
    rw [nameStart]
    omega
  have hstr : fdtGetString m fdtBase (propNameOffset m (ptr y))
      = ptr (nameStart m fdtBase p.nameOffset) := by
    rw [fdtGetString_eq, propNameOffset_ptr, hat.2.2.1]
  obtain ⟨d, hcmp, hd⟩ := strcmp_eq hname hp hq hpos hqfits hpfits
  have htag : be32 m (ptr y) = fdtProp := hat.1
  rw [propHit, if_pos htag, hstr]
  dsimp only
  rw [if_pos (ptr_ne_zero hpos (by omega)), hcmp, Option.map_some, Option.some_inj, Bool.eq_iff_iff,
    beq_iff_eq, decide_eq_true_iff]
  exact hd

/-- The search from the first token after the name of a node comes to its properties, and to nothing
that passes the test besides. -/
theorem FlatTree.exists_run_propSearchStep (h : FlatTree m fdtBase root)
    (hn : (x, n) ∈ root.nodesAt (structStart m fdtBase)) {z : Addr} (hz : m z = 0#8)
    (property : Addr) :
    ∃ k ≤ 2 ^ 32, Loop.run (propSearchStep m fdtBase property) k
        (ptr (x + (Token.beginNode n.name).size))
      = some (some ((((n.propsAt x).find? fun p ↦
          propHit m fdtBase property (ptr p.1) == some true).map fun p ↦ ptr p.1).getD 0#32)) := by
  obtain ⟨t, us, ht, -, henc, hx, hpos, hfits⟩ := h.encodes_body hn
  have hmod := (Token.beginNode n.name).size_mod
  have htsize := t.four_le_size
  obtain ⟨hbody, hrest⟩ := encodes_append.mp henc
  rw [tokensSize_append, tokensSize] at hfits
  have hend : ∀ s ∈ n.body, s.tag ≠ fdtEnd := by
    intro s hs
    rcases DtNode.tag_of_mem_body hs with htag | htag <;> rw [htag] <;> decide
  have hwalk := walk_tokens hbody (by omega) (by omega) (by omega) hend
  have hmet : ∀ w ∈ (positions (fun _ ↦ true) (x + (Token.beginNode n.name).size) n.body).map ptr,
      w ≠ 0#32 ∧ (be32 m w = fdtProp ∨ be32 m w = fdtNop) := by
    intro w hw
    obtain ⟨y, hy, rfl⟩ := List.mem_map.mp hw
    obtain ⟨s, hs, hat, hle, hlt⟩ := exists_token_of_mem_positions hbody hy
    refine ⟨ptr_ne_zero (by omega) (by omega), ?_⟩
    rw [hat.1]
    exact DtNode.tag_of_mem_body hs
  have hrun : Loop.run (propSearchStep m fdtBase property) _
      (ptr (x + (Token.beginNode n.name).size)) = _ := hwalk.run_searchStep ?_ ?_ ?_
  · have hprops : ∀ w, (be32 m w == fdtProp) = false →
        (propHit m fdtBase property w == some true) = false := by
      intro w hw
      rw [propHit_of_ne (beq_eq_false_iff_ne.mp hw)]
      rfl
    rw [find?_positions (· == fdtProp) hbody hprops, n.positions_body,
      List.map_map, List.find?_map] at hrun
    refine ⟨_, ?_, hrun⟩
    have hlen := length_positions_le (fun _ ↦ true) (x + (Token.beginNode n.name).size) n.body
    have hsize := length_le_tokensSize n.body
    rw [List.length_map]
    omega
  · intro w hw
    obtain ⟨hne, htag⟩ := hmet w hw
    rw [Bool.and_eq_true, bne_iff_ne]
    refine ⟨hne, ?_⟩
    rcases htag with htag | htag <;> rw [htag] <;> rfl
  · intro w _
    obtain ⟨b, hb⟩ := exists_propHit hz fdtBase property w
    rw [hb]
    rfl
  · rw [hrest.1.1]
    rcases ht with htag | htag <;> rw [htag] <;> simp

/-- **The code finds the first property whose name begins with the one asked for.** -/
theorem FlatTree.fdtGetProperty_eq (h : FlatTree m fdtBase root)
    (hnames : Named m fdtBase root names) (hn : (x, n) ∈ root.nodesAt (structStart m fdtBase))
    (hname : name.At m q) (hq : 0 < q) (hqfits : q + name.bytes.length < 2 ^ 32) :
    fdtGetProperty m fdtBase (ptr x) (ptr q)
      = some ((((n.propsAt x).find? fun p ↦
          decide (name.bytes <+: (names p.2.nameOffset).bytes)).map
        fun p ↦ ptr p.1).getD 0#32) := by
  obtain ⟨t, us, -, hbegin, henc, hx, hpos, hfits⟩ := h.encodes_body hn
  obtain ⟨k, hk, hrun⟩ := h.exists_run_propSearchStep hn hname.2 (ptr q)
  have htsize := t.four_le_size
  rw [tokensSize_append, tokensSize] at hfits
  have hnext := fdtGetNextTag_at hbegin (show fdtBeginNode ≠ fdtEnd by decide) hx hpos (by omega)
  have htag : be32 m (ptr x) = fdtBeginNode := hbegin.1
  have htest : ∀ p ∈ n.propsAt x, (propHit m fdtBase (ptr q) (ptr p.1) == some true)
      = decide (name.bytes <+: (names p.2.nameOffset).bytes) := by
    rintro ⟨y, p⟩ hp
    obtain ⟨hat, hfits⟩ := hnames.props hn hp
    rw [propHit_at hname hq hqfits (DtNode.at_of_mem_propsAt (encodes_append.mp henc).1 hp)
      hnames.offset hat hfits]
    simp
  rw [List.find?_congr htest] at hrun
  rw [fdtGetProperty, if_pos ⟨ptr_ne_zero hpos (by omega), ptr_ne_zero hq (by omega)⟩, if_pos htag,
    hnext, Option.bind_some, Loop.run_mono hk hrun, Option.join_some]

/-! ## When it is the right one -/

/-- **The property that is asked for is found exactly when every property whose name only begins
with that of it comes later.** -/
theorem getsProperty_iff (h : FlatTree m fdtBase root) (hnames : Named m fdtBase root names)
    (hn : (x, n) ∈ root.nodesAt (structStart m fdtBase)) (hname : name.At m q) (hq : 0 < q)
    (hqfits : q + name.bytes.length < 2 ^ 32) :
    fdtGetProperty m fdtBase (ptr x) (ptr q) = some (propertyNamed names name x n)
      ↔ FirstIs (fun p : ℕ × DtProp ↦ (names p.2.nameOffset).bytes = name.bytes)
          (fun p ↦ name.bytes <+: (names p.2.nameOffset).bytes) (n.propsAt x) := by
  obtain ⟨y, hiter⟩ := h.iterates_props hn
  rw [h.fdtGetProperty_eq hnames hn hname hq hqfits, Option.some_inj, propertyNamed]
  refine map_find?_eq_iff (fun p hp ↦ hiter.ne_stop (List.mem_map_of_mem hp)) hiter.nodup ?_
  intro p hp
  rw [hp]

/-- The names `reg-names` and `reg`. -/
def regNames (nameOffset : Word) : CString :=
  if nameOffset = 0#32 then
    ⟨[0x72#8, 0x65#8, 0x67#8, 0x2D#8, 0x6E#8, 0x61#8, 0x6D#8, 0x65#8, 0x73#8], by decide⟩
  else ⟨[0x72#8, 0x65#8, 0x67#8], by decide⟩

/-- A root with the properties `reg-names` and `reg`, in this order. -/
def regRoot : DtNode := .mk .empty 0 [⟨0#32, [], 0⟩, ⟨10#32, [], 0⟩] [] 0

def regBytes : List Byte :=
  [0xD0#8, 0x0D#8, 0xFE#8, 0xED#8, 0#8, 0#8, 0#8, 0x5E#8,
    0#8, 0#8, 0#8, 0x28#8, 0#8, 0#8, 0#8, 0x50#8,
    0#8, 0#8, 0#8, 0#8, 0#8, 0#8, 0#8, 0x11#8, 0#8, 0#8, 0#8, 0x10#8, 0#8, 0#8, 0#8, 0#8,
    0#8, 0#8, 0#8, 0x0E#8, 0#8, 0#8, 0#8, 0x28#8,
    -- the structure block
    0#8, 0#8, 0#8, 0x01#8, 0#8, 0#8, 0#8, 0#8, 0#8, 0#8, 0#8, 0x03#8, 0#8, 0#8, 0#8, 0#8,
    0#8, 0#8, 0#8, 0#8, 0#8, 0#8, 0#8, 0x03#8, 0#8, 0#8, 0#8, 0#8, 0#8, 0#8, 0#8, 0x0A#8,
    0#8, 0#8, 0#8, 0x02#8, 0#8, 0#8, 0#8, 0x09#8,
    -- the strings block
    0x72#8, 0x65#8, 0x67#8, 0x2D#8, 0x6E#8, 0x61#8, 0x6D#8, 0x65#8, 0x73#8, 0#8,
    0x72#8, 0x65#8, 0x67#8, 0#8]

def regMemory : Memory := fun x ↦ regBytes.getD (x - 0x1000#32).toNat 0#8

theorem flatTree_reg : FlatTree regMemory 0x1000#32 regRoot :=
  ⟨by decide, by decide, by decide, by decide⟩

theorem named_reg : Named regMemory 0x1000#32 regRoot regNames :=
  ⟨by decide, by decide, by decide⟩

theorem getsProperty_iff_regNames :
    fdtGetProperty regMemory 0x1000#32 (ptr 0x1028) (ptr 0x1050)
      = some (propertyNamed regNames (regNames 0#32) 0x1028 regRoot) :=
  (getsProperty_iff flatTree_reg named_reg List.mem_cons_self (by decide) (by decide)
    (by decide)).mpr (firstIs_cons.mpr (Or.inl rfl))

/-- Asked for `reg`, the code returns `reg-names`. -/
theorem not_getsProperty_reg :
    FlatTree regMemory 0x1000#32 regRoot ∧ Named regMemory 0x1000#32 regRoot regNames ∧
      (0x1028, regRoot) ∈ regRoot.nodesAt (structStart regMemory 0x1000#32) ∧
      (regNames 10#32).At regMemory 0x105A ∧
      propertyNamed regNames (regNames 10#32) 0x1028 regRoot = 0x103C#32 ∧
      fdtGetProperty regMemory 0x1000#32 (ptr 0x1028) (ptr 0x105A) = some 0x1030#32 :=
  ⟨flatTree_reg, named_reg, List.mem_cons_self, by decide, by decide, by decide +kernel⟩

end Sugarcat
