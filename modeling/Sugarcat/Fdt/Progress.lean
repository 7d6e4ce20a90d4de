import Sugarcat.Fdt.Walk

/-!
# Where scanning makes progress

The next tag is computed from lengths that are read from the device tree, modulo `2 ^ 32`, and
nothing checks them. `TagFits` says that a tag ends, padding included, below a limit. Where it does
with `2 ^ 32` for the limit, the next tag is a later one or `NULL`, and `tagRank` decreases along
the scan.

## Whole scans

`ChainFits` is that condition for every tag that the scan meets from an address on. It is preserved
by one step, so it carries the induction: `scanTerminates` says that a scan whose tags all fit meets
none of them twice, and that the loops that follow it end. The searches stop earlier than the scan
does, at the end of a node or of the block, but they follow the same tags, and the same measure
decreases.

A property whose length wraps the address around leads back to where the scan was before.

## The scan of a tree

The tags of a flattened tree end where `FDT_END` begins, or before (`FlatTree.chainFits`). So
everything here applies to well-formed trees, and the condition only leaves out malformed ones.
-/

namespace Sugarcat

open ByteMemory

/-! ## Tags that end -/

/-- `fdtGetNextTag` leads from `a` to `x`, in any number of steps. -/
def TagChain (m : Memory) : Addr → Addr → Prop :=
  Relation.ReflTransGen fun x y ↦ fdtGetNextTag m x = some y

/-- The tag at `x` ends at `lim` or before, with its name or value and the padding after it. -/
def TagEndsBy (m : Memory) (lim : ℕ) (x : Addr) : Prop :=
  if be32 m x = fdtBeginNode then
    ∃ z, x.toNat + 4 ≤ z ∧ m (ptr z) = 0#8 ∧ (z + 1 + 3) / 4 * 4 ≤ lim
  else if be32 m x = fdtProp then (x.toNat + 12 + (propLength m x).toNat + 3) / 4 * 4 ≤ lim
  else (x.toNat + 4 + 3) / 4 * 4 ≤ lim

/-- There is no tag at `x`, or none after it, or it ends at `lim` or before. -/
def TagFits (m : Memory) (lim : ℕ) (x : Addr) : Prop :=
  x = 0#32 ∨ be32 m x = fdtEnd ∨ TagEndsBy m lim x

variable {m : Memory} {lim : ℕ} {a x y : Addr}

theorem fdtGetTagSize_of_endsBy (h : TagEndsBy m lim x) (hlim : lim ≤ 2 ^ 32) (hx : x ≠ 0#32) :
    ∃ k : ℕ, 4 ≤ k ∧ fdtGetTagSize m x = some (BitVec.ofNat 32 k) ∧
      (x.toNat + k + 3) / 4 * 4 ≤ lim := by
  rw [fdtGetTagSize, if_pos hx]
  rw [TagEndsBy] at h
  split_ifs at h with hbegin hprop
  · obtain ⟨z, hle, hz, hend⟩ := h
    obtain ⟨s, hs, hsz⟩ := exists_cString_at hz hle
    have hdata : nodeData x = ptr (x.toNat + 4) := by
      rw [nodeData, ← ptr_add, ptr_toNat]
    refine ⟨4 + (s.bytes.length + 1), by omega, ?_, by omega⟩
    rw [if_pos hbegin, hdata, strlen_eq hs (by omega) (by omega), Option.map_some,
      BitVec.ofNat_add, BitVec.ofNat_add]
  · refine ⟨12 + (propLength m x).toNat, by omega, ?_, by rwa [← Nat.add_assoc]⟩
    rw [if_neg hbegin, if_pos hprop, BitVec.ofNat_add, BitVec.ofNat_toNat, BitVec.setWidth_eq]
  · exact ⟨4, le_rfl, by rw [if_neg hbegin, if_neg hprop], h⟩

/-- **One step.** From a tag that fits the scan goes on to a later tag below the limit, or to
`NULL`. -/
theorem fdtGetNextTag_of_fits (h : TagFits m lim x) (hlim : lim ≤ 2 ^ 32) :
    ∃ y, fdtGetNextTag m x = some y ∧ (y = 0#32 ∨ x.toNat < y.toNat ∧ y.toNat ≤ lim) := by
  rw [fdtGetNextTag]
  by_cases hgo : x ≠ 0#32 ∧ be32 m x ≠ fdtEnd
  · have hends : TagEndsBy m lim x := (h.resolve_left hgo.1).resolve_left hgo.2
    obtain ⟨k, hk, hsize, hend⟩ := fdtGetTagSize_of_endsBy hends hlim hgo.1
    have hnext : alignUp (x + BitVec.ofNat 32 k) 4#32 = ptr ((x.toNat + k + 3) / 4 * 4) := by
      rw [← ptr_toNat x, ptr_add, alignUp_ptr, ptr_toNat]
    rw [if_pos hgo, hsize, Option.map_some, hnext]
    refine ⟨_, rfl, ?_⟩
    by_cases htop : (x.toNat + k + 3) / 4 * 4 = 2 ^ 32
    · exact Or.inl (by rw [htop]; rfl)
    · right
      rw [toNat_ptr (by omega)]
      omega
  · exact ⟨0#32, if_neg hgo, Or.inl rfl⟩

/-! ## A measure -/

/-- The number of bytes from a tag to the top of the address space. -/
def tagRank (x : Addr) : ℕ := if x = 0#32 then 0 else 2 ^ 32 - x.toNat

theorem tagRank_le (x : Addr) : tagRank x ≤ 2 ^ 32 := by
  rw [tagRank]
  split_ifs <;> omega

theorem tagRank_lt (hx : x ≠ 0#32) (h : y = 0#32 ∨ x.toNat < y.toNat) : tagRank y < tagRank x := by
  have hlt := x.isLt
  rw [tagRank, tagRank, if_neg hx]
  split_ifs with hy
  · omega
  · have hlater := h.resolve_left hy
    omega

/-- All tags that the scan from `a` meets fit. -/
def ChainFits (m : Memory) (lim : ℕ) (a : Addr) : Prop := ∀ x, TagChain m a x → TagFits m lim x

theorem ChainFits.next (h : ChainFits m (2 ^ 32) a) (hx : TagChain m a x) :
    ∃ y, fdtGetNextTag m x = some y ∧ TagChain m a y ∧ (x ≠ 0#32 → tagRank y < tagRank x) := by
  obtain ⟨y, hy, hlt⟩ := fdtGetNextTag_of_fits (h x hx) le_rfl
  exact ⟨y, hy, hx.tail hy, fun hne ↦ tagRank_lt hne (hlt.imp_right And.left)⟩

theorem ChainFits.tagRank_le_of_chain (h : ChainFits m (2 ^ 32) a) (hx : TagChain m a x)
    (hy : TagChain m x y) : tagRank y ≤ tagRank x := by
  induction hy with
  | refl => exact le_rfl
  | @tail y z hy hz ih =>
    obtain ⟨w, hw, -, hlt⟩ := h.next (hx.trans hy)
    obtain rfl := Option.some_inj.mp (hz.symm.trans hw)
    by_cases hzero : y = 0#32
    · rw [hzero, fdtGetNextTag, if_neg (by simp), Option.some_inj] at hz
      rw [← hz, tagRank, if_pos rfl]
      exact Nat.zero_le _
    · exact (hlt hzero).le.trans ih

/-! ## Scans -/

/-- What is expected of the scans that start at the tag `a`. -/
structure ScanTerminates (m : Memory) (a : Addr) : Prop where
  chain : ∃ xs, Iterates 0#32 (fdtGetNextTag m) a xs ∧ xs.Nodup
  nextNode : ∃ y, fdtGetNextNode m a = some y
  nextProperty : ∃ y, fdtGetNextProperty m a = some y
  /-- `property` is a string. -/
  property : ∀ fdtBase property, (∃ len, strlen m property = some len) →
    ∃ y, fdtGetProperty m fdtBase a property = some y
  /-- `a` is where `fdt_get_node` starts, and `name` is a string. -/
  node : ∀ slash name fdtBase, fdtGetRootNode m fdtBase = a → (∃ len, strlen m name = some len) →
    ∃ y, fdtGetNode m slash name fdtBase = some y

variable {halt want : Word → Bool}

theorem ChainFits.exists_iterates (h : ChainFits m (2 ^ 32) a) :
    ∃ xs, Iterates 0#32 (fdtGetNextTag m) a xs := by
  refine Iterates.exists_of_measure (I := TagChain m a) tagRank (fun x hx hne ↦ ?_) .refl
  obtain ⟨y, hy, hchain, hlt⟩ := h.next hx
  exact ⟨y, hy, hchain, hlt hne⟩

theorem ChainFits.exists_search (h : ChainFits m (2 ^ 32) a) {go : Addr → Bool}
    {hit : Addr → Option Bool} (hgo : go 0#32 = false) (hhit : ∀ x, ∃ b, hit x = some b)
    (hx : TagChain m a x) :
    ∃ y, (Loop.run (searchStep 0#32 go hit (fdtGetNextTag m)) (2 ^ 32) x).join = some y := by
  refine exists_join_run_searchStep (I := TagChain m a) tagRank (fun x hx hgox ↦ ?_) hx
    (tagRank_le x)
  obtain ⟨y, hy, hchain, hlt⟩ := h.next hx
  refine ⟨hhit x, y, hy, hchain, hlt ?_⟩
  rintro rfl
  rw [hgo] at hgox
  exact Bool.false_ne_true hgox

/-- A search among tags goes along the scan. -/
theorem tagChain_of_visits {go : Addr → Bool} {hit : Addr → Option Bool}
    (h : Loop.Visits (searchStep 0#32 go hit (fdtGetNextTag m)) x y) : TagChain m x y :=
  Relation.ReflTransGen.mono (fun _ _ ↦ next_of_searchStep) _ _ h

theorem tagChain_of_visits_seekStep (h : Loop.Visits (seekStep halt want m) x y) :
    TagChain m x y := by
  rw [seekStep_eq] at h
  exact tagChain_of_visits h

theorem ChainFits.exists_seekAfter (h : ChainFits m (2 ^ 32) a) (halt want : Word → Bool)
    (hx : TagChain m a x) : ∃ y, seekAfter halt want m x = some y ∧
      (y = 0#32 ∨ TagChain m a y ∧ (x ≠ 0#32 → tagRank y < tagRank x)) := by
  by_cases hne : x ≠ 0#32
  · obtain ⟨w, hw, hchain, hlt⟩ := h.next hx
    have hseek : ∃ y, (Loop.run (seekStep halt want m) (2 ^ 32) w).join = some y := by
      rw [seekStep_eq]
      exact h.exists_search rfl (fun x ↦ ⟨_, rfl⟩) hchain
    obtain ⟨y, hy⟩ := hseek
    refine ⟨y, by rw [seekAfter, if_pos hne, hw, Option.bind_some, seek, hy], ?_⟩
    rw [seekStep_eq] at hy
    refine (eq_or_visits_of_searchStep hy).imp_right fun hvisit ↦ ?_
    have hwy := tagChain_of_visits hvisit
    exact ⟨hchain.trans hwy, fun hne ↦ (h.tagRank_le_of_chain hchain hwy).trans_lt (hlt hne)⟩
  · exact ⟨0#32, by rw [seekAfter, if_neg hne], Or.inl rfl⟩

theorem ChainFits.exists_fdtGetProperty (h : ChainFits m (2 ^ 32) a) (fdtBase : Addr)
    {property : Addr} (hstr : ∃ len, strlen m property = some len) :
    ∃ y, fdtGetProperty m fdtBase a property = some y := by
  obtain ⟨len, hlen⟩ := hstr
  rw [fdtGetProperty]
  split_ifs with hnull htag
  · obtain ⟨z, hz⟩ := exists_zero_of_strlen hlen hnull.2
    obtain ⟨w, hw, hchain, -⟩ := h.next .refl
    rw [hw, Option.bind_some]
    exact h.exists_search rfl (exists_propHit hz fdtBase property) hchain
  · exact ⟨_, rfl⟩
  · exact ⟨_, rfl⟩

theorem ChainFits.exists_fdtGetNode {fdtBase name : Addr}
    (h : ChainFits m (2 ^ 32) (fdtGetRootNode m fdtBase)) (slash : Addr)
    (hstr : ∃ len, strlen m name = some len) :
    ∃ y, fdtGetNode m slash name fdtBase = some y := by
  obtain ⟨len, hlen⟩ := hstr
  rw [fdtGetNode]
  split_ifs with hnull
  · obtain ⟨z, hz⟩ := exists_zero_of_strlen hlen hnull.1
    -- from node to node the scan goes on, or comes to `NULL`
    refine exists_join_run_searchStep
      (I := fun x ↦ x = 0#32 ∨ TagChain m (fdtGetRootNode m fdtBase) x) tagRank
      (fun x hx hgo ↦ ⟨exists_nodeHit hz slash name x, ?_⟩) (Or.inr .refl) (tagRank_le _)
    have hne : x ≠ 0#32 := bne_iff_ne.mp hgo
    obtain ⟨y, hy, hnext⟩ := h.exists_seekAfter (· == fdtEnd) (· == fdtBeginNode)
      (hx.resolve_left hne)
    refine ⟨y, hy, hnext.imp_right And.left, ?_⟩
    rcases hnext with rfl | ⟨-, hlt⟩
    · exact tagRank_lt hne (Or.inl rfl)
    · exact hlt hne
  · exact ⟨_, rfl⟩

/-- **A scan all of whose tags fit terminates.** -/
theorem scanTerminates (h : ChainFits m (2 ^ 32) a) : ScanTerminates m a where
  chain := by
    obtain ⟨xs, hxs⟩ := h.exists_iterates
    exact ⟨xs, hxs, hxs.nodup⟩
  nextNode := by
    obtain ⟨y, hy, -⟩ := h.exists_seekAfter (· == fdtEnd) (· == fdtBeginNode) .refl
    exact ⟨y, hy⟩
  nextProperty := by
    obtain ⟨y, hy, -⟩ := h.exists_seekAfter (fun tag ↦ tag == fdtEndNode || tag == fdtBeginNode)
      (· == fdtProp) .refl
    exact ⟨y, hy⟩
  property fdtBase _ hstr := h.exists_fdtGetProperty fdtBase hstr
  node slash name fdtBase hroot hstr := by
    subst hroot
    exact h.exists_fdtGetNode slash hstr

/-! ## The scan of a tree -/

variable {fdtBase : Addr} {root : DtNode}

theorem TagEndsBy.mono {lim' : ℕ} (h : TagEndsBy m lim x) (hle : lim ≤ lim') :
    TagEndsBy m lim' x := by
  rw [TagEndsBy] at h ⊢
  split_ifs at h ⊢
  · obtain ⟨z, hz, hzero, hend⟩ := h
    exact ⟨z, hz, hzero, hend.trans hle⟩
  · exact h.trans hle
  · exact h.trans hle

theorem ChainFits.mono {lim' : ℕ} (h : ChainFits m lim a) (hle : lim ≤ lim') :
    ChainFits m lim' a :=
  fun x hx ↦ (h x hx).imp_right fun hx ↦ hx.imp_right fun hx ↦ hx.mono hle

theorem Token.At.endsBy {t : Token} {y : ℕ} (h : t.At m y) (hy : y % 4 = 0)
    (hlim : y + t.size ≤ lim) (hfits : y + t.size < 2 ^ 32) : TagEndsBy m lim (ptr y) := by
  have hto : (ptr y).toNat = y := toNat_ptr (by omega)
  rw [TagEndsBy, hto, h.1]
  cases t with
  | beginNode name =>
    rw [if_pos (by rfl)]
    refine ⟨y + 4 + name.bytes.length, by omega, h.2.2, ?_⟩
    rw [Token.size] at hlim
    omega
  | prop nameOffset value =>
    have hlen : propLength m (ptr y) = BitVec.ofNat 32 value.length := by
      rw [propLength_ptr]
      exact h.2.1
    rw [Token.size] at hlim hfits
    change (y + 12 + (propLength m (ptr y)).toNat + 3) / 4 * 4 ≤ lim
    rw [hlen, toNat_ptr (by omega)]
    omega
  | endNode | nop | fin =>
    change y + 4 ≤ lim at hlim
    change (y + 4 + 3) / 4 * 4 ≤ lim
    omega

theorem FlatTree.token_at (h : FlatTree m fdtBase root) {pre post : List Token} {t : Token}
    (htokens : root.tokens ++ [.fin] = pre ++ t :: post) :
    t.At m (structStart m fdtBase + tokensSize pre) ∧
      (structStart m fdtBase + tokensSize pre) % 4 = 0 ∧
      (t = .fin ∨ ∃ us, root.tokens = pre ++ t :: us) := by
  have henc := h.tokens
  rw [htokens, encodes_append] at henc
  have haligned := h.aligned
  have hmod := tokensSize_mod pre
  refine ⟨henc.2.1, by omega, ?_⟩
  rcases List.eq_nil_or_concat post with rfl | ⟨us, u, rfl⟩
  · left
    have hlast := (List.append_inj' htokens rfl).2
    exact (List.cons.inj hlast).1.symm
  · right
    rw [List.concat_eq_append, ← List.cons_append, ← List.append_assoc] at htokens
    exact ⟨us, (List.append_inj' htokens rfl).1⟩

theorem FlatTree.token_lt (h : FlatTree m fdtBase root) {pre us : List Token} {t : Token}
    (htokens : root.tokens = pre ++ t :: us) :
    structStart m fdtBase + tokensSize pre + t.size
        ≤ structStart m fdtBase + tokensSize root.tokens ∧
      structStart m fdtBase + tokensSize root.tokens < 2 ^ 32 := by
  have hfits := h.fits
  have hfin : tokensSize [.fin] = 4 := rfl
  rw [tokensSize_append, hfin] at hfits
  rw [htokens] at hfits ⊢
  rw [tokensSize_append, tokensSize] at hfits ⊢
  omega

/-- What the scan of a tree meets is a token of it, or `NULL`. -/
theorem FlatTree.eq_zero_or_token (h : FlatTree m fdtBase root)
    (hx : TagChain m (fdtGetRootNode m fdtBase) x) :
    x = 0#32 ∨ ∃ pre t post, root.tokens ++ [.fin] = pre ++ t :: post ∧
      x = ptr (structStart m fdtBase + tokensSize pre) := by
  induction hx with
  | refl =>
    obtain ⟨name, ts, htokens⟩ := exists_tokens_eq_cons root
    exact Or.inr ⟨[], .beginNode name, ts ++ [.fin], by rw [htokens]; rfl,
      fdtGetRootNode_eq h.magic⟩
  | @tail x y _ hy ih =>
    by_cases hgo : x ≠ 0#32 ∧ be32 m x ≠ fdtEnd
    · obtain ⟨pre, t, post, htokens, rfl⟩ := ih.resolve_left hgo.1
      obtain ⟨hat, hmod, hlast⟩ := h.token_at htokens
      have hend : t.tag ≠ fdtEnd := hat.1 ▸ hgo.2
      obtain ⟨us, hroot⟩ := hlast.resolve_left fun hfin ↦ hend (hfin ▸ rfl)
      obtain ⟨hle, hlt⟩ := h.token_lt hroot
      have hpos := h.pos
      rw [fdtGetNextTag_at hat hend hmod (by omega) (by omega), Option.some_inj] at hy
      obtain ⟨u, us', hrest⟩ := List.exists_cons_of_ne_nil
        (List.append_ne_nil_of_right_ne_nil us (List.cons_ne_nil Token.fin []))
      refine Or.inr ⟨pre ++ [t], u, us', ?_, ?_⟩
      · rw [← hrest, hroot]
        simp
      · rw [← hy, tokensSize_append, tokensSize, tokensSize, Nat.add_zero, Nat.add_assoc]
    · rw [fdtGetNextTag, if_neg hgo, Option.some_inj] at hy
      exact Or.inl hy.symm

/-- **All tags of a tree end where `FDT_END` begins, or before.** -/
theorem FlatTree.chainFits (h : FlatTree m fdtBase root) :
    ChainFits m (structStart m fdtBase + tokensSize root.tokens) (fdtGetRootNode m fdtBase) := by
  intro x hx
  obtain rfl | ⟨pre, t, post, htokens, rfl⟩ := h.eq_zero_or_token hx
  · exact Or.inl rfl
  obtain ⟨hat, hmod, rfl | ⟨us, hroot⟩⟩ := h.token_at htokens
  · exact Or.inr (Or.inl hat.1)
  · obtain ⟨hle, hlt⟩ := h.token_lt hroot
    exact Or.inr (Or.inr (hat.endsBy hmod hle (by omega)))

/-- One root, one child: the scan from the root terminates. -/
theorem scanTerminates_oneChild : ScanTerminates oneChildMemory 0x1010#32 :=
  scanTerminates (flatTree_oneChild.chainFits.mono (by decide))

/-- A property whose length leads back to it. -/
def selfPropMemory : Memory := fun x ↦
  [0#8, 0#8, 0#8, 3#8, 0xFF#8, 0xFF#8, 0xFF#8, 0xF4#8].getD (x - 0x1000#32).toNat 0#8

theorem fdtGetNextTag_selfProp : fdtGetNextTag selfPropMemory 0x1000#32 = some 0x1000#32 := by
  decide

/-- The scan does not leave it. -/
theorem not_scanTerminates_selfProp : ¬ScanTerminates selfPropMemory 0x1000#32 ∧
    Loop.Diverges (seekStep (· == fdtEnd) (· == fdtBeginNode) selfPropMemory) 0x1000#32 := by
  constructor
  · rintro ⟨⟨xs, hxs, -⟩, -⟩
    cases hxs with
    | @cons _ y xs hne hnext htail =>
      obtain rfl := Option.some_inj.mp (fdtGetNextTag_selfProp.symm.trans hnext)
      have hlen := congrArg List.length ((Iterates.cons hne hnext htail).unique htail)
      simp at hlen
  · refine Loop.diverges_of_invariant (I := (· = 0x1000#32)) ?_ rfl
    rintro s rfl
    exact ⟨0x1000#32, rfl, rfl⟩

end Sugarcat
