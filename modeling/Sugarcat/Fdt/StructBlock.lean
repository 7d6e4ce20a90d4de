import Sugarcat.Fdt.NodeLookup
import Sugarcat.Fdt.Progress

/-!
# The bounds of the structure block

The header of a device tree says where its structure block starts and how long it is. The functions
that scan the block read the first of these only, and follow its tags wherever they lead.

## Words that are taken for tags

The words they take for tags are those of the passes of their loops (`NextNodeInspects` and the
others), told for each function and for the pointers that it may be called with (`HandedOut`): the
root, a node that a search has returned, and the node after one of these. All of them lie on the
scan from the root, and `scansInside` says that the scan stays in the block if every tag of it ends
where another word of the block follows.

## The condition

The condition cannot be read off the header. A property may say that it is longer than the block,
and then the next word that is taken for a tag lies behind it. `BlockFits` asks it of the tags that
the scan meets, and a tree that fills its block meets it.
-/

namespace Sugarcat

open ByteMemory

/-! ## The block -/

def blockEnd (m : Memory) (fdtBase : Addr) : ℕ :=
  structStart m fdtBase + (dtStructSz m fdtBase).toNat

/-- The word at `x` lies in the structure block. -/
def InBlock (m : Memory) (fdtBase x : Addr) : Prop :=
  structStart m fdtBase ≤ x.toNat ∧ x.toNat + 4 ≤ blockEnd m fdtBase

/-- The image has the magic number, its structure block is inside it, and it is inside memory. -/
structure ImageHeader (m : Memory) (fdtBase : Addr) : Prop where
  magic : isUsingFdt m fdtBase = true
  inside : (dtStructOffset m fdtBase).toNat + (dtStructSz m fdtBase).toNat
    ≤ (totalSz m fdtBase).toNat
  fits : fdtBase.toNat + (totalSz m fdtBase).toNat ≤ 2 ^ 32

/-! ## Words that are taken for tags -/

/-- `fdt_get_next_node` reads the tag of the node it is given, and then one in every pass. -/
def NextNodeInspects (m : Memory) (node x : Addr) : Prop :=
  node ≠ 0#32 ∧ (x = node ∨ ∃ first, fdtGetNextTag m node = some first ∧
    Loop.Visits (seekStep (· == fdtEnd) (· == fdtBeginNode) m) first x ∧ x ≠ 0#32)

/-- `fdt_get_node` calls `fdt_get_next_node` after each node whose name is not the one it looks
for. -/
def GetNodeInspects (m : Memory) (slash name fdtBase x : Addr) : Prop :=
  name ≠ 0#32 ∧ isUsingFdt m fdtBase = true ∧
    ∃ iter, Loop.Visits (nodeSearchStep m slash name) (fdtGetRootNode m fdtBase) iter ∧
      nodeHit m slash name iter = some false ∧ NextNodeInspects m iter x

/-- `fdt_get_property` reads the tag of the node, and if it begins a node one in every pass. -/
def GetPropertyInspects (m : Memory) (fdtBase node property x : Addr) : Prop :=
  node ≠ 0#32 ∧ property ≠ 0#32 ∧ (x = node ∨ be32 m node = fdtBeginNode ∧
    ∃ first, fdtGetNextTag m node = some first ∧
      Loop.Visits (propSearchStep m fdtBase property) first x ∧ x ≠ 0#32)

/-- The nodes that a caller gets from the lookups. -/
inductive HandedOut (m : Memory) (slash fdtBase : Addr) : Addr → Prop
  | root : HandedOut m slash fdtBase (fdtGetRootNode m fdtBase)
  | getNode {name node : Addr} (h : fdtGetNode m slash name fdtBase = some node) :
      HandedOut m slash fdtBase node
  | nextNode {node next : Addr} (hnode : HandedOut m slash fdtBase node)
      (h : fdtGetNextNode m node = some next) : HandedOut m slash fdtBase next

/-- What is expected of the lookups in an image. -/
structure ScansInside (m : Memory) (slash fdtBase : Addr) : Prop where
  getNode : ∀ name x, GetNodeInspects m slash name fdtBase x → InBlock m fdtBase x
  nextNode : ∀ node, HandedOut m slash fdtBase node →
    ∀ x, NextNodeInspects m node x → InBlock m fdtBase x
  getProperty : ∀ node, HandedOut m slash fdtBase node →
    ∀ property x, GetPropertyInspects m fdtBase node property x → InBlock m fdtBase x

variable {m : Memory} {slash fdtBase node name property x : Addr}

/-! ## They lie on the scan -/

theorem NextNodeInspects.tagChain (h : NextNodeInspects m node x) :
    TagChain m node x ∧ x ≠ 0#32 := by
  obtain ⟨hnode, rfl | ⟨first, hfirst, hvisit, hx⟩⟩ := h
  · exact ⟨.refl, hnode⟩
  · exact ⟨(tagChain_of_visits_seekStep hvisit).head hfirst, hx⟩

theorem GetPropertyInspects.tagChain (h : GetPropertyInspects m fdtBase node property x) :
    TagChain m node x ∧ x ≠ 0#32 := by
  obtain ⟨hnode, -, rfl | ⟨-, first, hfirst, hvisit, hx⟩⟩ := h
  · exact ⟨.refl, hnode⟩
  · exact ⟨(tagChain_of_visits hvisit).head hfirst, hx⟩

/-- `x` is `NULL`, or on the scan from the root. -/
def OnScan (m : Memory) (fdtBase x : Addr) : Prop :=
  x = 0#32 ∨ TagChain m (fdtGetRootNode m fdtBase) x

theorem OnScan.fdtGetNextNode (h : OnScan m fdtBase node) (hnext : fdtGetNextNode m node = some x) :
    OnScan m fdtBase x := by
  rw [Sugarcat.fdtGetNextNode, seekAfter] at hnext
  split_ifs at hnext with hnode
  · obtain ⟨first, hfirst, hseek⟩ := Option.bind_eq_some_iff.mp hnext
    rw [seek, seekStep_eq] at hseek
    refine (eq_or_visits_of_searchStep hseek).imp_right fun hvisit ↦ ?_
    exact ((h.resolve_left hnode).tail hfirst).trans (tagChain_of_visits hvisit)
  · exact Or.inl (Option.some_inj.mp hnext).symm

theorem onScan_of_visits {iter : Addr}
    (h : Loop.Visits (nodeSearchStep m slash name) (fdtGetRootNode m fdtBase) iter) :
    OnScan m fdtBase iter := by
  induction h with
  | refl => exact Or.inr .refl
  | tail _ hstep ih => exact ih.fdtGetNextNode (next_of_searchStep hstep)

theorem HandedOut.onScan (h : HandedOut m slash fdtBase node) : OnScan m fdtBase node := by
  induction h with
  | root => exact Or.inr .refl
  | @getNode name node h =>
    rw [fdtGetNode] at h
    split_ifs at h
    · rcases eq_or_visits_of_searchStep h with hnull | hvisit
      · exact Or.inl hnull
      · exact onScan_of_visits hvisit
    · exact Or.inl (Option.some_inj.mp h).symm
  | nextNode _ h ih => exact ih.fdtGetNextNode h

/-! ## When the scan stays inside -/

/-- There is room for a tag in the block, and every tag of the scan that lies in it ends where
another word of the block follows. -/
structure BlockFits (m : Memory) (fdtBase : Addr) : Prop where
  nonempty : 4 ≤ (dtStructSz m fdtBase).toNat
  tags : ∀ x, TagChain m (fdtGetRootNode m fdtBase) x → InBlock m fdtBase x →
    TagFits m (blockEnd m fdtBase - 4) x

theorem ImageHeader.blockEnd_le (h : ImageHeader m fdtBase) : blockEnd m fdtBase ≤ 2 ^ 32 := by
  have hinside := h.inside
  have hfits := h.fits
  rw [blockEnd, structStart]
  omega

/-- **The scan does not leave the block.** -/
theorem BlockFits.inBlock (h : BlockFits m fdtBase) (hheader : ImageHeader m fdtBase)
    (hx : TagChain m (fdtGetRootNode m fdtBase) x) : x = 0#32 ∨ InBlock m fdtBase x := by
  have hle := hheader.blockEnd_le
  have hroom := h.nonempty
  have hend : blockEnd m fdtBase = structStart m fdtBase + (dtStructSz m fdtBase).toNat := rfl
  induction hx with
  | refl =>
    right
    rw [fdtGetRootNode_eq hheader.magic, InBlock, toNat_ptr (by omega)]
    omega
  | @tail x y hx hy ih =>
    rcases ih with rfl | hin
    · rw [fdtGetNextTag, if_neg (by simp), Option.some_inj] at hy
      exact Or.inl hy.symm
    · obtain ⟨w, hw, hlater⟩ := fdtGetNextTag_of_fits (h.tags x hx hin) (by omega)
      obtain rfl := Option.some_inj.mp (hy.symm.trans hw)
      refine hlater.imp_right fun hlater ↦ ?_
      rw [InBlock] at hin ⊢
      omega

/-- **In an image whose tags fit, no lookup takes a word outside of the structure block for a
tag.** -/
theorem scansInside (hheader : ImageHeader m fdtBase) (h : BlockFits m fdtBase) (slash : Addr) :
    ScansInside m slash fdtBase := by
  have hscan : ∀ node, OnScan m fdtBase node → node ≠ 0#32 → ∀ x, TagChain m node x → x ≠ 0#32 →
      InBlock m fdtBase x := fun node hnode hne x hx hxne ↦
    (h.inBlock hheader ((hnode.resolve_left hne).trans hx)).resolve_left hxne
  refine ⟨?_, ?_, ?_⟩
  · intro name x hx
    obtain ⟨-, -, iter, hvisit, -, hnext⟩ := hx
    exact hscan iter (onScan_of_visits hvisit) hnext.1 x hnext.tagChain.1 hnext.tagChain.2
  · intro node hnode x hx
    exact hscan node hnode.onScan hx.1 x hx.tagChain.1 hx.tagChain.2
  · intro node hnode property x hx
    exact hscan node hnode.onScan hx.1 x hx.tagChain.1 hx.tagChain.2

theorem FlatTree.blockFits {root : DtNode} (h : FlatTree m fdtBase root)
    (hsz : tokensSize (root.tokens ++ [.fin]) ≤ (dtStructSz m fdtBase).toNat) :
    BlockFits m fdtBase := by
  have hfin : tokensSize [.fin] = 4 := rfl
  rw [tokensSize_append, hfin] at hsz
  refine ⟨by omega, fun x hx _ ↦ h.chainFits.mono ?_ x hx⟩
  rw [blockEnd]
  omega

theorem scansInside_board : ScansInside boardMemory 0x107B#32 0x1000#32 :=
  scansInside ⟨by decide, by decide, by decide⟩ (flatTree_board.blockFits (by decide)) 0x107B#32

/-- A root with a property that is longer than the image. -/
def oversizeBytes : List Byte :=
  [0xD0#8, 0x0D#8, 0xFE#8, 0xED#8, 0#8, 0#8, 0#8, 0x40#8,
    0#8, 0#8, 0#8, 0x28#8, 0#8, 0#8, 0#8, 0x40#8,
    0#8, 0#8, 0#8, 0#8, 0#8, 0#8, 0#8, 0x11#8, 0#8, 0#8, 0#8, 0x10#8, 0#8, 0#8, 0#8, 0#8,
    0#8, 0#8, 0#8, 0#8, 0#8, 0#8, 0#8, 0x18#8,
    -- the structure block
    0#8, 0#8, 0#8, 0x01#8, 0#8, 0#8, 0#8, 0#8, 0#8, 0#8, 0#8, 0x03#8, 0#8, 0#8, 0x01#8, 0#8,
    0#8, 0#8, 0#8, 0#8, 0#8, 0#8, 0#8, 0x09#8]

def oversizeMemory : Memory := fun x ↦ oversizeBytes.getD (x - 0x1000#32).toNat 0#8

/-- The search for a node after the root reads a tag at `0x113C`. The block ends at `0x1040`. -/
theorem not_scansInside_oversize :
    ImageHeader oversizeMemory 0x1000#32 ∧ ¬ScansInside oversizeMemory 0x107B#32 0x1000#32 := by
  refine ⟨⟨by decide, by decide, by decide⟩, ?_⟩
  intro h
  have hin := h.nextNode _ .root 0x113C#32
    ⟨by decide, Or.inr ⟨0x1030#32, by decide, .single rfl, by decide⟩⟩
  exact absurd hin.2 (by decide)

end Sugarcat
