import Sugarcat.Machine.Search
import Sugarcat.Util.Bits
import Sugarcat.Util.Str

/-!
# Scanning a flattened device tree

The functions of `util/fdt.c` that go through the structure block tag by tag. Their only states are
memory, which they read, and the address of a tag; `NULL` is zero. What is computed is `none` when
the code does not return: a name without an end, or a loop that has passed more tags than there are
addresses.

## Tags

A tag is followed by as many bytes as its kind says: a name for the beginning of a node, a length,
an offset and a value for a property, and nothing for the others. `fdtGetTagSize` computes that,
rounded up to a word, and `fdtGetNextTag` adds it. Nothing follows the tag that ends the block, and
a tag that is not known is taken to be one word long.

## Two loops

The source writes the same loop twice for the next node and the next property, with other tags to
stop at, and twice again for the lookups by name. `seek` is the first of them, with the tags as
parameters, and the lookups are `searchStep` with the test of the lookup. Each function of the
source keeps its own definition, as one of these applied to its own values.
-/

namespace Sugarcat

open ByteMemory

abbrev fdtHeaderMagic : Word := 0xD00DFEED#32

abbrev fdtBeginNode : Word := 1#32
abbrev fdtEndNode : Word := 2#32
abbrev fdtProp : Word := 3#32
abbrev fdtNop : Word := 4#32
abbrev fdtEnd : Word := 9#32

/-- The big-endian word at `a`, as the code reads every word of a device tree. -/
def be32 (m : Memory) (a : Addr) : Word := be32ToCpu (readWord m a)

theorem be32_eq (m : Memory) (a : Addr) :
    be32 m a = m a ++ m (a + 1) ++ m (a + 2) ++ m (a + 3) := by
  rw [be32, be32ToCpu, if_pos (by decide), readWord, endswap32_append]

/-! ## Headers and fields

The offsets of `fdt_header`, `fdt_node` and `fdt_property`, which are packed. -/

def totalSz (m : Memory) (fdtBase : Addr) : Word := be32 m (fdtBase + 4#32)

def dtStructOffset (m : Memory) (fdtBase : Addr) : Word := be32 m (fdtBase + 8#32)

def dtStringsOffset (m : Memory) (fdtBase : Addr) : Word := be32 m (fdtBase + 12#32)

def dtStructSz (m : Memory) (fdtBase : Addr) : Word := be32 m (fdtBase + 36#32)

/-- `sizeof(struct fdt_header)`. -/
abbrev sizeofFdtHeader : ℕ := 40

def nodeData (node : Addr) : Addr := node + 4#32

/-- `sizeof(struct fdt_node)`. -/
abbrev sizeofFdtNode : Word := 4#32

/-- `sizeof(struct fdt_property)`. -/
abbrev sizeofFdtProperty : Word := 12#32

def propData (prop : Addr) : Addr := prop + 12#32

def propLength (m : Memory) (prop : Addr) : Word := be32 m (prop + 4#32)

def propNameOffset (m : Memory) (prop : Addr) : Word := be32 m (prop + 8#32)

section

variable (m : Memory) (x : ℕ)

theorem nodeData_ptr : nodeData (ptr x) = ptr (x + 4) := ptr_add x 4

theorem propData_ptr : propData (ptr x) = ptr (x + 12) := ptr_add x 12

theorem propLength_ptr : propLength m (ptr x) = be32 m (ptr (x + 4)) :=
  congrArg (be32 m) (ptr_add x 4)

theorem propNameOffset_ptr : propNameOffset m (ptr x) = be32 m (ptr (x + 8)) :=
  congrArg (be32 m) (ptr_add x 8)

end

def isUsingFdt (m : Memory) (fdtBase : Addr) : Bool := be32 m fdtBase == fdtHeaderMagic

/-! ## Tags -/

def alignUp (addr align : Word) : Word := (addr + (align - 1#32)) &&& ~~~(align - 1#32)

def fdtGetTagSize (m : Memory) (node : Addr) : Option Word :=
  if node ≠ 0#32 then
    if be32 m node = fdtBeginNode then
      (strlen m (nodeData node)).map fun len ↦ sizeofFdtNode + (len + 1#32)
    else if be32 m node = fdtProp then some (sizeofFdtProperty + propLength m node)
    else some sizeofFdtNode
  else some 0#32

def fdtGetNextTag (m : Memory) (node : Addr) : Option Addr :=
  -- nothing follows `FDT_END`, and a tag that is not known is taken to be one word
  if node ≠ 0#32 ∧ be32 m node ≠ fdtEnd then
    (fdtGetTagSize m node).map fun size ↦ alignUp (node + size) 4#32
  else some 0#32

/-- One pass of the loops below: go on to the next tag, or leave with a tag that is wanted, or with
`NULL` at one that halts the scan. -/
def seekStep (halt want : Word → Bool) (m : Memory) (iter : Addr) : Addr ⊕ Option Addr :=
  if iter ≠ 0#32 ∧ halt (be32 m iter) = false then
    if want (be32 m iter) then .inr (some iter)
    else
      match fdtGetNextTag m iter with
      | none => .inr none
      | some next => .inl next
  else .inr (some 0#32)

/-- The loop `while (iter != NULL && ...)` of `fdt_get_next_node` and `fdt_get_next_property`. -/
def seek (halt want : Word → Bool) (m : Memory) (iter : Addr) : Option Addr :=
  (Loop.run (seekStep halt want m) (2 ^ 32) iter).join

/-- The first wanted tag after the one at `node`. -/
def seekAfter (halt want : Word → Bool) (m : Memory) (node : Addr) : Option Addr :=
  if node ≠ 0#32 then (fdtGetNextTag m node).bind (seek halt want m) else some 0#32

/-! ## Nodes and properties -/

def fdtGetRootNode (m : Memory) (fdtBase : Addr) : Addr :=
  if isUsingFdt m fdtBase then fdtBase + dtStructOffset m fdtBase else 0#32

/-- `fdt_get_next_node` scans up to the end of the structure block. -/
def fdtGetNextNode (m : Memory) (node : Addr) : Option Addr :=
  seekAfter (· == fdtEnd) (· == fdtBeginNode) m node

/-- `fdt_get_next_property` scans up to where a node ends or another begins. -/
def fdtGetNextProperty (m : Memory) (prop : Addr) : Option Addr :=
  seekAfter (fun tag ↦ tag == fdtEndNode || tag == fdtBeginNode) (· == fdtProp) m prop

/-! ## Lookups -/

def fdtGetString (m : Memory) (fdtBase : Addr) (offset : Word) : Addr :=
  fdtBase + offset + dtStringsOffset m fdtBase

/-- The tests that the loop of `fdt_get_node` makes of a node. `slash` is where the literal `"/"`
is. -/
def nodeHit (m : Memory) (slash name iter : Addr) : Option Bool :=
  (strcmp m name (nodeData iter)).bind fun d ↦
    if d = 0 then some true
    else (strcmp m name slash).bind fun d ↦
      if d = 0 then (strlen m (nodeData iter)).map (· == 0#32) else some false

def nodeSearchStep (m : Memory) (slash name : Addr) : Addr → Addr ⊕ Option Addr :=
  searchStep 0#32 (· != 0#32) (nodeHit m slash name) (fdtGetNextNode m)

def fdtGetNode (m : Memory) (slash name fdtBase : Addr) : Option Addr :=
  if name ≠ 0#32 ∧ isUsingFdt m fdtBase then
    (Loop.run (nodeSearchStep m slash name) (2 ^ 32) (fdtGetRootNode m fdtBase)).join
  else some 0#32

/-- The tests that the loop of `fdt_get_property` makes of a tag. -/
def propHit (m : Memory) (fdtBase property node : Addr) : Option Bool :=
  if be32 m node = fdtProp then
    let propStr := fdtGetString m fdtBase (propNameOffset m node)
    if propStr ≠ 0#32 then (strcmp m property propStr).map (· == 0) else some false
  else some false

def propSearchStep (m : Memory) (fdtBase property : Addr) : Addr → Addr ⊕ Option Addr :=
  searchStep 0#32
    (fun node ↦ node != 0#32 && (be32 m node != fdtEndNode && be32 m node != fdtBeginNode))
    (propHit m fdtBase property) (fdtGetNextTag m)

def fdtGetProperty (m : Memory) (fdtBase node property : Addr) : Option Addr :=
  if node ≠ 0#32 ∧ property ≠ 0#32 then
    if be32 m node = fdtBeginNode then
      (fdtGetNextTag m node).bind fun first ↦
        (Loop.run (propSearchStep m fdtBase property) (2 ^ 32) first).join
    else some 0#32
  else some 0#32

/-- `sizeCells` is where the literal `"#size-cells"` is. -/
def fdtGetCellSize (m : Memory) (sizeCells fdtBase node : Addr) : Option Word :=
  if node ≠ 0#32 then
    (fdtGetProperty m fdtBase node sizeCells).bind fun prop ↦
      if prop = 0#32 then
        (fdtGetProperty m fdtBase (fdtGetRootNode m fdtBase) sizeCells).map fun prop ↦
          if prop ≠ 0#32 then be32 m (propData prop) else 0#32
      -- the value of a property of the node itself is not read
      else some 0#32
  else some 0#32

/-! ## Tests that return -/

variable {m : Memory} {z : Addr}

theorem exists_propHit {z : Addr} (hz : m z = 0#8) (fdtBase property a : Addr) :
    ∃ b, propHit m fdtBase property a = some b := by
  obtain ⟨d, hd⟩ := exists_strcmp hz property (fdtGetString m fdtBase (propNameOffset m a))
  rw [propHit]
  dsimp only
  rw [hd]
  split_ifs <;> exact ⟨_, rfl⟩

theorem exists_nodeHit (hz : m z = 0#8) (slash name a : Addr) :
    ∃ b, nodeHit m slash name a = some b := by
  obtain ⟨d, hd⟩ := exists_strcmp hz name (nodeData a)
  obtain ⟨d', hd'⟩ := exists_strcmp hz name slash
  obtain ⟨len, hlen⟩ := exists_strlen hz (nodeData a)
  rw [nodeHit, hd, Option.bind_some, hd', Option.bind_some, hlen, Option.map_some]
  split_ifs <;> exact ⟨_, rfl⟩

/-- The loop of `fdt_get_next_node` and `fdt_get_next_property` is a search. -/
theorem seekStep_eq (halt want : Word → Bool) (m : Memory) :
    seekStep halt want m = searchStep 0#32 (fun iter ↦ iter != 0#32 && !halt (be32 m iter))
      (fun iter ↦ some (want (be32 m iter))) (fdtGetNextTag m) := by
  funext iter
  have hgo : (iter != 0#32 && !halt (be32 m iter)) = true
      ↔ iter ≠ 0#32 ∧ halt (be32 m iter) = false := by
    rw [Bool.and_eq_true, bne_iff_ne, Bool.not_eq_true']
  simp only [seekStep, searchStep, hgo]
  cases want (be32 m iter) <;> cases fdtGetNextTag m iter <;> rfl

end Sugarcat
