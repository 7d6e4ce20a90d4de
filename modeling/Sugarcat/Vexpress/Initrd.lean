import Sugarcat.Vexpress.MemLayout

/-!
# Finding the initial ramdisk

`mlay_get_initrd_reg` is meant to return the region that two properties of the node `chosen`
delimit, in one of two namings. It reads a single byte of each of the cells, as the most significant
one, so what it returns is only right where the other bytes are zero. In the second naming it
returns nothing but success.

## What is meant

`DiscoversInitrd` is about the tree: the ramdisk is what the node of exactly that name delimits with
two properties of exactly their names, each of one cell. If there is no such node or no such pair of
properties, an error is meant, and the caller's region stays as it is.

## What is computed

The code goes through the searches by prefix, so it may come to another node or to other properties.
`LeadsTo` says that the byte that is read of a property makes the value that is meant, and
`TakesInitrd` that what the searches come to delimits the ramdisk. `discoversInitrd_iff` says that
the code is right in no other case but one: in the second naming it is right if the caller's own
region happens to be the ramdisk.
-/

namespace Sugarcat

open ByteMemory

/-! ## What is meant -/

def chosenName : CString := ⟨[0x63#8, 0x68#8, 0x6F#8, 0x73#8, 0x65#8, 0x6E#8], by decide⟩

/-- `linux,`, which the names of the first form begin with. -/
def linuxBytes : List Byte := [0x6C#8, 0x69#8, 0x6E#8, 0x75#8, 0x78#8, 0x2C#8]

def initrdStartName : CString :=
  ⟨[0x69#8, 0x6E#8, 0x69#8, 0x74#8, 0x72#8, 0x64#8, 0x2D#8, 0x73#8, 0x74#8, 0x61#8, 0x72#8, 0x74#8],
    by decide⟩

def initrdEndName : CString :=
  ⟨[0x69#8, 0x6E#8, 0x69#8, 0x74#8, 0x72#8, 0x64#8, 0x2D#8, 0x65#8, 0x6E#8, 0x64#8], by decide⟩

def linuxInitrdStartName : CString := ⟨linuxBytes ++ initrdStartName.bytes, by decide⟩

def linuxInitrdEndName : CString := ⟨linuxBytes ++ initrdEndName.bytes, by decide⟩

/-- The first node that is called `chosen`. -/
def chosenNode (root : DtNode) : Option DtNode :=
  root.preorder.find? fun n ↦ decide (n.name.bytes = chosenName.bytes)

/-- The property `name` of a node, when it is one cell. -/
def DtNode.oneCell (names : Word → CString) (name : CString) (n : DtNode) : Option Word :=
  (n.called names name).bind fun p ↦ if p.value.length = 4 then some (cell p.value 0) else none

/-- The properties `startName` and `endName` delimit the region `r`. -/
def Delimits (names : Word → CString) (n : DtNode) (startName endName : CString) (r : MmReg) :
    Prop :=
  n.oneCell names startName = some r.base ∧ n.oneCell names endName = some (r.base + r.size)

instance (names : Word → CString) (n : DtNode) (startName endName : CString) (r : MmReg) :
    Decidable (Delimits names n startName endName r) := inferInstanceAs (Decidable (_ ∧ _))

/-- `r` is the ramdisk, in one of the forms. -/
def InitrdIs (names : Word → CString) (root : DtNode) (r : MmReg) : Prop :=
  ∃ n, chosenNode root = some n ∧ (Delimits names n linuxInitrdStartName linuxInitrdEndName r ∨
    Delimits names n initrdStartName initrdEndName r)

/-- The ramdisk is returned exactly where there is one. -/
def DiscoversInitrd (names : Word → CString) (root : DtNode) : MmReg → Errno × MmReg → Prop :=
  Discovers (InitrdIs names root) (¬∃ r, InitrdIs names root r)

/-! ## What is found -/

/-- The first byte of the property is the most significant one of `v`, and the others are zero. -/
def LeadsTo (m : Memory) (p : ℕ × DtProp) (v : Word) : Prop :=
  v = m (ptr (p.1 + 12)) ++ 0#8 ++ 0#8 ++ 0#8

instance (m : Memory) (p : ℕ × DtProp) (v : Word) : Decidable (LeadsTo m p v) :=
  inferInstanceAs (Decidable (_ = _))

/-- There is a ramdisk with ends whose first bytes are those of the properties that are taken for
them; or the caller has it already, and only the property `initrd-start` is looked for. Where there
is no ramdisk, nothing is taken for both ends. -/
structure TakesInitrd (m : Memory) (a : ℕ) (names : Word → CString) (root : DtNode)
    (initrdReg : MmReg) : Prop where
  found : (∃ r, InitrdIs names root r) →
    ∃ r n, InitrdIs names root r ∧ nodeLike chosenName a root = some n ∧
      ((∃ s e, propLike names linuxInitrdStartName n.1 n.2 = some s ∧
          propLike names linuxInitrdEndName n.1 n.2 = some e ∧
          LeadsTo m s r.base ∧ LeadsTo m e (r.base + r.size)) ∨
        propLike names linuxInitrdStartName n.1 n.2 = none ∧
          propLike names initrdStartName n.1 n.2 ≠ none ∧ r = initrdReg)
  absent : (¬∃ r, InitrdIs names root r) → ∀ n, nodeLike chosenName a root = some n →
    propLike names linuxInitrdStartName n.1 n.2 ≠ none ∧
        propLike names linuxInitrdEndName n.1 n.2 = none ∨
      propLike names linuxInitrdStartName n.1 n.2 = none ∧
        propLike names initrdStartName n.1 n.2 = none

/-! ## What is in memory -/

/-- The tree and the literals are in memory. -/
structure InitrdInputs (lit : Literals) (m : Memory) (fdtBase : Addr) (root : DtNode)
    (names : Word → CString) : Prop where
  tree : FlatTree m fdtBase root
  named : Named m fdtBase root names
  slash : LiteralAt m lit.slash slashString
  chosen : LiteralAt m lit.chosen chosenName
  linuxInitrdStart : LiteralAt m lit.linuxInitrdStart linuxInitrdStartName
  linuxInitrdEnd : LiteralAt m lit.linuxInitrdEnd linuxInitrdEndName
  initrdStart : LiteralAt m lit.initrdStart initrdStartName

variable {lit : Literals} {m : Memory} {fdtBase : Addr} {root n : DtNode} {names : Word → CString}
  {x y : ℕ} {name : CString} {p : DtProp} {v : Word} {r : MmReg}

theorem initrdCell_ptr (m : Memory) (y : ℕ) :
    initrdCell m (ptr y) = m (ptr (y + 12)) ++ 0#8 ++ 0#8 ++ 0#8 := by
  have hext : (m (ptr (y + 12))).zeroExtend 32 = 0#8 ++ 0#8 ++ 0#8 ++ m (ptr (y + 12)) :=
    BitVec.setWidth_eq_append (by decide)
  rw [initrdCell, propData_ptr, be32ToCpu, if_pos (by decide), hext, endswap32_append]

/-! ## What the code computes -/

/-- The region that is returned, if one is. -/
def takenInitrd (m : Memory) (a : ℕ) (names : Word → CString) (root : DtNode) (initrdReg : MmReg) :
    Option MmReg :=
  (nodeLike chosenName a root).bind fun n ↦
    match propLike names linuxInitrdStartName n.1 n.2 with
    | some s => (propLike names linuxInitrdEndName n.1 n.2).map fun e ↦
        ⟨initrdCell m (ptr s.1), initrdCell m (ptr e.1) - initrdCell m (ptr s.1)⟩
    | none => (propLike names initrdStartName n.1 n.2).map fun _ ↦ initrdReg

theorem InitrdInputs.mlayGetInitrdReg_eq (h : InitrdInputs lit m fdtBase root names)
    (initrdReg : MmReg) :
    mlayGetInitrdReg lit m fdtBase initrdReg
      = some (outcome initrdReg (takenInitrd m (structStart m fdtBase) names root initrdReg)) := by
  have hnull : ¬(0#32 : Addr) ≠ 0#32 := not_not.mpr rfl
  rw [mlayGetInitrdReg, h.chosen.fdtGetNode_like h.tree h.slash (by decide), Option.bind_some,
    takenInitrd]
  cases hnode : nodeLike chosenName (structStart m fdtBase) root with
  | none =>
    rw [foundPtr_none, if_neg hnull]
    rfl
  | some n =>
    have hn : n ∈ root.nodesAt (structStart m fdtBase) := List.mem_of_find?_eq_some hnode
    rw [foundPtr_some, if_pos (h.tree.iterates_nodes.ne_stop (List.mem_map_of_mem hn)),
      h.linuxInitrdStart.fdtGetProperty_like h.tree h.named hn, Option.bind_some, Option.bind_some]
    cases hstart : propLike names linuxInitrdStartName n.1 n.2 with
    | some s =>
      rw [foundPtr_some, if_pos (h.tree.ptr_ne_of_propLike hn hstart),
        h.linuxInitrdEnd.fdtGetProperty_like h.tree h.named hn, Option.map_some]
      cases hend : propLike names linuxInitrdEndName n.1 n.2 with
      | none =>
        rw [foundPtr_none, if_neg hnull]
        rfl
      | some e =>
        rw [foundPtr_some, if_pos (h.tree.ptr_ne_of_propLike hn hend)]
        rfl
    | none =>
      rw [foundPtr_none, if_neg hnull, h.initrdStart.fdtGetProperty_like h.tree h.named hn,
        Option.map_some]
      cases hplain : propLike names initrdStartName n.1 n.2 with
      | none =>
        rw [foundPtr_none, if_neg hnull]
        rfl
      | some p =>
        rw [foundPtr_some, if_pos (h.tree.ptr_ne_of_propLike hn hplain)]
        rfl

theorem mmReg_eq_iff {s e : Word} :
    (⟨s, e - s⟩ : MmReg) = r ↔ r.base = s ∧ r.base + r.size = e := by
  obtain ⟨base, size⟩ := r
  rw [MmReg.mk.injEq, eq_comm]
  refine and_congr_right fun h ↦ ?_
  rw [h, sub_eq_iff_eq_add, eq_comm, BitVec.add_comm]

theorem takenInitrd_eq_some_iff {a : ℕ} {initrdReg : MmReg} :
    takenInitrd m a names root initrdReg = some r
      ↔ ∃ n, nodeLike chosenName a root = some n ∧
        ((∃ s e, propLike names linuxInitrdStartName n.1 n.2 = some s ∧
            propLike names linuxInitrdEndName n.1 n.2 = some e ∧
            LeadsTo m s r.base ∧ LeadsTo m e (r.base + r.size)) ∨
          propLike names linuxInitrdStartName n.1 n.2 = none ∧
            propLike names initrdStartName n.1 n.2 ≠ none ∧ r = initrdReg) := by
  rw [takenInitrd, Option.bind_eq_some_iff]
  refine exists_congr fun n ↦ and_congr_right fun _ ↦ ?_
  cases propLike names linuxInitrdStartName n.1 n.2 with
  | some s =>
    simp only [Option.map_eq_some_iff, mmReg_eq_iff, initrdCell_ptr, LeadsTo]
    simp
  | none =>
    simp only [Option.map_eq_some_iff, Option.ne_none_iff_exists']
    simp [eq_comm]

theorem takenInitrd_eq_none_iff {a : ℕ} {initrdReg : MmReg} :
    takenInitrd m a names root initrdReg = none
      ↔ ∀ n, nodeLike chosenName a root = some n →
        propLike names linuxInitrdStartName n.1 n.2 ≠ none ∧
            propLike names linuxInitrdEndName n.1 n.2 = none ∨
          propLike names linuxInitrdStartName n.1 n.2 = none ∧
            propLike names initrdStartName n.1 n.2 = none := by
  rw [takenInitrd, Option.bind_eq_none_iff]
  refine forall_congr' fun n ↦ imp_congr_right fun _ ↦ ?_
  cases propLike names linuxInitrdStartName n.1 n.2 <;> simp

/-! ## When it is right -/

/-- **The ramdisk is found exactly when its ends are multiples of 16 MiB and the right properties
come first, or it is the caller's own region and in the second form.** -/
theorem discoversInitrd_iff (h : InitrdInputs lit m fdtBase root names) (initrdReg : MmReg) :
    (∃ res, mlayGetInitrdReg lit m fdtBase initrdReg = some res ∧
        DiscoversInitrd names root initrdReg res)
      ↔ TakesInitrd m (structStart m fdtBase) names root initrdReg := by
  rw [h.mlayGetInitrdReg_eq]
  simp only [Option.some.injEq, exists_eq_left', DiscoversInitrd, discovers_outcome_iff,
    takenInitrd_eq_none_iff, takenInitrd_eq_some_iff]
  constructor
  · rintro ⟨hfound, habsent⟩
    refine ⟨?_, habsent⟩
    intro hr
    obtain ⟨r, hmem, n, hn⟩ := hfound hr
    exact ⟨r, n, hmem, hn⟩
  · intro ht
    refine ⟨?_, ht.absent⟩
    intro hr
    obtain ⟨r, n, hmem, hn⟩ := ht.found hr
    exact ⟨r, hmem, n, hn⟩

theorem FlatTree.leadsTo_cell_iff (h : FlatTree m fdtBase root)
    (hn : (x, n) ∈ root.nodesAt (structStart m fdtBase)) (hp : (y, p) ∈ n.propsAt x)
    (hlen : p.value.length = 4) :
    LeadsTo m (y, p) (cell p.value 0) ↔ (cell p.value 0).toNat % 2 ^ 24 = 0 := by
  have hbyte : m (ptr (y + 12)) = p.value.getD 0 0#8 := by
    rw [← Nat.add_zero (y + 12), h.bytesAt_value hn hp 0 (by omega),
      List.getD_eq_getElem _ _ (by omega)]
  rw [LeadsTo, hbyte, cell]
  generalize p.value.getD (4 * 0) 0#8 = a, p.value.getD (4 * 0 + 1) 0#8 = b,
    p.value.getD (4 * 0 + 2) 0#8 = c, p.value.getD (4 * 0 + 3) 0#8 = d
  rw [← BitVec.toNat_inj]
  simp only [Bits.toNat_append_eq, BitVec.toNat_ofNat]
  omega

theorem FlatTree.exists_leadsTo (h : FlatTree m fdtBase root)
    (hn : (x, n) ∈ root.nodesAt (structStart m fdtBase)) (hcell : n.oneCell names name = some v)
    (honly : OnlyCalled names name n) (hv : v.toNat % 2 ^ 24 = 0) :
    ∃ p, propLike names name x n = some p ∧ LeadsTo m p v := by
  obtain ⟨p, hp, hone⟩ := Option.bind_eq_some_iff.mp hcell
  obtain ⟨hlen, hr⟩ := Option.ite_none_right_eq_some.mp hone
  obtain rfl := Option.some_inj.mp hr
  obtain ⟨y, htaken⟩ := exists_propLike_of_called hp honly x
  exact ⟨(y, p), htaken,
    (h.leadsTo_cell_iff hn (List.mem_of_find?_eq_some htaken) hlen).mpr hv⟩

theorem chosenNode_of_nodeLike {a : ℕ} (hnode : nodeLike chosenName a root = some (x, n))
    (hname : n.name.bytes = chosenName.bytes) : chosenNode root = some n := by
  obtain ⟨-, l, l', hl, hno⟩ := List.find?_eq_some_iff_append.mp hnode
  have hpre : root.preorder = l.map Prod.snd ++ n :: l'.map Prod.snd := by
    rw [← root.map_snd_nodesAt a, hl, List.map_append, List.map_cons]
  refine List.find?_eq_some_iff_append.mpr ⟨decide_eq_true hname, _, _, hpre, ?_⟩
  rw [List.forall_mem_map]
  intro k hk
  have hk := hno k hk
  rw [Bool.not_eq_true', decide_eq_false_iff_not] at hk ⊢
  exact fun heq ↦ hk (by rw [heq])

/-- A ramdisk of the first form on 16 MiB boundaries is found. -/
theorem FlatTree.takesInitrd (h : FlatTree m fdtBase root)
    (hnode : nodeLike chosenName (structStart m fdtBase) root = some (x, n))
    (hname : n.name.bytes = chosenName.bytes)
    (hr : Delimits names n linuxInitrdStartName linuxInitrdEndName r)
    (hstart : OnlyCalled names linuxInitrdStartName n)
    (hend : OnlyCalled names linuxInitrdEndName n) (hbase : r.base.toNat % 2 ^ 24 = 0)
    (hlimit : (r.base + r.size).toNat % 2 ^ 24 = 0) (initrdReg : MmReg) :
    TakesInitrd m (structStart m fdtBase) names root initrdReg := by
  have hn : (x, n) ∈ root.nodesAt (structStart m fdtBase) := List.mem_of_find?_eq_some hnode
  have hinitrd : InitrdIs names root r := ⟨n, chosenNode_of_nodeLike hnode hname, Or.inl hr⟩
  obtain ⟨s, hs, hleads⟩ := h.exists_leadsTo hn hr.1 hstart hbase
  obtain ⟨e, he, hleads'⟩ := h.exists_leadsTo hn hr.2 hend hlimit
  exact ⟨fun _ ↦ ⟨r, (x, n), hinitrd, hnode, Or.inl ⟨s, e, hs, he, hleads, hleads'⟩⟩,
    fun hno ↦ absurd ⟨r, hinitrd⟩ hno⟩

/-! ## Two ramdisks -/

/-- The node `chosen` with a ramdisk from `s` to `t`. -/
def chosenInitrd (s t : Word) : DtNode :=
  .mk chosenName 0 [⟨0#32, bytesBe s, 0⟩, ⟨19#32, bytesBe t, 0⟩] [] 0

def initrdRoot (s t : Word) : DtNode := .mk .empty 0 [] [chosenInitrd s t] 0

def initrdNames (k : Word) : CString :=
  if k = 0#32 then linuxInitrdStartName else linuxInitrdEndName

def initrdBytes (s t : Word) : List Byte :=
  [0xD00DFEED#32, 0x8C#32, 0x28#32, 0x68#32, 0#32, 17#32, 16#32, 0#32, 0x24#32, 0x40#32].flatMap
      bytesBe ++
    -- the structure block
    [1#32, 0#32, 1#32].flatMap bytesBe ++ chosenName.bytes ++ [0#8, 0#8] ++
      [3#32, 4#32, 0#32, s, 3#32, 4#32, 19#32, t, 2#32, 2#32, 9#32].flatMap bytesBe ++
    -- the strings block, and the literals
    [linuxInitrdStartName, linuxInitrdEndName, slashString, chosenName, linuxInitrdStartName,
      linuxInitrdEndName, initrdStartName].flatMap fun s ↦ s.bytes ++ [0#8]

def initrdMemory (s t : Word) : Memory := fun x ↦ (initrdBytes s t).getD (x - 0x1000#32).toNat 0#8

def initrdLiterals : Literals where
  slash := 0x108C#32
  memoryAt := 0#32
  memory := 0#32
  reg := 0#32
  chosen := 0x108E#32
  linuxInitrdStart := 0x1095#32
  linuxInitrdEnd := 0x10A8#32
  initrdStart := 0x10B9#32

theorem initrdInputs_initrd {s t : Word}
    (h : s = 0x61000000#32 ∧ t = 0x62000000#32 ∨ s = 0x60800000#32 ∧ t = 0x61000000#32) :
    InitrdInputs initrdLiterals (initrdMemory s t) 0x1000#32 (initrdRoot s t) initrdNames := by
  rcases h with ⟨rfl, rfl⟩ | ⟨rfl, rfl⟩ <;>
    exact {
      tree := ⟨by decide, by decide, by decide, by decide +kernel⟩
      named := ⟨by decide, by decide +kernel, by decide +kernel⟩
      slash := by decide +kernel
      chosen := by decide +kernel
      linuxInitrdStart := by decide +kernel
      linuxInitrdEnd := by decide +kernel
      initrdStart := by decide +kernel }

/-- A ramdisk on 16 MiB boundaries is found. -/
theorem discoversInitrd_iff_round :
    ∃ res, mlayGetInitrdReg initrdLiterals (initrdMemory 0x61000000#32 0x62000000#32) 0x1000#32
        ⟨0#32, 0#32⟩ = some res ∧
      DiscoversInitrd initrdNames (initrdRoot 0x61000000#32 0x62000000#32) ⟨0#32, 0#32⟩ res := by
  have hinitrd : InitrdIs initrdNames (initrdRoot 0x61000000#32 0x62000000#32)
      ⟨0x61000000#32, 0x1000000#32⟩ := ⟨chosenInitrd _ _, rfl, Or.inl ⟨rfl, rfl⟩⟩
  refine (discoversInitrd_iff (initrdInputs_initrd (Or.inl ⟨rfl, rfl⟩)) _).mpr
    ⟨fun _ ↦ ⟨_, (0x1030, chosenInitrd _ _), hinitrd, rfl, Or.inl ?_⟩,
      fun h ↦ absurd ⟨_, hinitrd⟩ h⟩
  exact ⟨(0x103C, _), (0x104C, _), rfl, rfl, by decide +kernel, by decide +kernel⟩

/-- For one from `0x60800000` to `0x61000000`, the base that is returned is `0x60000000`. -/
theorem not_discoversInitrd_unround :
    InitrdInputs initrdLiterals (initrdMemory 0x60800000#32 0x61000000#32) 0x1000#32
        (initrdRoot 0x60800000#32 0x61000000#32) initrdNames ∧
      InitrdIs initrdNames (initrdRoot 0x60800000#32 0x61000000#32) ⟨0x60800000#32, 0x800000#32⟩ ∧
      mlayGetInitrdReg initrdLiterals (initrdMemory 0x60800000#32 0x61000000#32) 0x1000#32
        ⟨0#32, 0#32⟩ = some (.esucc, ⟨0x60000000#32, 0x1000000#32⟩) ∧
      ¬InitrdIs initrdNames (initrdRoot 0x60800000#32 0x61000000#32)
        ⟨0x60000000#32, 0x1000000#32⟩ := by
  have hin := initrdInputs_initrd (Or.inr ⟨rfl, rfl⟩ :
    0x60800000#32 = 0x61000000#32 ∧ 0x61000000#32 = 0x62000000#32 ∨
      0x60800000#32 = 0x60800000#32 ∧ 0x61000000#32 = 0x61000000#32)
  refine ⟨hin, ⟨chosenInitrd _ _, rfl, Or.inl ⟨rfl, rfl⟩⟩, ?_, ?_⟩
  · rw [hin.mlayGetInitrdReg_eq]
    decide +kernel
  · rintro ⟨n, hn, hr⟩
    obtain rfl := Option.some_inj.mp hn
    exact absurd hr (by decide +kernel)

end Sugarcat
