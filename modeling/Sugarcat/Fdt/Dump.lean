import Sugarcat.Fdt.Footprint
import Sugarcat.Vexpress.EarlyKprintf

/-!
# Printing a device tree

`dump_fdt` of `util/fdt.c` goes through the structure block tag by tag and prints what it meets,
with one tab for each level. The indentation is a string in the global `tabs`, which gets one
character longer where a node begins and one shorter where it ends.

## The room in `tabs`

`tabs` has 256 bytes, and nothing checks whether they are enough. A tree of height `h` takes `h + 1`
of them, so at the 256th level the terminator is written past the end. What the source then
overwrites depends on what the linker puts there; `writeTabs` gives no result instead, and
`dumpFdt_eq` says that this is so exactly for the trees of 256 levels or more.

## Token by token

What one tag does only depends on the tag, on the depth and on how deep the dump has been, since the
contents of `tabs` are known from the two numbers (`tabsMemory`): tabs up to the depth, and zeros
from there on, as far as the dump has been. So the dump is first that of a sequence of tokens.
`Token.level` is the step on the two numbers, and `DumpRoom.dumpFdtTag_at` the step lemma, with one
case for each kind of token.

## The tree

`Prints` puts sequences of tokens together: a node prints its head, its properties and its children
one level further down, and its end, and returns to the depth that it began with. `DtNode.prints` is
by induction on the tree, with the forest of its children as the other half of it.
-/

namespace Sugarcat

open ByteMemory

/-! ## The code -/

/-- Where the formats of `dump_fdt` are. -/
structure DumpLiterals where
  beginNode : Addr
  rootNode : Addr
  endNode : Addr
  prop : Addr

/-- The variables of the loop, with memory and what has been sent. -/
structure DumpFdtLoop where
  node : Addr
  mem : Memory
  sent : List Byte

def DumpFdtLoop.kprintf (l : DumpFdtLoop) (format buf : Addr) (va : List Word) :
    Option DumpFdtLoop :=
  (machEarlyKprintf l.mem format buf va).map fun out ↦
    { l with mem := out.mem, sent := l.sent ++ out.sent }

/-- `tabs[i] = c`, in the 256 bytes of `tabs`. Past their end it has no meaning. -/
def writeTabs (tabs : Addr) (i : Word) (c : Byte) (m : Memory) : Option Memory :=
  if i.toNat < 256 then some (writeByte m (tabs + i) c) else none

/-- The body of the loop, up to the next tag. -/
def dumpFdtTag (lits : DumpLiterals) (tabs buf fdtBase : Addr) (l : DumpFdtLoop) :
    Option DumpFdtLoop :=
  let tag := be32 l.mem l.node
  if tag = fdtBeginNode then
    (strlen l.mem tabs).bind fun sz ↦
      (strlen l.mem (nodeData l.node)).bind fun len ↦
        (if len > 0#32 then l.kprintf lits.beginNode buf [tabs, nodeData l.node]
          else l.kprintf lits.rootNode buf []).bind fun l ↦
          ((writeTabs tabs sz 0x09#8 l.mem).bind (writeTabs tabs (sz + 1#32) 0#8)).map fun m ↦
            { l with mem := m }
  else if tag = fdtEndNode then
    (strlen l.mem tabs).bind fun sz ↦
      (writeTabs tabs (sz - 1#32) 0#8 l.mem).bind fun m ↦
        { l with mem := m }.kprintf lits.endNode buf [tabs]
  else if tag = fdtProp then
    l.kprintf lits.prop buf
      [tabs, fdtGetString l.mem fdtBase (propNameOffset l.mem l.node)]
  else some l

def dumpFdtStep (lits : DumpLiterals) (tabs buf fdtBase : Addr) (l : DumpFdtLoop) :
    DumpFdtLoop ⊕ Option DumpFdtLoop :=
  if l.node ≠ 0#32 then
    match (dumpFdtTag lits tabs buf fdtBase l).bind fun l ↦
        (fdtGetNextTag l.mem l.node).map fun next ↦ { l with node := next } with
    | none => .inr none
    | some l => .inl l
  else .inr (some l)

/-- What `dump_fdt` leaves in memory, and what it sends. There is nothing of the kind where it comes
to a write past the end of `tabs`. -/
def dumpFdt (lits : DumpLiterals) (tabs buf fdtBase : Addr) (m : Memory) : Option DumpFdtLoop :=
  (Loop.run (dumpFdtStep lits tabs buf fdtBase) (2 ^ 32) ⟨fdtGetRootNode m fdtBase, m, []⟩).join

/-! ## The texts -/

/-- `" {\n"`. -/
def openText : List Byte := [0x20#8, 0x7B#8, 0x0A#8]

/-- `"/ {\n"`. -/
def rootText : List Byte := [0x2F#8, 0x20#8, 0x7B#8, 0x0A#8]

/-- `"};\n"`. -/
def closeText : List Byte := [0x7D#8, 0x3B#8, 0x0A#8]

/-- `"\n"`. -/
def lineText : List Byte := [0x0A#8]

/-- `"%s"`. -/
def strDirective : List Byte := [0x25#8, 0x73#8]

theorem openText_ordinary : ∀ b ∈ openText, b ≠ 0#8 ∧ b ≠ 0x25#8 := by decide

theorem rootText_ordinary : ∀ b ∈ rootText, b ≠ 0#8 ∧ b ≠ 0x25#8 := by decide

theorem closeText_ordinary : ∀ b ∈ closeText, b ≠ 0#8 ∧ b ≠ 0x25#8 := by decide

theorem lineText_ordinary : ∀ b ∈ lineText, b ≠ 0#8 ∧ b ≠ 0x25#8 := by decide

theorem zero_notMem_beginNodeFormat : 0#8 ∉ strDirective ++ (strDirective ++ openText) := by decide

theorem zero_notMem_endNodeFormat : 0#8 ∉ strDirective ++ closeText := by decide

theorem zero_notMem_propFormat : 0#8 ∉ strDirective ++ (strDirective ++ lineText) := by decide

theorem zero_notMem_rootNodeFormat : 0#8 ∉ rootText := by decide

/-- `"%s%s {\n"`. -/
def beginNodeFormat : CString := ⟨_, zero_notMem_beginNodeFormat⟩

/-- `"/ {\n"`. -/
def rootNodeFormat : CString := ⟨_, zero_notMem_rootNodeFormat⟩

/-- `"%s};\n"`. -/
def endNodeFormat : CString := ⟨_, zero_notMem_endNodeFormat⟩

/-- `"%s%s\n"`. -/
def propFormat : CString := ⟨_, zero_notMem_propFormat⟩

/-- The indentation at a depth. -/
def tabsOf (d : ℕ) : List Byte := List.replicate d 0x09#8

theorem zero_notMem_tabsOf (d : ℕ) : 0#8 ∉ tabsOf d := by
  intro h
  exact absurd (List.eq_of_mem_replicate h) (by decide)

def tabsString (d : ℕ) : CString := ⟨tabsOf d, zero_notMem_tabsOf d⟩

/-! ## What is printed -/

mutual

/-- The text of a tree, indented by `d` tabs. A node without a name is taken to be the root. -/
def DtNode.text (names : Word → CString) (d : ℕ) : DtNode → List Byte
  | .mk name _ props children _ =>
    (if name.bytes = [] then rootText else tabsOf d ++ (name.bytes ++ openText)) ++
      (props.flatMap (fun p ↦ tabsOf (d + 1) ++ ((names p.nameOffset).bytes ++ lineText)) ++
        (forestText names (d + 1) children ++ (tabsOf d ++ closeText)))

def forestText (names : Word → CString) (d : ℕ) : List DtNode → List Byte
  | [] => []
  | n :: ns => n.text names d ++ forestText names d ns

end

mutual

/-- The number of nodes on the longest way down. -/
def DtNode.height : DtNode → ℕ
  | .mk _ _ _ children _ => forestHeight children + 1

def forestHeight : List DtNode → ℕ
  | [] => 0
  | n :: ns => max n.height (forestHeight ns)

end

/-! ### Token by token -/

/-- The depth after a token, and the greatest one so far. -/
def Token.level : Token → ℕ × ℕ → ℕ × ℕ
  | beginNode _, (d, p) => (d + 1, max p (d + 1))
  | endNode, (d, p) => (d - 1, p)
  | _, (d, p) => (d, p)

/-- What is printed at a token. -/
def Token.text (names : Word → CString) (d : ℕ) : Token → List Byte
  | beginNode name => if name.bytes = [] then rootText else tabsOf d ++ (name.bytes ++ openText)
  | endNode => tabsOf (d - 1) ++ closeText
  | prop nameOffset _ => tabsOf d ++ ((names nameOffset).bytes ++ lineText)
  | _ => []

/-- Nothing ends that has not begun. -/
def Token.Balanced (d : ℕ) : Token → Prop
  | endNode => 0 < d
  | _ => True

def levelAfter (ts : List Token) (dp : ℕ × ℕ) : ℕ × ℕ := ts.foldl (fun dp t ↦ t.level dp) dp

def tokensText (names : Word → CString) (dp : ℕ × ℕ) : List Token → List Byte
  | [] => []
  | t :: ts => t.text names dp.1 ++ tokensText names (t.level dp) ts

def BalancedFrom (dp : ℕ × ℕ) : List Token → Prop
  | [] => True
  | t :: ts => t.Balanced dp.1 ∧ BalancedFrom (t.level dp) ts

variable {names : Word → CString} {dp : ℕ × ℕ} {l r ts : List Token} {d p : ℕ}

theorem levelAfter_append (l r : List Token) (dp : ℕ × ℕ) :
    levelAfter (l ++ r) dp = levelAfter r (levelAfter l dp) := List.foldl_append

theorem tokensText_append (names : Word → CString) (dp : ℕ × ℕ) (l r : List Token) :
    tokensText names dp (l ++ r) =
      tokensText names dp l ++ tokensText names (levelAfter l dp) r := by
  induction l generalizing dp with
  | nil => rfl
  | cons t l ih =>
    rw [List.cons_append, tokensText, tokensText, ih, List.append_assoc]
    rfl

theorem balancedFrom_append :
    BalancedFrom dp (l ++ r) ↔ BalancedFrom dp l ∧ BalancedFrom (levelAfter l dp) r := by
  induction l generalizing dp with
  | nil => simp [BalancedFrom, levelAfter]
  | cons t l ih =>
    rw [List.cons_append, BalancedFrom, BalancedFrom, ih, and_assoc]
    rfl

/-- A stretch of tokens that begins and ends at depth `d`, goes down by `h`, and prints a text. -/
structure Prints (names : Word → CString) (ts : List Token) (d h : ℕ) (text : List Byte) :
    Prop where
  level : ∀ p, d ≤ p → levelAfter ts (d, p) = (d, max p (d + h))
  text : ∀ p, d ≤ p → tokensText names (d, p) ts = text
  balanced : ∀ p, d ≤ p → BalancedFrom (d, p) ts

variable {h k : ℕ} {s t : List Byte}

theorem prints_nil (names : Word → CString) (d : ℕ) : Prints names [] d 0 [] :=
  ⟨fun p hp ↦ by rw [Nat.add_zero, max_eq_left hp]; rfl, fun _ _ ↦ rfl, fun _ _ ↦ trivial⟩

theorem Prints.append (hl : Prints names l d h s) (hr : Prints names r d k t) :
    Prints names (l ++ r) d (max h k) (s ++ t) := by
  have hle : ∀ p, d ≤ p → d ≤ max p (d + h) := fun p hp ↦ hp.trans (le_max_left _ _)
  refine ⟨?_, ?_, ?_⟩
  · intro p hp
    rw [levelAfter_append, hl.level p hp, hr.level _ (hle p hp), max_assoc, Nat.add_max_add_left]
  · intro p hp
    rw [tokensText_append, hl.text p hp, hl.level p hp, hr.text _ (hle p hp)]
  · intro p hp
    rw [balancedFrom_append, hl.level p hp]
    exact ⟨hl.balanced p hp, hr.balanced _ (hle p hp)⟩

theorem prints_cons {u : Token} (hlevel : ∀ dp, u.level dp = dp) (hbalanced : u.Balanced d)
    (hts : Prints names ts d h t) : Prints names (u :: ts) d h (u.text names d ++ t) := by
  refine ⟨fun p hp ↦ ?_, fun p hp ↦ ?_, fun p hp ↦ ⟨hbalanced, ?_⟩⟩
  · rw [levelAfter, List.foldl_cons, hlevel]
    exact hts.level p hp
  · rw [tokensText, hlevel, hts.text p hp]
  · rw [hlevel]
    exact hts.balanced p hp

theorem prints_nopTokens (names : Word → CString) (d n : ℕ) :
    Prints names (nopTokens n) d 0 [] := by
  induction n with
  | zero => exact prints_nil names d
  | succ n ih => exact prints_cons (u := .nop) (fun _ ↦ rfl) trivial ih

theorem prints_propsTokens (names : Word → CString) (d : ℕ) (props : List DtProp) :
    Prints names (propsTokens props) d 0
      (props.flatMap fun p ↦ tabsOf d ++ ((names p.nameOffset).bytes ++ lineText)) := by
  induction props with
  | nil => exact prints_nil names d
  | cons p ps ih =>
    have hone : Prints names p.tokens d 0
        (tabsOf d ++ ((names p.nameOffset).bytes ++ lineText) ++ []) :=
      prints_cons (u := .prop p.nameOffset p.value) (fun _ ↦ rfl) trivial
        (prints_nopTokens names d p.nops)
    have hboth := hone.append ih
    rw [List.append_nil, max_self] at hboth
    exact hboth

/-- What stands between the beginning and the end of a node is one deeper. -/
theorem Prints.node (hts : Prints names ts (d + 1) h t) (name : CString) :
    Prints names (.beginNode name :: (ts ++ [.endNode])) d (h + 1)
      ((if name.bytes = [] then rootText else tabsOf d ++ (name.bytes ++ openText)) ++
        (t ++ (tabsOf d ++ closeText))) := by
  have hbegin : ∀ p, (Token.beginNode name).level (d, p) = (d + 1, max p (d + 1)) := fun _ ↦ rfl
  have hle : ∀ p, d + 1 ≤ max p (d + 1) := fun p ↦ le_max_right _ _
  refine ⟨fun p hp ↦ ?_, fun p hp ↦ ?_, fun p hp ↦ ⟨trivial, ?_⟩⟩
  · have htop : max (max p (d + 1)) (d + 1 + h) = max p (d + (h + 1)) := by omega
    rw [levelAfter, List.foldl_cons, hbegin]
    have hinner := hts.level _ (hle p)
    rw [← htop]
    have hend : levelAfter (ts ++ [.endNode]) (d + 1, max p (d + 1)) =
        (d, max (max p (d + 1)) (d + 1 + h)) := by
      rw [levelAfter_append, hinner]
      rfl
    exact hend
  · rw [tokensText, hbegin, tokensText_append, hts.text _ (hle p), hts.level _ (hle p),
      tokensText, tokensText, List.append_nil]
    rfl
  · rw [hbegin, balancedFrom_append, hts.level _ (hle p)]
    exact ⟨hts.balanced _ (hle p), Nat.succ_pos d, trivial⟩

mutual

/-- **The tokens of a tree print the tree.** -/
theorem DtNode.prints (names : Word → CString) : ∀ (n : DtNode) (d : ℕ),
    Prints names n.tokens d n.height (n.text names d)
  | .mk name k props children e, d => by
    have hinner := ((prints_nopTokens names (d + 1) k).append
      (prints_propsTokens names (d + 1) props)).append (forest_prints names children (d + 1))
    have hnode := (hinner.node name).append (prints_nopTokens names d e)
    have htokens : (DtNode.mk name k props children e).tokens =
        (.beginNode name :: ((nopTokens k ++ propsTokens props ++ forestTokens children) ++
          [.endNode])) ++ nopTokens e := by
      rw [DtNode.tokens, headTokens]
      simp
    rw [htokens, DtNode.height, DtNode.text]
    simpa using hnode

theorem forest_prints (names : Word → CString) : ∀ (ns : List DtNode) (d : ℕ),
    Prints names (forestTokens ns) d (forestHeight ns) (forestText names d ns)
  | [], d => by
    rw [forestTokens, forestHeight, forestText]
    exact prints_nil names d
  | n :: ns, d => by
    rw [forestTokens, forestHeight, forestText]
    exact (n.prints names d).append (forest_prints names ns d)

end

/-! ## The contents of `tabs` -/

/-- Memory at depth `d`, when the depth has been `p`. -/
def tabsMemory (tabs : Addr) (m : Memory) (dp : ℕ × ℕ) : Memory := fun x ↦
  if (x - tabs).toNat < dp.1 then 0x09#8 else if (x - tabs).toNat ≤ dp.2 then 0#8 else m x

variable {m : Memory} {tabs : Addr} {x : Addr}

theorem eq_add_ptr_iff (hd : d < 2 ^ 32) : x = tabs + ptr d ↔ (x - tabs).toNat = d := by
  constructor
  · rintro rfl
    rw [add_sub_cancel_left, toNat_ptr hd]
  · rintro rfl
    rw [ptr_toNat]
    ring

theorem eqOutside_tabsMemory (hdp : d ≤ p) (hp : p < 256) :
    EqOutside (InRange tabs 256) m (tabsMemory tabs m (d, p)) := by
  intro x hx
  rw [InRange] at hx
  rw [tabsMemory, if_neg (by dsimp only; omega), if_neg (by dsimp only; omega)]

theorem literalAt_tabs (hpos : 0 < tabs.toNat) (hfits : tabs.toNat + d < 2 ^ 32) (hdp : d ≤ p) :
    LiteralAt (tabsMemory tabs m (d, p)) tabs (tabsString d) := by
  have hlen : (tabsString d).bytes.length = d := List.length_replicate
  have hread : ∀ i ≤ d, tabsMemory tabs m (d, p) (ptr (tabs.toNat + i)) =
      if i < d then 0x09#8 else 0#8 := by
    intro i hi
    have hsub : (ptr (tabs.toNat + i) - tabs).toNat = i := by
      rw [← ptr_add, ptr_toNat, add_sub_cancel_left, toNat_ptr (by omega)]
    rw [tabsMemory, hsub]
    dsimp only
    rw [if_pos (show i ≤ p by omega)]
  refine ⟨⟨fun i hi ↦ ?_, ?_⟩, hpos, by rw [hlen]; exact hfits⟩
  · rw [hlen] at hi
    rw [hread i hi.le, if_pos hi]
    exact (List.getElem_replicate _).symm
  · rw [hlen, hread d le_rfl, if_neg (lt_irrefl d)]

theorem writeTabs_eq {i : ℕ} (hi : i < 256) (c : Byte) (m : Memory) :
    writeTabs tabs (ptr i) c m = some (writeByte m (tabs + ptr i) c) :=
  if_pos (by rwa [toNat_ptr (by omega)])

/-- One level down, which `tabs` may have no room for. -/
theorem tabsMemory_begin (hd : d < 256) (hdp : d ≤ p) :
    (writeTabs tabs (ptr d) 0x09#8 (tabsMemory tabs m (d, p))).bind
        (writeTabs tabs (ptr d + 1#32) 0#8) =
      if d + 1 < 256 then some (tabsMemory tabs m (d + 1, max p (d + 1))) else none := by
  rw [writeTabs_eq hd, Option.bind_some, ptr_add_one]
  split_ifs with hnext
  · rw [writeTabs_eq hnext, Option.some_inj]
    funext x
    rw [writeByte, writeByte, tabsMemory, tabsMemory]
    simp only [eq_add_ptr_iff (show d + 1 < 2 ^ 32 by omega),
      eq_add_ptr_iff (show d < 2 ^ 32 by omega)]
    split_ifs <;> first | rfl | omega
  · exact if_neg (by rwa [toNat_ptr (by omega)])

theorem tabsMemory_end (hpos : 0 < d) (hd : d < 256) (hdp : d ≤ p) :
    writeTabs tabs (ptr d - 1#32) 0#8 (tabsMemory tabs m (d, p)) =
      some (tabsMemory tabs m (d - 1, p)) := by
  have hsub : ptr d - 1#32 = ptr (d - 1) := ptr_sub (y := 1) hpos
  rw [hsub, writeTabs_eq (by omega), Option.some_inj]
  funext x
  rw [writeByte, tabsMemory, tabsMemory]
  simp only [eq_add_ptr_iff (show d - 1 < 2 ^ 32 by omega)]
  split_ifs <;> first | rfl | omega

/-! ## One tag -/

/-- The formats of `dump_fdt` stand in memory, outside of `F`. -/
structure DumpFormats (F : Addr → Prop) (m : Memory) (lits : DumpLiterals) : Prop where
  beginNode : LiteralApart F m lits.beginNode beginNodeFormat
  rootNode : LiteralApart F m lits.rootNode rootNodeFormat
  endNode : LiteralApart F m lits.endNode endNodeFormat
  prop : LiteralApart F m lits.prop propFormat

theorem DumpFdtLoop.kprintf_eq {l : DumpFdtLoop} {format : Addr} {fmt : CString} {cs : List Piece}
    (hfmt : LiteralAt l.mem format fmt) (hcs : formatOf cs = fmt.bytes)
    (hplain : ∀ c ∈ cs, c.Plain l.mem) (buf : Addr) {va : List Word} (hva : argsOf cs = va) :
    l.kprintf format buf va = some { l with sent := l.sent ++ textOf cs } := by
  have hformat : formatString cs = fmt := CString.ext hcs
  have hprint := uartPrintf_plain (hformat ▸ hfmt) hplain buf []
  rw [List.append_nil, hva] at hprint
  rw [kprintf, machEarlyKprintf, hprint, Option.map_some]

/-- Strings, and a text behind them. -/
theorem DumpFdtLoop.kprintf_strs {l : DumpFdtLoop} {format : Addr} {fmt : CString}
    {text : List Byte} (htext : ∀ c ∈ text, c ≠ 0#8 ∧ c ≠ 0x25#8) (strs : List (Addr × CString))
    (hfmt : LiteralAt l.mem format fmt)
    (hbytes : fmt.bytes = strs.flatMap (fun _ ↦ strDirective) ++ text)
    (hstrs : ∀ x ∈ strs, LiteralAt l.mem x.1 x.2) (buf : Addr) :
    l.kprintf format buf (strs.map Prod.fst) =
      some { l with sent := l.sent ++ (strs.flatMap (fun x ↦ x.2.bytes) ++ text) } := by
  set cs := strs.map (fun x ↦ Piece.str x.1 x.2) ++ charsOf text htext with hcs
  have hformat : formatOf cs = fmt.bytes := by
    rw [hcs, formatOf_append, formatOf_charsOf, hbytes, formatOf, List.flatMap_map]
    rfl
  have hargs : argsOf cs = strs.map Prod.fst := by
    rw [hcs, argsOf_append, argsOf_charsOf, List.append_nil, argsOf, List.flatMap_map,
      ← List.flatMap_singleton' (strs.map Prod.fst), List.flatMap_map]
    rfl
  have hout : textOf cs = strs.flatMap (fun x ↦ x.2.bytes) ++ text := by
    rw [hcs, textOf_append, textOf_charsOf, textOf, List.flatMap_map]
    rfl
  have hplain : ∀ c ∈ cs, c.Plain l.mem := by
    intro c hc
    rcases List.mem_append.mp hc with hc | hc
    · obtain ⟨x, hx, rfl⟩ := List.mem_map.mp hc
      exact hstrs x hx
    · obtain ⟨b, -, rfl⟩ := List.mem_map.mp hc
      trivial
  rw [kprintf_eq hfmt hformat hplain buf hargs, hout]

/-- What a token needs to be printed: the strings it names stand in memory, outside of `F`. -/
def Token.Printable (F : Addr → Prop) (m : Memory) (fdtBase : Addr) (names : Word → CString)
    (a : ℕ) : Token → Prop
  | beginNode name => LiteralApart F m (nodeData (ptr a)) name
  | prop nameOffset _ =>
    LiteralApart F m (ptr (nameStart m fdtBase nameOffset)) (names nameOffset)
  | _ => True

/-- The array `tabs` has its place in memory, and the formats stand outside of it. -/
structure DumpRoom (lits : DumpLiterals) (tabs : Addr) (m : Memory) : Prop where
  formats : DumpFormats (InRange tabs 256) m lits
  pos : 0 < tabs.toNat
  fits : tabs.toNat + 256 ≤ 2 ^ 32

variable {lits : DumpLiterals} {buf fdtBase : Addr} {a : ℕ} {sent : List Byte}

section Tags

variable (hroom : DumpRoom lits tabs m) (hdp : d ≤ p) (hp : p < 256)
include hroom hdp hp

theorem DumpRoom.strlen_tabs : strlen (tabsMemory tabs m (d, p)) tabs = some (ptr d) := by
  have hfits := hroom.fits
  have htabs : LiteralAt (tabsMemory tabs m (d, p)) tabs (tabsString d) :=
    literalAt_tabs hroom.pos (by omega) hdp
  have hlen := strlen_eq htabs.at htabs.pos htabs.fits
  rw [ptr_toNat] at hlen
  rw [hlen]
  exact congrArg (fun n ↦ some (ptr n)) List.length_replicate

theorem DumpRoom.dumpFdtTag_beginNode {name : CString}
    (hat : (Token.beginNode name).At (tabsMemory tabs m (d, p)) a)
    (hprint : (Token.beginNode name).Printable (InRange tabs 256) m fdtBase names a) :
    dumpFdtTag lits tabs buf fdtBase ⟨ptr a, tabsMemory tabs m (d, p), sent⟩ =
      if d + 1 < 256 then
        some ⟨ptr a, tabsMemory tabs m (d + 1, max p (d + 1)),
          sent ++ (Token.beginNode name).text names d⟩
      else none := by
  have hfits := hroom.fits
  have hm : EqOutside (InRange tabs 256) m (tabsMemory tabs m (d, p)) :=
    eqOutside_tabsMemory hdp hp
  have htabs : LiteralAt (tabsMemory tabs m (d, p)) tabs (tabsString d) :=
    literalAt_tabs hroom.pos (by omega) hdp
  have hname := LiteralApart.of_eqOutside hprint hm
  have hnamelen := strlen_eq hname.at hname.pos hname.fits
  rw [ptr_toNat] at hnamelen
  have htag : (Token.beginNode name).tag = fdtBeginNode := rfl
  have hlt : name.bytes.length < 2 ^ 32 := by have := hname.fits; omega
  rw [dumpFdtTag]
  dsimp only
  rw [hat.1, if_pos htag, hroom.strlen_tabs hdp hp, Option.bind_some, hnamelen, Option.bind_some,
    Token.text]
  by_cases hempty : name.bytes = []
  · have hzero : ¬(BitVec.ofNat 32 name.bytes.length > 0#32) := by
      rw [hempty]
      decide
    have hline := DumpFdtLoop.kprintf_strs (l := ⟨ptr a, tabsMemory tabs m (d, p), sent⟩)
      rootText_ordinary [] (hroom.formats.rootNode.of_eqOutside hm) rfl (by simp) buf
    rw [if_neg hzero, if_pos hempty, ← List.map_nil (f := Prod.fst), hline, Option.bind_some,
      tabsMemory_begin (by omega) hdp]
    split_ifs <;> rfl
  · have hlong : BitVec.ofNat 32 name.bytes.length > 0#32 := by
      rw [gt_iff_lt, BitVec.lt_def, toNat_ptr hlt]
      exact List.length_pos_iff.mpr hempty
    have hline := DumpFdtLoop.kprintf_strs (l := ⟨ptr a, tabsMemory tabs m (d, p), sent⟩)
      openText_ordinary [(tabs, tabsString d), (nodeData (ptr a), name)]
      (hroom.formats.beginNode.of_eqOutside hm) rfl (by simp [htabs, hname]) buf
    simp only [List.map_cons, List.map_nil] at hline
    rw [if_pos hlong, if_neg hempty, hline, Option.bind_some, tabsMemory_begin (by omega) hdp]
    split_ifs <;> simp [tabsString]

theorem DumpRoom.dumpFdtTag_endNode (hat : Token.endNode.At (tabsMemory tabs m (d, p)) a)
    (hd : 0 < d) :
    dumpFdtTag lits tabs buf fdtBase ⟨ptr a, tabsMemory tabs m (d, p), sent⟩ =
      some ⟨ptr a, tabsMemory tabs m (d - 1, p), sent ++ Token.endNode.text names d⟩ := by
  have hfits := hroom.fits
  have hm : EqOutside (InRange tabs 256) m (tabsMemory tabs m (d - 1, p)) :=
    eqOutside_tabsMemory (by omega) hp
  have htabs : LiteralAt (tabsMemory tabs m (d - 1, p)) tabs (tabsString (d - 1)) :=
    literalAt_tabs hroom.pos (by omega) (by omega)
  have hline := DumpFdtLoop.kprintf_strs (l := ⟨ptr a, tabsMemory tabs m (d - 1, p), sent⟩)
    closeText_ordinary [(tabs, tabsString (d - 1))] (hroom.formats.endNode.of_eqOutside hm) rfl
    (by simp [htabs]) buf
  simp only [List.map_cons, List.map_nil] at hline
  have htag : Token.endNode.tag = fdtEndNode := rfl
  rw [dumpFdtTag]
  dsimp only
  rw [hat.1, if_neg (by rw [htag]; decide), if_pos htag, hroom.strlen_tabs hdp hp,
    Option.bind_some, tabsMemory_end hd (by omega) hdp, Option.bind_some, hline]
  simp [Token.text, tabsString]

theorem DumpRoom.dumpFdtTag_prop {nameOffset : Word} {value : List Byte}
    (hat : (Token.prop nameOffset value).At (tabsMemory tabs m (d, p)) a)
    (hprint : (Token.prop nameOffset value).Printable (InRange tabs 256) m fdtBase names a)
    (hstrings : dtStringsOffset (tabsMemory tabs m (d, p)) fdtBase = dtStringsOffset m fdtBase) :
    dumpFdtTag lits tabs buf fdtBase ⟨ptr a, tabsMemory tabs m (d, p), sent⟩ =
      some ⟨ptr a, tabsMemory tabs m (d, p),
        sent ++ (Token.prop nameOffset value).text names d⟩ := by
  have hfits := hroom.fits
  have hm : EqOutside (InRange tabs 256) m (tabsMemory tabs m (d, p)) :=
    eqOutside_tabsMemory hdp hp
  have htabs : LiteralAt (tabsMemory tabs m (d, p)) tabs (tabsString d) :=
    literalAt_tabs hroom.pos (by omega) hdp
  have hstr : fdtGetString (tabsMemory tabs m (d, p)) fdtBase
      (propNameOffset (tabsMemory tabs m (d, p)) (ptr a))
        = ptr (nameStart m fdtBase nameOffset) := by
    rw [fdtGetString_eq, propNameOffset_ptr, hat.2.2.1, nameStart, hstrings, nameStart]
  have hline := DumpFdtLoop.kprintf_strs (l := ⟨ptr a, tabsMemory tabs m (d, p), sent⟩)
    lineText_ordinary
    [(tabs, tabsString d), (ptr (nameStart m fdtBase nameOffset), names nameOffset)]
    (hroom.formats.prop.of_eqOutside hm) rfl
    (by simp [htabs, LiteralApart.of_eqOutside hprint hm]) buf
  simp only [List.map_cons, List.map_nil] at hline
  have htag : (Token.prop nameOffset value).tag = fdtProp := rfl
  rw [dumpFdtTag]
  dsimp only
  rw [hat.1, if_neg (by rw [htag]; decide), if_neg (by rw [htag]; decide), if_pos htag, hstr,
    hline]
  simp [Token.text, tabsString]

/-- **A tag is printed as its token says**, and `tabs` follows the depth as long as it has room. -/
theorem DumpRoom.dumpFdtTag_at {u : Token} (hat : u.At (tabsMemory tabs m (d, p)) a)
    (hprint : u.Printable (InRange tabs 256) m fdtBase names a)
    (hstrings : dtStringsOffset (tabsMemory tabs m (d, p)) fdtBase = dtStringsOffset m fdtBase)
    (hbalanced : u.Balanced d) :
    dumpFdtTag lits tabs buf fdtBase ⟨ptr a, tabsMemory tabs m (d, p), sent⟩ =
      if (u.level (d, p)).2 < 256 then
        some ⟨ptr a, tabsMemory tabs m (u.level (d, p)), sent ++ u.text names d⟩
      else none := by
  have hother : u.tag ≠ fdtBeginNode → u.tag ≠ fdtEndNode → u.tag ≠ fdtProp →
      dumpFdtTag lits tabs buf fdtBase ⟨ptr a, tabsMemory tabs m (d, p), sent⟩ =
        some ⟨ptr a, tabsMemory tabs m (d, p), sent ++ []⟩ := by
    intro hbegin hend hprop
    rw [List.append_nil, dumpFdtTag]
    dsimp only
    rw [hat.1, if_neg hbegin, if_neg hend, if_neg hprop]
  cases u with
  | beginNode name =>
    have hmax : max p (d + 1) < 256 ↔ d + 1 < 256 := by omega
    rw [hroom.dumpFdtTag_beginNode hdp hp hat hprint, Token.level]
    simp only [hmax]
  | endNode =>
    rw [hroom.dumpFdtTag_endNode hdp hp hat hbalanced]
    exact (if_pos hp).symm
  | prop nameOffset value =>
    rw [hroom.dumpFdtTag_prop hdp hp hat hprint hstrings]
    exact (if_pos hp).symm
  | nop =>
    rw [hother (by decide) (by decide) (by decide)]
    exact (if_pos hp).symm
  | fin =>
    rw [hother (by decide) (by decide) (by decide)]
    exact (if_pos hp).symm

end Tags

/-! ## All tags -/

theorem Token.le_level (u : Token) (dp : ℕ × ℕ) : dp.2 ≤ (u.level dp).2 := by
  cases u with
  | beginNode name => exact le_max_left _ _
  | endNode | prop _ _ | nop | fin => exact le_rfl

theorem le_levelAfter (ts : List Token) (dp : ℕ × ℕ) : dp.2 ≤ (levelAfter ts dp).2 := by
  induction ts generalizing dp with
  | nil => exact le_rfl
  | cons t ts ih => exact (t.le_level dp).trans (ih _)

theorem Token.level_le (u : Token) {dp : ℕ × ℕ} (h : dp.1 ≤ dp.2) :
    (u.level dp).1 ≤ (u.level dp).2 := by
  cases u with
  | beginNode name => exact le_max_right _ _
  | endNode => exact (Nat.sub_le _ _).trans h
  | prop _ _ | nop | fin => exact h

/-- The passes over tokens that are no end of the block: all of them, or those up to the one that
`tabs` has no room for. -/
theorem DumpRoom.run_dumpFdtStep (hroom : DumpRoom lits tabs m)
    (hstrings : ∀ m', EqOutside (InRange tabs 256) m m' →
      dtStringsOffset m' fdtBase = dtStringsOffset m fdtBase)
    (hnames : ∀ k v, .prop k v ∈ ts →
      LiteralApart (InRange tabs 256) m (ptr (nameStart m fdtBase k)) (names k))
    (henc : Encodes m a ts) (hout : ∀ i < tokensSize ts, ¬InRange tabs 256 (ptr (a + i)))
    (ha : a % 4 = 0) (hpos : 0 < a) (hfits : a + tokensSize ts < 2 ^ 32)
    (hend : ∀ t ∈ ts, t.tag ≠ fdtEnd) (hdp : dp.1 ≤ dp.2) (hp : dp.2 < 256)
    (hbalanced : BalancedFrom dp ts) (sent : List Byte) (N : ℕ) :
    Loop.run (dumpFdtStep lits tabs buf fdtBase) (ts.length + N)
        ⟨ptr a, tabsMemory tabs m dp, sent⟩ =
      if (levelAfter ts dp).2 < 256 then
        Loop.run (dumpFdtStep lits tabs buf fdtBase) N
          ⟨ptr (a + tokensSize ts), tabsMemory tabs m (levelAfter ts dp),
            sent ++ tokensText names dp ts⟩
      else some none := by
  induction ts generalizing a dp sent with
  | nil =>
    rw [List.length_nil, Nat.zero_add, tokensText, List.append_nil]
    exact (if_pos hp).symm
  | cons u ts ih =>
    obtain ⟨hat, hrest⟩ := henc
    obtain ⟨hu, hbal⟩ := hbalanced
    rw [List.forall_mem_cons] at hend
    rw [tokensSize] at hfits hout
    have hsize := u.four_le_size
    have hmod := u.size_mod
    have hm : ∀ dq : ℕ × ℕ, dq.1 ≤ dq.2 → dq.2 < 256 →
        EqOutside (InRange tabs 256) m (tabsMemory tabs m dq) :=
      fun dq h h' ↦ eqOutside_tabsMemory h h'
    have hat' : ∀ dq : ℕ × ℕ, dq.1 ≤ dq.2 → dq.2 < 256 → u.At (tabsMemory tabs m dq) a :=
      fun dq h h' ↦ hat.of_eqOutside (hm dq h h') fun i hi ↦ hout i (by omega)
    have hprint : u.Printable (InRange tabs 256) m fdtBase names a := by
      cases u with
      | beginNode name =>
        rw [Token.size] at hsize hfits hout
        have hdata : (ptr (a + 4)).toNat = a + 4 := toNat_ptr (by omega)
        rw [Token.Printable, nodeData_ptr]
        refine ⟨⟨by rw [hdata]; exact hat.2, by omega, by omega⟩, ?_⟩
        intro i hi
        rw [hdata, Nat.add_assoc]
        exact hout (4 + i) (by omega)
      | prop k v => exact hnames k v List.mem_cons_self
      | endNode | nop | fin => trivial
    have htag : dumpFdtTag lits tabs buf fdtBase ⟨ptr a, tabsMemory tabs m dp, sent⟩ =
        if (u.level dp).2 < 256 then
          some ⟨ptr a, tabsMemory tabs m (u.level dp), sent ++ u.text names dp.1⟩
        else none :=
      hroom.dumpFdtTag_at hdp hp (hat' _ hdp hp) hprint (hstrings _ (hm _ hdp hp)) hu
    have hafter : levelAfter (u :: ts) dp = levelAfter ts (u.level dp) := rfl
    rw [hafter]
    by_cases hroomy : (u.level dp).2 < 256
    · rw [if_pos hroomy] at htag
      have hnext := fdtGetNextTag_at (hat' _ (u.level_le hdp) hroomy) hend.1 ha hpos (by omega)
      have hstep : dumpFdtStep lits tabs buf fdtBase ⟨ptr a, tabsMemory tabs m dp, sent⟩ =
          .inl ⟨ptr (a + u.size), tabsMemory tabs m (u.level dp), sent ++ u.text names dp.1⟩ := by
        rw [dumpFdtStep, if_pos (ptr_ne_zero hpos (by omega)), htag, Option.bind_some, hnext,
          Option.map_some]
      have hnames' : ∀ k v, .prop k v ∈ ts →
          LiteralApart (InRange tabs 256) m (ptr (nameStart m fdtBase k)) (names k) :=
        fun k v h ↦ hnames k v (List.mem_cons_of_mem _ h)
      have hout' : ∀ i < tokensSize ts, ¬InRange tabs 256 (ptr (a + u.size + i)) := by
        intro i hi
        rw [Nat.add_assoc]
        exact hout (u.size + i) (by omega)
      rw [List.length_cons, Nat.add_right_comm, Loop.run_succ hstep,
        ih hnames' hrest hout' (by omega) (by omega) (by omega) hend.2 (u.level_le hdp) hroomy hbal,
        tokensSize, tokensText, ← Nat.add_assoc, List.append_assoc]
    · -- the write past the end is the last thing that happens
      rw [if_neg hroomy] at htag
      have hstep : dumpFdtStep lits tabs buf fdtBase ⟨ptr a, tabsMemory tabs m dp, sent⟩ =
          .inr none := by
        rw [dumpFdtStep, if_pos (ptr_ne_zero hpos (by omega)), htag, Option.bind_none]
      have hlast : ¬(levelAfter ts (u.level dp)).2 < 256 :=
        fun h ↦ hroomy ((le_levelAfter ts _).trans_lt h)
      rw [if_neg hlast, Loop.run_of_exit hstep]

/-! ## The tree -/

theorem prop_mem_propsTokens {props : List DtProp} {k : Word} {v : List Byte}
    (h : .prop k v ∈ propsTokens props) : ∃ q ∈ props, q.nameOffset = k := by
  obtain ⟨q, hq, ht⟩ := List.mem_flatMap.mp h
  rcases List.mem_cons.mp ht with heq | ht
  · exact ⟨q, hq, (Token.prop.inj heq).1.symm⟩
  · exact absurd (List.eq_of_mem_replicate ht) (by simp)

mutual

theorem DtNode.prop_mem_tokens : ∀ (n : DtNode) {k : Word} {v : List Byte},
    .prop k v ∈ n.tokens → ∃ n' ∈ n.preorder, ∃ q ∈ n'.props, q.nameOffset = k
  | .mk name i props children e, k, v, h => by
    rw [DtNode.preorder]
    simp only [DtNode.tokens, headTokens, List.mem_append, List.mem_cons, reduceCtorEq,
      false_or] at h
    rcases h with (h | h) | h | h
    · exact absurd (List.eq_of_mem_replicate h) (by simp)
    · obtain ⟨q, hq, hk⟩ := prop_mem_propsTokens h
      exact ⟨_, List.mem_cons_self, q, hq, hk⟩
    · obtain ⟨n', hn', hq⟩ := prop_mem_forestTokens children h
      exact ⟨n', List.mem_cons_of_mem _ hn', hq⟩
    · exact absurd (List.eq_of_mem_replicate h) (by simp)

theorem prop_mem_forestTokens : ∀ (ns : List DtNode) {k : Word} {v : List Byte},
    .prop k v ∈ forestTokens ns → ∃ n' ∈ forestPreorder ns, ∃ q ∈ n'.props, q.nameOffset = k
  | [], k, v, h => by simp [forestTokens] at h
  | n :: ns, k, v, h => by
    rw [forestTokens, List.mem_append] at h
    rw [forestPreorder]
    rcases h with h | h
    · obtain ⟨n', hn', hq⟩ := n.prop_mem_tokens h
      exact ⟨n', List.mem_append_left _ hn', hq⟩
    · obtain ⟨n', hn', hq⟩ := prop_mem_forestTokens ns h
      exact ⟨n', List.mem_append_right _ hn', hq⟩

end

/-- What `dump_fdt` relies on: a tree with its names, the formats, and `tabs` empty and apart from
all of them. -/
structure DumpInputs (lits : DumpLiterals) (tabs fdtBase : Addr) (root : DtNode)
    (names : Word → CString) (m : Memory) : Prop where
  tree : FlatTree m fdtBase root
  named : Named m fdtBase root names
  room : DumpRoom lits tabs m
  apart : TreeApart (InRange tabs 256) m fdtBase root names
  empty : m tabs = 0#8

variable {root : DtNode}

theorem tabsMemory_zero (h : m tabs = 0#8) : tabsMemory tabs m (0, 0) = m := by
  funext x
  rw [tabsMemory, if_neg (Nat.not_lt_zero _)]
  split_ifs with hx
  · have hzero : x = tabs + ptr 0 := (eq_add_ptr_iff (by decide)).mpr (Nat.le_zero.mp hx)
    rw [hzero, add_ptr_zero, h]
  · rfl

theorem tabsMemory_end_eq {k : ℕ} (hk : k + 1 < 2 ^ 32) :
    tabsMemory tabs m (0, k) = memset tabs 0#8 (ptr (k + 1)) m := by
  funext x
  rw [memset_apply, toNat_ptr hk, tabsMemory, if_neg (Nat.not_lt_zero _)]
  simp only [InRange, Nat.lt_succ_iff]

theorem DumpRoom.dumpFdtStep_fin (hroom : DumpRoom lits tabs m)
    (hstrings : ∀ m', EqOutside (InRange tabs 256) m m' →
      dtStringsOffset m' fdtBase = dtStringsOffset m fdtBase)
    (hat : Token.fin.At m a) (hout : ∀ i < 4, ¬InRange tabs 256 (ptr (a + i)))
    (hpos : 0 < a) (hfits : a < 2 ^ 32) (hdp : d ≤ p) (hp : p < 256) (sent : List Byte) :
    dumpFdtStep lits tabs buf fdtBase ⟨ptr a, tabsMemory tabs m (d, p), sent⟩ =
      .inl ⟨0#32, tabsMemory tabs m (d, p), sent⟩ := by
  have hm : EqOutside (InRange tabs 256) m (tabsMemory tabs m (d, p)) :=
    eqOutside_tabsMemory hdp hp
  have hat' : Token.fin.At (tabsMemory tabs m (d, p)) a := hat.of_eqOutside hm hout
  have htag : dumpFdtTag lits tabs buf fdtBase ⟨ptr a, tabsMemory tabs m (d, p), sent⟩ =
      some ⟨ptr a, tabsMemory tabs m (Token.fin.level (d, p)),
        sent ++ Token.fin.text (fun _ ↦ .empty) d⟩ :=
    (hroom.dumpFdtTag_at hdp hp hat' trivial (hstrings _ hm) trivial).trans (if_pos hp)
  have hnext : fdtGetNextTag (tabsMemory tabs m (d, p)) (ptr a) = some 0#32 := by
    refine if_neg fun h ↦ h.2 ?_
    rw [hat'.1]
    rfl
  have htext : sent ++ Token.fin.text (fun _ ↦ .empty) d = sent := List.append_nil sent
  have hlevel : Token.fin.level (d, p) = (d, p) := rfl
  rw [dumpFdtStep, if_pos (ptr_ne_zero hpos hfits), htag, Option.bind_some, hlevel, hnext,
    Option.map_some, htext]

theorem DumpInputs.run_dumpFdtStep (h : DumpInputs lits tabs fdtBase root names m) (buf : Addr) :
    Loop.run (dumpFdtStep lits tabs buf fdtBase) (2 ^ 32) ⟨ptr (structStart m fdtBase), m, []⟩ =
      some (if root.height < 256 then
        some ⟨0#32, tabsMemory tabs m (0, root.height), root.text names 0⟩ else none) := by
  have hfits := h.tree.fits
  have hblock := h.apart.block
  obtain ⟨henc, hfin, -⟩ := encodes_append.mp h.tree.tokens
  have hfinSize : tokensSize [Token.fin] = 4 := rfl
  have hmod := tokensSize_mod root.tokens
  have haligned := h.tree.aligned
  have hpos := h.tree.pos
  rw [tokensSize_append, hfinSize] at hfits hblock
  have hstrings : ∀ m', EqOutside (InRange tabs 256) m m' →
      dtStringsOffset m' fdtBase = dtStringsOffset m fdtBase :=
    fun m' hm ↦ h.apart.dtStringsOffset_eq hm
  have hnames : ∀ k v, .prop k v ∈ root.tokens →
      LiteralApart (InRange tabs 256) m (ptr (nameStart m fdtBase k)) (names k) := by
    intro k v hkv
    obtain ⟨n, hn, q, hq, rfl⟩ := root.prop_mem_tokens hkv
    have hoffset := h.named.offset
    have hnamefits := h.named.fits n hn q hq
    have hstart : 0 < nameStart m fdtBase q.nameOffset := by
      have hheader : 40 ≤ (dtStringsOffset m fdtBase).toNat := hoffset
      rw [nameStart]
      omega
    have hnat : (ptr (nameStart m fdtBase q.nameOffset)).toNat = nameStart m fdtBase q.nameOffset :=
      toNat_ptr (by omega)
    refine ⟨⟨?_, by omega, by omega⟩, ?_⟩
    · rw [hnat]
      exact h.named.name n hn q hq
    · rw [hnat]
      exact h.apart.strings n hn q hq
  have hprints := root.prints names 0
  have hlevel : levelAfter root.tokens (0, 0) = (0, root.height) := by
    rw [hprints.level 0 le_rfl, Nat.zero_add, Nat.zero_max]
  -- the tree, the end of the block, and the exit
  have htree : Loop.run (dumpFdtStep lits tabs buf fdtBase) (root.tokens.length + 1)
      ⟨ptr (structStart m fdtBase), tabsMemory tabs m (0, 0), []⟩ = _ :=
    h.room.run_dumpFdtStep hstrings hnames henc (fun i hi ↦ hblock i (by omega)) haligned hpos
      (by omega) (fun t ht ↦ root.tag_of_mem_tokens ht) le_rfl (by decide)
      (hprints.balanced 0 le_rfl) [] 1
  have hlen := length_le_tokensSize root.tokens
  rw [hlevel, hprints.text 0 le_rfl, tabsMemory_zero h.empty, List.nil_append] at htree
  by_cases hheight : root.height < 256
  swap
  · rw [if_neg hheight] at htree ⊢
    exact Loop.run_mono (by omega) htree
  rw [if_pos hheight] at htree ⊢
  have hlast : dumpFdtStep lits tabs buf fdtBase ⟨ptr (structStart m fdtBase +
      tokensSize root.tokens), tabsMemory tabs m (0, root.height), root.text names 0⟩ = _ :=
    h.room.dumpFdtStep_fin hstrings hfin
      (fun i hi ↦ by rw [Nat.add_assoc]; exact hblock _ (by omega)) (by omega) (by omega)
      (Nat.zero_le _) hheight (root.text names 0)
  have hexit : dumpFdtStep lits tabs buf fdtBase
      ⟨0#32, tabsMemory tabs m (0, root.height), root.text names 0⟩ =
        .inr (some ⟨0#32, tabsMemory tabs m (0, root.height), root.text names 0⟩) :=
    if_neg (not_not.mpr rfl)
  rw [Loop.run_succ hlast, Loop.run_of_exit hexit] at htree
  exact Loop.run_mono (by omega) htree

/-- The four formats, one after the other. -/
def dumpLiteralBytes : List Byte :=
  beginNodeFormat.bytes ++ 0#8 :: (rootNodeFormat.bytes ++ 0#8 :: (endNodeFormat.bytes ++ 0#8 ::
    (propFormat.bytes ++ [0#8])))

def dumpLiterals : DumpLiterals := ⟨0x2000#32, 0x2008#32, 0x200D#32, 0x2013#32⟩

/-- The tree at `0x1000` and the formats at `0x2000`; `tabs` is at `0x3000`. -/
def dumpMemory : Memory := fun x ↦
  if x < 0x2000#32 then regMemory x else dumpLiteralBytes.getD (x - 0x2000#32).toNat 0#8

theorem dumpInputs_reg : DumpInputs dumpLiterals 0x3000#32 0x1000#32 regRoot regNames dumpMemory :=
  ⟨⟨by decide, by decide, by decide, by decide⟩, ⟨by decide, by decide, by decide⟩,
    ⟨⟨⟨by decide, by decide⟩, ⟨by decide, by decide⟩, ⟨by decide, by decide⟩,
      ⟨by decide, by decide⟩⟩, by decide, by decide⟩,
    ⟨by decide, by decide, by decide⟩, by decide⟩

end Sugarcat
