import Sugarcat.Heap.Tiling

/-!
# Printing the heap

`dump_entries` of `test.c`: the nodes of the list with their sizes, and the totals. On a heap that
is a tiling the text is that of the blocks, and the first total is the page.

## The text

Addresses and sizes are printed by the C library, `%x` in lower case and `%i` signed. A line has an
entry for each node, the first one marked as the head, and an arrow to the next one if there is one.
The totals are sums of words, and the first one adds a header for each node.

## The loop

The loop keeps a counter and two sums besides the node, and the text so far. Its invariant is about
the blocks that it has passed: the text is theirs, and the sums are those of their sizes. That the
sums do not overflow, and are printed as numbers that are not negative, is because the blocks fit a
page.

What is printed of a heap that is not a tiling is not said, and need not be: in every run the heap
is one (`dumpEntries_of_reaches`).
-/

namespace Sugarcat.Heap

open ByteMemory

/-! ## The code -/

/-- `%x`. -/
def hexText (x : Word) : String := String.ofList (Nat.toDigits 16 x.toNat)

/-- `%i`. -/
def intText (x : Word) : String := toString x.toInt

/-- The variables of `dump_entries`, with what has been printed. -/
structure DumpLoop where
  node : Addr
  total : Word
  totalFree : Word
  i : Word
  out : String

/-- The line on one node. -/
def entryText (isHead allocated : Bool) (node size : Word) (isLast : Bool) : String :=
  "[" ++ (if isHead then "H:" else "N:") ++ (if allocated then "A:" else "F:") ++ "0x" ++
    hexText node ++ ":" ++ intText size ++ "]" ++ (if isLast then "" else "->")

/-- The line with the totals. -/
def totalsText (total totalFree i : Word) : String :=
  "[TOTAL: " ++ intText (total + i * mmEntrySz) ++ "],[TOTAL_FREE: " ++ intText totalFree ++
    "] [TOTAL NODES: " ++ intText i ++ ", capacity: " ++ intText (i * mmEntrySz) ++ "]\n" ++ "\n"

def dumpEntriesStep (h : State) (l : DumpLoop) : DumpLoop ⊕ String :=
  if l.node ≠ null then
    let allocated := getField .status h.mem l.node == statusAllocated
    let size := getField .size h.mem l.node
    let next := getField .next h.mem l.node
    .inl ⟨next, l.total + size, if allocated then l.totalFree else l.totalFree + size, l.i + 1#32,
      l.out ++ entryText (l.node == h.head) allocated l.node size (next == null)⟩
  else .inr (l.out ++ totalsText l.total l.totalFree l.i)

/-- What is printed; `none` when the list has no end. -/
def dumpEntries (h : State) : Option String :=
  Loop.run (dumpEntriesStep h) (2 ^ 32) ⟨h.head, 0#32, 0#32, 0#32, ""⟩

/-! ## The text of a tiling -/

/-- The bytes of the payloads, free or in use. -/
def totalSize (bs : List Block) : ℕ := (bs.map Block.size).sum

/-- The bytes of the free payloads. -/
def freeSize (bs : List Block) : ℕ := ((bs.filter Block.free).map Block.size).sum

/-- The blocks from position `x` on, of a list whose first header is at `a`. -/
def blocksText (a : ℕ) : ℕ → List Block → String
  | _, [] => ""
  | x, b :: bs =>
    entryText (x == a) (!b.free) (ptr x) (BitVec.ofNat 32 b.size) bs.isEmpty ++
      blocksText a (x + 16 + b.size) bs

variable {a x n lim : ℕ} {p : Addr} {bs : List Block} {b : Block} {h : State}
  {total totalFree i : Word}
  {out : String}

@[simp] theorem totalSize_cons (b : Block) (bs : List Block) :
    totalSize (b :: bs) = b.size + totalSize bs := rfl

theorem freeSize_cons (b : Block) (bs : List Block) :
    freeSize (b :: bs) = if b.free then b.size + freeSize bs else freeSize bs := by
  rw [freeSize, List.filter_cons]
  split <;> rfl

theorem totalSize_add (bs : List Block) : totalSize bs + 16 * bs.length = span bs := by
  induction bs with
  | nil => rfl
  | cons b bs ih =>
    rw [totalSize_cons, span_cons, List.length_cons, ← ih]
    omega

theorem dumpEntriesStep_header (hb : Header h.mem lim x b p) (hlim : lim < 2 ^ 32)
    (ha : h.head = ptr a) (hax : a ≤ x) (hbs : bs = [] ↔ x + 16 + b.size = lim) :
    dumpEntriesStep h ⟨ptr x, total, totalFree, i, out⟩ =
      .inl ⟨link lim (x + 16 + b.size), total + BitVec.ofNat 32 b.size,
        if b.free then totalFree + BitVec.ofNat 32 b.size else totalFree, i + 1#32,
        out ++ entryText (x == a) (!b.free) (ptr x) (BitVec.ofNat 32 b.size) bs.isEmpty⟩ := by
  have hx := hb.at hlim
  have hle := hb.le
  have hpos := hb.pos
  have hlt := hx.lt
  have hstatus : (getField .status h.mem (ptr x) == statusAllocated) = !b.free := by
    rw [hb.status]
    cases b.free <;> rfl
  have hhead : (ptr x == h.head) = (x == a) := by
    rw [ha, Bool.eq_iff_iff, beq_iff_eq, beq_iff_eq]
    refine ⟨?_, fun heq ↦ by rw [heq]⟩
    intro heq
    have hnat := congrArg BitVec.toNat heq
    rwa [toNat_ptr hlt, toNat_ptr (by omega)] at hnat
  have hlast : (link lim (x + 16 + b.size) == null) = bs.isEmpty := by
    rw [Bool.eq_iff_iff, beq_iff_eq, List.isEmpty_iff, hbs]
    refine ⟨?_, fun heq ↦ by rw [heq, link_self]⟩
    intro heq
    by_contra hne
    rw [link_of_ne hne] at heq
    exact absurd heq (ptr_ne_zero (by omega) (by omega))
  rw [dumpEntriesStep, if_pos (ptr_ne_zero hpos hlt)]
  dsimp only
  rw [hstatus, hhead, hb.next, hb.size, hlast]
  cases b.free <;> rfl

/-- The passes over the blocks still ahead. -/
theorem run_dumpEntriesStep (hseg : Seg h.mem lim p x bs) (hend : x + span bs = lim)
    (hlim : lim < 2 ^ 32) (ha : h.head = ptr a) (hax : a ≤ x) (hn : bs.length ≤ n) :
    Loop.run (dumpEntriesStep h) n ⟨link lim x, total, totalFree, i, out⟩ =
      some (out ++ blocksText a x bs ++ totalsText (total + BitVec.ofNat 32 (totalSize bs))
        (totalFree + BitVec.ofNat 32 (freeSize bs)) (i + BitVec.ofNat 32 bs.length)) := by
  induction bs generalizing n x p total totalFree i out with
  | nil =>
    rw [span_nil, Nat.add_zero] at hend
    rw [hend, link_self, blocksText, String.append_empty]
    have hexit : dumpEntriesStep h ⟨null, total, totalFree, i, out⟩ =
        .inr (out ++ totalsText total totalFree i) := if_neg (not_not.mpr rfl)
    rw [Loop.run_of_exit hexit n]
    simp [totalSize, freeSize]
  | cons b bs ih =>
    rw [List.length_cons] at hn
    obtain ⟨n, rfl⟩ : ∃ k, n = k + 1 := ⟨n - 1, by omega⟩
    obtain ⟨hb, hrest⟩ := hseg
    rw [span_cons] at hend
    have hlast : bs = [] ↔ x + 16 + b.size = lim := by
      rw [← span_eq_zero_iff]
      omega
    have htotal : total + BitVec.ofNat 32 b.size + BitVec.ofNat 32 (totalSize bs) =
        total + BitVec.ofNat 32 (totalSize (b :: bs)) := by
      rw [totalSize_cons, BitVec.ofNat_add, add_assoc]
    have hfree : (if b.free then totalFree + BitVec.ofNat 32 b.size else totalFree) +
        BitVec.ofNat 32 (freeSize bs) = totalFree + BitVec.ofNat 32 (freeSize (b :: bs)) := by
      rw [freeSize_cons]
      split_ifs
      · rw [BitVec.ofNat_add, add_assoc]
      · rfl
    have hcount : i + 1#32 + BitVec.ofNat 32 bs.length = i + BitVec.ofNat 32 (b :: bs).length := by
      rw [List.length_cons, Nat.add_comm, BitVec.ofNat_add, add_assoc]
    rw [link_of_ne (by omega), Loop.run_succ (dumpEntriesStep_header hb hlim ha hax hlast),
      ih hrest (by omega) (by omega) (by omega), htotal, hfree, hcount, blocksText,
      ← String.append_assoc]

/-- What is printed on a heap with these blocks. -/
def dumpText (a : ℕ) (bs : List Block) : String :=
  blocksText a a bs ++
    ("[TOTAL: 4096],[TOTAL_FREE: " ++ toString (freeSize bs) ++ "] [TOTAL NODES: " ++
      toString bs.length ++ ", capacity: " ++ toString (16 * bs.length) ++ "]\n" ++ "\n")

theorem intText_ofNat (hn : n < 2 ^ 31) : intText (BitVec.ofNat 32 n) = toString n := by
  rw [intText, toInt_ptr hn]
  rfl

theorem freeSize_le (bs : List Block) : freeSize bs ≤ totalSize bs := by
  induction bs with
  | nil => rfl
  | cons b bs ih =>
    rw [freeSize_cons, totalSize_cons]
    split_ifs <;> omega

theorem totalsText_page (hspan : span bs = 4096) :
    totalsText (BitVec.ofNat 32 (totalSize bs)) (BitVec.ofNat 32 (freeSize bs))
        (BitVec.ofNat 32 bs.length) =
      "[TOTAL: 4096],[TOTAL_FREE: " ++ toString (freeSize bs) ++ "] [TOTAL NODES: " ++
        toString bs.length ++ ", capacity: " ++ toString (16 * bs.length) ++ "]\n" ++ "\n" := by
  have hsum := totalSize_add bs
  have hle := freeSize_le bs
  have hcap : BitVec.ofNat 32 bs.length * mmEntrySz = BitVec.ofNat 32 (16 * bs.length) := by
    rw [Nat.mul_comm, BitVec.ofNat_mul]
  have htotal : BitVec.ofNat 32 (totalSize bs) + BitVec.ofNat 32 (16 * bs.length) =
      BitVec.ofNat 32 4096 := by
    rw [← BitVec.ofNat_add, hsum, hspan]
  rw [totalsText, hcap, htotal, intText_ofNat (by omega), intText_ofNat (by omega),
    intText_ofNat (by omega), intText_ofNat (by omega)]
  rfl

theorem Represents.dumpEntries_eq {a : Addr} (hr : Represents a h bs) (ha : HeapPage a) :
    dumpEntries h = some (dumpText a.toNat bs) := by
  have hlen := length_le_span bs
  have hfits := ha.fits
  have hspan := hr.span_eq
  have hhead : h.head = ptr a.toNat := by rw [hr.head, ptr_toNat]
  have hlink : link (a.toNat + 4096) a.toNat = h.head := by rw [link_of_ne (by omega), hhead]
  rw [dumpEntries, ← hlink, run_dumpEntriesStep hr.seg (by rw [hspan]) ha.fits hhead le_rfl
    (by omega), BitVec.zero_add, BitVec.zero_add, BitVec.zero_add, totalsText_page hspan,
    String.empty_append, dumpText]

/-- **The dump is the text of a tiling of the page**, in every run: it ends, it shows every block
once and in order, in use exactly where a live pointer leads, and the total is the page. -/
theorem dumpEntries_of_reaches {a : Addr} {w : World} (ha : HeapPage a) {m : Memory}
    (hrun : Run.Reaches Step anyCall (World.start a m) w) :
    ∃ bs, span bs = 4096 ∧ Separated bs ∧
      (w.live.map Prod.fst).Perm ((payloads a.toNat bs).map fun x ↦ ptr x.1) ∧
      dumpEntries w.heap = some (dumpText a.toNat bs) := by
  obtain ⟨bs, hw⟩ := holds_of_reaches ha hrun
  exact ⟨bs, hw.rep.span_eq, hw.separated, hw.live, hw.rep.dumpEntries_eq ha⟩

/-- A request for 100 bytes on a cleared page. -/
theorem dumpEntries_of_reaches_oneBlock : ∃ h bs,
    kmalloc 100#32 (World.start 0x10000#32 fun _ ↦ 0#8).heap = .ret (0x10F80#32, h) ∧
      span bs = 4096 ∧ Separated bs ∧
      [0x10F80#32].Perm ((payloads 0x10000 bs).map fun x ↦ ptr x.1) ∧
      dumpEntries h = some (dumpText 0x10000 bs) := by
  obtain ⟨h, hret⟩ : ∃ h, kmalloc 100#32 (World.start 0x10000#32 fun _ ↦ 0#8).heap =
      .ret (0x10F80#32, h) := ⟨_, rfl⟩
  have hrun : Run.Reaches Step anyCall (World.start 0x10000#32 fun _ ↦ 0#8)
      ⟨h, [(0x10F80#32, 100#32)]⟩ := .tail .refl trivial (.kmalloc hret (by decide))
  obtain ⟨bs, hbs⟩ := dumpEntries_of_reaches heapPage_example hrun
  exact ⟨h, bs, hret, hbs⟩

end Sugarcat.Heap
