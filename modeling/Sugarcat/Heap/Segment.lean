import Sugarcat.Heap.Alloc
import Sugarcat.Heap.Blocks

/-!
# Blocks in memory

How a stretch of blocks lies in memory: `Seg m lim p a bs` says that from position `a` on memory
holds the headers of `bs`, linked both ways, with `p` before the first one; `lim` is where the page
ends, so the header there is `NULL`.

## Changes

Positions are numbers, with the page below the top of the address space. Memory is compared by the
headers in which it changes (`ChangesOnly`), and a segment only depends on its own. So what happens
in other headers does not touch a segment (`Seg.frame`), and a write to one field of a header leaves
the other fields of that header, and every other header, as they were.

## Putting segments together

A segment of two lists of blocks is a segment of the first, up to where it ends, and one of the
second, whose predecessor is the last header of the first (`seg_append`). Operations in the middle
of the list take it apart in this way and put it together again.
-/

namespace Sugarcat.Heap

open ByteMemory

/-- The pointer to the header at a position, which is `NULL` where the page ends. -/
def link (lim x : ℕ) : Addr := if x = lim then null else ptr x

/-- The status word of a block. -/
def statusOf (free : Bool) : Word := if free then statusFree else statusAllocated

theorem link_of_ne {lim x : ℕ} (h : x ≠ lim) : link lim x = ptr x := if_neg h

@[simp] theorem link_self (lim : ℕ) : link lim lim = null := if_pos rfl

theorem statusOf_eq_free {free : Bool} : statusOf free = statusFree ↔ free = true := by
  cases free <;> decide

theorem statusOf_eq_allocated {free : Bool} : statusOf free = statusAllocated ↔ free = false := by
  cases free <;> decide

/-! ## Header words -/

/-- A place for a header. -/
structure Pos (x : ℕ) : Prop where
  aligned : x % 16 = 0
  lt : x < 2 ^ 32

/-- `b` is one of the bytes of the header at `x`. -/
def InHeader (x : ℕ) (b : Addr) : Prop := x ≤ b.toNat ∧ b.toNat < x + 16

/-- Memory changes in the headers `S` only. -/
def ChangesOnly (S : List ℕ) (m m' : Memory) : Prop := ∀ b, (∀ x ∈ S, ¬InHeader x b) → m' b = m b

theorem Field.offset_lt (f : Field) : f.offset.toNat + 4 ≤ 16 := by cases f <;> decide

theorem Field.offset_aligned (f : Field) : f.offset.toNat % 4 = 0 := by cases f <;> decide

theorem Field.offset_injective {f g : Field} (h : f.offset.toNat = g.offset.toNat) : f = g := by
  revert h
  cases f <;> cases g <;> decide

theorem toNat_fieldAddr {x : ℕ} (hx : Pos x) (f : Field) :
    (ptr x + f.offset).toNat = x + f.offset.toNat := by
  have hlt := f.offset_lt
  have hal := hx.aligned
  have := hx.lt
  rw [BitVec.toNat_add, toNat_ptr hx.lt, Nat.mod_eq_of_lt (by omega)]

theorem inHeader_of_inRange {x : ℕ} (hx : Pos x) {f : Field} {b : Addr}
    (hb : InRange (ptr x + f.offset) 4 b) : InHeader x b := by
  have haddr := toNat_fieldAddr hx f
  have hoff := f.offset_lt
  have hal := hx.aligned
  have hlt := hx.lt
  rw [inRange_iff (by omega), haddr] at hb
  rw [InHeader]
  omega

theorem getField_setField_self (f : Field) (m : Memory) (node : Addr) (v : Word) :
    getField f (setField f m node v) node = v := readWord_writeWord_self _ _ _

theorem getField_setField_of_ne {x y : ℕ} (hx : Pos x) (hy : Pos y) {f g : Field}
    (h : x ≠ y ∨ f ≠ g) (m : Memory) (v : Word) :
    getField g (setField f m (ptr x) v) (ptr y) = getField g m (ptr y) := by
  have hxf := toNat_fieldAddr hx f
  have hyg := toNat_fieldAddr hy g
  have hf := f.offset_lt
  have hg := g.offset_lt
  have hxa := hx.aligned
  have hya := hy.aligned
  have hfa := f.offset_aligned
  have hga := g.offset_aligned
  refine readWord_writeWord_of_ne v (by omega) (by omega) fun heq ↦ ?_
  have hsum : x + f.offset.toNat = y + g.offset.toNat := by rw [← hxf, ← hyg, heq]
  obtain rfl : x = y := by omega
  rcases h with h | h
  · exact h rfl
  · exact h (Field.offset_injective (by omega))

theorem getField_setField_apart {x y : ℕ} (hx : Pos x) (hy : Pos y) (h : x ≠ y) {f g : Field}
    (m : Memory) (v : Word) : getField g (setField f m (ptr x) v) (ptr y) = getField g m (ptr y) :=
  getField_setField_of_ne hx hy (Or.inl h) m v

theorem getField_setField_same {x : ℕ} (hx : Pos x) {f g : Field} (h : g ≠ f) (m : Memory)
    (v : Word) : getField g (setField f m (ptr x) v) (ptr x) = getField g m (ptr x) :=
  getField_setField_of_ne hx hx (Or.inr h.symm) m v

theorem getField_congr {x : ℕ} (hx : Pos x) {m m' : Memory} (h : ∀ b, InHeader x b → m' b = m b)
    (f : Field) : getField f m' (ptr x) = getField f m (ptr x) :=
  readWord_congr fun b hb ↦ h b (inHeader_of_inRange hx hb)

theorem ChangesOnly.refl (S : List ℕ) (m : Memory) : ChangesOnly S m m := fun _ _ ↦ rfl

theorem ChangesOnly.trans {S : List ℕ} {m m' m'' : Memory} (h : ChangesOnly S m m')
    (h' : ChangesOnly S m' m'') : ChangesOnly S m m'' :=
  fun b hb ↦ (h' b hb).trans (h b hb)

theorem ChangesOnly.mono {S T : List ℕ} {m m' : Memory} (h : ChangesOnly S m m')
    (hST : ∀ x ∈ S, x ∈ T) : ChangesOnly T m m' :=
  fun b hb ↦ h b fun x hx ↦ hb x (hST x hx)

theorem changesOnly_setField {x : ℕ} (hx : Pos x) (f : Field) (m : Memory) (v : Word) :
    ChangesOnly [x] m (setField f m (ptr x) v) := fun _ hb ↦
  writeWord_of_not_inRange v fun hr ↦ hb x (List.mem_singleton_self x) (inHeader_of_inRange hx hr)

theorem changesOnly_setField_mono {S : List ℕ} {x : ℕ} (hx : Pos x) (hS : x ∈ S) (f : Field)
    (m : Memory) (v : Word) : ChangesOnly S m (setField f m (ptr x) v) :=
  (changesOnly_setField hx f m v).mono fun _ hy ↦ List.mem_singleton.mp hy ▸ hS

theorem ChangesOnly.getField_below {a x : ℕ} {bs : List Block} {m m' : Memory}
    (h : ChangesOnly (headers a bs) m m') (hx : Pos x) (hxa : x + 16 ≤ a) (f : Field) :
    getField f m' (ptr x) = getField f m (ptr x) := by
  refine getField_congr hx (fun b hb ↦ h b fun y hy hyb ↦ ?_) f
  have := mem_headers hy
  rw [InHeader] at hb hyb
  omega

/-! ## Segments -/

/-- The header at `a` is that of `b`, with `next` after it and `prev` before. -/
structure Header (m : Memory) (lim a : ℕ) (b : Block) (prev : Addr) : Prop where
  pos : 0 < a
  aligned : a % 16 = 0
  size_aligned : b.size % 16 = 0
  le : a + 16 + b.size ≤ lim
  status : getField .status m (ptr a) = statusOf b.free
  size : getField .size m (ptr a) = BitVec.ofNat 32 b.size
  next : getField .next m (ptr a) = link lim (a + 16 + b.size)
  prev : getField .prev m (ptr a) = prev

/-- Memory holds the blocks `bs` from position `a` on. -/
def Seg (m : Memory) (lim : ℕ) : Addr → ℕ → List Block → Prop
  | _, _, [] => True
  | p, a, b :: bs => Header m lim a b p ∧ Seg m lim (ptr a) (a + 16 + b.size) bs

/-- The pointer to the last header of a segment, or `p` when it has none. -/
def lastHeader (p : Addr) : ℕ → List Block → Addr
  | _, [] => p
  | a, b :: bs => lastHeader (ptr a) (a + 16 + b.size) bs

variable {m m' : Memory} {lim a x : ℕ} {p q : Addr} {b c : Block} {l r bs : List Block}

theorem seg_append :
    Seg m lim p a (l ++ r) ↔ Seg m lim p a l ∧ Seg m lim (lastHeader p a l) (a + span l) r := by
  -- induction on the blocks before the split; the last header so far is carried in `p`
  induction l generalizing p a with
  | nil => simp [Seg, lastHeader]
  | cons b l ih =>
    rw [List.cons_append, Seg, Seg, ih, lastHeader, span_cons, and_assoc]
    simp only [Nat.add_assoc]

theorem lastHeader_concat (p : Addr) (a : ℕ) (l : List Block) (c : Block) :
    lastHeader p a (l ++ [c]) = ptr (a + span l) := by
  induction l generalizing p a with
  | nil => rfl
  | cons b l ih =>
    rw [List.cons_append, lastHeader, ih, span_cons]
    congr 1
    omega

theorem Header.at (h : Header m lim a b p) (hlim : lim < 2 ^ 32) : Pos a :=
  ⟨h.aligned, by have := h.le; omega⟩

theorem Header.congr (h : Header m lim a b p) (hlim : lim < 2 ^ 32)
    (heq : ∀ c, InHeader a c → m' c = m c) : Header m' lim a b p := by
  have hget := getField_congr (h.at hlim) heq
  exact ⟨h.pos, h.aligned, h.size_aligned, h.le, (hget _).trans h.status, (hget _).trans h.size,
    (hget _).trans h.next, (hget _).trans h.prev⟩

/-- A segment is in its headers. -/
theorem Seg.congr (h : Seg m lim p a bs) (hlim : lim < 2 ^ 32)
    (heq : ∀ x ∈ headers a bs, ∀ c, InHeader x c → m' c = m c) : Seg m' lim p a bs := by
  induction bs generalizing p a with
  | nil => trivial
  | cons b bs ih =>
    refine ⟨h.1.congr hlim (heq a (by simp [headers])), ih h.2 fun x hx ↦ heq x ?_⟩
    simp [headers, hx]

/-- Changes in other headers do not touch a segment. -/
theorem Seg.frame (h : Seg m lim p a bs) (hlim : lim < 2 ^ 32) {S : List ℕ}
    (hm : ChangesOnly S m m') (hS : ∀ x ∈ S, x + 16 ≤ a ∨ a + span bs ≤ x) :
    Seg m' lim p a bs := by
  refine h.congr hlim fun y hy c hc ↦ hm c fun x hx hxc ↦ ?_
  have hy' := mem_headers hy
  have hx' := hS x hx
  rw [InHeader] at hc hxc
  omega

/-- Every block of a segment has its header. -/
theorem Seg.header (h : Seg m lim p a (l ++ b :: r)) :
    Header m lim (a + span l) b (lastHeader p a l) := (seg_append.mp h).2.1

end Sugarcat.Heap
