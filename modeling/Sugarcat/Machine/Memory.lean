import Mathlib.Data.BitVec
import Mathlib.Tactic.Ring

/-!
# A flat byte memory with little-endian words

Memory is a total function from 32-bit addresses to bytes. A word is read from four consecutive
bytes, least significant first, and all address arithmetic is modulo `2 ^ 32`, so the byte after the
last one is the first one.

## Positions

Pointers are compared and subtracted as words, but an argument about a buffer is an argument about
numbers. `ptr n` is the address of position `n`, and the lemmas beside it move between the two
sides; their only side condition is that the position lies below `2 ^ 32`.

## Ranges

`InRange a n x` says that `x` is one of the `n` addresses from `a` on, counted around the top of the
address space. Two ranges are `Apart` when they share no address, and a write is visible exactly in
its own range. For word-aligned addresses this reduces to being different, which is the form the
clients use.

## Frames

`EqOutside F m m'` says that two memories agree outside of the addresses `F`. It composes, and it is
the frame condition of everything that is said about programs over this memory: a word is the same
in both memories when none of its four bytes is in `F` (`readWord_congr`).
-/

namespace ByteMemory

abbrev Byte := BitVec 8
abbrev Word := BitVec 32
abbrev Addr := BitVec 32

/-- The contents of the address space. -/
abbrev Memory := Addr → Byte

/-! ## Positions -/

/-- The pointer to a position. -/
abbrev ptr (x : ℕ) : Addr := BitVec.ofNat 32 x

theorem toNat_ptr {x : ℕ} (hx : x < 2 ^ 32) : (ptr x).toNat = x := by
  rw [BitVec.toNat_ofNat, Nat.mod_eq_of_lt hx]

theorem toInt_ptr {n : ℕ} (hn : n < 2 ^ 31) : (ptr n).toInt = n := by
  have hnat : (ptr n).toNat = n := toNat_ptr (by omega)
  rw [BitVec.toInt_eq_toNat_of_lt (by omega), hnat]

theorem ptr_toNat (a : Addr) : ptr a.toNat = a := by simp [ptr]

theorem ptr_ne_zero {x : ℕ} (hpos : 0 < x) (hx : x < 2 ^ 32) : ptr x ≠ 0#32 := by
  intro h
  have := congrArg BitVec.toNat h
  rw [toNat_ptr hx] at this
  exact hpos.ne' this

theorem ne_zero_of_toNat_pos {a : Addr} (h : 0 < a.toNat) : a ≠ 0#32 := by
  rintro rfl
  exact absurd h (by decide)

theorem ptr_add (x y : ℕ) : ptr x + ptr y = ptr (x + y) := (BitVec.ofNat_add x y).symm

theorem ptr_add_one (x : ℕ) : ptr x + 1#32 = ptr (x + 1) := ptr_add x 1

theorem ptr_ne_ptr {x y : ℕ} (hx : x < 2 ^ 32) (hy : y < 2 ^ 32) (hne : x ≠ y) : ptr x ≠ ptr y :=
  fun h ↦ hne (by rw [← toNat_ptr hx, ← toNat_ptr hy, h])

theorem ptr_sub {x y : ℕ} (h : y ≤ x) : ptr x - ptr y = ptr (x - y) := by
  rw [sub_eq_iff_eq_add, ptr_add, Nat.sub_add_cancel h]

theorem add_ptr_zero (a : Addr) : a + ptr 0 = a := BitVec.add_zero a

theorem toNat_sub_add_one_lt {z a : Addr} (h : z ≠ a) :
    (z - (a + 1#32)).toNat < (z - a).toNat := by
  have hpos : (z - a).toNat ≠ 0 := fun h0 ↦ h (sub_eq_zero.mp (BitVec.eq_of_toNat_eq h0))
  have hlt := (z - a).isLt
  have hnext : z - (a + 1#32) = z - a - 1#32 := by ring
  rw [hnext, BitVec.toNat_sub, BitVec.toNat_ofNat]
  omega

/-! ## Ranges of addresses -/

/-- `x` is one of the `n` addresses from `a` on. -/
def InRange (a : Addr) (n : ℕ) (x : Addr) : Prop := (x - a).toNat < n

instance (a : Addr) (n : ℕ) (x : Addr) : Decidable (InRange a n x) :=
  inferInstanceAs (Decidable (_ < _))

/-- The `n` addresses from `a` on and the `k` addresses from `b` on have none in common. -/
def Apart (a : Addr) (n : ℕ) (b : Addr) (k : ℕ) : Prop := ∀ x, InRange a n x → ¬InRange b k x

theorem Apart.symm {a b : Addr} {n k : ℕ} (h : Apart a n b k) : Apart b k a n :=
  fun x hb ha ↦ h x ha hb

/-- A range that does not reach the top of the address space is an interval of numbers. -/
theorem inRange_iff {a x : Addr} {n : ℕ} (h : a.toNat + n ≤ 2 ^ 32) :
    InRange a n x ↔ a.toNat ≤ x.toNat ∧ x.toNat < a.toNat + n := by
  have ha := a.isLt
  have hx := x.isLt
  rw [InRange, BitVec.toNat_sub]
  constructor
  · intro hlt
    rcases Nat.lt_or_ge x.toNat a.toNat with hxa | hxa
    · rw [Nat.mod_eq_of_lt (by omega)] at hlt
      omega
    · rw [Nat.mod_eq_sub_mod (by omega), Nat.mod_eq_of_lt (by omega)] at hlt
      omega
  · rintro ⟨h1, h2⟩
    rw [Nat.mod_eq_sub_mod (by omega), Nat.mod_eq_of_lt (by omega)]
    omega

theorem apart_of_le {a b : Addr} {n k : ℕ} (h : a.toNat + n ≤ b.toNat)
    (hfit : b.toNat + k ≤ 2 ^ 32) : Apart a n b k := by
  have hb := b.isLt
  intro x hx hx'
  rw [inRange_iff (by omega)] at hx hx'
  omega

theorem inRange_ptr {p i n : ℕ} (hi : i < n) (hfits : p + n ≤ 2 ^ 32) :
    InRange (ptr p) n (ptr (p + i)) := by
  have hp : (ptr p).toNat = p := toNat_ptr (by omega)
  rw [inRange_iff (by omega), hp, toNat_ptr (by omega)]
  omega

theorem inRange_mono {a x : Addr} {n k : ℕ} (hnk : n ≤ k) (h : InRange a n x) : InRange a k x :=
  lt_of_lt_of_le h hnk

theorem inRange_of_inRange_add {a k x : Addr} {n m : ℕ} (hkn : k.toNat + n ≤ m)
    (h : InRange (a + k) n x) : InRange a m x := by
  rw [InRange] at h ⊢
  have hsum : x - a = (x - (a + k)) + k := by ring
  rw [hsum, BitVec.toNat_add]
  exact (Nat.mod_le _ _).trans_lt (by omega)

theorem Apart.mono {a b : Addr} {n k p q : ℕ} {i j : Addr} (h : Apart a n b k)
    (hi : i.toNat + p ≤ n) (hj : j.toNat + q ≤ k) : Apart (a + i) p (b + j) q :=
  fun _ ha hb ↦ h _ (inRange_of_inRange_add hi ha) (inRange_of_inRange_add hj hb)

/-- Different word-aligned addresses name words that share no byte. -/
theorem apart_of_aligned {a b : Addr} (ha : a.toNat % 4 = 0) (hb : b.toNat % 4 = 0) (h : a ≠ b) :
    Apart a 4 b 4 := by
  intro x hxa hxb
  rw [inRange_iff (by omega)] at hxa hxb
  exact h (BitVec.eq_of_toNat_eq (by omega))

/-! ## Bytes and words -/

/-- The word at `a`: the byte at `a` is its least significant one. -/
def readWord (m : Memory) (a : Addr) : Word := m (a + 3) ++ m (a + 2) ++ m (a + 1) ++ m a

def writeByte (m : Memory) (a : Addr) (v : Byte) : Memory := fun x ↦ if x = a then v else m x

def writeWord (m : Memory) (a : Addr) (v : Word) : Memory := fun x ↦
  if InRange a 4 x then v.extractLsb' (8 * (x - a).toNat) 8 else m x

/-- The memories agree outside of `F`. -/
def EqOutside (F : Addr → Prop) (m m' : Memory) : Prop := ∀ x, ¬F x → m' x = m x

theorem EqOutside.refl (F : Addr → Prop) (m : Memory) : EqOutside F m m := fun _ _ ↦ rfl

theorem EqOutside.trans {F : Addr → Prop} {m m' m'' : Memory} (h : EqOutside F m m')
    (h' : EqOutside F m' m'') : EqOutside F m m'' := fun x hx ↦ (h' x hx).trans (h x hx)

theorem EqOutside.mono {F G : Addr → Prop} {m m' : Memory} (h : EqOutside F m m')
    (hFG : ∀ x, F x → G x) : EqOutside G m m' := fun x hx ↦ h x fun hF ↦ hx (hFG x hF)

@[simp] theorem writeByte_self (m : Memory) (a : Addr) (v : Byte) : writeByte m a v a = v :=
  if_pos rfl

theorem writeByte_of_ne {m : Memory} {a x : Addr} (v : Byte) (h : x ≠ a) :
    writeByte m a v x = m x := if_neg h

theorem eqOutside_writeByte {F : Addr → Prop} {a : Addr} (ha : F a) (m : Memory) (v : Byte) :
    EqOutside F m (writeByte m a v) := fun _ hx ↦ writeByte_of_ne v fun h ↦ hx (h.symm ▸ ha)

theorem writeWord_of_not_inRange {m : Memory} {a x : Addr} (v : Word) (h : ¬InRange a 4 x) :
    writeWord m a v x = m x := if_neg h

theorem inRange_add {a : Addr} {n k : ℕ} (hk : k < n) (hn : n ≤ 2 ^ 32) :
    InRange a n (a + BitVec.ofNat 32 k) := by
  rw [InRange, show a + BitVec.ofNat 32 k - a = BitVec.ofNat 32 k by ring, BitVec.toNat_ofNat,
    Nat.mod_eq_of_lt (by omega)]
  exact hk

/-- A word depends on its four bytes only. -/
theorem readWord_congr {m m' : Memory} {a : Addr} (h : ∀ x, InRange a 4 x → m x = m' x) :
    readWord m a = readWord m' a := by
  have h0 : m a = m' a := h a (by simp [InRange])
  have h1 : m (a + 1) = m' (a + 1) := h _ (inRange_add (k := 1) (by omega) (by omega))
  have h2 : m (a + 2) = m' (a + 2) := h _ (inRange_add (k := 2) (by omega) (by omega))
  have h3 : m (a + 3) = m' (a + 3) := h _ (inRange_add (k := 3) (by omega) (by omega))
  rw [readWord, readWord, h0, h1, h2, h3]

theorem readWord_zero (a : Addr) : readWord (fun _ ↦ 0#8) a = 0#32 := by
  rw [readWord]
  rfl

@[simp] theorem readWord_writeWord_self (m : Memory) (a : Addr) (v : Word) :
    readWord (writeWord m a v) a = v := by
  have hbyte : ∀ k < 4, writeWord m a v (a + BitVec.ofNat 32 k) = v.extractLsb' (8 * k) 8 := by
    intro k hk
    rw [writeWord, if_pos (inRange_add hk (by omega)),
      show a + BitVec.ofNat 32 k - a = BitVec.ofNat 32 k by ring, BitVec.toNat_ofNat,
      Nat.mod_eq_of_lt (by omega)]
  have h0 : writeWord m a v a = v.extractLsb' 0 8 := by simpa using hbyte 0 (by omega)
  rw [readWord, h0, show (a + 1 : Addr) = a + BitVec.ofNat 32 1 from rfl, hbyte 1 (by omega),
    show (a + 2 : Addr) = a + BitVec.ofNat 32 2 from rfl, hbyte 2 (by omega),
    show (a + 3 : Addr) = a + BitVec.ofNat 32 3 from rfl, hbyte 3 (by omega)]
  refine BitVec.eq_of_getLsbD_eq fun i hi ↦ ?_
  simp only [BitVec.getLsbD_append, BitVec.getLsbD_extractLsb']
  by_cases h8 : i < 8
  · simp [h8]
  · by_cases h16 : i < 16
    · simp [h8, show i - 8 < 8 by omega, show 8 + (i - 8) = i by omega]
    · by_cases h24 : i < 24
      · simp [h8, show ¬i - 8 < 8 by omega, show i - 8 - 8 < 8 by omega,
          show 16 + (i - 8 - 8) = i by omega]
      · simp [h8, show ¬i - 8 < 8 by omega, show ¬i - 8 - 8 < 8 by omega,
          show i - 8 - 8 - 8 < 8 by omega, show 24 + (i - 8 - 8 - 8) = i by omega]

theorem readWord_writeWord_of_apart {m : Memory} {a b : Addr} (v : Word) (h : Apart a 4 b 4) :
    readWord (writeWord m a v) b = readWord m b :=
  readWord_congr fun _ hx ↦ writeWord_of_not_inRange v (h.symm _ hx)

/-- Writing a word leaves every other aligned word alone. -/
theorem readWord_writeWord_of_ne {m : Memory} {a b : Addr} (v : Word) (ha : a.toNat % 4 = 0)
    (hb : b.toNat % 4 = 0) (h : a ≠ b) : readWord (writeWord m a v) b = readWord m b :=
  readWord_writeWord_of_apart v (apart_of_aligned ha hb h)

end ByteMemory
