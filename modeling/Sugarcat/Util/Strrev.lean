import Mathlib.Data.List.GetD
import Sugarcat.Util.Str

/-!
# Turning strings around

`strrev` of `util/str.c`. It turns every string around that has a character and not more than `2 ^
31` of them. The last index of the empty string is -1, and so one pass is made for it, which
exchanges its terminator and the byte in front of it. The last index of a longer string is negative
as well, and no pass is made.

## The passes

The number of passes is computed with a signed division, and `strrevPasses` is what it comes to.
After `k` passes the first `k` characters and the last `k` have changed places (`Swapped`), and at
the middle all of them have. A single character is there before the first pass.

## Accesses

What `strrev` reads and writes is told by the addresses that its two loops come to.
`eqOutside_strrev` and `strrev_congr` say that these are all that it changes and all that it depends
on: the first says that memory is the same elsewhere, and the second that two memories that agree on
them are treated alike. With both, "in place" and "nothing outside of the string" are statements
that can fail, and for the empty string they do.
-/

namespace Sugarcat

open ByteMemory

/-! ## The function -/

/-- Exchange two characters. -/
def swapBytes (m : Memory) (a b : Addr) : Memory :=
  let tmp := m a
  let m := writeByte m a (m b)
  writeByte m b tmp

/-- `len` is an `int`, and the loop goes up to `len / 2`, which for the empty string is `-1 / 2`. -/
def strrev (m : Memory) (str : Addr) : Option Memory :=
  if str ≠ 0#32 then
    (strlen m str).map fun n ↦
      let len := n - 1#32
      if len ≠ 0#32 then
        Loop.upTo (fun i m ↦ swapBytes m (str + ptr i) (str + (len - ptr i)))
          ((len.sdiv 2#32).toInt + 1).toNat m
      else m
  else some m

/-- The number of passes for the last index `len`. -/
def strrevPasses (len : Word) : ℕ :=
  if len ≠ 0#32 then ((len.sdiv 2#32).toInt + 1).toNat else 0

/-- One pass. -/
def strrevPass (str : Addr) (len : Word) (i : ℕ) (m : Memory) : Memory :=
  swapBytes m (str + ptr i) (str + (len - ptr i))

variable {m m₁ m₂ : Memory} {str a x : Addr} {p n k : ℕ}

theorem strrev_eq_upTo (hstr : str ≠ 0#32) (m : Memory) :
    strrev m str = (strlen m str).map fun n ↦
      Loop.upTo (strrevPass str (n - 1#32)) (strrevPasses (n - 1#32)) m := by
  rw [strrev, if_pos hstr]
  congr 1
  funext n
  dsimp only
  rw [strrevPasses]
  split_ifs <;> rfl

/-! ## How many passes are made -/

theorem toInt_sdiv_two {n : ℕ} (hn : n < 2 ^ 31) : ((ptr n).sdiv 2#32).toInt = (n / 2 : ℕ) := by
  rw [BitVec.toInt_sdiv_of_ne_or_ne _ _ (Or.inr (by decide)), toInt_ptr hn]
  rfl

theorem strrevPasses_of_lt (hn : n < 2 ^ 31) :
    strrevPasses (ptr n) = if n = 0 then 0 else n / 2 + 1 := by
  rw [strrevPasses]
  by_cases hzero : n = 0
  · subst hzero
    rfl
  · rw [if_pos (ptr_ne_zero (by omega) (by omega)), if_neg hzero, toInt_sdiv_two hn]
    omega

/-- A negative last index, other than -1, is behind the end of the loop. -/
theorem strrevPasses_of_ge (hn : 2 ^ 31 ≤ n) (hfits : n + 1 < 2 ^ 32) :
    strrevPasses (ptr n) = 0 := by
  have hnat : (ptr n).toNat = n := toNat_ptr (by omega)
  have hint : (ptr n).toInt = n - 2 ^ 32 := by
    rw [BitVec.toInt_eq_toNat_cond, if_neg (by omega), hnat]
    rfl
  rw [strrevPasses, if_pos (ptr_ne_zero (by omega) (by omega)),
    BitVec.toInt_sdiv_of_ne_or_ne _ _ (Or.inr (by decide)), hint]
  have hdiv : ((n : ℤ) - 2 ^ 32).tdiv 2 ≤ -1 := by
    rw [← neg_sub, Int.neg_tdiv, Int.tdiv_eq_ediv_of_nonneg (by omega)]
    omega
  change ((((n : ℤ) - 2 ^ 32).tdiv 2) + 1).toNat = 0
  omega

theorem strrevPasses_empty : strrevPasses (0#32 - 1#32) = 1 := by decide

theorem ptr_succ_sub_one (n : ℕ) : ptr (n + 1) - 1#32 = ptr n := by
  rw [← ptr_add_one, BitVec.add_sub_cancel]

/-! ## What they do -/

section

variable {s : List Byte}

/-- The characters after `k` passes, of a string of `n + 1`: the first `k` and the last `k` have
changed places. -/
def Swapped (s : List Byte) (n k : ℕ) (m : Memory) (p : ℕ) : Prop :=
  ∀ i, (hi : i < s.length) →
    m (ptr (p + i)) = if i < k ∨ n < i + k then s.getD (n - i) 0#8 else s[i]

theorem swapped_succ (h : Swapped s n k m p) (hlen : s.length = n + 1) (hk : k ≤ n / 2)
    (hfits : p + s.length ≤ 2 ^ 32) :
    Swapped s n (k + 1) (swapBytes m (ptr (p + k)) (ptr (p + (n - k)))) p := by
  have hfirst := h k (by omega)
  have hlast := h (n - k) (by omega)
  rw [if_neg (by omega)] at hfirst hlast
  intro i hi
  rw [swapBytes]
  by_cases hil : i = n - k
  · subst hil
    rw [writeByte_self, hfirst, if_pos (Or.inr (by omega)), show n - (n - k) = k by omega,
      List.getD_eq_getElem _ _ (by omega)]
  rw [writeByte_of_ne _ (ptr_ne_ptr (by omega) (by omega) (by omega))]
  by_cases hif : i = k
  · subst hif
    rw [writeByte_self, hlast, if_pos (Or.inl (by omega)), List.getD_eq_getElem _ _ (by omega)]
  · rw [writeByte_of_ne _ (ptr_ne_ptr (by omega) (by omega) (by omega)), h i hi]
    have hiff : i < k + 1 ∨ n < i + (k + 1) ↔ i < k ∨ n < i + k := by omega
    simp only [hiff]

theorem strrevPass_eq (hk : k ≤ n) (m : Memory) :
    strrevPass (ptr p) (ptr n) k m = swapBytes m (ptr (p + k)) (ptr (p + (n - k))) := by
  rw [strrevPass, ptr_sub hk, ptr_add, ptr_add]

/-- After each pass one more character at either end has changed places. -/
theorem swapped_upTo (h : BytesAt m p s) (hlen : s.length = n + 1) (hfits : p + s.length ≤ 2 ^ 32)
    (hk : k ≤ n / 2 + 1) : Swapped s n k (Loop.upTo (strrevPass (ptr p) (ptr n)) k m) p := by
  induction k with
  | zero =>
    intro i hi
    rw [if_neg (by omega)]
    exact h i hi
  | succ k ih =>
    rw [Loop.upTo_succ, strrevPass_eq (by omega)]
    exact swapped_succ (ih (by omega)) hlen (by omega) hfits

theorem eqOutside_upTo (hfits : p + (n + 1) ≤ 2 ^ 32) (hk : k ≤ n + 1) (m : Memory) :
    EqOutside (InRange (ptr p) (n + 1)) m (Loop.upTo (strrevPass (ptr p) (ptr n)) k m) := by
  induction k with
  | zero => exact EqOutside.refl _ _
  | succ k ih =>
    rw [Loop.upTo_succ, strrevPass_eq (by omega), swapBytes]
    exact ((ih (by omega)).trans
      (eqOutside_writeByte (inRange_ptr (by omega) hfits) _ _)).trans
        (eqOutside_writeByte (inRange_ptr (by omega) hfits) _ _)

theorem Swapped.bytesAt_reverse (h : Swapped s n k m p) (hlen : s.length = n + 1)
    (hk : k = n / 2 + 1 ∨ n = 0) : BytesAt m p s.reverse := by
  intro i hi
  have hi' : i < s.length := by
    rw [← List.length_reverse]
    exact hi
  rw [h i hi', List.getElem_reverse hi]
  split_ifs
  · rw [List.getD_eq_getElem _ _ (by omega)]
    congr 1
    omega
  · congr 1
    omega

end

/-! ## The string from its end on -/

variable {s : CString}

/-- The string from its end on. -/
def CString.reverse (s : CString) : CString :=
  ⟨s.bytes.reverse, fun h ↦ s.nonzero (List.mem_reverse.mp h)⟩

theorem CString.at_of_eqOutside {m' : Memory} {t : CString} (h : s.At m p)
    (hfits : p + s.bytes.length < 2 ^ 32) (hlen : t.bytes.length = s.bytes.length)
    (hbytes : BytesAt m' p t.bytes) (hm : EqOutside (InRange (ptr p) s.bytes.length) m m') :
    t.At m' p := by
  refine ⟨hbytes, ?_⟩
  rw [hlen, hm _ fun hin ↦ ?_]
  · exact h.2
  · have hp : (ptr p).toNat = p := toNat_ptr (by omega)
    rw [inRange_iff (by omega), hp, toNat_ptr hfits] at hin
    omega

/-- **`strrev` turns a string around.** -/
theorem strrev_eq (h : s.At m p) (hne : s.bytes ≠ []) (hp : 0 < p)
    (hlen : s.bytes.length ≤ 2 ^ 31) (hfits : p + s.bytes.length < 2 ^ 32) :
    ∃ m', strrev m (ptr p) = some m' ∧ s.reverse.At m' p ∧
      EqOutside (InRange (ptr p) s.bytes.length) m m' := by
  obtain ⟨n, hn⟩ : ∃ n, s.bytes.length = n + 1 :=
    Nat.exists_eq_succ_of_ne_zero (List.length_eq_zero_iff.not.mpr hne)
  have hpasses : strrevPasses (ptr s.bytes.length - 1#32) = if n = 0 then 0 else n / 2 + 1 := by
    rw [hn, ptr_succ_sub_one, strrevPasses_of_lt (by omega)]
  have hlast : ptr s.bytes.length - 1#32 = ptr n := by rw [hn, ptr_succ_sub_one]
  have hle : (if n = 0 then 0 else n / 2 + 1) ≤ n / 2 + 1 := by split_ifs <;> omega
  have hend : (if n = 0 then 0 else n / 2 + 1) = n / 2 + 1 ∨ n = 0 := by
    split_ifs with hzero
    · exact Or.inr hzero
    · exact Or.inl rfl
  have houtside := eqOutside_upTo (p := p) (n := n) (by omega) (hle.trans (by omega)) m
  have hswapped := swapped_upTo h.1 hn hfits.le hle
  rw [← hn] at houtside
  rw [strrev_eq_upTo (ptr_ne_zero hp (by omega)), strlen_eq h hp hfits, Option.map_some, hpasses,
    hlast]
  exact ⟨_, rfl, CString.at_of_eqOutside h hfits List.length_reverse
    (hswapped.bytesAt_reverse hn hend) houtside, houtside⟩

/-! ## What is accessed -/

/-- `strrev` reads or writes `x`: `strlen` comes to it, or it is exchanged. -/
def StrrevAccesses (m : Memory) (str x : Addr) : Prop :=
  str ≠ 0#32 ∧
    ((∃ l, Loop.Visits (strlenStep m) ⟨str, 0#32⟩ l ∧ x = l.str) ∨
      ∃ n i, strlen m str = some n ∧ i < strrevPasses (n - 1#32) ∧
        (x = str + ptr i ∨ x = str + (n - 1#32 - ptr i)))

/-- Nothing else is changed. -/
theorem eqOutside_strrev (h : strrev m str = some m₁) :
    EqOutside (StrrevAccesses m str) m m₁ := by
  by_cases hstr : str = 0#32
  · rw [strrev, if_neg (not_not.mpr hstr)] at h
    obtain rfl := Option.some_inj.mp h
    exact EqOutside.refl _ _
  rw [strrev_eq_upTo hstr, Option.map_eq_some_iff] at h
  obtain ⟨n, hn, rfl⟩ := h
  have hpass : ∀ k ≤ strrevPasses (n - 1#32), EqOutside (StrrevAccesses m str) m
      (Loop.upTo (strrevPass str (n - 1#32)) k m) := by
    intro k hk
    induction k with
    | zero => exact EqOutside.refl _ _
    | succ k ih =>
      have hfirst : StrrevAccesses m str (str + ptr k) :=
        ⟨hstr, Or.inr ⟨n, k, hn, hk, Or.inl rfl⟩⟩
      have hlast : StrrevAccesses m str (str + (n - 1#32 - ptr k)) :=
        ⟨hstr, Or.inr ⟨n, k, hn, hk, Or.inr rfl⟩⟩
      rw [Loop.upTo_succ, strrevPass, swapBytes]
      exact ((ih (by omega)).trans (eqOutside_writeByte hfirst _ _)).trans
        (eqOutside_writeByte hlast _ _)
  exact hpass _ le_rfl

theorem swapBytes_congr {F : Addr → Prop} (h : ∀ x, F x → m₂ x = m₁ x) {a b : Addr} (ha : F a)
    (hb : F b) (x : Addr) (hx : F x) : swapBytes m₂ a b x = swapBytes m₁ a b x := by
  simp only [swapBytes, writeByte]
  split_ifs
  · exact h a ha
  · exact h b hb
  · exact h x hx

/-- Nothing else is looked at. -/
theorem strrev_congr (hm : ∀ x, StrrevAccesses m str x → m₂ x = m x)
    (h : strrev m str = some m₁) :
    ∃ m', strrev m₂ str = some m' ∧ ∀ x, StrrevAccesses m str x → m' x = m₁ x := by
  by_cases hstr : str = 0#32
  · rw [strrev, if_neg (not_not.mpr hstr)]
    exact ⟨m₂, rfl, fun x hx ↦ absurd hstr hx.1⟩
  have hlen : strlen m₂ str = strlen m str := by
    rw [strlen, strlen, if_pos hstr, if_pos hstr]
    refine Loop.run_congr (fun l hl ↦ ?_) _
    rw [strlenStep, strlenStep, hm l.str ⟨hstr, Or.inl ⟨l, hl, rfl⟩⟩]
  rw [strrev_eq_upTo hstr, Option.map_eq_some_iff] at h
  obtain ⟨n, hn, rfl⟩ := h
  refine ⟨_, by rw [strrev_eq_upTo hstr, hlen, hn, Option.map_some], ?_⟩
  have hpass : ∀ k ≤ strrevPasses (n - 1#32), ∀ x, StrrevAccesses m str x →
      Loop.upTo (strrevPass str (n - 1#32)) k m₂ x
        = Loop.upTo (strrevPass str (n - 1#32)) k m x := by
    intro k hk
    induction k with
    | zero => exact hm
    | succ k ih =>
      rw [Loop.upTo_succ, Loop.upTo_succ]
      exact swapBytes_congr (ih (by omega)) ⟨hstr, Or.inr ⟨n, k, hn, hk, Or.inl rfl⟩⟩
        ⟨hstr, Or.inr ⟨n, k, hn, hk, Or.inr rfl⟩⟩
  exact hpass _ le_rfl

theorem exists_of_visits_strlenStep (h : LiteralAt m a s) {l : StrlenLoop}
    (hl : Loop.Visits (strlenStep m) ⟨a, 0#32⟩ l) :
    ∃ k ≤ s.bytes.length, l.str = a + ptr k := by
  induction hl with
  | refl => exact ⟨0, Nat.zero_le _, (add_ptr_zero a).symm⟩
  | @tail l l' _ hstep ih =>
    obtain ⟨k, hk, hstr⟩ := ih
    rw [strlenStep] at hstep
    split_ifs at hstep with hne
    obtain rfl := Sum.inl.inj hstep
    have hend := h.at.2
    rw [← ptr_add, ptr_toNat] at hend
    rcases hk.eq_or_lt with rfl | hlt
    · exact absurd (hstr ▸ hend) hne
    · exact ⟨k + 1, hlt, by rw [hstr, add_assoc, ptr_add_one]⟩

/-! ## What is expected -/

/-- `strrev` turns the string around in place, accesses nothing but the string and its terminator,
and gives the string back when it is called again. -/
structure TurnsAround (m : Memory) (a : Addr) (s : CString) : Prop where
  reversed : ∃ m', strrev m a = some m' ∧ s.reverse.At m' a.toNat
  inside : ∀ x, StrrevAccesses m a x → InRange a (s.bytes.length + 1) x
  twice : ∃ m' m'', strrev m a = some m' ∧ strrev m' a = some m'' ∧ s.At m'' a.toNat

theorem LiteralAt.strlen_eq (h : LiteralAt m a s) : strlen m a = some (ptr s.bytes.length) := by
  have hlen := Sugarcat.strlen_eq h.at h.pos h.fits
  rwa [ptr_toNat] at hlen

theorem strrev_of_long (h : LiteralAt m a s) (hlong : 2 ^ 31 < s.bytes.length) :
    strrev m a = some m := by
  have hpos := h.pos
  have hfits := h.fits
  obtain ⟨n, hn⟩ : ∃ n, s.bytes.length = n + 1 := ⟨s.bytes.length - 1, by omega⟩
  rw [strrev_eq_upTo h.ne_null, h.strlen_eq, Option.map_some, hn, ptr_succ_sub_one,
    strrevPasses_of_ge (by omega) (by omega), Loop.upTo_zero]

theorem accesses_inside (h : LiteralAt m a s) (hne : s.bytes ≠ []) (hx : StrrevAccesses m a x) :
    InRange a (s.bytes.length + 1) x := by
  have hpos := h.pos
  have hfits := h.fits
  have hlen := List.length_pos_of_ne_nil hne
  obtain ⟨n, hn⟩ : ∃ n, s.bytes.length = n + 1 := ⟨s.bytes.length - 1, by omega⟩
  have hin : ∀ k ≤ s.bytes.length, InRange a (s.bytes.length + 1) (a + ptr k) :=
    fun k hk ↦ inRange_add (by omega) (by omega)
  obtain ⟨-, ⟨l, hl, rfl⟩ | ⟨w, i, hw, hi, hx⟩⟩ := hx
  · obtain ⟨k, hk, hstr⟩ := exists_of_visits_strlenStep h hl
    exact hstr ▸ hin k hk
  · rw [h.strlen_eq, Option.some_inj, hn] at hw
    rw [← hw, ptr_succ_sub_one] at hi hx
    rcases Nat.lt_or_ge n (2 ^ 31) with hlt | hge
    · rw [strrevPasses_of_lt hlt] at hi
      split_ifs at hi
      · omega
      rcases hx with rfl | rfl
      · exact hin i (by omega)
      · rw [ptr_sub (by omega)]
        exact hin (n - i) (by omega)
    · rw [strrevPasses_of_ge hge (by omega)] at hi
      exact absurd hi (Nat.not_lt_zero i)

/-- For the empty string, the byte in front of it is accessed. -/
theorem accesses_empty (h : LiteralAt m a s) (hs : s.bytes = []) :
    StrrevAccesses m a (a - 1#32) := by
  have hlen := h.strlen_eq
  rw [hs] at hlen
  refine ⟨h.ne_null, Or.inr ⟨_, 0, hlen, ?_, Or.inr ?_⟩⟩
  · exact strrevPasses_empty ▸ Nat.zero_lt_one
  · change a - 1#32 = a + (0#32 - 1#32 - 0#32)
    ring

theorem CString.reverse_reverse (s : CString) : s.reverse.reverse = s :=
  CString.ext (List.reverse_reverse s.bytes)

theorem LiteralAt.strrev_eq (h : LiteralAt m a s) (hne : s.bytes ≠ [])
    (hlen : s.bytes.length ≤ 2 ^ 31) : ∃ m', strrev m a = some m' ∧ LiteralAt m' a s.reverse := by
  obtain ⟨m', hrev, hat, -⟩ := Sugarcat.strrev_eq h.at hne h.pos hlen h.fits
  rw [ptr_toNat] at hrev
  have hfits : a.toNat + s.reverse.bytes.length < 2 ^ 32 := by
    rw [CString.reverse, List.length_reverse]
    exact h.fits
  exact ⟨m', hrev, hat, h.pos, hfits⟩

/-- **A string is turned around in place if it has a character, and not more than `2 ^ 31` of them
unless it reads the same from its end.** -/
theorem turnsAround_iff (h : LiteralAt m a s) :
    TurnsAround m a s ↔ s.bytes ≠ [] ∧ (s.bytes.length ≤ 2 ^ 31 ∨ s.reverse = s) := by
  constructor
  · intro ht
    constructor
    · intro hs
      have hin := ht.inside _ (accesses_empty h hs)
      have hdist : a - 1#32 - a = -1#32 := by ring
      rw [hs, InRange, hdist] at hin
      exact absurd hin (by decide)
    · refine or_iff_not_imp_left.mpr fun hlong ↦ ?_
      obtain ⟨m', hrev, hat⟩ := ht.reversed
      rw [strrev_of_long h (not_le.mp hlong)] at hrev
      obtain rfl := Option.some_inj.mp hrev
      exact hat.unique h.at
  · rintro ⟨hne, hs⟩
    rcases Nat.lt_or_ge (2 ^ 31) s.bytes.length with hlong | hlen
    · have hpalindrome := hs.resolve_left (not_le.mpr hlong)
      have hrev := strrev_of_long h hlong
      exact ⟨⟨m, hrev, hpalindrome.symm ▸ h.at⟩, fun x hx ↦ accesses_inside h hne hx,
        m, m, hrev, hrev, h.at⟩
    · obtain ⟨m₁, hrev₁, hlit₁⟩ := h.strrev_eq hne hlen
      have hne' : s.reverse.bytes ≠ [] := List.reverse_ne_nil_iff.mpr hne
      have hlen' : s.reverse.bytes.length ≤ 2 ^ 31 := by
        rw [CString.reverse, List.length_reverse]
        exact hlen
      obtain ⟨m₂, hrev₂, hlit₂⟩ := hlit₁.strrev_eq hne' hlen'
      rw [CString.reverse_reverse] at hlit₂
      exact ⟨⟨m₁, hrev₁, hlit₁.at⟩, fun x hx ↦ accesses_inside h hne hx,
        m₁, m₂, hrev₁, hrev₂, hlit₂.at⟩

theorem zero_notMem_abc : 0#8 ∉ [0x61#8, 0x62#8, 0x63#8] := by decide

/-- `abc` at `0x1000`. -/
def abcMemory : Memory := fun x ↦
  ([0x61#8, 0x62#8, 0x63#8] : List Byte).getD (x - 0x1000#32).toNat 0#8

theorem turnsAround_iff_abc : TurnsAround abcMemory 0x1000#32 ⟨_, zero_notMem_abc⟩ :=
  (turnsAround_iff (by decide +kernel)).mpr ⟨by decide, Or.inl (by decide)⟩

/-- An empty string at `0x1000`, with the character `x` in front of it. -/
def frontMemory : Memory := fun x ↦ if x = 0xFFF#32 then 0x78#8 else 0#8

/-- The two bytes change places, and the string is not empty any more. -/
theorem not_turnsAround_empty :
    LiteralAt frontMemory 0x1000#32 .empty ∧
      (∃ m', strrev frontMemory 0x1000#32 = some m' ∧ m' 0xFFF#32 = 0#8 ∧ m' 0x1000#32 = 0x78#8) ∧
      ¬TurnsAround frontMemory 0x1000#32 .empty := by
  have hlit : LiteralAt frontMemory 0x1000#32 .empty := by decide +kernel
  have hrev : strrev frontMemory 0x1000#32 = some (strrevPass 0x1000#32 (-1#32) 0 frontMemory) := by
    rw [strrev_eq_upTo (by decide), hlit.strlen_eq, Option.map_some]
    exact congrArg (fun k ↦ some (Loop.upTo (strrevPass 0x1000#32 (-1#32)) k frontMemory))
      strrevPasses_empty
  refine ⟨hlit, ⟨_, hrev, by decide +kernel, by decide +kernel⟩, ?_⟩
  intro h
  have hin := h.inside _ (accesses_empty hlit rfl)
  exact absurd hin (by decide)

end Sugarcat
