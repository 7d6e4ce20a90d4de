import Sugarcat.Machine.Footprint
import Sugarcat.Util.Numerals

/-!
# Decimal numbers

`atoi` of `util/str.c`, and what `itoa` writes. Both directions are here, so that the round trip can
be stated: a number is written in canonical form, and what is read back is the number.

## The least number

`itoa` takes the sign off first. The least negative number has no positive counterpart, and C gives
no meaning to its negation. The model wraps around, as the target does: the number stays negative,
no digit is written, and only the sign is left. Statements for which that would matter take `v ≠
intMin` as a hypothesis.

## The canonical form

`decDigits` are the digits of a natural number in base 10 without leading zeros, and `intDigits`
puts the sign in front. `atoi` is a fold over the characters (`run_atoiStep`), so that it reads a
canonical form back is a fact about digits and not about the loop.

## Room

How many bytes `itoa` writes is the length of the canonical form and one for the terminator. The
callers give it eleven, which is enough for every number above -1000000000 and for no other.
-/

namespace Sugarcat

open ByteMemory

/-! ## The functions -/

/-- The variables of the loop of `atoi`. -/
structure AtoiLoop where
  str : Addr
  ret : Word

def atoiStep (m : Memory) (l : AtoiLoop) : AtoiLoop ⊕ Word :=
  if m l.str ≠ 0#8 then
    if 0x30#8 ≤ m l.str ∧ m l.str ≤ 0x39#8 then
      .inl ⟨l.str + 1#32, l.ret * 10#32 + ((m l.str).zeroExtend 32 - 0x30#32)⟩
    -- an invalid character
    else .inr 0#32
  else .inr l.ret

def atoi (m : Memory) (str : Addr) : Option Word :=
  if str ≠ 0#32 then
    let sign := m str == 0x2D#8
    let str := if sign then str + 1#32 else str
    (Loop.run (atoiStep m) (2 ^ 32) ⟨str, 0#32⟩).map fun ret ↦ if sign then ret * -1#32 else ret
  else some 0#32

/-! ## Canonical decimals -/

def decChar (d : ℕ) : Byte := BitVec.ofNat 8 (48 + d)

theorem decChar_ne_zero : ∀ d < 10, decChar d ≠ 0#8 := by decide

/-- A number in decimal, from its most significant digit on. -/
def decDigits (v : ℕ) : List Byte := numeral 10 decChar v

theorem zero_notMem_decDigits (v : ℕ) : 0#8 ∉ decDigits v :=
  zero_notMem_numeral (by decide) decChar_ne_zero v

theorem head?_decDigits_ne {v : ℕ} (hv : v ≠ 0) : (decDigits v).head? ≠ some 48#8 :=
  head?_numeral_ne (by decide) (by decide) hv

/-- An integer in decimal: a sign if it is negative, and the digits of its absolute value. -/
def intDigits (v : ℤ) : List Byte :=
  if v < 0 then 0x2D#8 :: decDigits v.natAbs else decDigits v.natAbs

theorem zero_notMem_intDigits (v : ℤ) : 0#8 ∉ intDigits v := by
  rw [intDigits]
  split_ifs
  · rw [List.mem_cons, not_or]
    exact ⟨by decide, zero_notMem_decDigits _⟩
  · exact zero_notMem_decDigits _

def intString (v : Word) : CString := ⟨intDigits v.toInt, zero_notMem_intDigits _⟩

/-- `INT_MIN`. -/
abbrev intMin : Word := 0x80000000#32

/-- What `itoa` writes. -/
def itoaString (v : Word) : CString := if v = intMin then ⟨[0x2D#8], by decide⟩ else intString v

variable {m : Memory} {p : ℕ} {v : Word}

/-! ## `itoa` -/

theorem writesDigits_itoaStep (p : ℕ) : WritesDigits (itoaStep (ptr p)) 10 decChar p (2 ^ 31) := by
  refine ⟨?_, fun k m ↦ if_neg (by simp)⟩
  intro v k m hv hfits
  have hpos : BitVec.slt 0#32 (ptr v) = true := by
    rw [BitVec.slt_iff_toInt_lt, toInt_ptr hfits]
    simpa using hv
  have hdiv : (ptr v).sdiv 10#32 = ptr (v / 10) := by
    apply BitVec.eq_of_toInt_eq
    rw [BitVec.toInt_sdiv_of_ne_or_ne _ _ (Or.inr (by decide)), toInt_ptr hfits,
      toInt_ptr (n := v / 10) (by omega)]
    rfl
  have hmod : (ptr v).srem 10#32 = ptr (v % 10) := by
    apply BitVec.eq_of_toInt_eq
    rw [BitVec.toInt_srem, toInt_ptr hfits, toInt_ptr (n := v % 10) (by omega)]
    rfl
  have hchar : ((48#32 + ptr (v % 10)).truncate 8 : Byte) = decChar (v % 10) := by
    apply BitVec.eq_of_toNat_eq
    rw [decChar, BitVec.truncate_eq_setWidth, BitVec.toNat_setWidth, BitVec.toNat_add,
      toNat_ptr (by omega), BitVec.toNat_ofNat, BitVec.toNat_ofNat]
    omega
  rw [itoaStep, if_pos hpos]
  dsimp only
  rw [hdiv, hmod, hchar, ptr_add, ptr_add]

theorem toInt_cases (v : Word) :
    v.toInt = v.toNat ∧ v.toNat < 2 ^ 31 ∨ v.toInt = v.toNat - 2 ^ 32 ∧ 2 ^ 31 ≤ v.toNat := by
  rw [BitVec.toInt_eq_toNat_cond]
  split_ifs with h
  · exact Or.inl ⟨rfl, by omega⟩
  · exact Or.inr ⟨rfl, by omega⟩

theorem toNat_ne_of_ne_intMin (h : v ≠ intMin) : v.toNat ≠ 2 ^ 31 :=
  fun hv ↦ h (BitVec.eq_of_toNat_eq hv)

/-- Without its sign, a number other than the least one is what it should be. -/
theorem neg_of_slt (h : v ≠ intMin) :
    (if BitVec.slt v 0#32 then -v else v) = ptr v.toInt.natAbs ∧ v.toInt.natAbs < 2 ^ 31 := by
  have hlt := v.isLt
  have hne := toNat_ne_of_ne_intMin h
  have hneg : BitVec.slt v 0#32 = true ↔ v.toInt < 0 := by
    rw [BitVec.slt_iff_toInt_lt]
    rfl
  rcases toInt_cases v with ⟨hint, hv⟩ | ⟨hint, hv⟩
  · refine ⟨?_, by omega⟩
    rw [if_neg (by rw [hneg]; omega), hint, Int.natAbs_natCast, ptr_toNat]
  · refine ⟨?_, by omega⟩
    rw [if_pos (by rw [hneg]; omega)]
    apply BitVec.eq_of_toNat_eq
    rw [BitVec.toNat_neg, toNat_ptr (by omega)]
    omega

/-- The digits that the loop of `itoa` writes. -/
def itoaDigits (v : Word) : List ℕ := if v = intMin then [] else Nat.digits 10 v.toInt.natAbs

theorem length_itoaDigits_le (v : Word) : (itoaDigits v).length ≤ 10 := by
  rw [itoaDigits]
  split_ifs with h
  · exact Nat.zero_le 10
  · rw [Nat.digits_length_le_iff (by decide)]
    exact (neg_of_slt h).2.trans (by decide)

theorem exists_run_itoaStep (m : Memory) (v : Word)
    (hfits : p + (itoaDigits v).length < 2 ^ 32) :
    ∃ m', Loop.run (itoaStep (ptr p)) (2 ^ 32) ⟨if BitVec.slt v 0#32 then -v else v, 0#32, m⟩
        = some (ptr (itoaDigits v).length, m') ∧
      BytesAt m' p ((itoaDigits v).map decChar) ∧
      EqOutside (InRange (ptr p) (itoaDigits v).length) m m' := by
  by_cases hmin : v = intMin
  · subst hmin
    have hpos : ¬BitVec.slt 0#32 (if BitVec.slt intMin 0#32 then -intMin else intMin) = true := by
      decide
    have hexit : itoaStep (ptr p) ⟨if BitVec.slt intMin 0#32 then -intMin else intMin, 0#32, m⟩
        = .inr (0#32, m) := if_neg hpos
    exact ⟨m, Loop.run_of_exit hexit _, bytesAt_nil m p, EqOutside.refl _ _⟩
  · obtain ⟨habs, hlt⟩ := neg_of_slt hmin
    rw [itoaDigits, if_neg hmin] at hfits
    rw [habs, itoaDigits, if_neg hmin]
    exact (writesDigits_itoaStep p).exists_run (by decide) hlt hfits m

/-- The digits and the sign, in the order in which they are written. -/
def itoaWritten (v : Word) : List Byte :=
  (itoaDigits v).map decChar ++ if BitVec.slt v 0#32 then [0x2D#8] else []

theorem itoaString_bytes (hv : v ≠ 0#32) : (itoaString v).bytes = (itoaWritten v).reverse := by
  have hneg : BitVec.slt v 0#32 = true ↔ v.toInt < 0 := by
    rw [BitVec.slt_iff_toInt_lt]
    rfl
  rw [itoaString, itoaWritten, itoaDigits, List.reverse_append]
  by_cases hmin : v = intMin
  · subst hmin
    rfl
  rw [if_neg hmin, if_neg hmin]
  have hpos : v.toInt.natAbs ≠ 0 := by
    intro h
    rw [Int.natAbs_eq_zero, ← BitVec.toInt_zero (w := 32), BitVec.toInt_inj] at h
    exact hv h
  change intDigits v.toInt = _
  rw [intDigits, decDigits, numeral, if_neg hpos]
  simp only [hneg]
  split_ifs <;> rfl

theorem itoaString_ne_nil (v : Word) : (itoaString v).bytes ≠ [] := by
  rw [itoaString]
  split_ifs
  · exact List.cons_ne_nil _ _
  · change intDigits v.toInt ≠ []
    rw [intDigits]
    split_ifs
    · exact List.cons_ne_nil _ _
    · exact numeral_ne_nil _ _ _

theorem length_itoaWritten_le (v : Word) : (itoaWritten v).length ≤ 11 := by
  have hlen := length_itoaDigits_le v
  rw [itoaWritten, List.length_append, List.length_map]
  split_ifs <;> simp <;> omega

theorem length_itoaString_le (v : Word) : (itoaString v).bytes.length ≤ 11 := by
  by_cases hv : v = 0#32
  · subst hv
    decide
  · rw [itoaString_bytes hv, List.length_reverse]
    exact length_itoaWritten_le v

theorem zero_notMem_itoaWritten (v : Word) : 0#8 ∉ itoaWritten v := by
  rw [itoaWritten, List.mem_append, not_or]
  refine ⟨?_, by split_ifs <;> decide⟩
  rw [itoaDigits]
  split_ifs
  · exact List.not_mem_nil
  · exact zero_notMem_map_digits (by decide) decChar_ne_zero _

/-- **What `itoa` writes, and nothing else.** -/
theorem itoa_eq (m : Memory) (v : Word) (hp : 0 < p)
    (hfits : p + (itoaString v).bytes.length < 2 ^ 32) :
    ∃ m', itoa m v (ptr p) = some m' ∧ (itoaString v).At m' p ∧
      EqOutside (InRange (ptr p) ((itoaString v).bytes.length + 1)) m m' := by
  rw [itoa, if_pos (ptr_ne_zero hp (by omega))]
  by_cases hv : v = 0#32
  · subst hv
    rw [if_neg (not_not.mpr rfl)]
    exact ⟨_, rfl, zeroString_at hfits m⟩
  have hlen := length_itoaWritten_le v
  have hsize : (itoaString v).bytes.length = (itoaWritten v).length := by
    rw [itoaString_bytes hv, List.length_reverse]
  have hdigits : (itoaDigits v).length ≤ (itoaWritten v).length := by
    rw [itoaWritten, List.length_append, List.length_map]
    exact Nat.le_add_right _ _
  obtain ⟨m₁, hrun, hbytes, hm₁⟩ := exists_run_itoaStep m v (p := p) (by omega)
  rw [if_pos hv]
  dsimp only
  rw [hrun, Option.bind_some]
  dsimp only
  -- the sign comes behind the digits
  obtain ⟨hbytes₂, hm₂, hoffset⟩ :=
    hbytes.concat_if (by rw [List.length_map]; omega) (BitVec.slt v 0#32) 0x2D#8
  rw [List.length_map] at hbytes₂ hm₂ hoffset
  rw [← itoaWritten] at hbytes₂ hm₂ hoffset
  have hne : itoaWritten v ≠ [] := by
    intro hnil
    have hempty : (itoaString v).bytes = [] := by rw [itoaString_bytes hv, hnil, List.reverse_nil]
    exact itoaString_ne_nil v hempty
  obtain ⟨m₃, hrev, hat, hm₃⟩ := exists_strrev_writeByte
    (s := ⟨itoaWritten v, zero_notMem_itoaWritten v⟩) hbytes₂ hne hp (by dsimp only; omega)
    (by dsimp only; omega)
  have hstring : CString.reverse ⟨itoaWritten v, zero_notMem_itoaWritten v⟩ = itoaString v :=
    CString.ext (itoaString_bytes hv).symm
  rw [hstring] at hat
  rw [hoffset, hsize]
  exact ⟨m₃, hrev, hat, ((hm₁.mono fun x hx ↦ inRange_mono (by omega) hx).trans
    (hm₂.mono fun x hx ↦ inRange_mono (by omega) hx)).trans hm₃⟩

/-! ## `atoi` -/

theorem decDigits_eq_map (k : ℕ) : decDigits k = (msDigits 10 k).map decChar :=
  numeral_eq_map rfl 10 k

theorem lt_of_mem_msDigits_ten {k d : ℕ} (h : d ∈ msDigits 10 k) : d < 10 :=
  lt_of_mem_msDigits (by decide) h

theorem length_msDigits_ten_le {k : ℕ} (hk : k < 2 ^ 31) : (msDigits 10 k).length ≤ 10 := by
  have hle : (decDigits k).length ≤ 10 :=
    length_numeral_le decChar (by decide) (by decide) (hk.trans (by decide))
  rwa [decDigits_eq_map, List.length_map] at hle

/-- The number that a list of digits stands for, behind the digits of `n`. -/
def valueFrom (n : ℕ) (l : List ℕ) : ℕ := l.foldl (fun n d ↦ n * 10 + d) n

theorem valueFrom_msDigits (k : ℕ) : valueFrom 0 (msDigits 10 k) = k := foldl_msDigits 10 k

theorem decChar_spec : ∀ d < 10, decChar d ≠ 0x2D#8 ∧ 0x30#8 ≤ decChar d ∧ decChar d ≤ 0x39#8 ∧
    (decChar d).zeroExtend 32 - 0x30#32 = ptr d := by decide

/-- One pass reads one digit. -/
theorem atoiStep_eq {x n d : ℕ} (hd : d < 10) (hread : m (ptr x) = decChar d) :
    atoiStep m ⟨ptr x, ptr n⟩ = .inl ⟨ptr (x + 1), ptr (n * 10 + d)⟩ := by
  obtain ⟨-, hge, hle, hval⟩ := decChar_spec d hd
  have hsum : ptr n * 10#32 + ptr d = ptr (n * 10 + d) := by
    rw [← ptr_add]
    exact congrArg (· + ptr d) (BitVec.ofNat_mul n 10).symm
  rw [atoiStep, hread, if_pos (decChar_ne_zero d hd), if_pos ⟨hge, hle⟩, hval, hsum, ptr_add_one]

theorem run_atoiStep {x n : ℕ} {l : List ℕ} (hl : ∀ d ∈ l, d < 10)
    (h : BytesAt m x (l.map decChar)) (hend : m (ptr (x + l.length)) = 0#8) :
    Loop.run (atoiStep m) l.length ⟨ptr x, ptr n⟩ = some (ptr (valueFrom n l)) := by
  induction l generalizing x n with
  | nil =>
    have hexit : atoiStep m ⟨ptr x, ptr n⟩ = .inr (ptr n) := if_neg (not_not.mpr hend)
    exact Loop.run_of_exit hexit _
  | cons d l ih =>
    rw [List.map_cons, bytesAt_cons] at h
    rw [List.length_cons, ← Nat.add_assoc, Nat.add_right_comm] at hend
    rw [List.length_cons, Loop.run_succ (atoiStep_eq (hl d List.mem_cons_self) h.1),
      ih (fun e he ↦ hl e (List.mem_cons_of_mem _ he)) h.2 hend]
    rfl

theorem run_atoiStep_decDigits {x k : ℕ} (hk : k < 2 ^ 31) (h : BytesAt m x (decDigits k))
    (hend : m (ptr (x + (decDigits k).length)) = 0#8) :
    Loop.run (atoiStep m) (2 ^ 32) ⟨ptr x, 0#32⟩ = some (ptr k) := by
  have hlen := length_msDigits_ten_le hk
  rw [decDigits_eq_map] at h hend
  rw [List.length_map] at hend
  have hrun := run_atoiStep (n := 0) (fun d hd ↦ lt_of_mem_msDigits_ten hd) h hend
  rw [valueFrom_msDigits] at hrun
  exact Loop.run_mono (by omega) hrun

theorem toInt_neg_ptr_natAbs (hv : v.toInt < 0) : -ptr v.toInt.natAbs = v := by
  have hlt := v.isLt
  rcases toInt_cases v with ⟨hint, -⟩ | ⟨hint, hge⟩
  · omega
  · apply BitVec.eq_of_toNat_eq
    rw [BitVec.toNat_neg, toNat_ptr (by omega)]
    omega

/-- `atoi` on a canonical decimal. -/
theorem atoi_eq (hne : v ≠ intMin) (h : (intString v).At m p) (hp : 0 < p) (hfits : p < 2 ^ 32) :
    atoi m (ptr p) = some v := by
  have hk := (neg_of_slt hne).2
  obtain ⟨hbytes, hend⟩ := h
  rw [atoi, if_pos (ptr_ne_zero hp hfits)]
  change BytesAt m p (intDigits v.toInt) at hbytes
  change m (ptr (p + (intDigits v.toInt).length)) = 0#8 at hend
  by_cases hneg : v.toInt < 0
  · rw [intDigits, if_pos hneg] at hbytes hend
    rw [bytesAt_cons] at hbytes
    rw [List.length_cons, ← Nat.add_assoc, Nat.add_right_comm] at hend
    have hrun := run_atoiStep_decDigits hk hbytes.2 hend
    have hmul : ptr v.toInt.natAbs * -1#32 = -ptr v.toInt.natAbs := by
      rw [BitVec.mul_neg, BitVec.mul_one]
    simp only [hbytes.1, beq_self_eq_true, if_true, ptr_add_one, hrun, Option.map_some, hmul,
      toInt_neg_ptr_natAbs hneg]
  · rw [intDigits, if_neg hneg] at hbytes hend
    have hrun := run_atoiStep_decDigits hk hbytes hend
    -- no digit is a sign
    have hfirst : m (ptr p) ≠ 0x2D#8 := by
      obtain ⟨b, s, hcons⟩ := List.exists_cons_of_ne_nil (numeral_ne_nil 10 decChar v.toInt.natAbs)
      rw [decDigits, hcons, bytesAt_cons] at hbytes
      have hmem : b ∈ decDigits v.toInt.natAbs := by
        rw [decDigits, hcons]
        exact List.mem_cons_self
      rw [decDigits_eq_map] at hmem
      obtain ⟨d, hd, rfl⟩ := List.mem_map.mp hmem
      rw [hbytes.1]
      exact (decChar_spec d (lt_of_mem_msDigits_ten hd)).1
    have hval : ptr v.toInt.natAbs = v := by
      rcases toInt_cases v with ⟨hint, -⟩ | ⟨hint, -⟩
      · rw [hint, Int.natAbs_natCast, ptr_toNat]
      · have hlt := v.isLt
        omega
    simp only [beq_eq_false_iff_ne.mpr hfirst, Bool.false_eq_true, if_false, hrun, Option.map_some,
      hval]

/-- **Decimals are canonical and read back as what they were, except for the least number.** -/
theorem decimalRoundTrips_iff (m : Memory) (v : Word) (hp : 0 < p) (hfits : p + 11 < 2 ^ 32) :
    (∃ m', itoa m v (ptr p) = some m' ∧ (intString v).At m' p ∧ atoi m' (ptr p) = some v)
      ↔ v ≠ intMin := by
  have hlen := length_itoaString_le v
  obtain ⟨m', hitoa, hat, -⟩ := itoa_eq m v hp (by omega)
  rw [hitoa]
  simp only [Option.some.injEq, exists_eq_left']
  constructor
  · rintro ⟨hat', -⟩ rfl
    have hbytes := congrArg CString.bytes (hat.unique hat')
    exact absurd hbytes (by decide)
  · intro hne
    rw [itoaString, if_neg hne] at hat
    exact ⟨hat, atoi_eq hne hat hp (by omega)⟩

theorem decimalRoundTrips_iff_neg :
    ∃ m', itoa (fun _ ↦ 0#8) (-42#32) (ptr 0x1000) = some m' ∧ (intString (-42#32)).At m' 0x1000 ∧
      atoi m' (ptr 0x1000) = some (-42#32) :=
  (decimalRoundTrips_iff _ _ (by decide) (by decide)).mpr (by decide)

/-- The least number has no digits. -/
theorem not_decimalRoundTrips_intMin :
    ¬∃ m', itoa (fun _ ↦ 0#8) intMin (ptr 0x1000) = some m' ∧ (intString intMin).At m' 0x1000 ∧
      atoi m' (ptr 0x1000) = some intMin := by
  rintro ⟨m', hitoa, hat, -⟩
  obtain ⟨m'', hitoa', hat', -⟩ := itoa_eq (p := 0x1000) (fun _ ↦ 0#8) intMin (by decide)
    (by decide)
  obtain rfl := Option.some_inj.mp (hitoa'.symm.trans hitoa)
  have hbytes := congrArg CString.bytes (hat'.unique hat)
  exact absurd hbytes (by decide)

/-! ## Room -/

theorem itoaString_eq (hv : -1000000000 < v.toInt) :
    itoaString v = intString v ∧ (intString v).bytes.length ≤ 10 := by
  have hne : v ≠ intMin := by
    rintro rfl
    exact absurd hv (by decide)
  refine ⟨if_neg hne, ?_⟩
  change (intDigits v.toInt).length ≤ 10
  rw [intDigits]
  split_ifs with hneg
  · have hle : (decDigits v.toInt.natAbs).length ≤ 9 :=
      length_numeral_le decChar (by decide) (by decide) (by omega)
    rw [List.length_cons]
    omega
  · have hlt := (neg_of_slt hne).2
    exact length_numeral_le decChar (by decide) (by decide) (hlt.trans (by decide))

/-- What `itoa` writes fits eleven bytes, with its terminator. -/
theorem length_itoaString_le_iff (hne : v ≠ intMin) :
    (itoaString v).bytes.length ≤ 10 ↔ -1000000000 < v.toInt := by
  constructor
  · intro hlen
    by_contra hle
    rw [itoaString, if_neg hne] at hlen
    change (intDigits v.toInt).length ≤ 10 at hlen
    have hten : 9 < (Nat.digits 10 v.toInt.natAbs).length :=
      (Nat.lt_digits_length_iff (by decide) _).mpr (by omega)
    rw [intDigits, if_pos (by omega), List.length_cons, decDigits, numeral, if_neg (by omega),
      List.length_reverse, List.length_map] at hlen
    omega
  · intro hv
    obtain ⟨heq, hlen⟩ := itoaString_eq hv
    exact heq ▸ hlen

/-- A function that writes a string, and nothing else, writes its characters and its terminator. -/
theorem CString.ncard_writes {s : CString} {f : Memory → Option Memory}
    (hfits : p + s.bytes.length < 2 ^ 32)
    (hf : ∀ m, ∃ m', f m = some m' ∧ s.At m' p ∧
      EqOutside (InRange (ptr p) (s.bytes.length + 1)) m m') :
    (writes f).ncard = s.bytes.length + 1 := by
  rw [← ncard_inRange (ptr p) (n := s.bytes.length + 1) (by omega)]
  congr 1
  refine writes_eq (fun m ↦ (hf m).imp fun _ h ↦ ⟨h.1, h.2.2⟩) fun x hx ↦ ?_
  obtain ⟨i, hi, rfl⟩ := eq_add_of_inRange hx
  have hlen : i < (s.bytes ++ [0#8]).length := by simpa using hi
  refine ⟨(s.bytes ++ [0#8])[i], ?_⟩
  intro m m' hm'
  obtain ⟨m'', hm'', hat, -⟩ := hf m
  obtain rfl := Option.some_inj.mp (hm'.symm.trans hm'')
  rw [ptr_add]
  rcases Nat.lt_succ_iff_lt_or_eq.mp hi with hlt | rfl
  · rw [List.getElem_append_left hlt]
    exact hat.1 i hlt
  · rw [List.getElem_concat_length rfl]
    exact hat.2

/-- **The scratch buffer has room for a number, except for the ones of eleven characters.** The
least number is left aside: C gives no meaning to its negation, so what `itoa` then writes is not
for the model to say. -/
theorem scratchSuffices_iff (v : Word) (hne : v ≠ intMin) (hp : 0 < p) (hfits : p + 11 < 2 ^ 32) :
    (writes fun m ↦ itox m v (ptr p)).ncard ≤ 11 ∧ (writes fun m ↦ itoa m v (ptr p)).ncard ≤ 11
      ↔ -1000000000 < v.toInt := by
  have hhex : (hexString v).bytes.length ≤ 8 := length_hexDigits_le v.isLt
  have hdec := length_itoaString_le v
  rw [CString.ncard_writes (by omega) fun m ↦ itox_eq m v hp (by omega),
    CString.ncard_writes (by omega) fun m ↦ itoa_eq m v hp (by omega),
    ← length_itoaString_le_iff hne]
  omega

theorem scratchSuffices_iff_neg :
    (writes fun m ↦ itox m (-42#32) (ptr 0x1000)).ncard ≤ 11 ∧
      (writes fun m ↦ itoa m (-42#32) (ptr 0x1000)).ncard ≤ 11 :=
  (scratchSuffices_iff (-42#32) (by decide) (by decide) (by decide)).mpr (by decide)

/-- `-1000000000` takes twelve bytes. -/
theorem not_scratchSuffices_neg :
    (writes fun m ↦ itoa m (-1000000000#32) (ptr 0x1000)).ncard = 12 ∧
      ¬(writes fun m ↦ itoa m (-1000000000#32) (ptr 0x1000)).ncard ≤ 11 := by
  have hlen : (itoaString (-1000000000#32)).bytes.length = 11 := by decide +kernel
  have hcard := CString.ncard_writes (p := 0x1000) (by rw [hlen]; decide)
    fun m ↦ itoa_eq m (-1000000000#32) (by decide) (by rw [hlen]; decide)
  rw [hlen] at hcard
  exact ⟨hcard, by rw [hcard]; decide⟩

end Sugarcat
