import Mathlib.Data.Nat.Digits.Lemmas
import Sugarcat.Machine.Bits
import Sugarcat.Util.Strrev

/-!
# Numbers as strings

`itox` and `itoa` of `util/str.c`. A number is written digit by digit from its least significant
one, and the string is turned around in place.

## The digits

Both functions run the same loop with another base and another character for a digit, and with
another test for the end. `WritesDigits` is what is used of that loop: from `v` it writes the
character of the last digit of `v` in base `b` and goes on with the quotient. Its run lemma says
that the characters written are the digits of the number, least significant first. `numeral` is the
string with its most significant digit first, which is there after `strrev`.

The number 0 has no digits in this sense, and the source writes it without a loop.

## Writing from the end on

The string is longer by one character in each pass, and it has no terminator before the last one is
written, so during the loop it is told as bytes at a position (`BytesAt`). What lies elsewhere is
left alone, which every lemma here states next to what is written.
-/

namespace Sugarcat

open ByteMemory

/-! ## The functions -/

/-- The variables of the loops of `itox` and `itoa`, with memory. -/
structure DigitLoop where
  val : Word
  offset : Word
  mem : Memory

def itoxStep (str : Addr) (l : DigitLoop) : DigitLoop ⊕ (Word × Memory) :=
  if l.val > 0#32 then
    let c := (l.val &&& 15#32).truncate 8
    let c := if c ≤ 9#8 then c + 48#8 else c + 55#8
    .inl ⟨l.val >>> 4, l.offset + 1#32, writeByte l.mem (str + l.offset) c⟩
  else .inr (l.offset, l.mem)

def itox (m : Memory) (val : Word) (str : Addr) : Option Memory :=
  if str ≠ 0#32 then
    if val ≠ 0#32 then
      (Loop.run (itoxStep str) (2 ^ 32) ⟨val, 0#32, m⟩).bind fun (offset, m) ↦
        strrev (writeByte m (str + offset) 0#8) str
    else some (writeByte (writeByte m str 48#8) (str + 1#32) 0#8)
  else some m

/-- The loop of `itoa`, on a signed `val`. -/
def itoaStep (str : Addr) (l : DigitLoop) : DigitLoop ⊕ (Word × Memory) :=
  if BitVec.slt 0#32 l.val then
    let c := (48#32 + l.val.srem 10#32).truncate 8
    .inl ⟨l.val.sdiv 10#32, l.offset + 1#32, writeByte l.mem (str + l.offset) c⟩
  else .inr (l.offset, l.mem)

def itoa (m : Memory) (val : Word) (str : Addr) : Option Memory :=
  if str ≠ 0#32 then
    if val ≠ 0#32 then
      let sign := BitVec.slt val 0#32
      let val := if sign then -val else val
      (Loop.run (itoaStep str) (2 ^ 32) ⟨val, 0#32, m⟩).bind fun (offset, m) ↦
        let m := if sign then writeByte m (str + offset) 0x2D#8 else m
        let offset := if sign then offset + 1#32 else offset
        strrev (writeByte m (str + offset) 0#8) str
    else some (writeByte (writeByte m str 48#8) (str + 1#32) 0#8)
  else some m

/-! ## Writing a string -/

variable {m : Memory} {p : ℕ} {s : List Byte}

theorem bytesAt_nil (m : Memory) (p : ℕ) : BytesAt m p [] :=
  fun i hi ↦ absurd hi (Nat.not_lt_zero i)

theorem BytesAt.concat (h : BytesAt m p s) (hfits : p + s.length < 2 ^ 32) (b : Byte) :
    BytesAt (writeByte m (ptr (p + s.length)) b) p (s ++ [b]) := by
  intro i hi
  rw [List.length_append, List.length_singleton] at hi
  rcases Nat.lt_or_ge i s.length with his | his
  · rw [writeByte_of_ne _ (ptr_ne_ptr (by omega) hfits (by omega)), h i his,
      List.getElem_append_left his]
  · obtain rfl : i = s.length := by omega
    rw [writeByte_self, List.getElem_append_right le_rfl]
    simp

theorem CString.at_writeByte {s : CString} (h : BytesAt m p s.bytes)
    (hfits : p + s.bytes.length < 2 ^ 32) :
    s.At (writeByte m (ptr (p + s.bytes.length)) 0#8) p :=
  ⟨h.congr fun i hi ↦ writeByte_of_ne _ (ptr_ne_ptr (by omega) hfits (by omega)),
    writeByte_self _ _ _⟩

theorem BytesAt.concat_if (h : BytesAt m p s) (hfits : p + s.length < 2 ^ 32) (c : Bool)
    (b : Byte) :
    BytesAt (if c then writeByte m (ptr p + ptr s.length) b else m) p
        (s ++ if c then [b] else []) ∧
      EqOutside (InRange (ptr p) (s ++ if c then [b] else []).length) m
        (if c then writeByte m (ptr p + ptr s.length) b else m) ∧
      (if c then ptr s.length + 1#32 else ptr s.length)
        = ptr (s ++ if c then [b] else []).length := by
  cases c with
  | false =>
    simp only [Bool.false_eq_true, if_false, List.append_nil]
    exact ⟨h, EqOutside.refl _ _, trivial⟩
  | true =>
    simp only [if_true, List.length_append, List.length_singleton, ptr_add]
    exact ⟨h.concat (by omega) b,
      eqOutside_writeByte (inRange_ptr (by omega) (by omega)) m b, trivial⟩

/-- A string that is written from its end on, and then turned around. -/
theorem exists_strrev_writeByte {s : CString} (h : BytesAt m p s.bytes) (hne : s.bytes ≠ [])
    (hp : 0 < p) (hlen : s.bytes.length ≤ 2 ^ 31) (hfits : p + s.bytes.length < 2 ^ 32) :
    ∃ m', strrev (writeByte m (ptr p + ptr s.bytes.length) 0#8) (ptr p) = some m' ∧
      s.reverse.At m' p ∧ EqOutside (InRange (ptr p) (s.bytes.length + 1)) m m' := by
  obtain ⟨m', hrev, hat, hm'⟩ := strrev_eq (CString.at_writeByte h hfits) hne hp hlen hfits
  rw [← ptr_add] at hrev
  refine ⟨m', hrev, hat, ?_⟩
  exact (eqOutside_writeByte (inRange_ptr (by omega) (by omega)) _ _).trans
    (hm'.mono fun x hx ↦ inRange_mono (by omega) hx)

/-! ## Digits -/

/-- A number in the base `b`, from its most significant digit on, with the characters `char`. -/
def numeral (b : ℕ) (char : ℕ → Byte) (v : ℕ) : List Byte :=
  if v = 0 then [48#8] else ((Nat.digits b v).map char).reverse

/-- A loop that writes the digits of a number below `bound`, the least significant one first. -/
structure WritesDigits (step : DigitLoop → DigitLoop ⊕ (Word × Memory)) (b : ℕ) (char : ℕ → Byte)
    (p bound : ℕ) : Prop where
  pass : ∀ {v k : ℕ} (m : Memory), 0 < v → v < bound → step ⟨ptr v, ptr k, m⟩
    = .inl ⟨ptr (v / b), ptr (k + 1), writeByte m (ptr (p + k)) (char (v % b))⟩
  exit : ∀ (k : Word) (m : Memory), step ⟨0#32, k, m⟩ = .inr (k, m)

theorem WritesDigits.run {step : DigitLoop → DigitLoop ⊕ (Word × Memory)} {b bound v : ℕ}
    {char : ℕ → Byte} (hstep : WritesDigits step b char p bound) (hb : 1 < b)
    (h : BytesAt m p s) (hv : v < bound)
    (hfits : p + s.length + (Nat.digits b v).length < 2 ^ 32) :
    ∃ m', Loop.run step (Nat.digits b v).length ⟨ptr v, ptr s.length, m⟩
        = some (ptr (s.length + (Nat.digits b v).length), m') ∧
      BytesAt m' p (s ++ (Nat.digits b v).map char) ∧
      EqOutside (InRange (ptr p) (s.length + (Nat.digits b v).length)) m m' := by
  -- induction on what is left of the number; `s` is what has been written
  induction v using Nat.strongRecOn generalizing s m with
  | _ v ih =>
    rcases Nat.eq_zero_or_pos v with rfl | hpos
    · rw [Nat.digits_zero, List.map_nil, List.append_nil]
      exact ⟨m, Loop.run_of_exit (hstep.exit _ _) _, h, EqOutside.refl _ _⟩
    have hdigits : Nat.digits b v = v % b :: Nat.digits b (v / b) := Nat.digits_def' hb hpos
    have hlen : (Nat.digits b v).length = (Nat.digits b (v / b)).length + 1 := by
      rw [hdigits, List.length_cons]
    have hlen' : (s ++ [char (v % b)]).length = s.length + 1 := by simp
    have hlt : v / b < v := Nat.div_lt_self hpos hb
    obtain ⟨m', hrun, hbytes, houtside⟩ := ih (v / b) hlt
      (h.concat (by omega) (char (v % b))) (by omega) (by omega)
    rw [hlen'] at hrun houtside
    have hsum : s.length + (Nat.digits b v).length
        = s.length + 1 + (Nat.digits b (v / b)).length := by omega
    rw [hsum]
    refine ⟨m', ?_, ?_,
      (eqOutside_writeByte (inRange_ptr (by omega) (by omega)) _ _).trans houtside⟩
    · rw [hlen, Loop.run_succ (hstep.pass m hpos hv), hrun]
    · rw [hdigits, List.map_cons]
      rw [List.append_assoc, List.singleton_append] at hbytes
      exact hbytes

/-- The whole loop. -/
theorem WritesDigits.exists_run {step : DigitLoop → DigitLoop ⊕ (Word × Memory)} {b bound v : ℕ}
    {char : ℕ → Byte} (hstep : WritesDigits step b char p bound) (hb : 1 < b) (hv : v < bound)
    (hfits : p + (Nat.digits b v).length < 2 ^ 32) (m : Memory) :
    ∃ m', Loop.run step (2 ^ 32) ⟨ptr v, 0#32, m⟩ = some (ptr (Nat.digits b v).length, m') ∧
      BytesAt m' p ((Nat.digits b v).map char) ∧
      EqOutside (InRange (ptr p) (Nat.digits b v).length) m m' := by
  obtain ⟨m', hrun, hbytes, hm'⟩ := hstep.run hb (bytesAt_nil m p) hv
    (by rw [List.length_nil]; omega)
  rw [List.length_nil, Nat.zero_add] at hrun hm'
  exact ⟨m', Loop.run_mono (by omega) hrun, hbytes, hm'⟩

theorem length_numeral_le {b n v : ℕ} (char : ℕ → Byte) (hb : 1 < b) (hn : 0 < n)
    (hv : v < b ^ n) : (numeral b char v).length ≤ n := by
  rw [numeral]
  split_ifs
  · exact hn
  · rw [List.length_reverse, List.length_map, Nat.digits_length_le_iff hb]
    exact hv

theorem numeral_ne_nil (b : ℕ) (char : ℕ → Byte) (v : ℕ) : numeral b char v ≠ [] := by
  rw [numeral]
  split_ifs with hv
  · exact List.cons_ne_nil _ _
  · simpa [Nat.digits_eq_nil_iff_eq_zero] using hv

/-- The digits of a number from its most significant one on. There is always one. -/
def msDigits (b v : ℕ) : List ℕ := if v = 0 then [0] else (Nat.digits b v).reverse

theorem numeral_eq_map {char : ℕ → Byte} (hchar : char 0 = 48#8) (b v : ℕ) :
    numeral b char v = (msDigits b v).map char := by
  rw [numeral, msDigits]
  split_ifs
  · rw [List.map_singleton, hchar]
  · exact List.map_reverse.symm

theorem lt_of_mem_msDigits {b v d : ℕ} (hb : 1 < b) (h : d ∈ msDigits b v) : d < b := by
  rw [msDigits] at h
  split_ifs at h
  · rw [List.mem_singleton.mp h]
    omega
  · exact Nat.digits_lt_base hb (List.mem_reverse.mp h)

theorem foldl_eq_ofDigits (b : ℕ) (l : List ℕ) :
    l.foldl (fun n d ↦ n * b + d) 0 = Nat.ofDigits b l.reverse := by
  have hcomm : (fun d n : ℕ ↦ n * b + d) = fun d n ↦ d + b * n := by
    funext d n
    rw [Nat.mul_comm, Nat.add_comm]
  rw [← List.foldr_reverse, hcomm]
  exact (Nat.ofDigits_eq_foldr b _).symm

theorem foldl_msDigits (b v : ℕ) : (msDigits b v).foldl (fun n d ↦ n * b + d) 0 = v := by
  rw [msDigits]
  split_ifs with hv
  · simp [hv]
  · rw [foldl_eq_ofDigits, List.reverse_reverse, Nat.ofDigits_digits]

/-- Without a leading zero, there is one way to write a number. -/
theorem msDigits_foldl {b : ℕ} {l : List ℕ} (hb : 1 < b) (hl : ∀ d ∈ l, d < b) (hne : l ≠ [])
    (hlead : l.head? = some 0 → l = [0]) : msDigits b (l.foldl (fun n d ↦ n * b + d) 0) = l := by
  by_cases hzero : l.head? = some 0
  · rw [hlead hzero]
    simp [msDigits]
  have hdigits : Nat.digits b (Nat.ofDigits b l.reverse) = l.reverse := by
    refine Nat.digits_ofDigits b hb _ (fun d hd ↦ hl d (List.mem_reverse.mp hd)) fun hrev h ↦ ?_
    rw [List.getLast_reverse, List.head_eq_iff_head?_eq_some] at h
    exact hzero h
  have hpos : Nat.ofDigits b l.reverse ≠ 0 := by
    intro h
    rw [h, Nat.digits_zero] at hdigits
    exact hne (List.reverse_eq_nil_iff.mp hdigits.symm)
  rw [foldl_eq_ofDigits, msDigits, if_neg hpos, hdigits, List.reverse_reverse]

theorem head?_numeral_ne {b : ℕ} {char : ℕ → Byte} (hchar : ∀ d < b, char d = 48#8 → d = 0)
    (hb : 1 < b) {v : ℕ} (hv : v ≠ 0) : (numeral b char v).head? ≠ some 48#8 := by
  have hne : Nat.digits b v ≠ [] := Nat.digits_ne_nil_iff_ne_zero.mpr hv
  rw [numeral, if_neg hv, List.head?_reverse, List.getLast?_map, List.getLast?_eq_some_getLast hne,
    Option.map_some, ne_eq, Option.some_inj]
  exact fun h ↦ Nat.getLast_digit_ne_zero b hv
    (hchar _ (Nat.digits_lt_base hb (List.getLast_mem hne)) h)

theorem zero_notMem_map_digits {b : ℕ} {char : ℕ → Byte} (hb : 1 < b)
    (hchar : ∀ d < b, char d ≠ 0#8) (v : ℕ) : 0#8 ∉ (Nat.digits b v).map char := by
  intro h
  obtain ⟨d, hd, hzero⟩ := List.mem_map.mp h
  exact hchar d (Nat.digits_lt_base hb hd) hzero

theorem zero_notMem_numeral {b : ℕ} {char : ℕ → Byte} (hb : 1 < b)
    (hchar : ∀ d < b, char d ≠ 0#8) (v : ℕ) : 0#8 ∉ numeral b char v := by
  rw [numeral]
  split_ifs
  · decide
  · rw [List.mem_reverse]
    exact zero_notMem_map_digits hb hchar v

theorem zeroString_at (hfits : p + 1 < 2 ^ 32) (m : Memory) :
    CString.At (writeByte (writeByte m (ptr p) 48#8) (ptr p + 1#32) 0#8) p ⟨[48#8], by decide⟩ ∧
      EqOutside (InRange (ptr p) 2) m
        (writeByte (writeByte m (ptr p) 48#8) (ptr p + 1#32) 0#8) := by
  have hbytes := (bytesAt_nil m p).concat (by rw [List.length_nil]; omega) 48#8
  have hin : ∀ {i}, i < 2 → InRange (ptr p) 2 (ptr (p + i)) := fun hi ↦ inRange_ptr hi (by omega)
  rw [ptr_add_one]
  refine ⟨CString.at_writeByte (s := ⟨[48#8], by decide⟩) hbytes hfits, ?_⟩
  exact (eqOutside_writeByte (hin (i := 0) (by omega)) _ _).trans
    (eqOutside_writeByte (hin (by omega)) _ _)

/-! ## Hexadecimal -/

/-- The character of a digit. -/
def hexChar (d : ℕ) : Byte := if d ≤ 9 then BitVec.ofNat 8 (48 + d) else BitVec.ofNat 8 (55 + d)

theorem hexChar_ne_zero : ∀ d < 16, hexChar d ≠ 0#8 := by decide

/-- A number in hexadecimal, from its most significant digit on. -/
def hexDigits (v : ℕ) : List Byte := numeral 16 hexChar v

theorem length_hexDigits_le {v : ℕ} (hv : v < 2 ^ 32) : (hexDigits v).length ≤ 8 :=
  length_numeral_le hexChar (by decide) (by decide) hv

theorem zero_notMem_hexDigits (v : ℕ) : 0#8 ∉ hexDigits v :=
  zero_notMem_numeral (by decide) hexChar_ne_zero v

/-- A number in hexadecimal as a string. -/
def hexString (v : Word) : CString := ⟨hexDigits v.toNat, zero_notMem_hexDigits _⟩

theorem hexChar_eq : ∀ d < 16, hexChar d
    = if BitVec.ofNat 8 d ≤ 9#8 then BitVec.ofNat 8 d + 48#8 else BitVec.ofNat 8 d + 55#8 := by
  decide

theorem writesDigits_itoxStep (p : ℕ) :
    WritesDigits (itoxStep (ptr p)) 16 hexChar p (2 ^ 32) := by
  refine ⟨?_, fun k m ↦ if_neg (by simp)⟩
  intro v k m hv hfits
  have hnat : (ptr v).toNat = v := toNat_ptr hfits
  have hdigit : ((ptr v &&& 15#32).truncate 8 : Byte) = BitVec.ofNat 8 (v % 16) := by
    apply BitVec.eq_of_toNat_eq
    rw [BitVec.truncate_eq_setWidth, BitVec.toNat_setWidth, Bits.toNat_and_low (k := 4) (by decide),
      hnat, BitVec.toNat_ofNat]
    rfl
  have hshift : ptr v >>> 4 = ptr (v / 16) := by
    apply BitVec.eq_of_toNat_eq
    rw [Bits.toNat_ushiftRight_eq, hnat, toNat_ptr (by omega)]
    rfl
  have hpos : ptr v > 0#32 := by
    rw [gt_iff_lt, BitVec.lt_def, hnat]
    exact hv
  rw [itoxStep, if_pos hpos]
  dsimp only
  rw [hdigit, hshift, ← hexChar_eq _ (Nat.mod_lt _ (by decide)), ptr_add, ptr_add]

/-- **`itox` writes the number in hexadecimal, and nothing else.** -/
theorem itox_eq (m : Memory) (v : Word) (hp : 0 < p)
    (hfits : p + (hexString v).bytes.length < 2 ^ 32) :
    ∃ m', itox m v (ptr p) = some m' ∧ (hexString v).At m' p ∧
      EqOutside (InRange (ptr p) ((hexString v).bytes.length + 1)) m m' := by
  rw [itox, if_pos (ptr_ne_zero hp (by omega))]
  by_cases hv : v = 0#32
  · subst hv
    rw [if_neg (not_not.mpr rfl)]
    exact ⟨_, rfl, zeroString_at hfits m⟩
  · have hpos : v.toNat ≠ 0 := fun h ↦ hv (BitVec.eq_of_toNat_eq h)
    have hstring : CString.reverse ⟨_, zero_notMem_map_digits (by decide) hexChar_ne_zero v.toNat⟩
        = hexString v := by
      rw [CString.reverse, hexString, CString.mk.injEq, hexDigits, numeral, if_neg hpos]
    have hlen : (Nat.digits 16 v.toNat).length ≤ 8 :=
      (Nat.digits_length_le_iff (by decide) _).mpr v.isLt
    have hsize : (hexString v).bytes.length = (Nat.digits 16 v.toNat).length := by
      rw [← hstring, CString.reverse, List.length_reverse, List.length_map]
    obtain ⟨m₁, hrun, hbytes, hm₁⟩ := (writesDigits_itoxStep p).exists_run (by decide) v.isLt
      (by omega) m
    rw [ptr_toNat] at hrun
    -- the digits stand in the wrong order, and are turned around
    have hlen' : ((Nat.digits 16 v.toNat).map hexChar).length = (Nat.digits 16 v.toNat).length :=
      List.length_map _
    obtain ⟨m₂, hrev, hat, hm₂⟩ := exists_strrev_writeByte
      (s := ⟨_, zero_notMem_map_digits (by decide) hexChar_ne_zero v.toNat⟩) hbytes
      (by simp [Nat.digits_eq_nil_iff_eq_zero, hpos]) hp (by dsimp only; omega)
      (by dsimp only; omega)
    rw [hstring] at hat
    dsimp only at hrev hm₂
    rw [hlen'] at hrev hm₂
    rw [if_pos hv, hrun, Option.bind_some]
    rw [hsize]
    exact ⟨m₂, hrev, hat, (hm₁.mono fun x hx ↦ inRange_mono (by omega) hx).trans hm₂⟩

end Sugarcat
