import Sugarcat.Util.Numerals

/-!
# Hexadecimal numbers

What it means for a string to be the canonical hexadecimal form of a number, told without the
function that writes it: it has one to eight digits, in capitals, a leading zero is the only digit,
and its digits are read as the number from the first one on. There is exactly one such string for
each number, and it is what `itox` writes.

## Reading and writing

The definitions of this file read a string (`hexDigitValue`, `hexValue`), while the function writes
one. That they agree is proved through the digits of the number in base 16: to read the digits gives
the number, and a string of digits without a leading zero is determined by what it reads as
(`CanonicalHex.eq_hexDigits`).

From that `itox` is injective, for the strings of two numbers read as two numbers. The digits
themselves are finitely many, so that a character is a digit, and which one, is computed.
-/

namespace Sugarcat

open ByteMemory

/-! ## Reading a number -/

/-- One of `0` to `9` and `A` to `F`. -/
def IsHexDigit (c : Byte) : Prop := 0x30#8 ≤ c ∧ c ≤ 0x39#8 ∨ 0x41#8 ≤ c ∧ c ≤ 0x46#8

instance (c : Byte) : Decidable (IsHexDigit c) := inferInstanceAs (Decidable (_ ∨ _))

def hexDigitValue (c : Byte) : ℕ := if c ≤ 0x39#8 then c.toNat - 0x30 else c.toNat - 0x41 + 10

/-- The number that the digits stand for in the base 16. -/
def hexValue (l : List Byte) : ℕ := l.foldl (fun n c ↦ n * 16 + hexDigitValue c) 0

/-- The canonical form of a 32-bit number. -/
structure CanonicalHex (v : ℕ) (l : List Byte) : Prop where
  pos : 1 ≤ l.length
  length_le : l.length ≤ 8
  digit : ∀ c ∈ l, IsHexDigit c
  leading : l.head? = some 0x30#8 → v = 0 ∧ l = [0x30#8]
  value : hexValue l = v

theorem isHexDigit_hexChar : ∀ d < 16, IsHexDigit (hexChar d) ∧ hexDigitValue (hexChar d) = d := by
  decide

theorem hexChar_hexDigitValue : ∀ c : Byte, IsHexDigit c →
    hexDigitValue c < 16 ∧ hexChar (hexDigitValue c) = c := by decide

variable {v : ℕ} {l : List Byte}

theorem hexValue_eq_foldl_map (l : List Byte) :
    hexValue l = (l.map hexDigitValue).foldl (fun n d ↦ n * 16 + d) 0 := by
  rw [List.foldl_map, hexValue]

/-! ## The canonical form -/

theorem hexDigits_eq_map (v : ℕ) : hexDigits v = (msDigits 16 v).map hexChar :=
  numeral_eq_map rfl 16 v

theorem hexValue_hexDigits (v : ℕ) : hexValue (hexDigits v) = v := by
  have hid : (msDigits 16 v).map (hexDigitValue ∘ hexChar) = msDigits 16 v := by
    refine (List.map_congr_left fun d hd ↦ ?_).trans (List.map_id _)
    exact (isHexDigit_hexChar d (lt_of_mem_msDigits (by decide) hd)).2
  rw [hexValue_eq_foldl_map, hexDigits_eq_map, List.map_map, hid]
  exact foldl_msDigits 16 v

theorem head?_hexDigits (h : (hexDigits v).head? = some 0x30#8) :
    v = 0 ∧ hexDigits v = [0x30#8] := by
  have hv : v = 0 := by
    by_contra hv
    have hne : (hexDigits v).head? ≠ some 48#8 := head?_numeral_ne (by decide) (by decide) hv
    exact hne h
  subst hv
  exact ⟨rfl, rfl⟩

theorem canonicalHex_hexDigits (hv : v < 2 ^ 32) : CanonicalHex v (hexDigits v) where
  pos := List.length_pos_of_ne_nil (numeral_ne_nil 16 hexChar v)
  length_le := length_hexDigits_le hv
  digit c hc := by
    rw [hexDigits_eq_map] at hc
    obtain ⟨d, hd, rfl⟩ := List.mem_map.mp hc
    exact (isHexDigit_hexChar d (lt_of_mem_msDigits (by decide) hd)).1
  leading := head?_hexDigits
  value := hexValue_hexDigits v

/-- **There is one canonical form of a number.** -/
theorem CanonicalHex.eq_hexDigits (h : CanonicalHex v l) : l = hexDigits v := by
  have hl : (l.map hexDigitValue).map hexChar = l := by
    rw [List.map_map]
    refine (List.map_congr_left fun c hc ↦ ?_).trans (List.map_id _)
    exact (hexChar_hexDigitValue c (h.digit c hc)).2
  have hdigits : ∀ d ∈ l.map hexDigitValue, d < 16 := by
    intro d hd
    obtain ⟨c, hc, rfl⟩ := List.mem_map.mp hd
    exact (hexChar_hexDigitValue c (h.digit c hc)).1
  have hne : l.map hexDigitValue ≠ [] := by
    rw [ne_eq, List.map_eq_nil_iff]
    exact List.ne_nil_of_length_pos h.pos
  have hlead : (l.map hexDigitValue).head? = some 0 → l.map hexDigitValue = [0] := by
    intro hzero
    rw [List.head?_map, Option.map_eq_some_iff] at hzero
    obtain ⟨c, hc, hval⟩ := hzero
    -- the digit 0 is the character `0`
    have hchar := (hexChar_hexDigitValue c (h.digit c (List.mem_of_head? hc))).2
    rw [hval] at hchar
    obtain rfl : c = 0x30#8 := hchar.symm
    rw [(h.leading hc).2]
    rfl
  have hvalue := hexValue_eq_foldl_map l
  rw [h.value] at hvalue
  rw [hexDigits_eq_map, hvalue, msDigits_foldl (by decide) hdigits hne hlead, hl]

/-! ## `itox` -/

variable {m : Memory} {p : ℕ}

/-- `itox` leaves the canonical form of the number at the string. -/
def WritesHex (m : Memory) (v : Word) (p : ℕ) (s : CString) : Prop :=
  ∃ m', itox m v (ptr p) = some m' ∧ s.At m' p

theorem writesHex_iff (m : Memory) (v : Word) (hp : 0 < p) (hfits : p + 8 < 2 ^ 32) {s : CString} :
    WritesHex m v p s ↔ s = hexString v := by
  have hlen : (hexString v).bytes.length ≤ 8 := length_hexDigits_le v.isLt
  obtain ⟨m', hitox, hat, -⟩ := itox_eq m v hp (by omega)
  rw [WritesHex, hitox]
  simp only [Option.some.injEq, exists_eq_left']
  exact ⟨fun hs ↦ hs.unique hat, fun hs ↦ hs ▸ hat⟩

/-- **`itox` writes the canonical form of a number, so it writes different strings for different
numbers.** -/
theorem itox_canonical (m : Memory) (v : Word) (hp : 0 < p) (hfits : p + 8 < 2 ^ 32) :
    ∃ s, WritesHex m v p s ∧ CanonicalHex v.toNat s.bytes ∧
      ∀ (n : Memory) (w : Word) (q : ℕ), 0 < q → q + 8 < 2 ^ 32 → WritesHex n w q s → w = v := by
  refine ⟨hexString v, (writesHex_iff m v hp hfits).mpr rfl, canonicalHex_hexDigits v.isLt, ?_⟩
  intro n w q hq hqfits hw
  have hbytes : hexDigits v.toNat = hexDigits w.toNat :=
    congrArg CString.bytes ((writesHex_iff n w hq hqfits).mp hw)
  apply BitVec.eq_of_toNat_eq
  rw [← hexValue_hexDigits w.toNat, ← hbytes, hexValue_hexDigits]

theorem itox_canonical_beef :
    ∃ s, WritesHex (fun _ ↦ 0x58#8) 0xBEEF#32 0x1000 s ∧ CanonicalHex 0xBEEF s.bytes ∧
      ∀ (n : Memory) (w : Word) (q : ℕ), 0 < q → q + 8 < 2 ^ 32 → WritesHex n w q s →
        w = 0xBEEF#32 :=
  itox_canonical _ _ (by decide) (by decide)

end Sugarcat
