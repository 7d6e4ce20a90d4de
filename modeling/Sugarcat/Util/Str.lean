import Sugarcat.Machine.Loop
import Sugarcat.Machine.Memory

/-!
# Strings

The string functions of `util/str.c`. A string is where it starts in memory, and its end is a zero
byte. `CString` is a list of bytes none of which is zero, so that it is exactly what can stand
before a terminator, and `CString.At m p s` says that `s` stands at position `p`.

## Scanning

Scanning for the end passes every address once before it comes back to the first one. So `strlen`
returns if there is a zero byte anywhere (`exists_strlen`), and it returns only then. Where a string
is known to stand at the address, the result is its length.

## Comparing

`strcmp` takes the length of its first argument and compares that many characters. It is 0 where the
first string is the beginning of the second, and otherwise the difference of the first two
characters that differ (`byteDiff`). What the functions that search a device tree rely on is
`strcmp_eq`.
-/

namespace Sugarcat

open ByteMemory

/-- The variables of the loop of `strlen`. -/
structure StrlenLoop where
  str : Addr
  ret : Word

def strlenStep (m : Memory) (l : StrlenLoop) : StrlenLoop ⊕ Word :=
  if m l.str ≠ 0#8 then .inl ⟨l.str + 1#32, l.ret + 1#32⟩ else .inr l.ret

/-- `none` when no byte of memory is zero, and the loop does not end. -/
def strlen (m : Memory) (str : Addr) : Option Word :=
  if str ≠ 0#32 then Loop.run (strlenStep m) (2 ^ 32) ⟨str, 0#32⟩ else some (-1#32)

/-- One pass of the loop of `strcmp`, with its index. The characters are unsigned, and those of
`str2` are not looked at beyond the length of `str1`. -/
def strcmpStep (m : Memory) (str1 str2 : Addr) (i : Word) : Word ⊕ Option ℤ :=
  match strlen m str1 with
  | none => .inr none
  | some len =>
    if i < len then
      if m (str1 + i) ≠ m (str2 + i) then
        .inr (some ((m (str1 + i)).toNat - (m (str2 + i)).toNat))
      else .inl (i + 1#32)
    else .inr (some 0)

def strcmp (m : Memory) (str1 str2 : Addr) : Option ℤ :=
  if str1 ≠ 0#32 ∧ str2 ≠ 0#32 then (Loop.run (strcmpStep m str1 str2) (2 ^ 32) 0#32).join
  else some 0

/-- The bytes `s` stand in memory from `p` on. -/
def BytesAt (m : Memory) (p : ℕ) (s : List Byte) : Prop :=
  ∀ i, (hi : i < s.length) → m (ptr (p + i)) = s[i]

instance (m : Memory) (p : ℕ) (s : List Byte) : Decidable (BytesAt m p s) :=
  inferInstanceAs (Decidable (∀ i, (hi : i < s.length) → m (ptr (p + i)) = s[i]))

/-- A string in C: no byte of it is the terminator. -/
@[ext] structure CString where
  bytes : List Byte
  nonzero : 0#8 ∉ bytes

/-- The string without a character. -/
def CString.empty : CString := ⟨[], List.not_mem_nil⟩

/-- The string and its terminator stand in memory from `p` on. -/
def CString.At (m : Memory) (p : ℕ) (s : CString) : Prop :=
  BytesAt m p s.bytes ∧ m (ptr (p + s.bytes.length)) = 0#8

instance (m : Memory) (p : ℕ) (s : CString) : Decidable (s.At m p) :=
  inferInstanceAs (Decidable (_ ∧ _))

variable {m : Memory} {p : ℕ}

theorem bytesAt_cons {b : Byte} {s : List Byte} :
    BytesAt m p (b :: s) ↔ m (ptr p) = b ∧ BytesAt m (p + 1) s := by
  have hidx : ∀ i, p + 1 + i = p + (i + 1) := fun i ↦ by omega
  constructor
  · intro h
    refine ⟨h 0 (by simp), ?_⟩
    intro i hi
    rw [hidx]
    exact h (i + 1) (by simpa using hi)
  · rintro ⟨h0, h⟩ i hi
    cases i with
    | zero => exact h0
    | succ i =>
      rw [← hidx]
      exact h i (by simpa using hi)

theorem BytesAt.congr {m' : Memory} {s : List Byte} (h : BytesAt m p s)
    (heq : ∀ i < s.length, m' (ptr (p + i)) = m (ptr (p + i))) : BytesAt m' p s :=
  fun i hi ↦ (heq i hi).trans (h i hi)

theorem BytesAt.of_eqOutside {F : Addr → Prop} {m' : Memory} {s : List Byte} (h : BytesAt m p s)
    (hm : EqOutside F m m') (hF : ∀ i < s.length, ¬F (ptr (p + i))) : BytesAt m' p s :=
  h.congr fun i hi ↦ hm _ (hF i hi)

theorem CString.At.of_eqOutside {F : Addr → Prop} {m' : Memory} {s : CString} (h : s.At m p)
    (hm : EqOutside F m m') (hF : ∀ i < s.bytes.length + 1, ¬F (ptr (p + i))) : s.At m' p :=
  ⟨h.1.of_eqOutside hm fun i hi ↦ hF i (Nat.lt_succ_of_lt hi),
    (hm _ (hF _ (Nat.lt_succ_self _))).trans h.2⟩

theorem CString.At.length_le {s t : CString} (hs : s.At m p) (ht : t.At m p) :
    s.bytes.length ≤ t.bytes.length := by
  by_contra hlt
  rw [not_le] at hlt
  exact s.nonzero ((hs.1 _ hlt).symm.trans ht.2 ▸ List.getElem_mem hlt)

theorem CString.At.unique {s t : CString} (hs : s.At m p) (ht : t.At m p) : s = t := by
  have hlen := le_antisymm (hs.length_le ht) (ht.length_le hs)
  exact CString.ext (List.ext_getElem hlen fun i hi hi' ↦ (hs.1 i hi).symm.trans (ht.1 i hi'))

theorem run_strlenStep {bytes : List Byte} (hnz : 0#8 ∉ bytes) (h : BytesAt m p bytes)
    (hend : m (ptr (p + bytes.length)) = 0#8) (n : ℕ) :
    Loop.run (strlenStep m) bytes.length ⟨ptr p, BitVec.ofNat 32 n⟩ =
      some (BitVec.ofNat 32 (n + bytes.length)) := by
  induction bytes generalizing p n with
  | nil =>
    refine Loop.run_of_exit ?_ _
    rw [strlenStep, if_neg (by simpa using hend)]
    simp
  | cons b bytes ih =>
    rw [bytesAt_cons] at h
    rw [List.mem_cons, not_or] at hnz
    have hstep : strlenStep m ⟨ptr p, BitVec.ofNat 32 n⟩ =
        .inl ⟨ptr (p + 1), BitVec.ofNat 32 (n + 1)⟩ := by
      rw [strlenStep, if_pos (by rw [h.1]; exact fun hb ↦ hnz.1 hb.symm), BitVec.ofNat_add,
        ← ptr_add]
    have hlen : p + (b :: bytes).length = p + 1 + bytes.length := by
      rw [List.length_cons]
      omega
    rw [hlen] at hend
    rw [List.length_cons, Loop.run_succ hstep, ih hnz.2 h.2 hend, Nat.add_assoc,
      Nat.add_comm 1 bytes.length]

theorem strlen_eq {s : CString} (h : s.At m p) (hpos : 0 < p)
    (hfits : p + s.bytes.length < 2 ^ 32) :
    strlen m (ptr p) = some (BitVec.ofNat 32 s.bytes.length) := by
  have hrun := run_strlenStep s.nonzero h.1 h.2 0
  rw [Nat.zero_add] at hrun
  rw [strlen, if_pos (ptr_ne_zero hpos (by omega))]
  exact Loop.run_mono (by omega) hrun

/-- One zero byte anywhere in memory is enough for `strlen` to return: the scan comes to it after
going around the address space at most once. -/
theorem exists_strlen {z : Addr} (hz : m z = 0#8) (str : Addr) :
    ∃ len, strlen m str = some len := by
  rw [strlen]
  by_cases hnull : str ≠ 0#32
  · rw [if_pos hnull]
    -- the distance to the zero byte
    refine Loop.exists_run_of_measure (I := fun _ ↦ True) (fun l ↦ (z - l.str).toNat) ?_ trivial
      (z - str).isLt.le
    rintro l l' - hstep
    have hne : m l.str ≠ 0#8 := by
      intro hl
      rw [strlenStep, if_neg (by simpa using hl)] at hstep
      exact absurd hstep (by simp)
    rw [strlenStep, if_pos hne, Sum.inl.injEq] at hstep
    subst hstep
    exact ⟨trivial, toNat_sub_add_one_lt fun hzl ↦ hne (hzl ▸ hz)⟩
  · exact ⟨_, if_neg hnull⟩

/-- A `strlen` that returns has met the end of the string. -/
theorem exists_zero_of_strlen {str : Addr} {len : Word} (h : strlen m str = some len)
    (hnull : str ≠ 0#32) : ∃ z, m z = 0#8 := by
  rw [strlen, if_pos hnull] at h
  refine Loop.run_invariant (I := fun _ ↦ True) (P := fun _ ↦ ∃ z, m z = 0#8)
    (fun _ _ _ _ ↦ trivial) (fun l len _ hexit ↦ ?_) trivial h
  rw [strlenStep] at hexit
  split_ifs at hexit with hl
  exact ⟨l.str, not_not.mp hl⟩

theorem lt_of_strlen {str : Addr} {len : Word} (h : strlen m str = some len) (hnull : str ≠ 0#32)
    {k : ℕ} (hchars : ∀ i ≤ k, m (str + ptr i) ≠ 0#8) : k < len.toNat := by
  rw [strlen, if_pos hnull] at h
  -- the scan has counted the characters it is past
  have hend : m (str + len) = 0#8 := by
    refine Loop.run_invariant (I := fun l ↦ l.str = str + l.ret)
      (P := fun len ↦ m (str + len) = 0#8) (fun l l' hl hstep ↦ ?_) (fun l len hl hexit ↦ ?_)
      (BitVec.add_zero str).symm h
    · rw [strlenStep] at hstep
      split_ifs at hstep
      obtain rfl := Sum.inl.inj hstep
      dsimp only
      rw [hl, add_assoc]
    · rw [strlenStep] at hexit
      split_ifs at hexit with hchar
      obtain rfl := Sum.inr.inj hexit
      rw [← hl]
      exact not_not.mp hchar
  by_contra hle
  refine hchars len.toNat (Nat.le_of_not_lt hle) ?_
  rwa [ptr_toNat]

/-- Up to any zero byte there is a string. -/
theorem exists_cString_at {z : ℕ} (hz : m (ptr z) = 0#8) (hpz : p ≤ z) :
    ∃ s : CString, s.At m p ∧ p + s.bytes.length ≤ z := by
  obtain ⟨k, hk⟩ : ∃ k, z = p + k := ⟨z - p, by omega⟩
  induction k generalizing p with
  | zero => exact ⟨.empty, ⟨fun i hi ↦ absurd hi (Nat.not_lt_zero i), hk ▸ hz⟩, hpz⟩
  | succ k ih =>
    by_cases hp : m (ptr p) = 0#8
    · exact ⟨.empty, ⟨fun i hi ↦ absurd hi (Nat.not_lt_zero i), hp⟩, hpz⟩
    · obtain ⟨s, ⟨hbytes, hend⟩, hle⟩ := ih (p := p + 1) (by omega) (by omega)
      have hnz : 0#8 ∉ m (ptr p) :: s.bytes := by
        rw [List.mem_cons, not_or]
        exact ⟨fun h ↦ hp h.symm, s.nonzero⟩
      have hlen : p + (m (ptr p) :: s.bytes).length = p + 1 + s.bytes.length := by
        rw [List.length_cons]
        omega
      exact ⟨⟨m (ptr p) :: s.bytes, hnz⟩,
        ⟨bytesAt_cons.mpr ⟨rfl, hbytes⟩, by rw [hlen]; exact hend⟩, by rw [hlen]; exact hle⟩

/-! ## Strings at an address -/

/-- The string `s` stands at `a`, below the top of memory. -/
structure LiteralAt (m : Memory) (a : Addr) (s : CString) : Prop where
  «at» : s.At m a.toNat
  pos : 0 < a.toNat
  fits : a.toNat + s.bytes.length < 2 ^ 32

instance (m : Memory) (a : Addr) (s : CString) : Decidable (LiteralAt m a s) :=
  decidable_of_iff (s.At m a.toNat ∧ 0 < a.toNat ∧ a.toNat + s.bytes.length < 2 ^ 32)
    ⟨fun h ↦ ⟨h.1, h.2.1, h.2.2⟩, fun h ↦ ⟨h.1, h.2, h.3⟩⟩

/-- The literal stands in memory, outside of `F`. -/
structure LiteralApart (F : Addr → Prop) (m : Memory) (a : Addr) (s : CString) : Prop where
  literal : LiteralAt m a s
  apart : ∀ i < s.bytes.length + 1, ¬F (ptr (a.toNat + i))

theorem LiteralAt.ne_null {a : Addr} {s : CString} (h : LiteralAt m a s) : a ≠ 0#32 :=
  ne_zero_of_toNat_pos h.pos

theorem LiteralAt.of_eqOutside {F : Addr → Prop} {m' : Memory} {a : Addr} {s : CString}
    (h : LiteralAt m a s)
    (hm : EqOutside F m m') (hF : ∀ i < s.bytes.length + 1, ¬F (ptr (a.toNat + i))) :
    LiteralAt m' a s :=
  ⟨h.at.of_eqOutside hm hF, h.pos, h.fits⟩

theorem LiteralApart.of_eqOutside {F : Addr → Prop} {m' : Memory} {a : Addr} {s : CString}
    (h : LiteralApart F m a s) (hm : EqOutside F m m') : LiteralAt m' a s :=
  h.literal.of_eqOutside hm h.apart

/-! ## Comparing -/

theorem exists_strcmp {z : Addr} (hz : m z = 0#8) (str1 str2 : Addr) :
    ∃ d, strcmp m str1 str2 = some d := by
  obtain ⟨len, hlen⟩ := exists_strlen hz str1
  rw [strcmp]
  split_ifs with hnull
  · refine Loop.exists_join_run (I := fun _ ↦ True) (fun i ↦ len.toNat - i.toNat) (fun i _ ↦ ?_)
      trivial (Nat.sub_le_of_le_add (by have := len.isLt; omega))
    rw [strcmpStep, hlen]
    dsimp only
    split_ifs with hi hne
    · exact Or.inl ⟨_, rfl⟩
    · rw [BitVec.lt_def] at hi
      have hlt := len.isLt
      refine Or.inr ⟨_, rfl, trivial, ?_⟩
      rw [BitVec.toNat_add, BitVec.toNat_ofNat]
      omega
    · exact Or.inl ⟨_, rfl⟩
  · exact ⟨0, rfl⟩

theorem strcmp_ne_zero {z str1 str2 : Addr} (hz : m z = 0#8) (h1 : str1 ≠ 0#32) (h2 : str2 ≠ 0#32)
    {k : ℕ} (hchars : ∀ i ≤ k, m (str1 + ptr i) ≠ 0#8) (hne : m (str1 + ptr k) ≠ m (str2 + ptr k)) :
    ∃ d, strcmp m str1 str2 = some d ∧ d ≠ 0 := by
  obtain ⟨len, hlen⟩ := exists_strlen hz str1
  have hlt := lt_of_strlen hlen h1 hchars
  obtain ⟨d, hd⟩ := exists_strcmp hz str1 str2
  refine ⟨d, hd, ?_⟩
  rw [strcmp, if_pos ⟨h1, h2⟩, Option.join_eq_some_iff] at hd
  -- the characters before the index are equal, so it is not past the different one
  refine Loop.run_invariant (I := fun i ↦ ∀ j < i.toNat, m (str1 + ptr j) = m (str2 + ptr j))
    (P := fun d ↦ ∀ e, d = some e → e ≠ 0) (fun i i' hi hstep ↦ ?_) (fun i d hi hexit ↦ ?_)
    (fun j hj ↦ absurd hj (Nat.not_lt_zero j)) hd d rfl
  · rw [strcmpStep, hlen] at hstep
    dsimp only at hstep
    split_ifs at hstep with hilen hchar
    obtain rfl := Sum.inl.inj hstep
    have hilen' := BitVec.lt_def.mp hilen
    have hlenlt := len.isLt
    intro j hj
    rw [BitVec.toNat_add_of_lt (by simp only [BitVec.toNat_ofNat]; omega)] at hj
    rcases Nat.lt_succ_iff_lt_or_eq.mp hj with hj | rfl
    · exact hi j hj
    · rw [ptr_toNat]
      exact not_not.mp hchar
  · rw [strcmpStep, hlen] at hexit
    dsimp only at hexit
    split_ifs at hexit with hilen hchar
    · obtain rfl := Sum.inr.inj hexit
      rintro e ⟨⟩ hzero
      exact hchar (BitVec.eq_of_toNat_eq (by omega))
    · rw [BitVec.not_lt, BitVec.le_def] at hilen
      exact absurd (hi k (by omega)) hne

variable {q : ℕ} {s t : CString}

theorem bytesAt_tail_head {b : Byte} {l : List Byte} {i : ℕ} (h : BytesAt m (p + i) (b :: l)) :
    m (ptr p + ptr i) = b ∧ BytesAt m (p + (i + 1)) l := by
  rw [bytesAt_cons] at h
  rw [ptr_add]
  exact ⟨h.1, by rw [← Nat.add_assoc]; exact h.2⟩

/-- What `strcmp` returns: the difference of the first characters that differ, within the length of
the first string. The end of the second string counts as a zero character. -/
def byteDiff : List Byte → List Byte → ℤ
  | [], _ => 0
  | b :: _, [] => b.toNat
  | b :: l, c :: r => if b = c then byteDiff l r else b.toNat - c.toNat

theorem toNat_pos_of_ne_zero {b : Byte} (hb : b ≠ 0#8) : 0 < b.toNat :=
  Nat.pos_of_ne_zero fun h ↦ hb (BitVec.eq_of_toNat_eq h)

theorem byteDiff_eq_zero_iff {l r : List Byte} (hl : 0#8 ∉ l) : byteDiff l r = 0 ↔ l <+: r := by
  induction l generalizing r with
  | nil => exact iff_of_true rfl List.nil_prefix
  | cons b l ih =>
    rw [List.mem_cons, not_or] at hl
    have hpos := toNat_pos_of_ne_zero fun h : b = 0#8 ↦ hl.1 h.symm
    cases r with
    | nil =>
      rw [byteDiff]
      exact iff_of_false (by omega) (by simp)
    | cons c r =>
      rw [byteDiff, List.cons_prefix_cons]
      split_ifs with hbc
      · rw [ih hl.2, and_iff_right hbc]
      · refine iff_of_false (fun hzero ↦ hbc (BitVec.eq_of_toNat_eq ?_)) fun h ↦ hbc h.1
        omega

theorem run_strcmpStep {len : Word} (hlen : strlen m (ptr p) = some len) {l r : List Byte}
    (hl : 0#8 ∉ l) {i : ℕ} (hi : i + l.length = len.toNat) (hp : BytesAt m (p + i) l)
    (hq : BytesAt m (q + i) r) (hend : m (ptr (q + i + r.length)) = 0#8) :
    Loop.run (strcmpStep m (ptr p) (ptr q)) l.length (ptr i) = some (some (byteDiff l r)) := by
  have hlt := len.isLt
  induction l generalizing r i with
  | nil =>
    rw [List.length_nil] at hi
    refine Loop.run_of_exit ?_ _
    rw [strcmpStep, hlen]
    dsimp only
    rw [if_neg, byteDiff]
    rw [BitVec.lt_def, toNat_ptr (by omega)]
    omega
  | cons b l ih =>
    rw [List.length_cons] at hi
    obtain ⟨hb, hp⟩ := bytesAt_tail_head hp
    have hstep : strcmpStep m (ptr p) (ptr q) (ptr i) =
        if b ≠ m (ptr q + ptr i) then .inr (some (b.toNat - (m (ptr q + ptr i)).toNat))
        else .inl (ptr i + 1#32) := by
      rw [strcmpStep, hlen]
      dsimp only
      rw [if_pos, hb]
      rw [BitVec.lt_def, toNat_ptr (by omega)]
      omega
    cases r with
    | nil =>
      have hzero : m (ptr q + ptr i) = 0#8 := by
        rw [ptr_add]
        exact hend
      have hne : b ≠ 0#8 := by
        rintro rfl
        exact hl List.mem_cons_self
      rw [hzero, if_pos hne] at hstep
      rw [Loop.run_of_exit hstep, byteDiff, BitVec.toNat_ofNat]
      exact congrArg _ (congrArg _ (sub_zero _))
    | cons c r =>
      obtain ⟨hc, hq⟩ := bytesAt_tail_head hq
      rw [hc] at hstep
      rw [byteDiff]
      by_cases hbc : b = c
      · rw [if_neg (not_not.mpr hbc)] at hstep
        have hend' : m (ptr (q + (i + 1) + r.length)) = 0#8 := by
          rw [← hend, List.length_cons, Nat.add_assoc, Nat.add_assoc, Nat.add_assoc,
            Nat.add_comm 1 r.length]
        rw [List.length_cons, Loop.run_succ hstep, ptr_add_one, if_pos hbc]
        exact ih (fun h ↦ hl (List.mem_cons_of_mem _ h)) (by omega) hp hq hend'
      · -- a difference ends the loop
        rw [if_pos hbc] at hstep
        rw [Loop.run_of_exit hstep, if_neg hbc]

theorem strcmp_eq_byteDiff (hs : s.At m p) (ht : t.At m q) (hp : 0 < p) (hq : 0 < q)
    (hps : p + s.bytes.length < 2 ^ 32) (hqt : q + t.bytes.length < 2 ^ 32) :
    strcmp m (ptr p) (ptr q) = some (byteDiff s.bytes t.bytes) := by
  have hrun := run_strcmpStep (i := 0) (strlen_eq hs hp hps) s.nonzero
    (by rw [Nat.zero_add, toNat_ptr (by omega)]) hs.1 ht.1 ht.2
  rw [strcmp, if_pos ⟨ptr_ne_zero hp (by omega), ptr_ne_zero hq (by omega)⟩,
    Loop.run_mono (by omega) hrun, Option.join_some]

/-- **`strcmp` is zero where the first string is the beginning of the second.** -/
theorem strcmp_eq (hs : s.At m p) (ht : t.At m q) (hp : 0 < p) (hq : 0 < q)
    (hps : p + s.bytes.length < 2 ^ 32) (hqt : q + t.bytes.length < 2 ^ 32) :
    ∃ d, strcmp m (ptr p) (ptr q) = some d ∧ (d = 0 ↔ s.bytes <+: t.bytes) :=
  ⟨_, strcmp_eq_byteDiff hs ht hp hq hps hqt, byteDiff_eq_zero_iff s.nonzero⟩

end Sugarcat
