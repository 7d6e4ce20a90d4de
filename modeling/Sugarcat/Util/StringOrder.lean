import Sugarcat.Util.Str

/-!
# The order of strings

`strcmp` is not positive exactly where the first string comes before the second in lexicographic
order or is equal to it, so being not positive is transitive. It looks at no more characters than
the first string has, though, and so it is 0 as well where the second string is longer.

## What is expected

An order should change its sign when its arguments are turned around. That holds where neither
string is the beginning of the other, and where the two are equal. For a string and a longer one
that begins with it, one of the two results is 0 and the other one is not. `OrdersStrings` is what
one expects of a comparison of three strings, and `ordersStrings_iff` says for which strings
`strcmp` is one.

## The difference

What is compared are the lists of characters, by `byteDiff`, the difference of the first two that
differ. Its sign is the lexicographic order of lists of bytes, which is a linear order, so that
transitivity is not proved here again. That no character is zero is used where the first string is
the longer one: the terminator of the second is then less than the character it is compared with.
-/

namespace Sugarcat

open ByteMemory

variable {l r : List Byte}

/-- **The sign of the difference is the lexicographic order.** -/
theorem byteDiff_nonpos_iff (hl : 0#8 ∉ l) : byteDiff l r ≤ 0 ↔ l ≤ r := by
  induction l generalizing r with
  | nil => exact iff_of_true le_rfl (List.nil_le r)
  | cons b l ih =>
    rw [List.mem_cons, not_or] at hl
    cases r with
    | nil =>
      have hpos := toNat_pos_of_ne_zero fun h : b = 0#8 ↦ hl.1 h.symm
      rw [byteDiff]
      refine iff_of_false (by omega) (List.not_le.mpr ?_)
      exact List.nil_lt_cons b l
    | cons c r =>
      rw [byteDiff, List.cons_le_cons_iff, BitVec.lt_def]
      split_ifs with hbc
      · subst hbc
        rw [ih hl.2, and_iff_right rfl, or_iff_right (lt_irrefl _)]
      · have hne : b.toNat ≠ c.toNat := fun h ↦ hbc (BitVec.eq_of_toNat_eq h)
        rw [or_iff_left fun h ↦ hbc h.1]
        omega

/-- Where neither string is the beginning of the other, turning them around changes the sign. -/
theorem byteDiff_swap (hlr : ¬l <+: r) (hrl : ¬r <+: l) : byteDiff r l = -byteDiff l r := by
  induction l generalizing r with
  | nil => exact absurd List.nil_prefix hlr
  | cons b l ih =>
    cases r with
    | nil => exact absurd List.nil_prefix hrl
    | cons c r =>
      rw [byteDiff, byteDiff]
      by_cases hbc : b = c
      · subst hbc
        rw [List.prefix_cons_inj] at hlr hrl
        rw [if_pos rfl, if_pos rfl]
        exact ih hlr hrl
      · rw [if_neg hbc, if_neg fun h ↦ hbc h.symm, neg_sub]

theorem sign_byteDiff_iff (hl : 0#8 ∉ l) (hr : 0#8 ∉ r) :
    (byteDiff l r).sign = -(byteDiff r l).sign ↔ (l <+: r ↔ r <+: l) := by
  by_cases hlr : l <+: r
  · rw [(byteDiff_eq_zero_iff hl).mpr hlr, Int.sign_zero, zero_eq_neg, Int.sign_eq_zero_iff_zero,
      byteDiff_eq_zero_iff hr, iff_true_left hlr]
  · rw [iff_false_left hlr]
    by_cases hrl : r <+: l
    · rw [(byteDiff_eq_zero_iff hr).mpr hrl, Int.sign_zero, neg_zero, Int.sign_eq_zero_iff_zero,
        byteDiff_eq_zero_iff hl]
      exact iff_of_false hlr (not_not.mpr hrl)
    · rw [byteDiff_swap hlr hrl, Int.sign_neg, neg_neg]
      exact iff_of_true rfl hrl

/-! ## `strcmp` -/

/-- `strcmp` returns a number that is not positive. -/
def StrcmpNonpos (m : Memory) (a b : Addr) : Prop := ∃ d ≤ 0, strcmp m a b = some d

/-- What is expected of an order, at the strings `s`, `t` and a third one. -/
structure OrdersStrings (m : Memory) (a b c : Addr) (s t : CString) : Prop where
  equal : strcmp m a b = some 0 ↔ s = t
  opposite : ∃ d e, strcmp m a b = some d ∧ strcmp m b a = some e ∧ d.sign = -e.sign
  trans : StrcmpNonpos m a b → StrcmpNonpos m b c → StrcmpNonpos m a c

variable {m : Memory} {a b c : Addr} {s t u : CString}

theorem LiteralAt.strcmp_eq (hs : LiteralAt m a s) (ht : LiteralAt m b t) :
    strcmp m a b = some (byteDiff s.bytes t.bytes) := by
  have h := strcmp_eq_byteDiff hs.at ht.at hs.pos ht.pos hs.fits ht.fits
  rwa [ptr_toNat, ptr_toNat] at h

theorem LiteralAt.strcmpNonpos_iff (hs : LiteralAt m a s) (ht : LiteralAt m b t) :
    StrcmpNonpos m a b ↔ s.bytes ≤ t.bytes := by
  rw [StrcmpNonpos, hs.strcmp_eq ht, ← byteDiff_nonpos_iff s.nonzero]
  constructor
  · rintro ⟨d, hd, heq⟩
    exact (Option.some_inj.mp heq).le.trans hd
  · exact fun h ↦ ⟨_, h, rfl⟩

/-- **`strcmp` orders strings of which neither is the beginning of the other.** -/
theorem ordersStrings_iff (hs : LiteralAt m a s) (ht : LiteralAt m b t) (hu : LiteralAt m c u) :
    OrdersStrings m a b c s t ↔ (s.bytes <+: t.bytes ∨ t.bytes <+: s.bytes → s = t) := by
  have hequal : strcmp m a b = some 0 ↔ s.bytes <+: t.bytes := by
    rw [hs.strcmp_eq ht, Option.some_inj, byteDiff_eq_zero_iff s.nonzero]
  have hopposite : (∃ d e, strcmp m a b = some d ∧ strcmp m b a = some e ∧ d.sign = -e.sign)
      ↔ (s.bytes <+: t.bytes ↔ t.bytes <+: s.bytes) := by
    rw [hs.strcmp_eq ht, ht.strcmp_eq hs, ← sign_byteDiff_iff s.nonzero t.nonzero]
    constructor
    · rintro ⟨d, e, hd, he, hsign⟩
      rwa [← Option.some_inj.mp hd, ← Option.some_inj.mp he] at hsign
    · exact fun hsign ↦ ⟨_, _, rfl, rfl, hsign⟩
  constructor
  · rintro ⟨heq, hopp, -⟩ (hst | hts)
    · exact heq.mp (hequal.mpr hst)
    · exact heq.mp (hequal.mpr ((hopposite.mp hopp).mpr hts))
  · intro h
    refine ⟨hequal.trans ⟨fun hst ↦ h (Or.inl hst), ?_⟩, hopposite.mpr ⟨?_, ?_⟩, ?_⟩
    · rintro rfl
      exact List.prefix_rfl
    · intro hst
      rw [h (Or.inl hst)]
    · intro hts
      rw [h (Or.inr hts)]
    · rw [hs.strcmpNonpos_iff ht, ht.strcmpNonpos_iff hu, hs.strcmpNonpos_iff hu]
      exact List.le_trans

theorem zero_notMem_letters : 0#8 ∉ [0x61#8, 0x62#8] ∧ 0#8 ∉ [0x61#8] ∧ 0#8 ∉ [0x62#8] := by decide

/-- `ab` at `0x1000`, `a` at `0x1004` and `b` at `0x1008`. -/
def lettersMemory : Memory := fun x ↦
  ([0x61#8, 0x62#8, 0#8, 0#8, 0x61#8, 0#8, 0#8, 0#8, 0x62#8] : List Byte).getD
    (x - 0x1000#32).toNat 0#8

theorem literalAt_letters :
    LiteralAt lettersMemory 0x1000#32 ⟨_, zero_notMem_letters.1⟩ ∧
      LiteralAt lettersMemory 0x1004#32 ⟨_, zero_notMem_letters.2.1⟩ ∧
      LiteralAt lettersMemory 0x1008#32 ⟨_, zero_notMem_letters.2.2⟩ := by
  decide +kernel

theorem ordersStrings_iff_letters :
    OrdersStrings lettersMemory 0x1000#32 0x1008#32 0x1004#32 ⟨_, zero_notMem_letters.1⟩
      ⟨_, zero_notMem_letters.2.2⟩ :=
  (ordersStrings_iff literalAt_letters.1 literalAt_letters.2.2 literalAt_letters.2.1).mpr
    fun h ↦ absurd h (by decide)

/-- `a` is taken to be equal to `ab`, but not the other way around. -/
theorem not_ordersStrings_letters :
    LiteralAt lettersMemory 0x1004#32 ⟨_, zero_notMem_letters.2.1⟩ ∧
      LiteralAt lettersMemory 0x1000#32 ⟨_, zero_notMem_letters.1⟩ ∧
      strcmp lettersMemory 0x1004#32 0x1000#32 = some 0 ∧
      strcmp lettersMemory 0x1000#32 0x1004#32 = some 0x62 ∧
      ¬OrdersStrings lettersMemory 0x1004#32 0x1000#32 0x1008#32 ⟨_, zero_notMem_letters.2.1⟩
        ⟨_, zero_notMem_letters.1⟩ := by
  obtain ⟨hab, ha, -⟩ := literalAt_letters
  have hcmp := ha.strcmp_eq hab
  refine ⟨ha, hab, hcmp, hab.strcmp_eq ha, ?_⟩
  intro h
  have hlen := congrArg (fun s : CString ↦ s.bytes.length) (h.equal.mp hcmp)
  exact absurd hlen (by decide)

end Sugarcat
