import Sugarcat.Util.Format

/-!
# Scans of a format

What the loops of the formatted printers have in common: an index that moves by one over an ordinary
character, and by two over a directive, until it is at the terminator. A pass looks at the character
at its index, and where that is a `%` at the next one.

`FormatScan` is that interface. It takes the step of a loop and how to read the index and the memory
from its state, so that the three printers, whose states differ, share the argument below.

## The end of the format

A directive at the very end of the format takes the index over the terminator, and the scan goes on
behind it. `FormatScan.stopsAtEnd_iff` says that this is the only way. In one direction the index of
a format that ends properly is always at the beginning of a piece, which is an invariant of the
loop. In the other direction the scan is followed up to the last directive, and one pass more.
-/

namespace Sugarcat

open ByteMemory

variable {σ β : Type*}

/-- The loop scans the format at `format`, as long as there is a zero byte anywhere in memory. -/
structure FormatScan (step : σ → σ ⊕ β) (index : σ → Word) (mem : σ → Memory) (format : Addr) :
    Prop where
  stop : ∀ l, mem l (format + index l) = 0#8 → ∃ b, step l = .inr b
  char : ∀ l, mem l (format + index l) ≠ 0#8 → mem l (format + index l) ≠ 0x25#8 →
    ∃ l', step l = .inl l' ∧ index l' = index l + 1#32
  directive : ∀ l, mem l (format + index l) = 0x25#8 → (∃ z, mem l z = 0#8) →
    ∃ l', step l = .inl l' ∧ index l' = index l + 2#32

/-- Some pass of the loop from `s` on reads the character at `k`. -/
def ReadsChar (step : σ → σ ⊕ β) (index : σ → Word) (mem : σ → Memory) (format : Addr) (s : σ)
    (k : Word) : Prop :=
  ∃ l, Loop.Visits step s l ∧
    (k = index l ∨ mem l (format + index l) = 0x25#8 ∧ k = index l + 1#32)

/-- No pass reads behind the terminator of a format of `n` characters. -/
def StopsAtEnd (step : σ → σ ⊕ β) (index : σ → Word) (mem : σ → Memory) (format : Addr) (s : σ)
    (n : ℕ) : Prop :=
  ∀ k, ReadsChar step index mem format s k → k.toNat ≤ n

/-- While the loop is inside the format, the format is not written to. -/
def KeepsFormat (step : σ → σ ⊕ β) (index : σ → Word) (mem : σ → Memory) (format : Addr) (s : σ)
    (fmt : CString) : Prop :=
  ∀ l, Loop.Visits step s l → (index l).toNat ≤ fmt.bytes.length → fmt.At (mem l) format.toNat

variable {step : σ → σ ⊕ β} {index : σ → Word} {mem : σ → Memory} {format : Addr} {s l l' : σ}
  {fmt : CString} {i : ℕ}

/-! ## One pass -/

theorem CString.At.drop_eq {m : Memory} (h : fmt.At m format.toNat) (hi : i ≤ fmt.bytes.length) :
    m (format + ptr i) = 0#8 ∧ fmt.bytes.drop i = [] ∧ i = fmt.bytes.length ∨
      ∃ b, m (format + ptr i) = b ∧ b ≠ 0#8 ∧ fmt.bytes.drop i = b :: fmt.bytes.drop (i + 1) ∧
        i < fmt.bytes.length := by
  have hread : m (format + ptr i) = m (ptr (format.toNat + i)) := by rw [← ptr_add, ptr_toNat]
  rcases hi.eq_or_lt with rfl | hlt
  · exact Or.inl ⟨hread.trans h.2, List.drop_length, rfl⟩
  · have hb : m (format + ptr i) = fmt.bytes[i] := hread.trans (h.1 i hlt)
    refine Or.inr ⟨_, hb, fun hzero ↦ ?_, List.drop_eq_getElem_cons hlt, hlt⟩
    exact fmt.nonzero (hzero ▸ List.getElem_mem hlt)

/-- A pass inside the format, from what is left of the format there. -/
theorem FormatScan.pass (h : FormatScan step index mem format) (hat : fmt.At (mem l) format.toNat)
    (hindex : index l = ptr i) (hi : i ≤ fmt.bytes.length) :
    (∃ b, step l = .inr b) ∧ fmt.bytes.drop i = [] ∨
      ∃ b l', step l = .inl l' ∧ fmt.bytes.drop i = b :: fmt.bytes.drop (i + 1) ∧
        i < fmt.bytes.length ∧ (b ≠ 0x25#8 ∧ index l' = ptr (i + 1) ∨
          b = 0x25#8 ∧ index l' = ptr (i + 2)) := by
  rcases hat.drop_eq hi with ⟨hzero, hnil, -⟩ | ⟨b, hb, hne, hcons, hlt⟩
  · exact Or.inl ⟨h.stop l (by rw [hindex]; exact hzero), hnil⟩
  · refine Or.inr ?_
    by_cases hpercent : b = 0x25#8
    · obtain ⟨l', hstep, hnext⟩ := h.directive l (by rw [hindex, hb, hpercent]) ⟨_, hat.2⟩
      exact ⟨b, l', hstep, hcons, hlt, Or.inr ⟨hpercent, by rw [hnext, hindex]; exact ptr_add i 2⟩⟩
    · obtain ⟨l', hstep, hnext⟩ := h.char l (by rw [hindex, hb]; exact hne)
        (by rw [hindex, hb]; exact hpercent)
      exact ⟨b, l', hstep, hcons, hlt, Or.inl ⟨hpercent, by rw [hnext, hindex, ptr_add_one]⟩⟩

/-! ## Formats that end properly -/

/-- The index is in the format, and not at a directive that the format breaks off. -/
def ScanInside (fmt : CString) (i : ℕ) : Prop :=
  i ≤ fmt.bytes.length ∧ ¬LonePercent (fmt.bytes.drop i)

theorem FormatScan.scanInside (h : FormatScan step index mem format)
    (hat : fmt.At (mem l) format.toNat) (hindex : index l = ptr i) (hin : ScanInside fmt i)
    (hstep : step l = .inl l') : ∃ j, index l' = ptr j ∧ ScanInside fmt j := by
  obtain ⟨hi, hlone⟩ := hin
  rcases h.pass hat hindex hi with ⟨⟨b, hexit⟩, -⟩ | ⟨b, l'', hgo, hcons, hlt, hb⟩
  · exact absurd (hstep.symm.trans hexit) (by simp)
  obtain rfl := Sum.inl.inj (hgo.symm.trans hstep)
  rw [hcons] at hlone
  rcases hb with ⟨hb, hnext⟩ | ⟨rfl, hnext⟩
  · exact ⟨i + 1, hnext, hlt, (lonePercent_cons hb _).not.mp hlone⟩
  · -- there is a character behind the `%`
    rcases Nat.lt_or_ge (i + 1) fmt.bytes.length with hlt' | hge
    · refine ⟨i + 2, hnext, hlt', ?_⟩
      rw [List.drop_eq_getElem_cons hlt'] at hlone
      exact (lonePercent_cons_cons _ _).not.mp hlone
    · rw [List.drop_eq_nil_of_le hge] at hlone
      exact absurd lonePercent_singleton hlone

/-- The index of a format that ends properly stays inside of it. -/
theorem FormatScan.scanInside_of_visits (h : FormatScan step index mem format)
    (hkeep : KeepsFormat step index mem format s fmt) (hfits : fmt.bytes.length < 2 ^ 32)
    (hs : index s = 0#32) (hlone : ¬LonePercent fmt.bytes) (hl : Loop.Visits step s l) :
    ∃ i, index l = ptr i ∧ ScanInside fmt i := by
  induction hl with
  | refl => exact ⟨0, hs, Nat.zero_le _, hlone⟩
  | @tail l l' hl hstep ih =>
    obtain ⟨i, hi, hin⟩ := ih
    have hle : (index l).toNat ≤ fmt.bytes.length := by
      rw [hi, toNat_ptr (hin.1.trans_lt hfits)]
      exact hin.1
    exact h.scanInside (hkeep l hl hle) hi hin hstep

/-! ## Formats that break off -/

/-- At a directive that breaks off, the index goes behind the terminator. -/
theorem FormatScan.exists_visits_behind (h : FormatScan step index mem format)
    (hkeep : KeepsFormat step index mem format s fmt) (hfits : fmt.bytes.length < 2 ^ 32)
    (hl : Loop.Visits step s l) (hindex : index l = ptr i) (hi : i ≤ fmt.bytes.length)
    (hlone : LonePercent (fmt.bytes.drop i)) :
    ∃ l', Loop.Visits step s l' ∧ index l' = ptr (fmt.bytes.length + 1) := by
  -- induction on what is left of the format
  obtain ⟨n, hn⟩ : ∃ n, fmt.bytes.length - i = n := ⟨_, rfl⟩
  induction n using Nat.strongRecOn generalizing i l with
  | _ n ih =>
    have hat := hkeep l hl (by rw [hindex, toNat_ptr (by omega)]; exact hi)
    rcases h.pass hat hindex hi with ⟨-, hnil⟩ | ⟨b, l', hgo, hcons, hlt, hb⟩
    · rw [hnil] at hlone
      exact absurd hlone not_lonePercent_nil
    rw [hcons] at hlone
    have hl' : Loop.Visits step s l' := hl.tail hgo
    rcases hb with ⟨hb, hnext⟩ | ⟨rfl, hnext⟩
    · exact ih _ (by omega) hl' hnext (by omega) ((lonePercent_cons hb _).mp hlone) rfl
    · rcases Nat.lt_or_ge (i + 1) fmt.bytes.length with hlt' | hge
      · rw [List.drop_eq_getElem_cons hlt'] at hlone
        exact ih _ (by omega) hl' hnext (by omega) ((lonePercent_cons_cons _ _).mp hlone) rfl
      · have hlast : i + 2 = fmt.bytes.length + 1 := by omega
        exact ⟨l', hl', hlast ▸ hnext⟩

/-- **A scan stops at the end of the format exactly when the format does not break off.** -/
theorem FormatScan.stopsAtEnd_iff (h : FormatScan step index mem format)
    (hfmt : LiteralAt (mem s) format fmt) (hkeep : KeepsFormat step index mem format s fmt)
    (hs : index s = 0#32) :
    StopsAtEnd step index mem format s fmt.bytes.length ↔ ¬LonePercent fmt.bytes := by
  have hpos := hfmt.pos
  have hfits := hfmt.fits
  constructor
  · intro hstops hlone
    obtain ⟨l, hl, hindex⟩ := h.exists_visits_behind (i := 0) hkeep (by omega) .refl hs
      (Nat.zero_le _) hlone
    have hle := hstops _ ⟨l, hl, Or.inl rfl⟩
    rw [hindex, toNat_ptr (by omega)] at hle
    omega
  · rintro hlone k ⟨l, hl, hk⟩
    obtain ⟨i, hindex, hi, hin⟩ := h.scanInside_of_visits hkeep (by omega) hs hlone hl
    have hnat : (index l).toNat = i := by rw [hindex, toNat_ptr (by omega)]
    rcases hk with rfl | ⟨hpercent, rfl⟩
    · exact hnat.trans_le hi
    · -- what is read as a `%` is not the terminator
      have hat := hkeep l hl (hnat.trans_le hi)
      rcases hat.drop_eq hi with ⟨hzero, -, -⟩ | ⟨b, -, -, -, hlt⟩
      · rw [hindex, hzero] at hpercent
        exact absurd hpercent (by decide)
      · rw [hindex, ptr_add_one, toNat_ptr (by omega)]
        exact hlt

end Sugarcat
