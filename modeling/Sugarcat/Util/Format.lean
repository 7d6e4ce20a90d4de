import Sugarcat.Util.Decimal

/-!
# Formats

What a format says. A format with its arguments is a list of pieces: ordinary characters, and
directives together with the argument that each of them takes. A piece knows what it looks like in
the format, which arguments it takes, and the text it stands for.

## What must hold of an argument

A directive `%s` takes the address of a string, so what it stands for depends on memory, and on a
part of it that the printer must not overwrite. `Piece.Ready F m` says so: the string is there, and
outside of the addresses `F` that the printer writes.

## Formats that break off

The `%` of an unknown directive takes the character behind it away, so a format may also end in the
middle of a directive. It does where the number of `%` at its end is odd, which is `LonePercent`, a
test on the bytes of the format alone.

Every other format is made of pieces, whatever its arguments are (`exists_pieces`), so nothing is
lost when the printers are specified on lists of pieces. The proof goes along the format, one
character or one directive at a time, and it is by length because a directive takes two.
-/

namespace Sugarcat

open ByteMemory

/-! ## Pieces -/

/-- The letters of the directives. -/
def directiveLetters : List Byte := [0x78#8, 0x69#8, 0x73#8, 0x63#8]

/-- A part of a format, with the argument that it takes. -/
inductive Piece where
  | char (b : Byte) (hzero : b ≠ 0#8) (hpercent : b ≠ 0x25#8)
  | unknown (d : Byte) (hzero : d ≠ 0#8) (hletter : d ∉ directiveLetters)
  | hex (v : Word)
  | int (v : Word)
  | str (a : Addr) (s : CString)
  | chr (v : Word)

namespace Piece

/-- The characters in the format. -/
def bytes : Piece → List Byte
  | char b _ _ => [b]
  | unknown d _ _ => [0x25#8, d]
  | hex _ => [0x25#8, 0x78#8]
  | int _ => [0x25#8, 0x69#8]
  | str _ _ => [0x25#8, 0x73#8]
  | chr _ => [0x25#8, 0x63#8]

/-- The arguments, of which there is at most one. -/
def args : Piece → List Word
  | char _ _ _ | unknown _ _ _ => []
  | hex v | int v | chr v => [v]
  | str a _ => [a]

/-- What the piece stands for. -/
def text : Piece → List Byte
  | char b _ _ => [b]
  | unknown _ _ _ => []
  | hex v => hexDigits v.toNat
  | int v => intDigits v.toInt
  | str _ s => s.bytes
  | chr v => [v.truncate 8]

/-- The string of `%s` stands in memory, outside of `F`, and the number of `%i` fits the scratch
buffer. -/
def Ready (F : Addr → Prop) (m : Memory) : Piece → Prop
  | int v => -1000000000 < v.toInt
  | str a s => LiteralApart F m a s
  | _ => True

theorem zero_notMem_bytes (c : Piece) : 0#8 ∉ c.bytes := by
  cases c with
  | char b hzero _ => exact fun h ↦ hzero (List.mem_singleton.mp h).symm
  | unknown d hzero _ =>
    rw [bytes, List.mem_cons, List.mem_singleton, not_or]
    exact ⟨by decide, fun h ↦ hzero h.symm⟩
  | hex _ | int _ | str _ _ | chr _ =>
    rw [bytes]
    decide

theorem Ready.of_eqOutside {F : Addr → Prop} {m m' : Memory} {c : Piece} (h : c.Ready F m)
    (hm : EqOutside F m m') : c.Ready F m' := by
  cases c with
  | str a s => exact ⟨LiteralApart.of_eqOutside h hm, h.apart⟩
  | int v => exact h
  | char _ _ _ | unknown _ _ _ | hex _ | chr _ => trivial

/-- The character of `%c` is not the terminator. -/
def Visible : Piece → Prop
  | chr v => v.truncate 8 ≠ 0#8
  | _ => True

theorem Visible.zero_notMem_text {c : Piece} (h : c.Visible) : 0#8 ∉ c.text := by
  cases c with
  | char b hzero _ => exact fun hb ↦ hzero (List.mem_singleton.mp hb).symm
  | unknown _ _ _ => exact List.not_mem_nil
  | hex v => exact zero_notMem_hexDigits _
  | int v => exact zero_notMem_intDigits _
  | str _ s => exact s.nonzero
  | chr v => exact fun hb ↦ h (List.mem_singleton.mp hb).symm

end Piece

def formatOf (cs : List Piece) : List Byte := cs.flatMap Piece.bytes

def argsOf (cs : List Piece) : List Word := cs.flatMap Piece.args

def textOf (cs : List Piece) : List Byte := cs.flatMap Piece.text

theorem formatOf_append (cs ds : List Piece) : formatOf (cs ++ ds) = formatOf cs ++ formatOf ds :=
  List.flatMap_append

theorem argsOf_append (cs ds : List Piece) : argsOf (cs ++ ds) = argsOf cs ++ argsOf ds :=
  List.flatMap_append

theorem textOf_append (cs ds : List Piece) : textOf (cs ++ ds) = textOf cs ++ textOf ds :=
  List.flatMap_append

theorem zero_notMem_formatOf (cs : List Piece) : 0#8 ∉ formatOf cs := by
  rw [formatOf, List.mem_flatMap]
  rintro ⟨c, -, hc⟩
  exact c.zero_notMem_bytes hc

theorem zero_notMem_textOf {cs : List Piece} (h : ∀ c ∈ cs, c.Visible) : 0#8 ∉ textOf cs := by
  rw [textOf, List.mem_flatMap]
  rintro ⟨c, hc, hb⟩
  exact (h c hc).zero_notMem_text hb

def formatString (cs : List Piece) : CString := ⟨formatOf cs, zero_notMem_formatOf cs⟩

/-- Ordinary characters. -/
def charsOf (s : List Byte) (h : ∀ b ∈ s, b ≠ 0#8 ∧ b ≠ 0x25#8) : List Piece :=
  s.attach.map fun b ↦ .char b.1 (h b.1 b.2).1 (h b.1 b.2).2

theorem flatMap_charsOf {α : Type*} {s : List Byte} (h : ∀ b ∈ s, b ≠ 0#8 ∧ b ≠ 0x25#8)
    (g : Piece → List α) (g' : Byte → List α) (hg : ∀ b h₀ h₁, g (.char b h₀ h₁) = g' b) :
    (charsOf s h).flatMap g = s.flatMap g' := by
  have hattach : ∀ l : List {b // b ∈ s}, (l.map fun b ↦
      (Piece.char b.1 (h b.1 b.2).1 (h b.1 b.2).2)).flatMap g = (l.map Subtype.val).flatMap g' := by
    intro l
    rw [List.flatMap_map, List.flatMap_map]
    exact List.flatMap_congr fun b _ ↦ hg _ _ _
  rw [charsOf, hattach, List.attach_map_subtype_val]

theorem formatOf_charsOf {s : List Byte} (h : ∀ b ∈ s, b ≠ 0#8 ∧ b ≠ 0x25#8) :
    formatOf (charsOf s h) = s :=
  (flatMap_charsOf h _ (fun b ↦ [b]) fun _ _ _ ↦ rfl).trans s.flatMap_singleton'

theorem textOf_charsOf {s : List Byte} (h : ∀ b ∈ s, b ≠ 0#8 ∧ b ≠ 0x25#8) :
    textOf (charsOf s h) = s :=
  (flatMap_charsOf h _ (fun b ↦ [b]) fun _ _ _ ↦ rfl).trans s.flatMap_singleton'

theorem argsOf_charsOf {s : List Byte} (h : ∀ b ∈ s, b ≠ 0#8 ∧ b ≠ 0x25#8) :
    argsOf (charsOf s h) = [] :=
  (flatMap_charsOf h _ (fun _ ↦ []) fun _ _ _ ↦ rfl).trans (by simp)

theorem ready_of_mem_charsOf {F : Addr → Prop} {m : Memory} {s : List Byte}
    (h : ∀ b ∈ s, b ≠ 0#8 ∧ b ≠ 0x25#8) {c : Piece} (hc : c ∈ charsOf s h) : c.Ready F m := by
  obtain ⟨b, -, rfl⟩ := List.mem_map.mp hc
  trivial

/-! ## Formats that end in a directive -/

/-- The number of `%` at the end is odd. -/
def LonePercent (s : List Byte) : Prop :=
  (s.reverse.takeWhile (· == 0x25#8)).length % 2 = 1

instance (s : List Byte) : Decidable (LonePercent s) := inferInstanceAs (Decidable (_ = _))

theorem length_takeWhile_reverse_cons (p : Byte → Bool) (b : Byte) (s : List Byte) :
    ((b :: s).reverse.takeWhile p).length
      = if (s.reverse.takeWhile p).length = s.length then s.length + if p b then 1 else 0
        else (s.reverse.takeWhile p).length := by
  rw [List.reverse_cons, List.takeWhile_append, List.length_reverse]
  split_ifs with hall hb
  · simp [hb]
  · simp [hb]
  · rfl

theorem not_lonePercent_nil : ¬LonePercent [] := by decide

theorem lonePercent_singleton : LonePercent [0x25#8] := by decide

theorem lonePercent_cons {b : Byte} (hb : b ≠ 0x25#8) (s : List Byte) :
    LonePercent (b :: s) ↔ LonePercent s := by
  rw [LonePercent, LonePercent, length_takeWhile_reverse_cons]
  split_ifs with hall h
  · exact absurd (by simpa using h) hb
  · rw [Nat.add_zero, hall]
  · rfl

/-- A directive makes no difference, whatever it is. -/
theorem lonePercent_cons_cons (d : Byte) (s : List Byte) :
    LonePercent (0x25#8 :: d :: s) ↔ LonePercent s := by
  have hle := (List.takeWhile_sublist (· == 0x25#8) (l := s.reverse)).length_le
  rw [List.length_reverse] at hle
  rw [LonePercent, LonePercent, length_takeWhile_reverse_cons, length_takeWhile_reverse_cons,
    List.length_cons]
  generalize (s.reverse.takeWhile (· == 0x25#8)).length = t at hle ⊢
  rcases hle.eq_or_lt with rfl | hlt
  · rw [if_pos rfl]
    by_cases hd : (d == 0x25#8) = true
    · rw [if_pos hd, if_pos rfl, if_pos (by decide)]
      omega
    · rw [if_neg hd, if_neg (by omega), Nat.add_zero]
  · rw [if_neg hlt.ne, if_neg (by omega)]

theorem not_lonePercent_formatOf (cs : List Piece) : ¬LonePercent (formatOf cs) := by
  induction cs with
  | nil => exact not_lonePercent_nil
  | cons c cs ih =>
    have hcons : formatOf (c :: cs) = c.bytes ++ formatOf cs := rfl
    rw [hcons]
    cases c with
    | char b _ hpercent => exact (lonePercent_cons hpercent _).not.mpr ih
    | unknown d _ _ => exact (lonePercent_cons_cons d _).not.mpr ih
    | hex _ | int _ | str _ _ | chr _ => exact (lonePercent_cons_cons _ _).not.mpr ih

/-! ## Every other format is made of pieces -/

/-- The format is made of pieces, which have their strings from `strs` and take the arguments `va`.
Those that are missing are taken to be 0. -/
def MadeOfPieces (strs : Addr → CString) (s : List Byte) (va : List Word) : Prop :=
  ∃ cs, formatOf cs = s ∧ (∀ a t, .str a t ∈ cs → t = strs a) ∧
    ∃ k, argsOf cs <+: va ++ List.replicate k 0#32

variable {strs : Addr → CString} {s : List Byte} {va : List Word} {c : Piece}

theorem strings_cons {cs : List Piece} (hc : ∀ a t, c = .str a t → t = strs a)
    (hcs : ∀ a t, .str a t ∈ cs → t = strs a) : ∀ a t, .str a t ∈ c :: cs → t = strs a := by
  intro a t h
  rcases List.mem_cons.mp h with h | h
  · exact hc a t h.symm
  · exact hcs a t h

theorem MadeOfPieces.cons (h : MadeOfPieces strs s va) (hargs : c.args = [])
    (hstr : ∀ a t, c = .str a t → t = strs a) : MadeOfPieces strs (c.bytes ++ s) va := by
  obtain ⟨cs, hcs, hstrs, k, hk⟩ := h
  have hcons : argsOf (c :: cs) = argsOf cs := congrArg (· ++ argsOf cs) hargs
  refine ⟨c :: cs, congrArg (c.bytes ++ ·) hcs, strings_cons hstr hstrs, k, ?_⟩
  rw [hcons]
  exact hk

theorem MadeOfPieces.cons_arg (h : MadeOfPieces strs s va.tail) (hargs : c.args = [va.headD 0#32])
    (hstr : ∀ a t, c = .str a t → t = strs a) : MadeOfPieces strs (c.bytes ++ s) va := by
  obtain ⟨cs, hcs, hstrs, k, hk⟩ := h
  have hcons : argsOf (c :: cs) = va.headD 0#32 :: argsOf cs := congrArg (· ++ argsOf cs) hargs
  have hprefix := (List.prefix_cons_inj (va.headD 0#32)).mpr hk
  rw [← hcons] at hprefix
  refine ⟨c :: cs, congrArg (c.bytes ++ ·) hcs, strings_cons hstr hstrs, ?_⟩
  cases va with
  | nil => exact ⟨k + 1, hprefix⟩
  | cons v va => exact ⟨k, hprefix⟩

/-- Whatever comes behind a `%` is a piece. -/
theorem exists_directive {d : Byte} (hd : d ≠ 0#8) (strs : Addr → CString) (v : Word) :
    ∃ c : Piece, c.bytes = [0x25#8, d] ∧ (c.args = [] ∨ c.args = [v]) ∧
      ∀ a t, c = .str a t → t = strs a := by
  by_cases hletter : d ∈ directiveLetters
  · simp only [directiveLetters, List.mem_cons, List.not_mem_nil, or_false] at hletter
    rcases hletter with rfl | rfl | rfl | rfl
    · exact ⟨.hex v, rfl, Or.inr rfl, nofun⟩
    · exact ⟨.int v, rfl, Or.inr rfl, nofun⟩
    · refine ⟨.str v (strs v), rfl, Or.inr rfl, ?_⟩
      rintro a t ⟨⟩
      rfl
    · exact ⟨.chr v, rfl, Or.inr rfl, nofun⟩
  · exact ⟨.unknown d hd hletter, rfl, Or.inl rfl, nofun⟩

/-- A directive comes first, whichever arguments there are for the rest. -/
theorem madeOfPieces_directive {d : Byte} (hd : d ≠ 0#8)
    (hrest : ∀ va, MadeOfPieces strs s va) : MadeOfPieces strs (0x25#8 :: d :: s) va := by
  obtain ⟨c, hbytes, hargs, hstr⟩ := exists_directive hd strs (va.headD 0#32)
  have hcons : 0x25#8 :: d :: s = c.bytes ++ s := by rw [hbytes]; rfl
  rw [hcons]
  rcases hargs with hargs | hargs
  · exact (hrest va).cons hargs hstr
  · exact (hrest va.tail).cons_arg hargs hstr

/-- **Every format that does not break off is made of pieces**, whatever its arguments are. -/
theorem exists_pieces (hzero : 0#8 ∉ s) (hlone : ¬LonePercent s) (strs : Addr → CString)
    (va : List Word) : MadeOfPieces strs s va := by
  -- induction on the format, a directive at a time
  obtain ⟨n, hn⟩ : ∃ n, s.length = n := ⟨_, rfl⟩
  induction n using Nat.strongRecOn generalizing s va with
  | _ n ih =>
    cases s with
    | nil => exact ⟨[], rfl, fun a t h ↦ absurd h List.not_mem_nil, 0, List.nil_prefix⟩
    | cons b s =>
      rw [List.mem_cons, not_or] at hzero
      rw [List.length_cons] at hn
      by_cases hb : b = 0x25#8
      · subst hb
        cases s with
        | nil => exact absurd lonePercent_singleton hlone
        | cons d s =>
          have hzero' := List.mem_cons.not.mp hzero.2
          rw [not_or] at hzero'
          rw [List.length_cons] at hn
          exact madeOfPieces_directive (fun h ↦ hzero'.1 h.symm) fun va ↦
            ih s.length (by omega) hzero'.2 ((lonePercent_cons_cons d s).not.mp hlone) va rfl
      · have hrest : MadeOfPieces strs s va :=
          ih s.length (by omega) hzero.2 ((lonePercent_cons hb s).not.mp hlone) va rfl
        exact hrest.cons (c := .char b (fun h ↦ hzero.1 h.symm) hb) rfl nofun

end Sugarcat
