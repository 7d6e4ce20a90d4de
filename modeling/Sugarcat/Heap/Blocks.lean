import Mathlib.Data.List.Chain
import Mathlib.Data.Nat.Notation
import Mathlib.Tactic.Common

/-!
# Tilings by blocks

What the allocator maintains, without memory: an interval cut into blocks, each a header of 16 bytes
and a payload. A heap is the list of its blocks from left to right, and the position of a block
follows from the sizes of those before it.

## Operations

A request takes the first free block of its size, or else the tail of the smallest free block that
leaves room for another header (`Serve`). A release frees a block and joins it with its free
neighbours (`release`). Neither changes the length of the interval, no two neighbours are ever both
free, and the payloads in use change by the one that is taken or released.

## Positions

`headers` and `payloads` are the lists of where the headers and the payloads in use are. Both are
computed from an origin and grow by one part when lists of blocks are put together, which is how the
operations are stated: something is done to the blocks in the middle, and the parts on either side
stay. Payloads in use are in order, and a header is between any two of them, so that no two of them
overlap and none overlaps a header.

## One outcome

`Serve` is a relation, as it says what a request is to get and not how it is found. A request has
one outcome (`Serve.unique`), since the first of the least free blocks is in one place only.
-/

namespace Sugarcat.Heap

/-- A block, free or in use, by the size of its payload. -/
structure Block where
  free : Bool
  size : ℕ
  deriving DecidableEq, Repr

/-- The number of bytes the blocks take up, with their headers. -/
def span : List Block → ℕ
  | [] => 0
  | b :: bs => 16 + b.size + span bs

/-- The positions of the headers, when the first is at `a`. -/
def headers (a : ℕ) : List Block → List ℕ
  | [] => []
  | b :: bs => a :: headers (a + 16 + b.size) bs

/-- The payloads in use, by position and size, when the first header is at `a`. -/
def payloads (a : ℕ) : List Block → List (ℕ × ℕ)
  | [] => []
  | b :: bs =>
    if b.free then payloads (a + 16 + b.size) bs
    else (a + 16, b.size) :: payloads (a + 16 + b.size) bs

/-- No two neighbours are both free. -/
def Separated (bs : List Block) : Prop := bs.IsChain fun b c ↦ b.free = true → c.free = false

/-! ## Positions -/

@[simp] theorem span_nil : span [] = 0 := rfl

@[simp] theorem span_cons (b : Block) (bs : List Block) :
    span (b :: bs) = 16 + b.size + span bs := rfl

@[simp] theorem span_append (l r : List Block) : span (l ++ r) = span l + span r := by
  induction l with
  | nil => simp
  | cons b l ih => simp [ih, Nat.add_assoc]

theorem span_eq_zero_iff (bs : List Block) : span bs = 0 ↔ bs = [] := by
  cases bs <;> simp

theorem length_le_span (bs : List Block) : 16 * bs.length ≤ span bs := by
  induction bs with
  | nil => simp
  | cons b bs ih =>
    rw [span_cons, List.length_cons]
    omega

theorem headers_append (a : ℕ) (l r : List Block) :
    headers a (l ++ r) = headers a l ++ headers (a + span l) r := by
  induction l generalizing a with
  | nil => simp [headers]
  | cons b l ih => simp [headers, ih, Nat.add_assoc]

theorem payloads_append (a : ℕ) (l r : List Block) :
    payloads a (l ++ r) = payloads a l ++ payloads (a + span l) r := by
  induction l generalizing a with
  | nil => simp [payloads]
  | cons b l ih =>
    rw [List.cons_append, payloads, payloads, ih, span_cons]
    split_ifs <;> simp [Nat.add_assoc]

theorem payloads_append_free (a s : ℕ) (l r : List Block) :
    payloads a (l ++ ⟨true, s⟩ :: r) = payloads a l ++ payloads (a + span l + 16 + s) r := by
  rw [payloads_append, payloads, if_pos rfl]

theorem payloads_append_used (a s : ℕ) (l r : List Block) :
    payloads a (l ++ ⟨false, s⟩ :: r) =
      payloads a l ++ (a + span l + 16, s) :: payloads (a + span l + 16 + s) r := by
  rw [payloads_append, payloads, if_neg Bool.false_ne_true]

theorem mem_headers {a x : ℕ} {bs : List Block} (h : x ∈ headers a bs) :
    a ≤ x ∧ x + 16 ≤ a + span bs := by
  induction bs generalizing a with
  | nil => simp [headers] at h
  | cons b bs ih =>
    rw [headers, List.mem_cons] at h
    rw [span_cons]
    rcases h with rfl | h
    · omega
    · have := ih h
      omega

theorem mem_payloads {a p n : ℕ} {bs : List Block} (h : (p, n) ∈ payloads a bs) :
    a + 16 ≤ p ∧ p + n ≤ a + span bs := by
  induction bs generalizing a with
  | nil => simp [payloads] at h
  | cons b bs ih =>
    rw [payloads] at h
    rw [span_cons]
    split_ifs at h with hb
    · have := ih h
      omega
    · rw [List.mem_cons] at h
      rcases h with heq | h
      · obtain ⟨rfl, rfl⟩ := Prod.mk.inj heq
        omega
      · have := ih h
        omega

theorem mem_headers_iff {a x : ℕ} {bs : List Block} :
    x ∈ headers a bs ↔ ∃ l b r, bs = l ++ b :: r ∧ x = a + span l := by
  constructor
  · intro h
    induction bs generalizing a with
    | nil => simp [headers] at h
    | cons b bs ih =>
      rw [headers, List.mem_cons] at h
      rcases h with rfl | h
      · exact ⟨[], b, bs, rfl, by simp⟩
      · obtain ⟨l, c, r, rfl, rfl⟩ := ih h
        exact ⟨b :: l, c, r, rfl, by simp [Nat.add_assoc]⟩
  · rintro ⟨l, b, r, rfl, rfl⟩
    simp [headers_append, headers]

theorem mem_payloads_iff {a x n : ℕ} {bs : List Block} :
    (x, n) ∈ payloads a bs ↔ ∃ l r, bs = l ++ ⟨false, n⟩ :: r ∧ x = a + span l + 16 := by
  constructor
  · intro h
    induction bs generalizing a with
    | nil => simp [payloads] at h
    | cons b bs ih =>
      obtain ⟨free, s⟩ := b
      rw [payloads] at h
      cases free with
      | true =>
        obtain ⟨l, r, rfl, rfl⟩ := ih h
        exact ⟨⟨true, s⟩ :: l, r, rfl, by simp [Nat.add_assoc]⟩
      | false =>
        rw [if_neg Bool.false_ne_true, List.mem_cons] at h
        rcases h with heq | h
        · obtain ⟨rfl, rfl⟩ := Prod.mk.inj heq
          exact ⟨[], bs, rfl, by simp⟩
        · obtain ⟨l, r, rfl, rfl⟩ := ih h
          exact ⟨⟨false, s⟩ :: l, r, rfl, by simp [Nat.add_assoc]⟩
  · rintro ⟨l, r, rfl, rfl⟩
    simp [payloads_append_used]

theorem isChain_headers {α : Type*} {R : α → α → Prop} {f : ℕ → α} {a : ℕ} {bs : List Block}
    (h : ∀ l b c r, bs = l ++ b :: c :: r → R (f (a + span l)) (f (a + span l + 16 + b.size))) :
    ((headers a bs).map f).IsChain R := by
  induction bs generalizing a with
  | nil => exact List.isChain_nil
  | cons b bs ih =>
    cases bs with
    | nil => exact List.isChain_singleton _
    | cons c bs =>
      rw [headers, List.map_cons, headers, List.map_cons, List.isChain_cons_cons]
      refine ⟨h [] b c bs rfl, ?_⟩
      refine ih fun l d e r heq ↦ ?_
      have := h (b :: l) d e r (by rw [heq, List.cons_append])
      rw [span_cons] at this
      simpa only [Nat.add_assoc] using this

theorem pairwise_payloads (a : ℕ) (bs : List Block) :
    (payloads a bs).Pairwise fun x y ↦ x.1 + x.2 + 16 ≤ y.1 := by
  induction bs generalizing a with
  | nil => exact List.Pairwise.nil
  | cons b bs ih =>
    rw [payloads]
    split_ifs
    · exact ih _
    · rw [List.pairwise_cons]
      refine ⟨?_, ih _⟩
      rintro ⟨p, n⟩ hp
      exact (mem_payloads hp).1

/-- A payload in use overlaps no header. -/
theorem payload_apart_header {a p n x : ℕ} {bs : List Block} (hp : (p, n) ∈ payloads a bs)
    (hx : x ∈ headers a bs) : p + n ≤ x ∨ x + 16 ≤ p := by
  induction bs generalizing a with
  | nil => simp [payloads] at hp
  | cons b bs ih =>
    rw [headers, List.mem_cons] at hx
    rw [payloads] at hp
    split_ifs at hp with hb
    · rcases hx with rfl | hx
      · have := mem_payloads hp
        omega
      · exact ih hp hx
    · rw [List.mem_cons] at hp
      rcases hp with heq | hp
      · obtain ⟨rfl, rfl⟩ := Prod.mk.inj heq
        rcases hx with rfl | hx
        · omega
        · have := mem_headers hx
          omega
      · rcases hx with rfl | hx
        · have := mem_payloads hp
          omega
        · exact ih hp hx

/-! ## Neighbours -/

/-- What a block in the middle asks of its neighbours. -/
theorem separated_append_cons {l r : List Block} {b : Block} :
    Separated (l ++ b :: r) ↔ Separated l ∧ Separated r ∧
      (b.free = true → (∀ c ∈ l.getLast?, c.free = false) ∧ ∀ c ∈ r.head?, c.free = false) := by
  rw [Separated, List.isChain_append, List.isChain_cons]
  constructor
  · rintro ⟨hl, ⟨hbr, hr⟩, hlb⟩
    refine ⟨hl, hr, fun hb ↦ ⟨fun c hc ↦ ?_, fun c hc ↦ hbr c hc hb⟩⟩
    by_contra hfree
    rw [hlb c hc b rfl (by simpa using hfree)] at hb
    exact Bool.noConfusion hb
  · rintro ⟨hl, hr, hb⟩
    refine ⟨hl, ⟨fun c hc hfree ↦ (hb hfree).2 c hc, hr⟩, ?_⟩
    intro c hc d hd hfree
    obtain rfl : b = d := by simpa using hd
    by_contra hbfree
    rw [(hb (by simpa using hbfree)).1 c hc] at hfree
    exact Bool.noConfusion hfree

theorem Separated.next {l r : List Block} {b c : Block} (h : Separated (l ++ b :: c :: r))
    (hb : b.free = true) : c.free = false :=
  ((separated_append_cons.mp h).2.2 hb).2 c rfl

theorem eq_singleton_of_payloads_eq_nil {a : ℕ} {bs : List Block} (h : payloads a bs = [])
    (hsep : Separated bs) (hne : bs ≠ []) : ∃ s, bs = [⟨true, s⟩] := by
  obtain ⟨⟨free, s⟩, bs, rfl⟩ := List.exists_cons_of_ne_nil hne
  rw [payloads] at h
  cases free with
  | false => exact absurd h (by simp)
  | true =>
    cases bs with
    | nil => exact ⟨s, rfl⟩
    | cons c bs =>
      have hc : c.free = false := Separated.next (l := []) hsep rfl
      rw [if_pos rfl, payloads, hc] at h
      exact absurd h (by simp)

/-! ## Requests -/

/-- `s` is the smallest size of a free block that leaves room for `d` bytes and another header, and
`⟨true, s⟩` between `l` and `r` is the first block of that size. -/
structure Least (d : ℕ) (bs l : List Block) (s : ℕ) (r : List Block) : Prop where
  eq : bs = l ++ ⟨true, s⟩ :: r
  large : d + 16 < s
  first : ∀ b ∈ l, b.free = true → d + 16 < b.size → s < b.size
  best : ∀ b ∈ r, b.free = true → d + 16 < b.size → s ≤ b.size

/-- A request for `d` bytes: where its payload is, counted from the first header, and the blocks
after it. -/
inductive Serve (d : ℕ) (bs : List Block) : Option ℕ → List Block → Prop
  | exact {l r : List Block} (heq : bs = l ++ ⟨true, d⟩ :: r)
      (hfirst : ∀ b ∈ l, b.free = true → b.size ≠ d) :
      Serve d bs (some (span l + 16)) (l ++ ⟨false, d⟩ :: r)
  | split {l r : List Block} {s : ℕ} (hleast : Least d bs l s r)
      (hexact : ∀ b ∈ bs, b.free = true → b.size ≠ d) :
      Serve d bs (some (span l + 16 + (s - (d + 16)) + 16))
        (l ++ ⟨true, s - (d + 16)⟩ :: ⟨false, d⟩ :: r)
  | fail (hnone : ∀ b ∈ bs, b.free = true → b.size ≠ d ∧ b.size ≤ d + 16) : Serve d bs none bs

variable {d s : ℕ} {b : Block} {bs bs' l r : List Block} {o : Option ℕ}

theorem Least.le (h : Least d bs l s r) (hb : b ∈ bs) (hfree : b.free = true)
    (hlarge : d + 16 < b.size) : s ≤ b.size := by
  rw [h.eq, List.mem_append, List.mem_cons] at hb
  rcases hb with hb | rfl | hb
  · exact (h.first b hb hfree hlarge).le
  · exact le_rfl
  · exact h.best b hb hfree hlarge

theorem Least.concat (h : Least d bs l s r) (hb : b.free = true → d + 16 < b.size → s ≤ b.size) :
    Least d (bs ++ [b]) l s (r ++ [b]) := by
  refine ⟨by simp [h.eq], h.large, h.first, ?_⟩
  intro c hc
  rw [List.mem_append, List.mem_singleton] at hc
  rcases hc with hc | rfl
  · exact h.best c hc
  · exact hb

/-- A block that is better than all before it becomes the choice. -/
theorem least_concat (hfree : b.free = true) (hlarge : d + 16 < b.size)
    (hbest : ∀ c ∈ bs, c.free = true → d + 16 < c.size → b.size < c.size) :
    Least d (bs ++ [b]) bs b.size [] :=
  ⟨by rw [← hfree], hlarge, hbest, by simp⟩

theorem Serve.span_eq (h : Serve d bs o bs') : span bs' = span bs := by
  cases h with
  | exact heq _ => simp [heq]
  | split hleast _ =>
    have hlarge := hleast.large
    simp only [hleast.eq, span_append, span_cons]
    omega
  | fail _ => rfl

theorem Serve.separated (h : Serve d bs o bs') (hbs : Separated bs) : Separated bs' := by
  cases h with
  | exact heq _ =>
    subst heq
    obtain ⟨hl, hr, -⟩ := separated_append_cons.mp hbs
    exact separated_append_cons.mpr ⟨hl, hr, by simp⟩
  | split hleast _ =>
    rw [hleast.eq] at hbs
    obtain ⟨hl, hr, hfree⟩ := separated_append_cons.mp hbs
    refine separated_append_cons.mpr ⟨hl, ?_, fun _ ↦ ⟨(hfree rfl).1, by simp⟩⟩
    exact (separated_append_cons (l := [])).mpr ⟨List.isChain_nil, hr, by simp⟩
  | fail _ => exact hbs

/-- A request that is served adds its payload to those in use. -/
theorem Serve.payloads_perm {x : ℕ} (h : Serve d bs (some x) bs') (a : ℕ) :
    (payloads a bs').Perm ((a + x, d) :: payloads a bs) := by
  generalize ho : some x = o at h
  cases h with
  | @exact l r heq _ =>
    obtain rfl := Option.some_inj.mp ho
    rw [heq, payloads_append_used, payloads_append_free, ← Nat.add_assoc]
    exact List.perm_middle
  | @split l r s hleast _ =>
    obtain rfl := Option.some_inj.mp ho
    have hlarge := hleast.large
    rw [hleast.eq, payloads_append_free, payloads_append_free, payloads, if_neg Bool.false_ne_true]
    have hend : a + span l + 16 + (s - (d + 16)) + 16 + d = a + span l + 16 + s := by omega
    have hpos : a + (span l + 16 + (s - (d + 16)) + 16)
        = a + span l + 16 + (s - (d + 16)) + 16 := by
      omega
    rw [hend, hpos]
    exact List.perm_middle
  | fail _ => exact absurd ho (by simp)

theorem first_unique {α : Type*} {P : α → Prop} {b b' : α} {l l' r r' : List α}
    (heq : l ++ b :: r = l' ++ b' :: r') (hb : P b) (hb' : P b') (hl : ∀ c ∈ l, ¬P c)
    (hl' : ∀ c ∈ l', ¬P c) : l = l' ∧ b = b' ∧ r = r' := by
  induction l generalizing l' with
  | nil =>
    cases l' with
    | nil => exact ⟨rfl, List.cons.inj heq⟩
    | cons c l' => exact absurd ((List.cons.inj heq).1 ▸ hb) (hl' c List.mem_cons_self)
  | cons c l ih =>
    cases l' with
    | nil => exact absurd ((List.cons.inj heq).1 ▸ hb') (hl c List.mem_cons_self)
    | cons c' l' =>
      obtain ⟨rfl, htail⟩ := List.cons.inj heq
      obtain ⟨rfl, rfl, rfl⟩ := ih htail (fun d hd ↦ hl d (List.mem_cons_of_mem _ hd))
        (fun d hd ↦ hl' d (List.mem_cons_of_mem _ hd))
      exact ⟨rfl, rfl, rfl⟩

theorem Least.unique {l' r' : List Block} {s' : ℕ} (h : Least d bs l s r)
    (h' : Least d bs l' s' r') : l = l' ∧ s = s' ∧ r = r' := by
  have hmem : ⟨true, s⟩ ∈ bs := by simp [h.eq]
  have hmem' : ⟨true, s'⟩ ∈ bs := by simp [h'.eq]
  -- each of the two sizes is at most the other, so both choices are the first of one size
  obtain rfl : s = s' := le_antisymm (h.le hmem' rfl h'.large) (h'.le hmem rfl h.large)
  obtain ⟨hl, -, hr⟩ := first_unique (P := fun b ↦ b.free = true ∧ d + 16 < b.size ∧ b.size ≤ s)
    (h.eq.symm.trans h'.eq) ⟨rfl, h.large, le_rfl⟩ ⟨rfl, h.large, le_rfl⟩
    (fun c hc hP ↦ Nat.not_lt.mpr hP.2.2 (h.first c hc hP.1 hP.2.1))
    (fun c hc hP ↦ Nat.not_lt.mpr hP.2.2 (h'.first c hc hP.1 hP.2.1))
  exact ⟨hl, rfl, hr⟩

/-- A request has one outcome. -/
theorem Serve.unique {o' : Option ℕ} {bs'' : List Block} (h : Serve d bs o bs')
    (h' : Serve d bs o' bs'') : o = o' ∧ bs' = bs'' := by
  have hno : ∀ {l r}, bs = l ++ ⟨true, d⟩ :: r → ¬∀ b ∈ bs, b.free = true → b.size ≠ d :=
    fun heq hall ↦ hall ⟨true, d⟩ (by simp [heq]) rfl rfl
  have hbig : ∀ {l s r}, Least d bs l s r →
      ¬∀ b ∈ bs, b.free = true → b.size ≠ d ∧ b.size ≤ d + 16 :=
    fun hleast hall ↦ Nat.not_le.mpr hleast.large (hall ⟨true, _⟩ (by simp [hleast.eq]) rfl).2
  cases h with
  | exact heq hfirst =>
    cases h' with
    | exact heq' hfirst' =>
      obtain ⟨rfl, -, rfl⟩ := first_unique (P := fun b ↦ b.free = true ∧ b.size = d)
        (heq.symm.trans heq') ⟨rfl, rfl⟩ ⟨rfl, rfl⟩ (fun c hc hP ↦ hfirst c hc hP.1 hP.2)
        (fun c hc hP ↦ hfirst' c hc hP.1 hP.2)
      exact ⟨rfl, rfl⟩
    | split _ hexact => exact absurd hexact (hno heq)
    | fail hnone => exact absurd (fun b hb hfree ↦ (hnone b hb hfree).1) (hno heq)
  | split hleast hexact =>
    cases h' with
    | exact heq _ => exact absurd hexact (hno heq)
    | split hleast' _ =>
      obtain ⟨rfl, rfl, rfl⟩ := hleast.unique hleast'
      exact ⟨rfl, rfl⟩
    | fail hnone => exact absurd hnone (hbig hleast)
  | fail hnone =>
    cases h' with
    | exact heq _ => exact absurd (fun b hb hfree ↦ (hnone b hb hfree).1) (hno heq)
    | split hleast _ => exact absurd hnone (hbig hleast)
    | fail _ => exact ⟨rfl, rfl⟩

/-- The payload of a request that is served overlaps none of those in use. -/
theorem Serve.disjoint {x a y n : ℕ} (h : Serve d bs (some x) bs') (hy : (y, n) ∈ payloads a bs) :
    a + x + d ≤ y ∨ y + n ≤ a + x := by
  have hpair : (payloads a bs').Pairwise fun u v ↦ u.1 + u.2 ≤ v.1 ∨ v.1 + v.2 ≤ u.1 :=
    (pairwise_payloads a bs').imp fun huv ↦ Or.inl (by omega)
  rw [(h.payloads_perm a).pairwise_iff fun huv ↦ huv.symm, List.pairwise_cons] at hpair
  exact hpair.1 (y, n) hy

theorem Serve.payloads_none (h : Serve d bs none bs') : bs' = bs := by
  cases h
  rfl

/-! ## Releases -/

/-- A freed payload of `s` bytes takes in the block after it when that is free. -/
def joinRight (s : ℕ) : List Block → ℕ × List Block
  | [] => (s, [])
  | c :: r => if c.free then (s + (c.size + 16), r) else (s, c :: r)

/-- The block before a freed payload of `s` bytes takes it in when it is free. -/
def joinLeft (l : List Block) (s : ℕ) : List Block × ℕ :=
  match l.getLast? with
  | none => (l, s)
  | some c => if c.free then (l.dropLast, c.size + (s + 16)) else (l, s)

/-- Free the block of `s` bytes between `l` and `r`. -/
def release (l : List Block) (s : ℕ) (r : List Block) : List Block :=
  let right := joinRight s r
  let left := joinLeft l right.1
  left.1 ++ ⟨true, left.2⟩ :: right.2

theorem joinRight_cases (s : ℕ) (r : List Block) :
    (∃ n r', r = ⟨true, n⟩ :: r' ∧ joinRight s r = (s + (n + 16), r')) ∨
      (∀ c ∈ r.head?, c.free = false) ∧ joinRight s r = (s, r) := by
  cases r with
  | nil => right; exact ⟨by simp, rfl⟩
  | cons c r =>
    obtain ⟨free, n⟩ := c
    cases free with
    | true => left; exact ⟨n, r, rfl, rfl⟩
    | false => right; exact ⟨by simp, rfl⟩

theorem joinLeft_cases (l : List Block) (s : ℕ) :
    (∃ l' n, l = l' ++ [⟨true, n⟩] ∧ joinLeft l s = (l', n + (s + 16))) ∨
      (∀ c ∈ l.getLast?, c.free = false) ∧ joinLeft l s = (l, s) := by
  rcases List.eq_nil_or_concat l with rfl | ⟨l', ⟨free, n⟩, rfl⟩
  · right; exact ⟨by simp, rfl⟩
  · cases free with
    | true => left; exact ⟨l', n, by simp, by simp [joinLeft]⟩
    | false => right; exact ⟨by simp, by simp [joinLeft]⟩

theorem headers_append_cons (a : ℕ) (l : List Block) (free : Bool) (s : ℕ) (r : List Block) :
    headers a (l ++ ⟨free, s⟩ :: r) =
      headers a l ++ (a + span l) :: headers (a + span l + 16 + s) r := by
  rw [headers_append, headers]

theorem mem_headers_joinRight {a x : ℕ} {l r : List Block} {s : ℕ}
    (hx : x ∈ headers a (l ++ ⟨true, (joinRight s r).1⟩ :: (joinRight s r).2)) :
    x ∈ headers a (l ++ ⟨true, s⟩ :: r) := by
  rcases joinRight_cases s r with ⟨n, r', rfl, heq⟩ | ⟨-, heq⟩
  · rw [heq, headers_append_cons] at hx
    rw [headers_append_cons, headers]
    have hend : a + span l + 16 + s + 16 + n = a + span l + 16 + (s + (n + 16)) := by omega
    rw [hend]
    simp only [List.mem_append, List.mem_cons] at hx ⊢
    tauto
  · rwa [heq] at hx

/-- What a release leaves, by which of the neighbours are free. -/
theorem release_cases (l : List Block) (s : ℕ) (r : List Block) :
    ∃ l₀ left right r₀, l = l₀ ++ left ∧ r = right ++ r₀ ∧
      release l s r = l₀ ++ ⟨true, span left + s + span right⟩ :: r₀ ∧
      (∀ b ∈ left, b.free = true) ∧ ∀ b ∈ right, b.free = true := by
  rcases joinRight_cases s r with ⟨n, r', rfl, hr⟩ | ⟨-, hr⟩
  · rcases joinLeft_cases l (s + (n + 16)) with ⟨l', k, rfl, hl⟩ | ⟨-, hl⟩
    · refine ⟨l', [⟨true, k⟩], [⟨true, n⟩], r', rfl, rfl, ?_, by simp, by simp⟩
      simp [release, hr, hl]
      omega
    · refine ⟨l, [], [⟨true, n⟩], r', by simp, rfl, ?_, by simp, by simp⟩
      simp [release, hr, hl]
      omega
  · rcases joinLeft_cases l s with ⟨l', k, rfl, hl⟩ | ⟨-, hl⟩
    · refine ⟨l', [⟨true, k⟩], [], r, rfl, rfl, ?_, by simp, by simp⟩
      simp [release, hr, hl]
      omega
    · exact ⟨l, [], [], r, by simp, rfl, by simp [release, hr, hl], by simp, by simp⟩

theorem payloads_eq_nil {bs : List Block} (h : ∀ b ∈ bs, b.free = true) (a : ℕ) :
    payloads a bs = [] := by
  induction bs generalizing a with
  | nil => rfl
  | cons b bs ih =>
    rw [payloads, if_pos (h b (by simp))]
    exact ih (fun c hc ↦ h c (by simp [hc])) _

theorem payloads_release (a : ℕ) (l : List Block) (s : ℕ) (r : List Block) :
    payloads a (release l s r) = payloads a l ++ payloads (a + span l + 16 + s) r := by
  obtain ⟨l₀, left, right, r₀, rfl, rfl, heq, hleft, hright⟩ := release_cases l s r
  rw [heq, payloads_append_free, payloads_append, payloads_append, payloads_eq_nil hleft,
    payloads_eq_nil hright, List.append_nil, List.nil_append, span_append]
  congr 2
  omega

theorem mem_payloads_of_mem_release {a : ℕ} {y : ℕ × ℕ} (h : y ∈ payloads a (release l s r)) :
    y ∈ payloads a (l ++ ⟨false, s⟩ :: r) := by
  rw [payloads_release, List.mem_append] at h
  rw [payloads_append_used, List.mem_append, List.mem_cons]
  exact h.imp id Or.inr

theorem Separated.release (h : Separated (l ++ ⟨false, s⟩ :: r)) : Separated (release l s r) := by
  obtain ⟨hl, hr, -⟩ := separated_append_cons.mp h
  have hleft : Separated (joinLeft l (joinRight s r).1).1 ∧
      ∀ c ∈ (joinLeft l (joinRight s r).1).1.getLast?, c.free = false := by
    rcases joinLeft_cases l (joinRight s r).1 with ⟨l', k, rfl, heq⟩ | ⟨hlast, heq⟩
    · rw [heq]
      obtain ⟨hl', -, hfree⟩ := separated_append_cons.mp hl
      exact ⟨hl', (hfree rfl).1⟩
    · rw [heq]
      exact ⟨hl, hlast⟩
  have hright : Separated (joinRight s r).2 ∧ ∀ c ∈ (joinRight s r).2.head?, c.free = false := by
    rcases joinRight_cases s r with ⟨n, r', rfl, heq⟩ | ⟨hhead, heq⟩
    · rw [heq]
      obtain ⟨-, hr', hfree⟩ := (separated_append_cons (l := [])).mp hr
      exact ⟨hr', (hfree rfl).2⟩
    · rw [heq]
      exact ⟨hr, hhead⟩
  exact separated_append_cons.mpr ⟨hleft.1, hright.1, fun _ ↦ ⟨hleft.2, hright.2⟩⟩

end Sugarcat.Heap
