import Sugarcat.Heap.Segment

/-!
# The search for a block

`findBestFit` over a segment, by the blocks it has passed: none of them is an exact fit, and the
candidate it carries is the least of those that leave room for another header. At the end of the
page it returns that candidate, so what it finds is what a request asks for.

## One pass

The search reads headers and nothing else, so it is told in terms of blocks, and the step lemma has
one case for each kind of block: in use, an exact fit, too small, no better than the candidate, and
better. Of several blocks of the same size the first one is the candidate, because a later one is
not less. An exact fit ends the search at once, whatever the candidate is.

The candidate is a pointer, with `NULL` for none, and its size is read again from its header in each
pass. That the header is still there is because the search does not write.
-/

namespace Sugarcat.Heap

open ByteMemory

/-- `node` is the candidate after the blocks `bs`. -/
def Candidate (d a : ℕ) (bs : List Block) (node : Addr) : Prop :=
  (node = null ∧ ∀ b ∈ bs, b.free = true → b.size ≤ d + 16) ∨
    ∃ l s r, Least d bs l s r ∧ node = ptr (a + span l)

/-- No block of `bs` is a free block of `d` bytes. -/
def NoExact (d : ℕ) (bs : List Block) : Prop := ∀ b ∈ bs, b.free = true → b.size ≠ d

/-- What the search returns. -/
def Found (d a : ℕ) (bs : List Block) : Addr × Bool → Prop
  | (node, true) => ∃ l r, bs = l ++ ⟨true, d⟩ :: r ∧ NoExact d l ∧ node = ptr (a + span l)
  | (node, false) => NoExact d bs ∧ Candidate d a bs node

variable {m : Memory} {lim a d : ℕ} {node : Addr} {size : Word} {b : Block} {l r bs : List Block}

theorem NoExact.concat (h : NoExact d bs) (hb : ¬(b.free = true ∧ b.size = d)) :
    NoExact d (bs ++ [b]) := by
  intro c hc
  rw [List.mem_append, List.mem_singleton] at hc
  rcases hc with hc | rfl
  · exact h c hc
  · exact fun hfree hsize ↦ hb ⟨hfree, hsize⟩

theorem Candidate.concat (h : Candidate d a bs node) (hb : b.free = true → b.size ≤ d + 16) :
    Candidate d a (bs ++ [b]) node := by
  rcases h with ⟨hnull, hall⟩ | ⟨l, s, r, hleast, hnode⟩
  · refine Or.inl ⟨hnull, fun c hc ↦ ?_⟩
    rw [List.mem_append, List.mem_singleton] at hc
    rcases hc with hc | rfl
    · exact hall c hc
    · exact hb
  · refine Or.inr ⟨l, s, r ++ [b], hleast.concat fun hfree hlarge ↦ ?_, hnode⟩
    exact absurd (hb hfree) (Nat.not_le.mpr hlarge)

theorem Header.status_eq_free {p : Addr} (h : Header m lim a b p) :
    getField .status m (ptr a) = statusFree ↔ b.free = true := by
  rw [h.status, statusOf_eq_free]

theorem Header.toNat_size {p : Addr} (h : Header m lim a b p) (hlim : lim < 2 ^ 32) :
    (getField .size m (ptr a)).toNat = b.size := by
  have := h.le
  rw [h.size, toNat_ptr (by omega)]

/-- One pass at the block `b`. -/
theorem findBestFitStep_cons (h : Seg m lim null a (l ++ b :: r)) (hlim : lim < 2 ^ 32)
    (hsize : size.toNat + 16 < 2 ^ 32) (hcand : Candidate size.toNat a l node) :
    (b.free = true ∧ b.size = size.toNat ∧
      findBestFitStep size m ⟨ptr (a + span l), node⟩ = .inr (ptr (a + span l), true)) ∨
    ¬(b.free = true ∧ b.size = size.toNat) ∧ ∃ node',
      findBestFitStep size m ⟨ptr (a + span l), node⟩ =
        .inl ⟨link lim (a + span l + 16 + b.size), node'⟩ ∧
      Candidate size.toNat a (l ++ [b]) node' := by
  have hb := h.header
  have hnull := ptr_ne_zero hb.pos (hb.at hlim).lt
  have hexact : getField .size m (ptr (a + span l)) = size ↔ b.size = size.toNat := by
    rw [← BitVec.toNat_inj, hb.toNat_size hlim]
  have hlarge : getField .size m (ptr (a + span l)) > size + mmEntrySz ↔
      size.toNat + 16 < b.size := by
    rw [gt_iff_lt, BitVec.lt_def, hb.toNat_size hlim, BitVec.toNat_add]
    change (size.toNat + 16) % 2 ^ 32 < b.size ↔ _
    rw [Nat.mod_eq_of_lt hsize]
  rw [findBestFitStep, if_pos hnull]
  dsimp only
  rw [hb.next]
  by_cases hfree : b.free = true
  · rw [if_pos (hb.status_eq_free.mpr hfree)]
    by_cases heq : b.size = size.toNat
    · exact Or.inl ⟨hfree, heq, if_pos (hexact.mpr heq)⟩
    rw [if_neg (mt hexact.mp heq)]
    refine Or.inr ⟨fun hb ↦ heq hb.2, ?_⟩
    rcases hcand with ⟨rfl, hall⟩ | ⟨l₁, s, l₂, hleast, rfl⟩
    · -- there is no candidate yet
      rw [if_neg (by simp)]
      by_cases hroom : size.toNat + 16 < b.size
      · rw [if_pos (hlarge.mpr hroom)]
        refine ⟨_, rfl, Or.inr ⟨l, b.size, [], least_concat hfree hroom fun c hc hcf hcl ↦ ?_, rfl⟩⟩
        exact absurd (hall c hc hcf) (Nat.not_le.mpr hcl)
      · rw [if_neg (mt hlarge.mp hroom)]
        exact ⟨_, rfl, Candidate.concat (Or.inl ⟨rfl, hall⟩) fun _ ↦ Nat.not_lt.mp hroom⟩
    · -- the candidate has `s` bytes
      have hs : Header m lim (a + span l₁) ⟨true, s⟩ (lastHeader null a l₁) := by
        rw [hleast.eq, List.append_assoc] at h
        exact h.header
      have hless : getField .size m (ptr (a + span l)) < getField .size m (ptr (a + span l₁)) ↔
          b.size < s := by
        rw [BitVec.lt_def, hb.toNat_size hlim, hs.toNat_size hlim]
      rw [if_pos (ptr_ne_zero hs.pos (hs.at hlim).lt)]
      by_cases hbetter : b.size < s ∧ size.toNat + 16 < b.size
      · rw [if_pos ((and_congr hless hlarge).mpr hbetter)]
        refine ⟨_, rfl, Or.inr ⟨l, b.size, [], least_concat hfree hbetter.2 fun c hc hcf hcl ↦ ?_,
          rfl⟩⟩
        exact hbetter.1.trans_le (hleast.le hc hcf hcl)
      · rw [if_neg (mt (and_congr hless hlarge).mp hbetter)]
        refine ⟨_, rfl, Or.inr ⟨l₁, s, l₂ ++ [b], hleast.concat fun _ hroom ↦ ?_, rfl⟩⟩
        exact Nat.not_lt.mp fun hlt ↦ hbetter ⟨hlt, hroom⟩
  · rw [if_neg (mt hb.status_eq_free.mp hfree)]
    exact Or.inr ⟨fun hb ↦ hfree hb.1, node, rfl, hcand.concat fun hb ↦ absurd hb hfree⟩

/-- The rest of the search, from the blocks already passed. -/
theorem run_findBestFitStep (h : Seg m lim null a (l ++ r)) (hend : a + span (l ++ r) = lim)
    (hlim : lim < 2 ^ 32) (hsize : size.toNat + 16 < 2 ^ 32) (hcand : Candidate size.toNat a l node)
    (hexact : NoExact size.toNat l) :
    ∃ res, Loop.run (findBestFitStep size m) r.length ⟨link lim (a + span l), node⟩ = some res ∧
      Found size.toNat a (l ++ r) res := by
  -- induction on the blocks still ahead; `l` are those already passed
  induction r generalizing l node with
  | nil =>
    rw [List.append_nil] at h hend ⊢
    rw [hend, link_self]
    refine ⟨(node, false), Loop.run_of_exit ?_ _, hexact, hcand⟩
    simp [findBestFitStep]
  | cons b r ih =>
    have hne : a + span l ≠ lim := by
      rw [span_append, span_cons] at hend
      omega
    rw [link_of_ne hne]
    -- an exact fit ends the search, any other block moves into `l`
    rcases findBestFitStep_cons h hlim hsize hcand with
      ⟨hfree, hbsize, hstep⟩ | ⟨hb, node', hstep, hcand'⟩
    · refine ⟨_, Loop.run_of_exit hstep _, l, r, ?_, hexact, rfl⟩
      rw [← hfree, ← hbsize]
    · have happ : l ++ b :: r = (l ++ [b]) ++ r := by simp
      rw [happ] at h hend ⊢
      have hspan : a + span (l ++ [b]) = a + span l + 16 + b.size := by simp [Nat.add_assoc]
      obtain ⟨res, hrun, hfound⟩ := ih h hend hcand' (hexact.concat hb)
      rw [hspan] at hrun
      exact ⟨res, by rw [List.length_cons, Loop.run_succ hstep, hrun], hfound⟩

/-- The search over a whole page. -/
theorem findBestFit_spec (h : Seg m lim null a bs) (hend : a + span bs = lim) (hlim : lim < 2 ^ 32)
    (hsize : size.toNat + 16 < 2 ^ 32) (hbs : bs ≠ []) (start : Addr) :
    ∃ res, findBestFit size ⟨start, ptr a, m⟩ = some res ∧ Found size.toNat a bs res := by
  have hne : a ≠ lim := by
    have := (span_eq_zero_iff bs).not.mpr hbs
    omega
  have hcand : Candidate size.toNat a [] null := Or.inl ⟨rfl, by simp⟩
  obtain ⟨res, hrun, hfound⟩ :=
    run_findBestFitStep (l := []) (r := bs) h hend hlim hsize hcand (by simp [NoExact])
  rw [span_nil, Nat.add_zero, link_of_ne hne] at hrun
  have hlen := length_le_span bs
  exact ⟨res, Loop.run_mono (by omega) hrun, hfound⟩

end Sugarcat.Heap
