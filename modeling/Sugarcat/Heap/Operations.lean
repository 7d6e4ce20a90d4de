import Sugarcat.Heap.Segment

/-!
# List operations in memory

What the writes of the allocator do to a segment: changing a status, hooking the rest of the list to
another predecessor, taking the next block in, and cutting a block off. Each of them writes only in
headers of the blocks it is about, before or after.

## Stages

An operation is a sequence of writes to fields, and memory in between is not a segment. So each
stage of an operation is a definition, with lemmas that say which fields it has written and that the
others are as they were. The main lemma of an operation then only puts the stages together.

## In the middle of a list

The lemmas are about a stretch that begins with the block in question. `Seg.splice` carries them
over to a list in which other blocks come before, since those are not changed and only the last of
them is the predecessor of the stretch.
-/

namespace Sugarcat.Heap

open ByteMemory

variable {m m' : Memory} {lim a x : ℕ} {p : Addr} {b c : Block} {l r bs : List Block}

/-! ## One block -/

theorem Seg.setStatus (h : Seg m lim p x (b :: r)) (hlim : lim < 2 ^ 32) (free : Bool) :
    Seg (setField .status m (ptr x) (statusOf free)) lim p x (⟨free, b.size⟩ :: r) := by
  obtain ⟨hb, hr⟩ := h
  have hx := hb.at hlim
  have hne : ∀ f, f ≠ .status →
      getField f (setField .status m (ptr x) (statusOf free)) (ptr x) = getField f m (ptr x) :=
    fun f hf ↦ getField_setField_same hx hf _ _
  refine ⟨⟨hb.pos, hb.aligned, hb.size_aligned, hb.le, getField_setField_self _ _ _ _, ?_, ?_, ?_⟩,
    hr.frame hlim (changesOnly_setField hx _ _ _) ?_⟩
  · rw [hne _ (by decide), hb.size]
  · rw [hne _ (by decide), hb.next]
  · rw [hne _ (by decide), hb.prev]
  · intro y hy
    obtain rfl := List.mem_singleton.mp hy
    omega

/-! ## Merging -/

theorem Seg.setPrevOf (h : Seg m lim p a bs) (hend : a + span bs = lim) (hlim : lim < 2 ^ 32)
    (q : Addr) :
    Seg (setPrevOf m (link lim a) q) lim q a bs ∧
      ChangesOnly (headers a bs) m (setPrevOf m (link lim a) q) := by
  cases bs with
  | nil =>
    rw [span_nil, Nat.add_zero] at hend
    rw [hend, link_self, Heap.setPrevOf, if_neg (by simp)]
    exact ⟨trivial, ChangesOnly.refl _ _⟩
  | cons b bs =>
    obtain ⟨hb, hbs⟩ := h
    have ha := hb.at hlim
    have hle := hb.le
    rw [link_of_ne (by omega), Heap.setPrevOf, if_pos (ptr_ne_zero hb.pos ha.lt)]
    have hm := changesOnly_setField ha .prev m q
    have hne : ∀ f, f ≠ .prev →
        getField f (setField .prev m (ptr a) q) (ptr a) = getField f m (ptr a) :=
      fun f hf ↦ getField_setField_same ha hf _ _
    refine ⟨⟨⟨hb.pos, hb.aligned, hb.size_aligned, hb.le, ?_, ?_, ?_,
      getField_setField_self _ _ _ _⟩, hbs.frame hlim hm ?_⟩, hm.mono ?_⟩
    · rw [hne _ (by decide), hb.status]
    · rw [hne _ (by decide), hb.size]
    · rw [hne _ (by decide), hb.next]
    · intro y hy
      obtain rfl := List.mem_singleton.mp hy
      omega
    · intro y hy
      obtain rfl := List.mem_singleton.mp hy
      simp [headers]

/-- Taking the next block in. -/
theorem Seg.eat (h : Seg m lim p x (b :: c :: r)) (hend : x + span (b :: c :: r) = lim)
    (hlim : lim < 2 ^ 32) :
    Seg (eat (ptr x) (ptr (x + 16 + b.size)) m) lim p x (⟨b.free, b.size + (c.size + 16)⟩ :: r) ∧
      ChangesOnly (headers x (b :: c :: r)) m (eat (ptr x) (ptr (x + 16 + b.size)) m) := by
  obtain ⟨hb, hc, hr⟩ := h
  have hx := hb.at hlim
  have hy := hc.at hlim
  have hxle := hb.le
  have hyle := hc.le
  rw [span_cons, span_cons] at hend
  have hxy : x ≠ x + 16 + b.size := by omega
  set y := x + 16 + b.size with hydef
  set z := y + 16 + c.size with hzdef
  -- the links of `x` and of the block after `y`
  set m₁ := setField .next m (ptr x) (getField .next m (ptr y)) with hm₁
  have h₁ : ChangesOnly [x] m m₁ := changesOnly_setField hx _ _ _
  have hnext₁ : getField .next m₁ (ptr x) = link lim z := by
    rw [hm₁, getField_setField_self, hc.next]
  have hr₁ : Seg m₁ lim (ptr y) z r := hr.frame hlim h₁ fun w hw ↦ by
    obtain rfl := List.mem_singleton.mp hw
    omega
  obtain ⟨hr₂, h₂⟩ := hr₁.setPrevOf (by omega) hlim (ptr x)
  set m₂ := Heap.setPrevOf m₁ (link lim z) (ptr x) with hm₂
  have hget : ∀ f, f ≠ .next → getField f m₂ (ptr x) = getField f m (ptr x) := fun f hf ↦ by
    rw [h₂.getField_below hx (by omega), hm₁, getField_setField_same hx hf]
  have hsize : getField .size m₂ (ptr x) + (getField .size m₂ (ptr y) + mmEntrySz) =
      BitVec.ofNat 32 (b.size + (c.size + 16)) := by
    rw [hget _ (by decide), h₂.getField_below hy (by omega), hm₁,
      getField_setField_apart hx hy hxy, hb.size, hc.size, BitVec.ofNat_add, BitVec.ofNat_add]
  -- the size of `x`
  have heat : Heap.eat (ptr x) (ptr y) m =
      setField .size m₂ (ptr x) (BitVec.ofNat 32 (b.size + (c.size + 16))) := by
    rw [Heap.eat, ← hm₁, hnext₁, ← hm₂, hsize]
  have h₃ := changesOnly_setField hx .size m₂ (BitVec.ofNat 32 (b.size + (c.size + 16)))
  have hne : ∀ f, f ≠ .size → getField f (setField .size m₂ (ptr x)
      (BitVec.ofNat 32 (b.size + (c.size + 16)))) (ptr x) = getField f m₂ (ptr x) :=
    fun f hf ↦ getField_setField_same hx hf _ _
  have hz : x + 16 + (b.size + (c.size + 16)) = z := by omega
  have hba := hb.size_aligned
  have hca := hc.size_aligned
  rw [heat]
  refine ⟨⟨⟨hb.pos, hb.aligned, ?_, ?_, ?_, getField_setField_self _ _ _ _, ?_, ?_⟩, ?_⟩,
    (h₁.mono ?_).trans ((h₂.mono ?_).trans (h₃.mono ?_))⟩
  · dsimp only
    omega
  · dsimp only
    omega
  · rw [hne _ (by decide), hget _ (by decide), hb.status]
  · rw [hne _ (by decide), h₂.getField_below hx (by omega), hnext₁, hz]
  · rw [hne _ (by decide), hget _ (by decide), hb.prev]
  · rw [hz]
    refine hr₂.frame hlim h₃ fun w hw ↦ ?_
    obtain rfl := List.mem_singleton.mp hw
    omega
  · simp [headers]
  · intro w hw
    simp only [headers, ← hydef, ← hzdef, List.mem_cons]
    exact Or.inr (Or.inr hw)
  · simp [headers]

/-! ## Splitting -/

/-- The writes of `breakChunk`: `x` keeps `t` bytes, and `y` comes between it and `next`. -/
def insertChunk (x y : ℕ) (t d : Word) (next : Addr) (m : Memory) : Memory :=
  let m := setField .size m (ptr x) t
  let m := setField .size m (ptr y) d
  let m := setField .next m (ptr y) next
  let m := setField .prev m (ptr y) (ptr x)
  let m := Heap.setPrevOf m next (ptr y)
  setField .next m (ptr x) (ptr y)

theorem breakChunk_eq {s : ℕ} (hx : Pos x) (hs : x + 16 + s < 2 ^ 32) {d : Word}
    (hds : d.toNat + 16 < s) (hd : d.toNat % 16 = 0) (hsa : s % 16 = 0)
    (hstatus : getField .status m (ptr x) = statusFree)
    (hsize : getField .size m (ptr x) = BitVec.ofNat 32 s) :
    breakChunk (ptr x) d m = (ptr (x + 16 + (s - (d.toNat + 16))),
      insertChunk x (x + 16 + (s - (d.toNat + 16))) (BitVec.ofNat 32 (s - (d.toNat + 16))) d
        (getField .next m (ptr x)) m) := by
  have hxa := hx.aligned
  have hactual : d + mmEntrySz = BitVec.ofNat 32 (d.toNat + 16) := by
    rw [BitVec.ofNat_add, BitVec.ofNat_toNat, BitVec.setWidth_eq]
  have hgt : getField .size m (ptr x) > d + mmEntrySz := by
    rw [hsize, hactual, gt_iff_lt, BitVec.lt_def, toNat_ptr (by omega), toNat_ptr (by omega)]
    exact hds
  have hrest : getField .size m (ptr x) - (d + mmEntrySz) =
      BitVec.ofNat 32 (s - (d.toNat + 16)) := by
    rw [hsize, hactual, eq_comm, BitVec.eq_sub_iff_add_eq, ← BitVec.ofNat_add,
      Nat.sub_add_cancel (by omega)]
  set t := s - (d.toNat + 16) with ht
  have hy : Pos (x + 16 + t) := ⟨by omega, by omega⟩
  have hnew : ptr x + (BitVec.ofNat 32 t + mmEntrySz) = ptr (x + 16 + t) := by
    rw [← BitVec.ofNat_add, ptr_add]
    congr 1
    omega
  rw [breakChunk]
  dsimp only
  rw [if_pos hstatus, if_pos hgt, hrest, getField_setField_self, hnew,
    getField_setField_apart hy hx (by omega), getField_setField_same hx (by decide),
    getField_setField_same hy (by decide), getField_setField_self]
  rfl

/-- The words that `insertChunk` writes before the block after it gets its new predecessor. -/
def splitHeaders (x y : ℕ) (t d : Word) (next : Addr) (m : Memory) : Memory :=
  let m := setField .size m (ptr x) t
  let m := setField .size m (ptr y) d
  let m := setField .next m (ptr y) next
  setField .prev m (ptr y) (ptr x)

/-- The words that are written after it, and the status that `kmalloc` gives to the new block. -/
def linkHeaders (x y : ℕ) (m : Memory) : Memory :=
  setField .status (setField .next m (ptr x) (ptr y)) (ptr y) statusAllocated

section Headers

variable {y : ℕ} {t d : Word} {next : Addr} {f : Field}

theorem changesOnly_splitHeaders (hx : Pos x) (hy : Pos y) :
    ChangesOnly [x, y] m (splitHeaders x y t d next m) :=
  (changesOnly_setField_mono hx (by simp) .size _ _).trans
    ((changesOnly_setField_mono hy (by simp) .size _ _).trans
      ((changesOnly_setField_mono hy (by simp) .next _ _).trans
        (changesOnly_setField_mono hy (by simp) .prev _ _)))

theorem getField_splitHeaders_left (hx : Pos x) (hy : Pos y) (hxy : x ≠ y) :
    getField f (splitHeaders x y t d next m) (ptr x)
      = getField f (setField .size m (ptr x) t) (ptr x) := by
  rw [splitHeaders, getField_setField_apart hy hx hxy.symm,
    getField_setField_apart hy hx hxy.symm, getField_setField_apart hy hx hxy.symm]

theorem size_splitHeaders_right (hy : Pos y) :
    getField .size (splitHeaders x y t d next m) (ptr y) = d := by
  rw [splitHeaders, getField_setField_same hy (by decide), getField_setField_same hy (by decide),
    getField_setField_self]

theorem next_splitHeaders_right (hy : Pos y) :
    getField .next (splitHeaders x y t d next m) (ptr y) = next := by
  rw [splitHeaders, getField_setField_same hy (by decide), getField_setField_self]

theorem prev_splitHeaders_right :
    getField .prev (splitHeaders x y t d next m) (ptr y) = ptr x :=
  getField_setField_self _ _ _ _

theorem changesOnly_linkHeaders (hx : Pos x) (hy : Pos y) :
    ChangesOnly [x, y] m (linkHeaders x y m) :=
  (changesOnly_setField_mono hx (by simp) .next _ _).trans
    (changesOnly_setField_mono hy (by simp) .status _ _)

theorem next_linkHeaders_left (hx : Pos x) (hy : Pos y) (hxy : x ≠ y) :
    getField .next (linkHeaders x y m) (ptr x) = ptr y := by
  rw [linkHeaders, getField_setField_apart hy hx hxy.symm, getField_setField_self]

theorem getField_linkHeaders_left (hx : Pos x) (hy : Pos y) (hxy : x ≠ y) (hf : f ≠ .next) :
    getField f (linkHeaders x y m) (ptr x) = getField f m (ptr x) := by
  rw [linkHeaders, getField_setField_apart hy hx hxy.symm, getField_setField_same hx hf]

theorem status_linkHeaders_right : getField .status (linkHeaders x y m) (ptr y) = statusAllocated :=
  getField_setField_self _ _ _ _

theorem getField_linkHeaders_right (hx : Pos x) (hy : Pos y) (hxy : x ≠ y) (hf : f ≠ .status) :
    getField f (linkHeaders x y m) (ptr y) = getField f m (ptr y) := by
  rw [linkHeaders, getField_setField_same hy hf, getField_setField_apart hx hy hxy]

end Headers

theorem Seg.insertChunk {s t k : ℕ} (h : Seg m lim p x (⟨true, s⟩ :: r))
    (hend : x + span (⟨true, s⟩ :: r) = lim) (hlim : lim < 2 ^ 32) (hs : s = t + (k + 16))
    (hk : k % 16 = 0) :
    Seg (setField .status (insertChunk x (x + 16 + t) (BitVec.ofNat 32 t) (BitVec.ofNat 32 k)
        (link lim (x + 16 + s)) m) (ptr (x + 16 + t)) statusAllocated) lim p x
        (⟨true, t⟩ :: ⟨false, k⟩ :: r) ∧
      ChangesOnly (headers x (⟨true, t⟩ :: ⟨false, k⟩ :: r)) m
        (setField .status (insertChunk x (x + 16 + t) (BitVec.ofNat 32 t) (BitVec.ofNat 32 k)
          (link lim (x + 16 + s)) m) (ptr (x + 16 + t)) statusAllocated) := by
  obtain ⟨⟨hpos, hxa, hsa, hle, hstatus, hsize, hnext, hprev⟩, hr⟩ := h
  dsimp only at hle hsa hstatus hsize hnext hr
  rw [span_cons] at hend
  dsimp only at hend
  set y := x + 16 + t with hydef
  set z := x + 16 + s with hzdef
  have hx : Pos x := ⟨hxa, by omega⟩
  have hy : Pos y := ⟨by omega, by omega⟩
  have hxy : x ≠ y := by omega
  have hzy : y + 16 + k = z := by omega
  -- the blocks that follow, through the three stages
  set m₁ := splitHeaders x y (BitVec.ofNat 32 t) (BitVec.ofNat 32 k) (link lim z) m with hm₁
  have h₁ : ChangesOnly [x, y] m m₁ := changesOnly_splitHeaders hx hy
  have hr₁ : Seg m₁ lim (ptr x) z r := hr.frame hlim h₁ fun w hw ↦ by
    simp only [List.mem_cons, List.not_mem_nil, or_false] at hw
    omega
  obtain ⟨hr₂, h₂⟩ := hr₁.setPrevOf (by omega) hlim (ptr y)
  set m₂ := Heap.setPrevOf m₁ (link lim z) (ptr y)
  have h₃ : ChangesOnly [x, y] m₂ (linkHeaders x y m₂) := changesOnly_linkHeaders hx hy
  have hr₃ : Seg (linkHeaders x y m₂) lim (ptr y) z r := hr₂.frame hlim h₃ fun w hw ↦ by
    simp only [List.mem_cons, List.not_mem_nil, or_false] at hw
    omega
  -- the two headers
  have hgetx : ∀ f, f ≠ .next → getField f (linkHeaders x y m₂) (ptr x)
      = getField f (setField .size m (ptr x) (BitVec.ofNat 32 t)) (ptr x) := fun f hf ↦ by
    rw [getField_linkHeaders_left hx hy hxy hf, h₂.getField_below hx (by omega), hm₁,
      getField_splitHeaders_left hx hy hxy]
  have hgety : ∀ f, f ≠ .status →
      getField f (linkHeaders x y m₂) (ptr y) = getField f m₁ (ptr y) := fun f hf ↦ by
    rw [getField_linkHeaders_right hx hy hxy hf, h₂.getField_below hy (by omega)]
  have headx : Header (linkHeaders x y m₂) lim x ⟨true, t⟩ p := by
    refine ⟨hpos, hxa, by dsimp only; omega, by dsimp only; omega, ?_, ?_, ?_, ?_⟩
    · rw [hgetx _ (by decide), getField_setField_same hx (by decide), hstatus]
    · rw [hgetx _ (by decide), getField_setField_self]
    · rw [next_linkHeaders_left hx hy hxy, link_of_ne (by dsimp only; omega)]
    · rw [hgetx _ (by decide), getField_setField_same hx (by decide), hprev]
  have heady : Header (linkHeaders x y m₂) lim y ⟨false, k⟩ (ptr x) := by
    refine ⟨by omega, hy.aligned, hk, by dsimp only; omega, status_linkHeaders_right, ?_, ?_, ?_⟩
    · rw [hgety _ (by decide), size_splitHeaders_right hy]
    · rw [hgety _ (by decide), next_splitHeaders_right hy, hzy]
    · rw [hgety _ (by decide), prev_splitHeaders_right]
  have hwrites : setField .status (Heap.insertChunk x y (BitVec.ofNat 32 t) (BitVec.ofNat 32 k)
      (link lim z) m) (ptr y) statusAllocated = linkHeaders x y m₂ := rfl
  rw [hwrites]
  refine ⟨⟨headx, heady, ?_⟩, (h₁.mono ?_).trans ((h₂.mono ?_).trans (h₃.mono ?_))⟩
  · rw [hzy]
    exact hr₃
  · simp [headers, hydef]
  · intro w hw
    simp only [headers, ← hydef, hzy, List.mem_cons]
    exact Or.inr (Or.inr hw)
  · simp [headers, hydef]

/-! ## In the middle of a list -/

/-- Changes in a part of the list from some block on leave the blocks before it. -/
theorem Seg.splice {S : List ℕ} (hl : Seg m lim p a l) (hlim : lim < 2 ^ 32)
    (hr : Seg m' lim (lastHeader p a l) (a + span l) bs) (hm : ChangesOnly S m m')
    (hS : ∀ x ∈ S, a + span l ≤ x) : Seg m' lim p a (l ++ bs) :=
  seg_append.mpr ⟨hl.frame hlim hm fun x hx ↦ Or.inr (hS x hx), hr⟩

theorem mem_headers_append {x : ℕ} (hx : x ∈ headers (a + span l) bs) :
    x ∈ headers a (l ++ bs) := by
  rw [headers_append]
  exact List.mem_append_right _ hx

theorem Seg.setStatus_append (h : Seg m lim p a (l ++ b :: r)) (hlim : lim < 2 ^ 32) (free : Bool) :
    Seg (setField .status m (ptr (a + span l)) (statusOf free)) lim p a
        (l ++ ⟨free, b.size⟩ :: r) ∧
      ChangesOnly (headers a (l ++ ⟨free, b.size⟩ :: r)) m
        (setField .status m (ptr (a + span l)) (statusOf free)) := by
  obtain ⟨hl, hr⟩ := seg_append.mp h
  have hm := changesOnly_setField (hr.1.at hlim) .status m (statusOf free)
  exact ⟨hl.splice hlim (hr.setStatus hlim free) hm (by simp),
    hm.mono (by simp [headers_append, headers])⟩

theorem Seg.eat_append (h : Seg m lim p a (l ++ b :: c :: r))
    (hend : a + span (l ++ b :: c :: r) = lim) (hlim : lim < 2 ^ 32) :
    Seg (Heap.eat (ptr (a + span l)) (ptr (a + span l + 16 + b.size)) m) lim p a
        (l ++ ⟨b.free, b.size + (c.size + 16)⟩ :: r) ∧
      ChangesOnly (headers a (l ++ b :: c :: r)) m
        (Heap.eat (ptr (a + span l)) (ptr (a + span l + 16 + b.size)) m) := by
  obtain ⟨hl, hr⟩ := seg_append.mp h
  rw [span_append, ← Nat.add_assoc] at hend
  obtain ⟨hseg, hm⟩ := hr.eat hend hlim
  exact ⟨hl.splice hlim hseg hm fun x hx ↦ (mem_headers hx).1,
    hm.mono fun x hx ↦ mem_headers_append hx⟩

end Sugarcat.Heap
