import Sugarcat.Heap.BestFit
import Sugarcat.Heap.Operations
import Sugarcat.Heap.Rounding

/-!
# The allocator on tilings

`Represents a h bs`: the list of the heap `h` in the page at `a` is that of the blocks `bs`. On what
is represented, `heapInit` gives the page as one free block, `kmalloc` is `Serve` and `kfree` is
`release`, and both write in headers only. In particular `kmalloc` always returns.

## Requests

The search finds what `Serve` asks for, by the blocks. What is left is to take a block whole, which
changes its status, or to take its tail, which `break_chunk` cuts off. The page is below the top of
the address space, so none of the sums of positions and sizes wraps around, and a request that is
rounded to zero is one for a block of no bytes.

## Releases

`kfree` looks at the neighbours of the block, and joins it with the free ones among them. The source
does so in place, first to the right and then to the left, and `release` does the same to the blocks
on either side.
-/

namespace Sugarcat.Heap

open ByteMemory

/-- A page the heap can use: aligned, not the first one and not the last one. -/
structure HeapPage (a : Addr) : Prop where
  aligned : 4096 ∣ a.toNat
  ne_null : a ≠ null
  fits : a.toNat + 4096 < 2 ^ 32

theorem heapPage_heapStartOf {actualPtr : Addr} (hne : actualPtr ≠ null)
    (hfits : actualPtr.toNat + 2 * 4096 ≤ 2 ^ 32) : HeapPage (heapStartOf actualPtr) := by
  have hpos : 0 < actualPtr.toNat := Nat.pos_of_ne_zero fun h ↦ hne (BitVec.eq_of_toNat_eq h)
  have hsum : (actualPtr + (pageSize - 1#32)).toNat = actualPtr.toNat + 4095 := by
    rw [BitVec.toNat_add]
    exact Nat.mod_eq_of_lt (by change actualPtr.toNat + 4095 < _; omega)
  have hval : (heapStartOf actualPtr).toNat =
      (actualPtr.toNat + 4095) / 4096 * 4096 := by
    rw [heapStartOf, Bits.toNat_and_high (k := 12) (by decide) (by decide), hsum]
    rfl
  refine ⟨?_, ?_, ?_⟩
  · rw [hval]
    omega
  · intro h
    rw [h] at hval
    change 0 = _ at hval
    omega
  · rw [hval]
    omega

/-- The list of the heap is that of the blocks `bs`. -/
structure Represents (a : Addr) (h : State) (bs : List Block) : Prop where
  start : h.heapStart = a
  head : h.head = a
  seg : Seg h.mem (a.toNat + 4096) null a.toNat bs
  span_eq : span bs = 4096

/-- A pointer to the payload at a distance from the start of the page. -/
def payloadPtr (a : Addr) : Option ℕ → Addr
  | none => null
  | some x => ptr (a.toNat + x)

variable {a : Addr} {h : State} {bs l r : List Block} {m : Memory} {s : ℕ}

theorem HeapPage.pos (ha : HeapPage a) : 0 < a.toNat :=
  Nat.pos_of_ne_zero fun h ↦ ha.ne_null (BitVec.eq_of_toNat_eq h)

theorem represents_heapInit (ha : HeapPage a) (m : Memory) :
    Represents a (heapInit a m) [⟨true, 4080⟩] := by
  have hal := ha.aligned
  have hfits := ha.fits
  have hx : Pos a.toNat := ⟨by omega, by omega⟩
  have hself : ∀ f m v, getField f (setField f m a v) a = v :=
    fun f m v ↦ getField_setField_self f m a v
  have hother : ∀ f g m v, f ≠ g → getField g (setField f m a v) a = getField g m a := by
    intro f g m v hfg
    have := getField_setField_same hx hfg.symm m v
    rwa [ptr_toNat] at this
  refine ⟨rfl, rfl, ⟨⟨ha.pos, hx.aligned, by decide, le_rfl, ?_, ?_, ?_, ?_⟩, trivial⟩, rfl⟩
  · rw [ptr_toNat, heapInit]
    exact hself _ _ _
  · rw [ptr_toNat, heapInit]
    exact (hother _ _ _ _ (by decide)).trans (hself _ _ _)
  · rw [ptr_toNat, heapInit]
    refine (hother _ _ _ _ (by decide)).trans ((hother _ _ _ _ (by decide)).trans
      ((hother _ _ _ _ (by decide)).trans (hself _ _ _))) |>.trans ?_
    exact (link_self _).symm
  · rw [ptr_toNat, heapInit]
    exact (hother _ _ _ _ (by decide)).trans ((hother _ _ _ _ (by decide)).trans (hself _ _ _))

theorem Represents.congr (hr : Represents a h bs) (ha : HeapPage a) {m : Memory}
    (heq : ∀ x ∈ headers a.toNat bs, ∀ c, InHeader x c → m c = h.mem c) :
    Represents a { h with mem := m } bs :=
  ⟨hr.start, hr.head, hr.seg.congr ha.fits heq, hr.span_eq⟩

/-! ## Requests -/

theorem roundSize_add_lt (n : Word) : (roundSize n).toNat + 16 < 2 ^ 32 := by
  rcases Nat.lt_or_ge (2 ^ 31) n.toNat with hn | hn
  · rw [roundSize_of_gt hn]
    decide
  · obtain ⟨k, -, hk, heq, -⟩ := toNat_roundSize_of_le hn
    have := Nat.pow_le_pow_right (n := 2) (by decide) hk
    omega

theorem roundSize_mod (n : Word) : (roundSize n).toNat % 16 = 0 := by
  rcases Nat.lt_or_ge (2 ^ 31) n.toNat with hn | hn
  · rw [roundSize_of_gt hn]
    rfl
  · obtain ⟨k, hk, -, heq, -⟩ := toNat_roundSize_of_le hn
    rw [heq]
    exact Nat.mod_eq_zero_of_dvd (Nat.pow_dvd_pow 2 hk)

theorem Represents.setAllocated (hr : Represents a h (l ++ ⟨true, s⟩ :: r)) (ha : HeapPage a) :
    Represents a
        { h with mem := setField .status h.mem (ptr (a.toNat + span l)) statusAllocated }
        (l ++ ⟨false, s⟩ :: r) ∧
      ChangesOnly (headers a.toNat (l ++ ⟨false, s⟩ :: r)) h.mem
        (setField .status h.mem (ptr (a.toNat + span l)) statusAllocated) := by
  obtain ⟨hseg, hm⟩ := hr.seg.setStatus_append ha.fits false
  refine ⟨⟨hr.start, hr.head, hseg, ?_⟩, hm⟩
  rw [← hr.span_eq, span_append, span_append, span_cons, span_cons]

/-- A block whose tail is taken. -/
theorem Represents.breakChunk (hr : Represents a h (l ++ ⟨true, s⟩ :: r)) (ha : HeapPage a)
    {d : Word} (hd : d.toNat % 16 = 0) (hds : d.toNat + 16 < s) :
    ∃ x m, x = a.toNat + span l + 16 + (s - (d.toNat + 16)) ∧ 0 < x ∧ x < 2 ^ 32 ∧
      breakChunk (ptr (a.toNat + span l)) d h.mem = (ptr x, m) ∧
      Represents a { h with mem := setField .status m (ptr x) statusAllocated }
        (l ++ ⟨true, s - (d.toNat + 16)⟩ :: ⟨false, d.toNat⟩ :: r) ∧
      ChangesOnly (headers a.toNat (l ++ ⟨true, s - (d.toNat + 16)⟩ :: ⟨false, d.toNat⟩ :: r)) h.mem
        (setField .status m (ptr x) statusAllocated) := by
  obtain ⟨hl, hseg⟩ := seg_append.mp hr.seg
  have hhead := hseg.1
  have hspan := hr.span_eq
  have hfits := ha.fits
  have hsa : s % 16 = 0 := hhead.size_aligned
  have hle : a.toNat + span l + 16 + s ≤ a.toNat + 4096 := hhead.le
  have hpos := hhead.pos
  rw [span_append, span_cons] at hspan
  dsimp only at hspan
  have hs : s = s - (d.toNat + 16) + (d.toNat + 16) := by omega
  have hend : a.toNat + span l + span (⟨true, s⟩ :: r) = a.toNat + 4096 := by
    rw [span_cons]
    dsimp only
    omega
  have hchunk := breakChunk_eq (hhead.at ha.fits) (by omega) hds hd hsa hhead.status hhead.size
  obtain ⟨hseg', hm⟩ := hseg.insertChunk hend ha.fits hs hd
  have hword : BitVec.ofNat 32 d.toNat = d := ptr_toNat d
  rw [hword] at hseg' hm
  rw [hhead.next] at hchunk
  refine ⟨_, _, rfl, by omega, by omega, hchunk, ⟨hr.start, hr.head, ?_, ?_⟩,
    hm.mono fun x hx ↦ mem_headers_append hx⟩
  · exact hl.splice ha.fits hseg' hm fun x hx ↦ (mem_headers hx).1
  · simp only [span_append, span_cons]
    omega

/-- **A request is served as from the blocks**, and writes in headers only. -/
theorem kmalloc_spec (hr : Represents a h bs) (ha : HeapPage a) {n : Word} (hn : n > 0#32) :
    ∃ o bs' m, kmalloc n h = .ret (payloadPtr a o, { h with mem := m }) ∧
      Serve (roundSize n).toNat bs o bs' ∧ Represents a { h with mem := m } bs' ∧
      ChangesOnly (headers a.toNat bs') h.mem m := by
  have hne : bs ≠ [] := by
    rintro rfl
    exact absurd hr.span_eq (by decide)
  obtain ⟨⟨node, exact⟩, hfind, hfound⟩ := findBestFit_spec hr.seg (by rw [hr.span_eq]) ha.fits
    (roundSize_add_lt n) hne h.heapStart
  have hfind' : findBestFit (roundSize n) h = some (node, exact) := by
    rw [← hfind, ptr_toNat, ← hr.head]
  rw [kmalloc, if_pos hn]
  dsimp only
  rw [hfind']
  dsimp only
  cases exact with
  | true =>
    obtain ⟨l, r, rfl, hfirst, rfl⟩ := hfound
    have hhead := hr.seg.header
    obtain ⟨hrep, hm⟩ := hr.setAllocated ha
    rw [if_pos (ptr_ne_zero hhead.pos (hhead.at ha.fits).lt), if_neg (by simp)]
    refine ⟨_, _, _, ?_, Serve.exact rfl hfirst, hrep, hm⟩
    rw [payloadPtr, ptr_add, Nat.add_assoc]
  | false =>
    obtain ⟨hexact, ⟨rfl, hsmall⟩ | ⟨l, s, r, hleast, rfl⟩⟩ := hfound
    · rw [if_neg (by simp)]
      exact ⟨none, bs, h.mem, rfl,
        Serve.fail fun b hb hfree ↦ ⟨hexact b hb hfree, hsmall b hb hfree⟩, hr,
        ChangesOnly.refl _ _⟩
    · have hr' := hr
      rw [hleast.eq] at hr'
      have hhead := hr'.seg.header
      obtain ⟨x, m, hx, hpos, hlt, hchunk, hrep, hm⟩ :=
        hr'.breakChunk ha (roundSize_mod n) hleast.large
      rw [if_pos (ptr_ne_zero hhead.pos (hhead.at ha.fits).lt), if_pos (by simp), hchunk]
      dsimp only
      rw [if_neg (ptr_ne_zero hpos hlt)]
      refine ⟨_, _, _, ?_, Serve.split hleast hexact, hrep, hm⟩
      rw [payloadPtr, ptr_add, hx]
      simp only [Nat.add_assoc]

/-! ## Releases -/

/-- One of the two merges of `kfree`: take `next` into `node` if the neighbour `x` is free. -/
def eatIf (x node next : Addr) (m : Memory) : Memory :=
  if x ≠ null ∧ getField .status m x = statusFree then eat node next m else m

/-- `kfree` of the payload after the header at `node`. -/
theorem kfree_eq {node : Addr} (hne : node + mmEntrySz ≠ null)
    (hstatus : getField .status h.mem node = statusAllocated) :
    kfree (node + mmEntrySz) h =
      { h with mem := (
        let next := getField .next h.mem node
        let prev := getField .prev h.mem node
        let m := setField .status h.mem node statusFree
        eatIf prev prev node (eatIf next node next m)) } := by
  rw [kfree, if_pos hne, BitVec.add_sub_cancel]
  dsimp only
  rw [if_pos hstatus]
  rfl

theorem Represents.joinRight (hr : Represents a h (l ++ ⟨true, s⟩ :: r)) (ha : HeapPage a)
    {next : Addr} (hnext : next = link (a.toNat + 4096) (a.toNat + span l + 16 + s)) :
    Represents a { h with mem := eatIf next (ptr (a.toNat + span l)) next h.mem }
        (l ++ ⟨true, (joinRight s r).1⟩ :: (joinRight s r).2) ∧
      ChangesOnly (headers a.toNat (l ++ ⟨true, s⟩ :: r)) h.mem
        (eatIf next (ptr (a.toNat + span l)) next h.mem) := by
  have hspan := hr.span_eq
  rw [span_append, span_cons] at hspan
  dsimp only at hspan
  cases r with
  | nil =>
    have hlast : a.toNat + span l + 16 + s = a.toNat + 4096 := by
      rw [span_nil] at hspan
      omega
    rw [hnext, hlast, link_self, eatIf, if_neg (by simp)]
    exact ⟨hr, ChangesOnly.refl _ _⟩
  | cons c r =>
    have hc : Header h.mem _ (a.toNat + span l + 16 + s) c _ := (seg_append.mp hr.seg).2.2.1
    have hle := hc.le
    rw [hnext, link_of_ne (by omega), Heap.joinRight]
    by_cases hfree : c.free = true
    · rw [eatIf, if_pos ⟨ptr_ne_zero hc.pos (hc.at ha.fits).lt, hc.status_eq_free.mpr hfree⟩,
        if_pos hfree]
      obtain ⟨hseg, hm⟩ := hr.seg.eat_append (by rw [hr.span_eq]) ha.fits
      refine ⟨⟨hr.start, hr.head, hseg, ?_⟩, hm⟩
      rw [span_append, span_cons, ← hspan, span_cons]
      dsimp only
      omega
    · rw [eatIf, if_neg fun hif ↦ hfree (hc.status_eq_free.mp hif.2), if_neg hfree]
      exact ⟨hr, ChangesOnly.refl _ _⟩

theorem Represents.joinLeft (hr : Represents a h (l ++ ⟨true, s⟩ :: r)) (ha : HeapPage a)
    {prev : Addr} (hprev : prev = lastHeader null a.toNat l) :
    Represents a { h with mem := eatIf prev prev (ptr (a.toNat + span l)) h.mem }
        ((joinLeft l s).1 ++ ⟨true, (joinLeft l s).2⟩ :: r) ∧
      ChangesOnly (headers a.toNat (l ++ ⟨true, s⟩ :: r)) h.mem
        (eatIf prev prev (ptr (a.toNat + span l)) h.mem) := by
  rcases List.eq_nil_or_concat l with rfl | ⟨l, c, rfl⟩
  · rw [hprev, lastHeader, eatIf, if_neg (by simp)]
    exact ⟨hr, ChangesOnly.refl _ _⟩
  · -- the block before is the last one of `l`
    rw [List.concat_eq_append] at hr hprev ⊢
    rw [lastHeader_concat] at hprev
    have hend : a.toNat + span (l ++ [c]) = a.toNat + span l + 16 + c.size := by
      simp [Nat.add_assoc]
    have hjoin : Heap.joinLeft (l ++ [c]) s =
        if c.free then (l, c.size + (s + 16)) else (l ++ [c], s) := by
      simp [Heap.joinLeft]
    rw [hprev, hend, hjoin]
    by_cases hfree : c.free = true
    · rw [List.append_assoc, List.singleton_append] at hr ⊢
      have hc := hr.seg.header
      rw [eatIf, if_pos ⟨ptr_ne_zero hc.pos (hc.at ha.fits).lt, hc.status_eq_free.mpr hfree⟩,
        if_pos hfree]
      obtain ⟨hseg, hm⟩ := hr.seg.eat_append (by rw [hr.span_eq]) ha.fits
      rw [hfree] at hseg
      refine ⟨⟨hr.start, hr.head, hseg, ?_⟩, hm⟩
      rw [← hr.span_eq]
      simp only [span_append, span_cons]
      omega
    · have hc : Header h.mem (a.toNat + 4096) (a.toNat + span l) c
          (lastHeader null a.toNat l) := by
        have hseg := hr.seg
        rw [List.append_assoc] at hseg
        exact hseg.header
      rw [eatIf, if_neg fun hif ↦ hfree (hc.status_eq_free.mp hif.2), if_neg hfree]
      exact ⟨hr, ChangesOnly.refl _ _⟩

/-- **A release frees the block as among the blocks**, and writes in headers only. -/
theorem kfree_spec (hr : Represents a h (l ++ ⟨false, s⟩ :: r)) (ha : HeapPage a) :
    ∃ m, kfree (payloadPtr a (some (span l + 16))) h = { h with mem := m } ∧
      Represents a { h with mem := m } (release l s r) ∧
      ChangesOnly (headers a.toNat (l ++ ⟨false, s⟩ :: r)) h.mem m := by
  have hx := hr.seg.header
  have hle := hx.le
  have hpos := hx.pos
  have hfits := ha.fits
  dsimp only at hle
  obtain ⟨hseg, hm₁⟩ := hr.seg.setStatus_append ha.fits true
  have hr₁ : Represents a
      { h with mem := setField .status h.mem (ptr (a.toNat + span l)) statusFree }
      (l ++ ⟨true, s⟩ :: r) := by
    refine ⟨hr.start, hr.head, hseg, ?_⟩
    rw [← hr.span_eq, span_append, span_append, span_cons, span_cons]
  -- each merge finds the heap as a tiling again, with the freed block in it
  obtain ⟨hr₂, hm₂⟩ := hr₁.joinRight ha hx.next
  obtain ⟨hr₃, hm₃⟩ := hr₂.joinLeft ha hx.prev
  have hptr : payloadPtr a (some (span l + 16)) = ptr (a.toNat + span l) + mmEntrySz := by
    rw [payloadPtr, ptr_add, Nat.add_assoc]
  have hne : ptr (a.toNat + span l) + mmEntrySz ≠ null := by
    rw [ptr_add]
    exact ptr_ne_zero (by omega) (by omega)
  rw [hptr, kfree_eq hne hx.status]
  refine ⟨_, rfl, hr₃, ?_⟩
  rw [headers_append_cons, ← headers_append_cons a.toNat l true s r]
  exact hm₁.trans (hm₂.trans (hm₃.mono fun x hx ↦ mem_headers_joinRight hx))

end Sugarcat.Heap
