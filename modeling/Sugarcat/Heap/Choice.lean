import Sugarcat.Heap.Tiling

/-!
# Which block a request gets

What `kmalloc` chooses, by the nodes of the list: a free block of exactly the rounded size, or else
the tail of a least free block with room for another header. It fails if and only if there is none,
and it never gets to the branch that ends the program, since what the search finds large enough
`break_chunk` does too.

## In the words of the source

`BestFit` is about the heap before and the heap after the request, and about nodes and their fields.
It does not mention blocks, so that it can be read next to the source. `Takes` is a block that is
handed out whole: the list is the same, and the status has changed. `Carves` is the tail of a block:
the list has one node more, and the sizes of the two with a header between them add up to the old
one.

## By the blocks

The blocks carry the proof: the free nodes of the list are the free blocks of the tiling
(`Represents.freeBlock_iff`), and each of the three outcomes of a request among the blocks is one of
the three that `BestFit` has.
-/

namespace Sugarcat.Heap

open ByteMemory

/-- `x` is a free block of `s` bytes. -/
def FreeBlock (h : State) (x : Addr) (s : ℕ) : Prop :=
  (∃ nodes, ListFrom h.mem h.head nodes ∧ x ∈ nodes) ∧ getField .status h.mem x = statusFree ∧
    (getField .size h.mem x).toNat = s

/-- The block `x` is handed out whole, at `p`. -/
structure Takes (h : State) (x p : Addr) (h' : State) : Prop where
  payload : p = x + mmEntrySz
  nodes : ∃ nodes, ListFrom h.mem h.head nodes ∧ ListFrom h'.mem h'.head nodes
  status : getField .status h'.mem x = statusAllocated
  size : getField .size h'.mem x = getField .size h.mem x

/-- The last `r` bytes of the block `x` are handed out at `p`, and what is left of it stays free. -/
structure Carves (h : State) (x : Addr) (r : Word) (p : Addr) (h' : State) : Prop where
  tail : p.toNat + r.toNat = x.toNat + 16 + (getField .size h.mem x).toNat
  nodes : ∃ before after, ListFrom h.mem h.head (before ++ x :: after) ∧
    ListFrom h'.mem h'.head (before ++ x :: (p - mmEntrySz) :: after)
  rest : getField .status h'.mem x = statusFree ∧
    (getField .size h'.mem x).toNat + 16 + r.toNat = (getField .size h.mem x).toNat
  status : getField .status h'.mem (p - mmEntrySz) = statusAllocated
  size : getField .size h'.mem (p - mmEntrySz) = r

/-- The outcome `p`, `h'` of a request that is rounded to `r` bytes is the best fit. -/
structure BestFit (h : State) (r : Word) (p : Addr) (h' : State) : Prop where
  null_iff : p = null ↔ ∀ x s, FreeBlock h x s → s ≠ r.toNat ∧ ¬r.toNat + 16 < s
  unchanged : p = null → h' = h
  exact : p ≠ null → (∃ x, FreeBlock h x r.toNat) → ∃ x, FreeBlock h x r.toNat ∧ Takes h x p h'
  least : p ≠ null → (¬∃ x, FreeBlock h x r.toNat) → ∃ x s, FreeBlock h x s ∧ r.toNat + 16 < s ∧
    (∀ y t, FreeBlock h y t → r.toNat + 16 < t → s ≤ t) ∧ Carves h x r p h'

variable {a p x : Addr} {w : World} {bs bs' l r : List Block} {n : Word} {h h' : State} {d s k : ℕ}

/-- The free blocks of the list are those of the tiling. -/
theorem Represents.freeBlock_iff (hr : Represents a h bs) (ha : HeapPage a) :
    FreeBlock h x s ↔ ∃ l r, bs = l ++ ⟨true, s⟩ :: r ∧ x = ptr (a.toNat + span l) := by
  constructor
  · rintro ⟨⟨nodes, hlist, hmem⟩, hstatus, hsize⟩
    obtain rfl := hlist.unique (hr.listFrom ha)
    obtain ⟨y, hy, rfl⟩ := List.mem_map.mp hmem
    obtain ⟨l, ⟨free, k⟩, r, rfl, rfl, hb⟩ := hr.exists_header hy
    obtain rfl : free = true := hb.status_eq_free.mp hstatus
    obtain rfl : k = s := (hb.toNat_size ha.fits).symm.trans hsize
    exact ⟨l, r, rfl, rfl⟩
  · rintro ⟨l, r, rfl, rfl⟩
    have hb := hr.seg.header
    exact ⟨⟨_, hr.listFrom ha, List.mem_map_of_mem (mem_headers_iff.mpr ⟨l, _, r, rfl, rfl⟩)⟩,
      hb.status_eq_free.mpr rfl, hb.toNat_size ha.fits⟩

theorem Represents.exists_freeBlock_iff (hr : Represents a h bs) (ha : HeapPage a) :
    (∃ x, FreeBlock h x s) ↔ ⟨true, s⟩ ∈ bs := by
  constructor
  · rintro ⟨x, hx⟩
    obtain ⟨l, r, rfl, -⟩ := (hr.freeBlock_iff ha).mp hx
    simp
  · intro hmem
    obtain ⟨l, r, rfl⟩ := List.append_of_mem hmem
    exact ⟨_, (hr.freeBlock_iff ha).mpr ⟨l, r, rfl, rfl⟩⟩

theorem Represents.forall_freeBlock_iff (hr : Represents a h bs) (ha : HeapPage a) {P : ℕ → Prop} :
    (∀ x s, FreeBlock h x s → P s) ↔ ∀ b ∈ bs, b.free = true → P b.size := by
  constructor
  · rintro hall ⟨free, s⟩ hb rfl
    obtain ⟨x, hx⟩ := (hr.exists_freeBlock_iff ha).mpr hb
    exact hall x s hx
  · intro hall x s hx
    exact hall ⟨true, s⟩ ((hr.exists_freeBlock_iff ha).mp ⟨x, hx⟩) rfl

/-! ## The three outcomes -/

theorem Represents.kmalloc_eq_null (hr : Represents a h bs) (ha : HeapPage a) (hn : n > 0#32)
    (hserve : Serve (roundSize n).toNat bs none bs') : kmalloc n h = .ret (null, h) := by
  have hne : bs ≠ [] := by
    rintro rfl
    exact absurd hr.span_eq (by decide)
  obtain ⟨⟨node, exact⟩, hfind, hfound⟩ := findBestFit_spec hr.seg (by rw [hr.span_eq]) ha.fits
    (roundSize_add_lt n) hne h.heapStart
  rw [ptr_toNat, ← hr.head] at hfind
  rw [kmalloc, if_pos hn]
  dsimp only
  rw [hfind]
  cases hserve with
  | fail hnone =>
    cases exact with
    | true =>
      obtain ⟨l, r, rfl, -, -⟩ := hfound
      exact absurd rfl (hnone ⟨true, _⟩ (by simp) rfl).1
    | false =>
      obtain ⟨-, ⟨rfl, -⟩ | ⟨l, s, r, hleast, -⟩⟩ := hfound
      · exact if_neg (by simp)
      · have hsmall := (hnone ⟨true, s⟩ (by simp [hleast.eq]) rfl).2
        exact absurd hleast.large (Nat.not_lt.mpr hsmall)

theorem Represents.takes (hr : Represents a h (l ++ ⟨true, s⟩ :: r)) (ha : HeapPage a)
    (hr' : Represents a h' (l ++ ⟨false, s⟩ :: r)) :
    Takes h (ptr (a.toNat + span l)) (ptr (a.toNat + (span l + 16))) h' := by
  have hb := hr.seg.header
  have hb' := hr'.seg.header
  refine ⟨by rw [ptr_add, Nat.add_assoc], ⟨_, hr.listFrom ha, ?_⟩, ?_, ?_⟩
  · rw [headers_append_cons, ← headers_append_cons _ _ false]
    exact hr'.listFrom ha
  · rw [hb'.status]
    rfl
  · rw [hb'.size, hb.size]

theorem Represents.carves (hr : Represents a h (l ++ ⟨true, s⟩ :: r)) (ha : HeapPage a) {d : Word}
    (hlarge : d.toNat + 16 < s)
    (hr' : Represents a h' (l ++ ⟨true, s - (d.toNat + 16)⟩ :: ⟨false, d.toNat⟩ :: r)) :
    Carves h (ptr (a.toNat + span l)) d
      (ptr (a.toNat + (span l + 16 + (s - (d.toNat + 16)) + 16))) h' := by
  have hb := hr.seg.header
  have hrest := hr'.seg.header
  have hnew : Header h'.mem (a.toNat + 4096) (a.toNat + span l + 16 + (s - (d.toNat + 16)))
      ⟨false, d.toNat⟩ (ptr (a.toNat + span l)) := (seg_append.mp hr'.seg).2.2.1
  have hle := hnew.le
  have hfits := ha.fits
  dsimp only at hle
  have hptr : ptr (a.toNat + (span l + 16 + (s - (d.toNat + 16)) + 16)) - mmEntrySz
      = ptr (a.toNat + span l + 16 + (s - (d.toNat + 16))) := by
    rw [← Nat.add_assoc, ← ptr_add, BitVec.add_sub_cancel]
    simp only [Nat.add_assoc]
  refine ⟨?_, ⟨(headers a.toNat l).map ptr, (headers (a.toNat + span l + 16 + s) r).map ptr,
    ?_, ?_⟩, ⟨hrest.status, ?_⟩, ?_, ?_⟩
  · rw [toNat_ptr (by omega), toNat_ptr (hb.at hfits).lt, hb.toNat_size hfits]
    dsimp only
    omega
  · have hlist := hr.listFrom ha
    rwa [headers_append_cons, List.map_append, List.map_cons] at hlist
  · have hlist := hr'.listFrom ha
    have hend : a.toNat + span l + 16 + (s - (d.toNat + 16)) + 16 + d.toNat
        = a.toNat + span l + 16 + s := by omega
    rw [headers_append_cons, headers, hend, List.map_append, List.map_cons, List.map_cons] at hlist
    rw [hptr]
    exact hlist
  · rw [hrest.toNat_size hfits, hb.toNat_size hfits]
    dsimp only
    omega
  · rw [hptr, hnew.status]
    rfl
  · rw [hptr, hnew.size]
    exact ptr_toNat d

/-- What is served is the best fit. -/
theorem Represents.bestFit (hr : Represents a h bs) (ha : HeapPage a)
    (hserve : Serve (roundSize n).toNat bs (some k) bs') (hr' : Represents a h' bs')
    (hp : ptr (a.toNat + k) ≠ null) : BestFit h (roundSize n) (ptr (a.toNat + k)) h' := by
  generalize ho : some k = o at hserve
  cases hserve with
  | @exact l r heq _ =>
    obtain rfl := Option.some_inj.mp ho
    have hx : FreeBlock h (ptr (a.toNat + span l)) (roundSize n).toNat :=
      (hr.freeBlock_iff ha).mpr ⟨l, r, heq, rfl⟩
    refine ⟨iff_of_false hp fun hall ↦ (hall _ _ hx).1 rfl, fun hnull ↦ absurd hnull hp,
      fun _ _ ↦ ⟨_, hx, ?_⟩, fun _ hno ↦ absurd ⟨_, hx⟩ hno⟩
    subst heq
    exact hr.takes ha hr'
  | @split l r s hleast hexact =>
    obtain rfl := Option.some_inj.mp ho
    have hx : FreeBlock h (ptr (a.toNat + span l)) s :=
      (hr.freeBlock_iff ha).mpr ⟨l, r, hleast.eq, rfl⟩
    refine ⟨iff_of_false hp fun hall ↦ (hall _ _ hx).2 hleast.large, fun hnull ↦ absurd hnull hp,
      fun _ hex ↦ ?_, fun _ _ ↦ ⟨_, s, hx, hleast.large, ?_, ?_⟩⟩
    · exact absurd rfl (hexact _ ((hr.exists_freeBlock_iff ha).mp hex) rfl)
    · intro y t hy hlarge
      exact hleast.le ((hr.exists_freeBlock_iff ha).mp ⟨y, hy⟩) rfl hlarge
    · rw [hleast.eq] at hr
      exact hr.carves ha hleast.large hr'
  | fail _ => exact absurd ho (by simp)

theorem Represents.bestFit_null (hr : Represents a h bs) (ha : HeapPage a)
    (hserve : Serve (roundSize n).toNat bs none bs') : BestFit h (roundSize n) null h := by
  cases hserve with
  | fail hnone =>
    refine ⟨iff_of_true rfl ?_, fun _ ↦ rfl, fun hp ↦ absurd rfl hp, fun hp ↦ absurd rfl hp⟩
    refine (hr.forall_freeBlock_iff ha).mpr fun b hb hfree ↦ ?_
    exact ⟨(hnone b hb hfree).1, Nat.not_lt.mpr (hnone b hb hfree).2⟩

/-- **Every request returns, with the best fit**, in every run. -/
theorem bestFit_of_reaches (ha : HeapPage a) {m : Memory}
    (hrun : Run.Reaches Step anyCall (World.start a m) w) (hn : n > 0#32) :
    ∃ p h, kmalloc n w.heap = .ret (p, h) ∧ BestFit w.heap (roundSize n) p h := by
  obtain ⟨bs, hw⟩ := holds_of_reaches ha hrun
  obtain ⟨p, h, hret⟩ := hw.kmalloc_returns ha n
  rcases hw.kmalloc_cases ha hret with ⟨-, -, hserve⟩ | ⟨k, bs', rfl, hp, -, hserve, hrep⟩
  · exact ⟨null, w.heap, hw.rep.kmalloc_eq_null ha hn (hserve hn),
      hw.rep.bestFit_null ha (hserve hn)⟩
  · exact ⟨_, h, hret, hw.rep.bestFit ha hserve hrep hp⟩

/-- The second of two requests on a cleared page. -/
theorem bestFit_of_reaches_oneBlock : ∃ h,
    kmalloc 100#32 (World.start 0x10000#32 fun _ ↦ 0#8).heap = .ret (0x10F80#32, h) ∧
      ∃ p h', kmalloc 24#32 h = .ret (p, h') ∧ BestFit h (roundSize 24#32) p h' := by
  obtain ⟨h, hret⟩ : ∃ h, kmalloc 100#32 (World.start 0x10000#32 fun _ ↦ 0#8).heap =
      .ret (0x10F80#32, h) := ⟨_, rfl⟩
  refine ⟨h, hret, ?_⟩
  have hrun : Run.Reaches Step anyCall (World.start 0x10000#32 fun _ ↦ 0#8)
      ⟨h, [(0x10F80#32, 100#32)]⟩ := .tail .refl trivial (.kmalloc hret (by decide))
  have hbest := bestFit_of_reaches (n := 24#32) heapPage_example hrun (by decide)
  exact hbest

end Sugarcat.Heap
