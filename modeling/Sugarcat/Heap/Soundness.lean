import Sugarcat.Heap.Tiling

/-!
# Soundness of allocation

The block that a request gets is apart from the headers and from what others hold, as long as no
request for more than `2 ^ 31` bytes was served: such a request is rounded to zero, and it gets a
block of no bytes at all. It is served as soon as there is a free block of size zero or of more than
16 bytes, and then what is returned does not hold what was asked for.

## The condition

`Fits` is the condition on a request and the state before it: the request is at most `2 ^ 31` bytes,
or there is nothing it could be served from. It reads the list of the heap, and does not call the
allocator.

## Runs

To be sound is a matter of the state as well, for what others hold has to be as large as they asked
for. So it takes a run in which every request before was sound. `RequestFits` asks the condition of
every call, and `Sized` is the invariant that such runs keep: every live payload is at least as
large as its request. `allocSound_iff` says that a request is sound exactly if it fits.
-/

namespace Sugarcat.Heap

open ByteMemory

/-- `[p, p + n)` is in the page, apart from the headers of the heap and from what is live. -/
structure Sound (a : Addr) (live : List (Addr × Word)) (h : State) (p : Addr) (n : Word) :
    Prop where
  within : a.toNat ≤ p.toNat ∧ p.toNat + n.toNat ≤ a.toNat + 4096
  headers : ∃ nodes, ListFrom h.mem h.head nodes ∧
    ∀ x ∈ nodes, p.toNat + n.toNat ≤ x.toNat ∨ x.toNat + 16 ≤ p.toNat
  others : ∀ q ∈ live, p.toNat + n.toNat ≤ q.1.toNat ∨ q.1.toNat + q.2.toNat ≤ p.toNat

/-- What `kmalloc` returns for a request of `n` bytes is sound. -/
def AllocSound (a : Addr) (w : World) (n : Word) : Prop :=
  ∀ p h, kmalloc n w.heap = .ret (p, h) → p ≠ null → Sound a w.live h p n

/-- The request is not too large, or there is nothing it could be served from: no free node of size
zero, and none with room for a header. -/
def Fits (w : World) (n : Word) : Prop :=
  n.toNat ≤ 2 ^ 31 ∨ ∃ nodes, ListFrom w.heap.mem w.heap.head nodes ∧
    ∀ x ∈ nodes, getField .status w.heap.mem x = statusFree →
      getField .size w.heap.mem x ≠ 0#32 ∧ (getField .size w.heap.mem x).toNat ≤ 16

/-- Every request fits. -/
def RequestFits (w : World) : Call → Prop
  | .kmalloc n => Fits w n
  | _ => True

/-- Every live pointer holds what was asked for. -/
def Sized (a : Addr) (w : World) (bs : List Block) : Prop :=
  ∀ q ∈ w.live, ∀ x ∈ payloads a.toNat bs, ptr x.1 = q.1 → q.2.toNat ≤ x.2

variable {a p : Addr} {w w' : World} {bs bs' : List Block} {c : Call} {n : Word} {h : State} {x : ℕ}

theorem Represents.not_serve (hr : Represents a w.heap bs) (ha : HeapPage a)
    (hserve : Serve 0 bs (some x) bs') :
    ¬∃ nodes, ListFrom w.heap.mem w.heap.head nodes ∧
      ∀ x ∈ nodes, getField .status w.heap.mem x = statusFree →
        getField .size w.heap.mem x ≠ 0#32 ∧ (getField .size w.heap.mem x).toNat ≤ 16 := by
  rintro ⟨nodes, hlist, hnodes⟩
  obtain rfl := hlist.unique (hr.listFrom ha)
  have hblock : ∀ l s r, bs = l ++ ⟨true, s⟩ :: r → s ≠ 0 ∧ s ≤ 16 := by
    rintro l s r rfl
    have hb := hr.seg.header
    have hsize := hnodes _ (List.mem_map_of_mem (mem_headers_iff.mpr ⟨l, _, r, rfl, rfl⟩))
      (hb.status_eq_free.mpr rfl)
    rw [ne_eq, ← BitVec.toNat_inj, hb.toNat_size ha.fits] at hsize
    exact hsize
  generalize ho : some x = o at hserve
  cases hserve with
  | exact heq _ => exact (hblock _ _ _ heq).1 rfl
  | split hleast _ =>
    have hlarge := hleast.large
    have := (hblock _ _ _ hleast.eq).2
    omega
  | fail _ => exact absurd ho (by simp)

theorem Represents.exists_serve (hr : Represents a w.heap bs) (ha : HeapPage a)
    (hserve : Serve 0 bs none bs') :
    ∃ nodes, ListFrom w.heap.mem w.heap.head nodes ∧
      ∀ x ∈ nodes, getField .status w.heap.mem x = statusFree →
        getField .size w.heap.mem x ≠ 0#32 ∧ (getField .size w.heap.mem x).toNat ≤ 16 := by
  obtain rfl := hserve.payloads_none
  refine ⟨_, hr.listFrom ha, ?_⟩
  intro y hy hfree
  obtain ⟨x, hx, rfl⟩ := List.mem_map.mp hy
  obtain ⟨l, b, r, rfl, -, hb⟩ := hr.exists_header hx
  rw [ne_eq, ← BitVec.toNat_inj, hb.toNat_size ha.fits]
  cases hserve with
  | fail hnone => exact hnone b (by simp) (hb.status_eq_free.mp hfree)

/-- A request that fits and is served was not too large. -/
theorem Holds.le_of_fits (hw : Holds a w bs) (ha : HeapPage a) (hfit : Fits w n)
    (hserve : Serve (roundSize n).toNat bs (some x) bs') : n.toNat ≤ (roundSize n).toNat := by
  rcases Nat.lt_or_ge (2 ^ 31) n.toNat with hn | hn
  · rw [roundSize_of_gt hn] at hserve
    rcases hfit with hle | hnone
    · omega
    · exact absurd hnone (hw.rep.not_serve ha hserve)
  · obtain ⟨k, -, -, heq, hle⟩ := toNat_roundSize_of_le hn
    rw [heq]
    exact hle

theorem payload_unique (ha : HeapPage a) (hspan : span bs = 4096) {x y : ℕ × ℕ}
    (hx : x ∈ payloads a.toNat bs) (hy : y ∈ payloads a.toNat bs) (heq : ptr x.1 = ptr y.1) :
    x = y :=
  List.inj_on_of_nodup_map (payloads_nodup ha hspan) hx hy heq

theorem Sized.served (hs : Sized a w bs) (hw : Holds a w bs) (ha : HeapPage a)
    (hserve : Serve (roundSize n).toNat bs (some x) bs') (hrep : Represents a h bs')
    (hn : n.toNat ≤ (roundSize n).toNat) :
    Sized a ⟨h, (ptr (a.toNat + x), n) :: w.live⟩ bs' := by
  have hperm := hserve.payloads_perm a.toNat
  have hnew : (a.toNat + x, (roundSize n).toNat) ∈ payloads a.toNat bs' :=
    hperm.mem_iff.mpr List.mem_cons_self
  intro q hq y hy hptr
  -- the new pointer leads to the new payload, an old one to the payload it led to before
  rcases List.mem_cons.mp hq with rfl | hq
  · obtain rfl := payload_unique ha hrep.span_eq hy hnew hptr
    exact hn
  · obtain ⟨l, s, r, rfl, hq1⟩ := hw.exists_payload hq
    have hz : (a.toNat + span l + 16, s) ∈ payloads a.toNat (l ++ ⟨false, s⟩ :: r) :=
      mem_payloads_iff.mpr ⟨l, r, rfl, rfl⟩
    have hzptr : ptr (a.toNat + span l + 16) = q.1 := by rw [hq1, payloadPtr, Nat.add_assoc]
    obtain rfl := payload_unique ha hrep.span_eq hy
      (hperm.mem_iff.mpr (List.mem_cons_of_mem _ hz)) (hptr.trans hzptr.symm)
    exact hs q hq _ hz hptr

/-- A step whose request fits keeps the sizes. -/
theorem Sized.step (hs : Sized a w bs) (hw : Holds a w bs) (ha : HeapPage a)
    (hok : RequestFits w c) (hstep : Step w c w') : ∃ bs', Holds a w' bs' ∧ Sized a w' bs' := by
  cases hstep with
  | kmalloc hret hp =>
    rcases hw.kmalloc_cases ha hret with ⟨hnull, -⟩ | ⟨x, bs', rfl, -, -, hserve, hrep⟩
    · exact absurd hnull hp
    · exact ⟨bs', hw.served hserve hrep,
        hs.served hw ha hserve hrep (hw.le_of_fits ha hok hserve)⟩
  | kmallocNull hret =>
    rcases hw.kmalloc_cases ha hret with ⟨-, hrep, -⟩ | ⟨x, bs', -, hne, -⟩
    · exact ⟨bs, ⟨hrep, hw.separated, hw.live⟩, hs⟩
    · exact absurd rfl hne
  | kfree hq =>
    obtain ⟨bs', hw', hsub⟩ := hw.released ha hq
    exact ⟨bs', hw', fun q hq x hx ↦ hs q (List.mem_of_mem_erase hq) x (hsub hx)⟩
  | kfreeNull => exact ⟨bs, hw, hs⟩
  | write v hq hx => exact ⟨bs, hw.written ha hq hx v, hs⟩

/-- What is served at a large enough size is sound. -/
theorem Sized.sound (hs : Sized a w bs) (hw : Holds a w bs) (ha : HeapPage a)
    (hserve : Serve (roundSize n).toNat bs (some x) bs') (hrep : Represents a h bs')
    (hn : n.toNat ≤ (roundSize n).toNat) : Sound a w.live h (ptr (a.toNat + x)) n := by
  have hfits := ha.fits
  have hnew : (a.toNat + x, (roundSize n).toNat) ∈ payloads a.toNat bs' :=
    (hserve.payloads_perm a.toNat).mem_iff.mpr List.mem_cons_self
  have hbound := mem_payloads hnew
  rw [hrep.span_eq] at hbound
  have hx : (ptr (a.toNat + x)).toNat = a.toNat + x := toNat_ptr (by omega)
  refine ⟨by omega, ⟨_, hrep.listFrom ha, fun y hy ↦ ?_⟩, fun q hq ↦ ?_⟩
  · obtain ⟨z, hz, rfl⟩ := List.mem_map.mp hy
    have hzb := mem_headers hz
    have hapart := payload_apart_header hnew hz
    rw [hrep.span_eq] at hzb
    rw [hx, toNat_ptr (by omega)]
    omega
  · obtain ⟨l, s, r, rfl, hq1⟩ := hw.exists_payload hq
    have hz : (a.toNat + span l + 16, s) ∈ payloads a.toNat (l ++ ⟨false, s⟩ :: r) :=
      mem_payloads_iff.mpr ⟨l, r, rfl, rfl⟩
    have hzb := mem_payloads hz
    rw [hw.rep.span_eq] at hzb
    have hzptr : ptr (a.toNat + span l + 16) = q.1 := by rw [hq1, payloadPtr, Nat.add_assoc]
    have hsize := hs q hq _ hz hzptr
    have hdisj := hserve.disjoint hz
    rw [hx, ← hzptr, toNat_ptr (by omega)]
    dsimp only at hsize
    omega

/-- **Allocation is sound exactly for the requests that fit**, in every run whose requests did. -/
theorem allocSound_iff (ha : HeapPage a) {m : Memory}
    (hrun : Run.Reaches Step RequestFits (World.start a m) w) (hn : n > 0#32) :
    AllocSound a w n ↔ Fits w n := by
  obtain ⟨bs, hw, hs⟩ : ∃ bs, Holds a w bs ∧ Sized a w bs := by
    refine hrun.invariant (P := fun w ↦ ∃ bs, Holds a w bs ∧ Sized a w bs)
      ⟨_, holds_start ha m, fun q hq ↦ absurd hq List.not_mem_nil⟩ ?_
    rintro t c u ⟨bs, ht, hst⟩ hok hstep
    exact hst.step ht ha hok hstep
  constructor
  · intro hsound
    by_contra hfit
    rw [Fits, not_or, Nat.not_le] at hfit
    obtain ⟨p, h, hret⟩ := hw.kmalloc_returns ha n
    rcases hw.kmalloc_cases ha hret with ⟨-, -, hserve⟩ | ⟨x, bs', -, hne, -⟩
    · have hserve0 := hserve hn
      rw [roundSize_of_gt hfit.1] at hserve0
      exact hfit.2 (hw.rep.exists_serve ha hserve0)
    · have hbound := (hsound p h hret hne).within
      have hlarge := hfit.1
      omega
  · intro hfit p h hret hp
    rcases hw.kmalloc_cases ha hret with ⟨hnull, -⟩ | ⟨x, bs', rfl, -, -, hserve, hrep⟩
    · exact absurd hnull hp
    · exact hs.sound hw ha hserve hrep (hw.le_of_fits ha hfit hserve)

/-- The second of two requests on a cleared page. -/
theorem allocSound_iff_oneBlock : ∃ w : World, w.live = [(0x10F80#32, 100#32)] ∧
    (AllocSound 0x10000#32 w 24#32 ↔ Fits w 24#32) := by
  obtain ⟨h, hret⟩ : ∃ h, kmalloc 100#32 (World.start 0x10000#32 fun _ ↦ 0#8).heap =
      .ret (0x10F80#32, h) := ⟨_, rfl⟩
  have hfits : RequestFits (World.start 0x10000#32 fun _ ↦ 0#8) (.kmalloc 100#32) :=
    Or.inl (by decide)
  exact ⟨⟨h, _⟩, rfl, allocSound_iff heapPage_example (m := fun _ ↦ 0#8)
    (.tail .refl hfits (.kmalloc hret (by decide))) (by decide)⟩

/-- Requests, and releases of live pointers. -/
def AllocCall (w : World) : Call → Prop
  | .kmalloc _ => True
  | .kfree p => p ∈ w.live.map Prod.fst
  | .write _ _ => False

/-- Every request that is served after requests and releases is sound. -/
def SoundRuns (a : Addr) (m : Memory) : Prop :=
  ∀ w, Run.Reaches Step AllocCall (World.start a m) w → ∀ n > 0#32, AllocSound a w n

/-- A request for `2 ^ 31 + 1` bytes on a cleared page gets the end of the page. -/
theorem not_soundRuns_cleared : ¬SoundRuns 0x10000#32 fun _ ↦ 0#8 := by
  intro hsound
  obtain ⟨h, hret⟩ : ∃ h, kmalloc 0x80000001#32 (World.start 0x10000#32 fun _ ↦ 0#8).heap =
      .ret (0x11000#32, h) := ⟨_, rfl⟩
  have hbound := (hsound _ .refl _ (by decide) _ _ hret (by decide)).within
  exact absurd hbound.2 (by decide)

end Sugarcat.Heap
