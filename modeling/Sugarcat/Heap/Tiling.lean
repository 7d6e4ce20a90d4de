import Sugarcat.Heap.Refine
import Sugarcat.Machine.Iteration
import Sugarcat.Machine.Run

/-!
# Runs of the allocator

A `World` is the heap with the pointers its clients hold, each with the size that was asked for. A
client asks for memory, gives back what it holds, or writes in a payload it holds, and nothing else.
`Tiling` is what the heap then looks like in memory, node by node from `head`.

## The invariant

`Holds` says that the heap is represented by blocks of which no two neighbours are free, and that
the live pointers are those to the payloads in use. There is one lemma for each kind of call: a
request that fails, one that is served, a release, and a write, which is in a payload and therefore
in no header. `Holds.step` puts them together, and the run rule does the rest.

## From the invariant to memory

`Tiling` does not mention blocks. It says that the list goes from `head` through nodes that lie one
after the other and fill the page, that each is linked to its neighbours, free or in use, and never
free next to a free one, and that the nodes in use are those before the live pointers. All of that
is read off the blocks at the end.
-/

namespace Sugarcat.Heap

open ByteMemory

/-! ## Clients -/

/-- The heap and the live pointers, with the sizes asked for. -/
structure World where
  heap : State
  live : List (Addr × Word)

/-- What a client does. -/
inductive Call where
  | kmalloc (size : Word)
  | kfree (ptr : Addr)
  | write (x : Addr) (v : Byte)

/-- The heap right after `heap_init`. -/
def World.start (a : Addr) (m : Memory) : World := ⟨heapInit a m, []⟩

/-- The bytes of a payload, by the size in its header. -/
def InPayload (m : Memory) (p x : Addr) : Prop :=
  InRange p (getField .size m (p - mmEntrySz)).toNat x

inductive Step : World → Call → World → Prop
  | kmalloc {w : World} {n : Word} {p : Addr} {h : State} (hret : kmalloc n w.heap = .ret (p, h))
      (hp : p ≠ null) : Step w (.kmalloc n) ⟨h, (p, n) :: w.live⟩
  | kmallocNull {w : World} {n : Word} {h : State} (hret : kmalloc n w.heap = .ret (null, h)) :
      Step w (.kmalloc n) ⟨h, w.live⟩
  | kfree {w : World} {q : Addr × Word} (hq : q ∈ w.live) :
      Step w (.kfree q.1) ⟨kfree q.1 w.heap, w.live.erase q⟩
  | kfreeNull {w : World} : Step w (.kfree null) ⟨kfree null w.heap, w.live⟩
  | write {w : World} {q : Addr × Word} {x : Addr} (v : Byte) (hq : q ∈ w.live)
      (hx : InPayload w.heap.mem q.1 x) :
      Step w (.write x v) ⟨{ w.heap with mem := writeByte w.heap.mem x v }, w.live⟩

/-! ## What the heap looks like -/

/-- The nodes met from a node on along `next`. -/
abbrev ListFrom (m : Memory) : Addr → List Addr → Prop :=
  Iterates null fun node ↦ some (getField .next m node)

/-- The nodes tile the page at `a`, in order and linked both ways; those in use are the live ones,
and free ones are merged. -/
structure Tiling (a : Addr) (w : World) (nodes : List Addr) : Prop where
  list : ListFrom w.heap.mem w.heap.head nodes
  first : ∀ x ∈ nodes.head?, x = a ∧ getField .prev w.heap.mem x = null
  neighbours : nodes.IsChain fun x y ↦ getField .next w.heap.mem x = y ∧
    getField .prev w.heap.mem y = x ∧
    y.toNat = x.toNat + 16 + (getField .size w.heap.mem x).toNat
  last : ∃ x ∈ nodes.getLast?, getField .next w.heap.mem x = null ∧
    x.toNat + 16 + (getField .size w.heap.mem x).toNat = a.toNat + 4096
  aligned : ∀ x ∈ nodes, x.toNat % 16 = 0
  status : ∀ x ∈ nodes, getField .status w.heap.mem x = statusAllocated ∨
    getField .status w.heap.mem x = statusFree
  live : ∀ x, x ∈ nodes ∧ getField .status w.heap.mem x = statusAllocated ↔
    x + mmEntrySz ∈ w.live.map Prod.fst
  distinct : (w.live.map Prod.fst).Nodup
  merged : nodes.IsChain fun x y ↦ ¬(getField .status w.heap.mem x = statusFree ∧
    getField .status w.heap.mem y = statusFree)

/-! ## The invariant -/

/-- The heap is a tiling without free neighbours, and the live pointers are those to the payloads in
use. -/
structure Holds (a : Addr) (w : World) (bs : List Block) : Prop where
  rep : Represents a w.heap bs
  separated : Separated bs
  live : (w.live.map Prod.fst).Perm ((payloads a.toNat bs).map fun x ↦ ptr x.1)

variable {a : Addr} {w w' : World} {bs : List Block} {c : Call} {n : Word} {p : Addr} {h : State}

theorem holds_start (ha : HeapPage a) (m : Memory) :
    Holds a (World.start a m) [⟨true, 4080⟩] :=
  ⟨represents_heapInit ha m, List.isChain_singleton _, List.Perm.nil⟩

theorem Holds.exists_payload (hw : Holds a w bs) {q : Addr × Word} (hq : q ∈ w.live) :
    ∃ l s r, bs = l ++ ⟨false, s⟩ :: r ∧ q.1 = payloadPtr a (some (span l + 16)) := by
  have hmem : q.1 ∈ (payloads a.toNat bs).map fun x ↦ ptr x.1 :=
    hw.live.mem_iff.mp (List.mem_map_of_mem hq)
  obtain ⟨⟨x, s⟩, hx, heq⟩ := List.mem_map.mp hmem
  obtain ⟨l, r, rfl, rfl⟩ := mem_payloads_iff.mp hx
  exact ⟨l, s, r, rfl, by rw [← heq, payloadPtr, Nat.add_assoc]⟩

theorem Holds.kmalloc_returns (hw : Holds a w bs) (ha : HeapPage a) (n : Word) :
    ∃ p h, kmalloc n w.heap = .ret (p, h) := by
  by_cases hn : n > 0#32
  · obtain ⟨o, bs', m, hret, -⟩ := kmalloc_spec hw.rep ha hn
    exact ⟨_, _, hret⟩
  · exact ⟨null, w.heap, if_neg hn⟩

/-- What a request does: it fails and leaves the list, or it is served. -/
theorem Holds.kmalloc_cases (hw : Holds a w bs) (ha : HeapPage a)
    (hret : kmalloc n w.heap = .ret (p, h)) :
    (p = null ∧ Represents a h bs ∧ (n > 0#32 → Serve (roundSize n).toNat bs none bs)) ∨
      ∃ x bs', p = ptr (a.toNat + x) ∧ p ≠ null ∧ n > 0#32 ∧
        Serve (roundSize n).toNat bs (some x) bs' ∧ Represents a h bs' := by
  by_cases hn : n > 0#32
  · obtain ⟨o, bs', m, hspec, hserve, hrep, -⟩ := kmalloc_spec hw.rep ha hn
    rw [hspec] at hret
    obtain ⟨rfl, rfl⟩ := Prod.mk.inj (Outcome.ret.inj hret)
    cases o with
    | none =>
      obtain rfl := hserve.payloads_none
      exact Or.inl ⟨rfl, hrep, fun _ ↦ hserve⟩
    | some x =>
      have hmem : (a.toNat + x, (roundSize n).toNat) ∈ payloads a.toNat bs' :=
        (hserve.payloads_perm a.toNat).mem_iff.mpr List.mem_cons_self
      have hbound := mem_payloads hmem
      have hfits := ha.fits
      rw [hrep.span_eq] at hbound
      exact Or.inr ⟨x, bs', rfl, ptr_ne_zero (by omega) (by omega), hn, hserve, hrep⟩
  · rw [Heap.kmalloc, if_neg hn] at hret
    obtain ⟨rfl, rfl⟩ := Prod.mk.inj (Outcome.ret.inj hret)
    exact Or.inl ⟨rfl, hw.rep, fun hpos ↦ absurd hpos hn⟩

/-- A request that is served. -/
theorem Holds.served (hw : Holds a w bs) {x : ℕ} {bs' : List Block}
    (hserve : Serve (roundSize n).toNat bs (some x) bs') (hrep : Represents a h bs') :
    Holds a ⟨h, (ptr (a.toNat + x), n) :: w.live⟩ bs' := by
  refine ⟨hrep, hserve.separated hw.separated, ?_⟩
  refine List.Perm.trans ?_ ((hserve.payloads_perm a.toNat).map _).symm
  exact List.Perm.cons _ hw.live

/-- A pointer given back. -/
theorem Holds.released (hw : Holds a w bs) (ha : HeapPage a) {q : Addr × Word} (hq : q ∈ w.live) :
    ∃ bs', Holds a ⟨kfree q.1 w.heap, w.live.erase q⟩ bs' ∧
      payloads a.toNat bs' ⊆ payloads a.toNat bs := by
  obtain ⟨l, s, r, rfl, hptr⟩ := hw.exists_payload hq
  obtain ⟨m, hfree, hrep, -⟩ := kfree_spec hw.rep ha
  rw [hptr, hfree]
  refine ⟨release l s r, ⟨hrep, hw.separated.release, ?_⟩, fun y ↦ mem_payloads_of_mem_release⟩
  have hlive : (q.1 :: (w.live.erase q).map Prod.fst).Perm
      (q.1 :: (payloads a.toNat (release l s r)).map fun x ↦ ptr x.1) := by
    refine (((List.perm_cons_erase hq).map Prod.fst).symm.trans hw.live).trans ?_
    rw [payloads_release, payloads_append_used, hptr, payloadPtr, ← Nat.add_assoc]
    simp only [List.map_append, List.map_cons]
    exact List.perm_middle
  -- the released pointer stands first on both sides
  exact hlive.cons_inv

/-- A write in a live payload touches no header. -/
theorem Holds.written (hw : Holds a w bs) (ha : HeapPage a) {q : Addr × Word} (hq : q ∈ w.live)
    {x : Addr} (hx : InPayload w.heap.mem q.1 x) (v : Byte) :
    Holds a ⟨{ w.heap with mem := writeByte w.heap.mem x v }, w.live⟩ bs := by
  obtain ⟨l, s, r, rfl, hptr⟩ := hw.exists_payload hq
  have hhead := hw.rep.seg.header
  have hle := hhead.le
  have hfits := ha.fits
  dsimp only at hle
  have hmem : (a.toNat + span l + 16, s) ∈ payloads a.toNat (l ++ ⟨false, s⟩ :: r) :=
    mem_payloads_iff.mpr ⟨l, r, rfl, rfl⟩
  have hq1 : q.1 = ptr (a.toNat + span l) + mmEntrySz := by
    rw [hptr, payloadPtr, ptr_add, Nat.add_assoc]
  have hnat : q.1.toNat = a.toNat + span l + 16 := by
    rw [hq1, ptr_add, toNat_ptr (by omega)]
  rw [InPayload, hq1, BitVec.add_sub_cancel, hhead.toNat_size ha.fits, ← hq1,
    inRange_iff (by rw [hnat]; dsimp only; omega), hnat] at hx
  refine ⟨hw.rep.congr ha fun y hy b hb ↦ ?_, hw.separated, hw.live⟩
  -- the byte is in the payload, and no header is
  refine writeByte_of_ne v fun hbx ↦ ?_
  have hapart := payload_apart_header hmem hy
  rw [InHeader, hbx] at hb
  dsimp only at hx
  omega

/-- **Every call keeps the invariant.** -/
theorem Holds.step (hw : Holds a w bs) (ha : HeapPage a) (hstep : Step w c w') :
    ∃ bs', Holds a w' bs' := by
  cases hstep with
  | kmalloc hret hp =>
    rcases hw.kmalloc_cases ha hret with ⟨hnull, -⟩ | ⟨x, bs', rfl, -, -, hserve, hrep⟩
    · exact absurd hnull hp
    · exact ⟨bs', hw.served hserve hrep⟩
  | kmallocNull hret =>
    rcases hw.kmalloc_cases ha hret with ⟨-, hrep, -⟩ | ⟨x, bs', -, hne, -⟩
    · exact ⟨bs, hrep, hw.separated, hw.live⟩
    · exact absurd rfl hne
  | kfree hq =>
    obtain ⟨bs', hw', -⟩ := hw.released ha hq
    exact ⟨bs', hw'⟩
  | kfreeNull => exact ⟨bs, hw⟩
  | write v hq hx => exact ⟨bs, hw.written ha hq hx v⟩

theorem holds_of_reaches (ha : HeapPage a) {m : Memory} {ok : World → Call → Prop}
    (hrun : Run.Reaches Step ok (World.start a m) w) : ∃ bs, Holds a w bs := by
  refine hrun.invariant (P := fun w ↦ ∃ bs, Holds a w bs) ⟨_, holds_start ha m⟩ ?_
  rintro t c u ⟨bs, ht⟩ - hstep
  exact ht.step ha hstep

/-! ## From the invariant to memory -/

theorem Seg.listFrom {m : Memory} {lim x : ℕ} {q : Addr} (h : Seg m lim q x bs)
    (hend : x + span bs = lim) (hlim : lim < 2 ^ 32) :
    ListFrom m (link lim x) ((headers x bs).map ptr) := by
  induction bs generalizing x q with
  | nil =>
    rw [span_nil, Nat.add_zero] at hend
    rw [hend, link_self]
    exact .nil
  | cons b bs ih =>
    rw [span_cons] at hend
    rw [link_of_ne (by omega), headers, List.map_cons]
    refine .cons (ptr_ne_zero h.1.pos (h.1.at hlim).lt) (congrArg some h.1.next) ?_
    exact ih h.2 (by omega)

theorem Represents.listFrom (hr : Represents a h bs) (ha : HeapPage a) :
    ListFrom h.mem h.head ((headers a.toNat bs).map ptr) := by
  have hfits := ha.fits
  have hlist := hr.seg.listFrom (by rw [hr.span_eq]) ha.fits
  rw [link_of_ne (by omega), ptr_toNat] at hlist
  rw [hr.head]
  exact hlist

variable {x : ℕ}

theorem Represents.exists_header (hr : Represents a h bs) (hx : x ∈ headers a.toNat bs) :
    ∃ l b r, bs = l ++ b :: r ∧ x = a.toNat + span l ∧
      Header h.mem (a.toNat + 4096) x b (lastHeader null a.toNat l) := by
  obtain ⟨l, b, r, rfl, rfl⟩ := mem_headers_iff.mp hx
  exact ⟨l, b, r, rfl, rfl, hr.seg.header⟩

theorem Represents.last (hr : Represents a h bs) (ha : HeapPage a) :
    ∃ x ∈ ((headers a.toNat bs).map ptr).getLast?, getField .next h.mem x = null ∧
      x.toNat + 16 + (getField .size h.mem x).toNat = a.toNat + 4096 := by
  rcases List.eq_nil_or_concat bs with rfl | ⟨l, b, rfl⟩
  · exact absurd hr.span_eq (by decide)
  · rw [List.concat_eq_append] at hr ⊢
    have hb := hr.seg.header
    have hspan := hr.span_eq
    rw [span_append, span_cons, span_nil] at hspan
    have hend : a.toNat + span l + 16 + b.size = a.toNat + 4096 := by omega
    refine ⟨ptr (a.toNat + span l), by simp [headers_append, headers], ?_, ?_⟩
    · rw [hb.next, hend, link_self]
    · rw [toNat_ptr (hb.at ha.fits).lt, hb.toNat_size ha.fits, hend]

theorem Holds.mem_live (hw : Holds a w bs) (node : Addr) :
    node ∈ (headers a.toNat bs).map ptr ∧ getField .status w.heap.mem node = statusAllocated ↔
      node + mmEntrySz ∈ w.live.map Prod.fst := by
  rw [hw.live.mem_iff]
  constructor
  · rintro ⟨hnode, hstatus⟩
    obtain ⟨x, hx, rfl⟩ := List.mem_map.mp hnode
    obtain ⟨l, ⟨free, s⟩, r, heq, rfl, hb⟩ := hw.rep.exists_header hx
    rw [hb.status, statusOf_eq_allocated] at hstatus
    obtain rfl : free = false := hstatus
    rw [List.mem_map, ptr_add]
    exact ⟨(_, s), mem_payloads_iff.mpr ⟨l, r, heq, rfl⟩, rfl⟩
  · intro hnode
    obtain ⟨⟨x, s⟩, hx, heq⟩ := List.mem_map.mp hnode
    obtain ⟨l, r, rfl, rfl⟩ := mem_payloads_iff.mp hx
    have hb := hw.rep.seg.header
    obtain rfl : node = ptr (a.toNat + span l) := by
      dsimp only at heq
      rw [← ptr_add] at heq
      exact (BitVec.add_left_inj _).mp heq.symm
    refine ⟨List.mem_map_of_mem (mem_headers_iff.mpr ⟨l, _, r, rfl, rfl⟩), ?_⟩
    rw [hb.status]
    rfl

theorem payloads_nodup (ha : HeapPage a) (hspan : span bs = 4096) :
    ((payloads a.toNat bs).map fun x ↦ ptr x.1).Nodup := by
  have hfits := ha.fits
  rw [List.Nodup, List.pairwise_map]
  refine (pairwise_payloads a.toNat bs).imp_of_mem ?_
  rintro ⟨x, n⟩ ⟨y, k⟩ hx hy hlt heq
  have hxb := mem_payloads hx
  have hyb := mem_payloads hy
  dsimp only at hlt
  have hnat := congrArg BitVec.toNat heq
  rw [toNat_ptr (by omega), toNat_ptr (by omega)] at hnat
  omega

theorem Holds.tiling (hw : Holds a w bs) (ha : HeapPage a) :
    Tiling a w ((headers a.toNat bs).map ptr) := by
  have hr := hw.rep
  have hfits := ha.fits
  have hne : bs ≠ [] := by
    rintro rfl
    exact absurd hr.span_eq (by decide)
  refine ⟨hr.listFrom ha, ?_, ?_, hr.last ha, ?_, ?_, ?_, ?_, ?_⟩
  · obtain ⟨b, bs, rfl⟩ := List.exists_cons_of_ne_nil hne
    have hb := hr.seg.1
    intro x hx
    obtain rfl : ptr a.toNat = x := by simpa [headers] using hx
    exact ⟨ptr_toNat a, hb.prev⟩
  · refine isChain_headers fun l b c r heq ↦ ?_
    subst heq
    have hb := hr.seg.header
    have hc : Header w.heap.mem (a.toNat + 4096) (a.toNat + span l + 16 + b.size) c
        (ptr (a.toNat + span l)) := (seg_append.mp hr.seg).2.2.1
    have hle := hc.le
    refine ⟨?_, hc.prev, ?_⟩
    · rw [hb.next, link_of_ne (by omega)]
    · rw [toNat_ptr (hc.at ha.fits).lt, toNat_ptr (hb.at ha.fits).lt, hb.toNat_size ha.fits]
  · intro y hy
    obtain ⟨x, hx, rfl⟩ := List.mem_map.mp hy
    obtain ⟨l, b, r, -, -, hb⟩ := hr.exists_header hx
    rw [toNat_ptr (hb.at ha.fits).lt]
    exact hb.aligned
  · intro y hy
    obtain ⟨x, hx, rfl⟩ := List.mem_map.mp hy
    obtain ⟨l, b, r, -, -, hb⟩ := hr.exists_header hx
    rw [hb.status]
    cases b.free
    · exact Or.inl rfl
    · exact Or.inr rfl
  · exact hw.mem_live
  · exact hw.live.nodup_iff.mpr (payloads_nodup ha hr.span_eq)
  · refine isChain_headers fun l b c r heq ↦ ?_
    subst heq
    have hb := hr.seg.header
    have hc : Header w.heap.mem (a.toNat + 4096) (a.toNat + span l + 16 + b.size) c
        (ptr (a.toNat + span l)) := (seg_append.mp hr.seg).2.2.1
    rw [hb.status_eq_free, hc.status_eq_free]
    rintro ⟨hbfree, hcfree⟩
    rw [hw.separated.next hbfree] at hcfree
    exact Bool.noConfusion hcfree

/-- A call that the clients of the run may make is not restricted further. -/
abbrev anyCall : World → Call → Prop := fun _ _ ↦ True

/-- **The heap is tiled in every run**, and a request always returns. -/
theorem tiling_of_reaches (ha : HeapPage a) (m : Memory)
    (hrun : Run.Reaches Step anyCall (World.start a m) w) :
    (∃ nodes, Tiling a w nodes) ∧ ∀ n, ∃ p h, kmalloc n w.heap = .ret (p, h) := by
  obtain ⟨bs, hw⟩ := holds_of_reaches ha hrun
  exact ⟨⟨_, hw.tiling ha⟩, hw.kmalloc_returns ha⟩

theorem heapPage_example : HeapPage 0x10000#32 := ⟨by decide, by decide, by decide⟩

/-- One request of 100 bytes on a cleared page. -/
theorem tiling_of_reaches_oneBlock : ∃ h,
    (∃ nodes, Tiling 0x10000#32 ⟨h, [(0x10F80#32, 100#32)]⟩ nodes) ∧
      ∀ n, ∃ p h', kmalloc n h = .ret (p, h') := by
  obtain ⟨h, hret⟩ : ∃ h, kmalloc 100#32 (World.start 0x10000#32 fun _ ↦ 0#8).heap =
      .ret (0x10F80#32, h) := ⟨_, rfl⟩
  exact ⟨h, tiling_of_reaches heapPage_example (fun _ ↦ 0#8)
    (.tail .refl trivial (.kmalloc hret (by decide)))⟩

end Sugarcat.Heap
