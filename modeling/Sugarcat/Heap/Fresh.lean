import Sugarcat.Heap.Tiling

/-!
# The heap when everything is given back

With no live pointer no payload is in use, and blocks that are all free and never neighbours are one
block: the heap is the fresh one. The allocator only looks at the list, so it then answers as on a
fresh heap, whatever the rest of memory holds.

## Comparing heaps

The bytes of the page are not those of a fresh page, as the old payloads and the headers inside the
one block are still there. `SameList` compares two heaps by what the allocator looks at: the nodes
of the list, in their order, and the fields of each of them. Heaps with the same blocks are the same
in that sense, and a request then returns the same pointer and leaves the same list in both
(`kmalloc_congr`).

`IsInitial` is the list of a fresh heap in the words of the source: one node, at the start of the
page, free, with no neighbours, and as large as the page without its header.
-/

namespace Sugarcat.Heap

open ByteMemory

/-- Two heaps with the same nodes in the same order, word for word. -/
def SameList (h h' : State) : Prop :=
  ∃ nodes, ListFrom h.mem h.head nodes ∧ ListFrom h'.mem h'.head nodes ∧
    ∀ x ∈ nodes, ∀ f, getField f h.mem x = getField f h'.mem x

/-- The list of a fresh heap: one free node that takes up the page. -/
structure IsInitial (a : Addr) (h : State) : Prop where
  head : h.head = a
  list : ListFrom h.mem h.head [a]
  status : getField .status h.mem a = statusFree
  size : getField .size h.mem a = pageSize - mmEntrySz
  next : getField .next h.mem a = null
  prev : getField .prev h.mem a = null

variable {a p : Addr} {h h' : State} {w : World} {bs : List Block} {n : Word}

theorem Represents.sameList (hr : Represents a h bs) (hr' : Represents a h' bs) (ha : HeapPage a) :
    SameList h h' := by
  refine ⟨_, hr.listFrom ha, hr'.listFrom ha, ?_⟩
  intro y hy f
  obtain ⟨x, hx, rfl⟩ := List.mem_map.mp hy
  obtain ⟨l, b, r, rfl, rfl⟩ := mem_headers_iff.mp hx
  have hb := hr.seg.header
  have hb' := hr'.seg.header
  cases f with
  | status => rw [hb.status, hb'.status]
  | size => rw [hb.size, hb'.size]
  | next => rw [hb.next, hb'.next]
  | prev => rw [hb.prev, hb'.prev]

/-- The blocks determine what a request returns, and the list it leaves. -/
theorem kmalloc_congr (hr : Represents a h bs) (hr' : Represents a h' bs) (ha : HeapPage a)
    (n : Word) :
    ∃ p k k', kmalloc n h = .ret (p, k) ∧ kmalloc n h' = .ret (p, k') ∧ SameList k k' := by
  by_cases hn : n > 0#32
  · obtain ⟨o, bs₁, m, hret, hserve, hrep, -⟩ := kmalloc_spec hr ha hn
    obtain ⟨o', bs₂, m', hret', hserve', hrep', -⟩ := kmalloc_spec hr' ha hn
    obtain ⟨rfl, rfl⟩ := hserve.unique hserve'
    exact ⟨_, _, _, hret, hret', hrep.sameList hrep' ha⟩
  · exact ⟨null, h, h', if_neg hn, if_neg hn, hr.sameList hr' ha⟩

theorem Represents.isInitial (hr : Represents a h [⟨true, 4080⟩]) (ha : HeapPage a) :
    IsInitial a h := by
  have hlist := hr.listFrom ha
  obtain ⟨-, -, -, -, hstatus, hsize, hnext, hprev⟩ := hr.seg.1
  rw [headers, headers, List.map_singleton, ptr_toNat] at hlist
  rw [ptr_toNat] at hstatus hsize hnext hprev
  exact ⟨hr.head, hlist, hstatus, hsize, hnext.trans (link_self _), hprev⟩

/-- Without live pointers the heap is one free block. -/
theorem Holds.eq_fresh (hw : Holds a w bs) (hlive : w.live = []) : bs = [⟨true, 4080⟩] := by
  have hperm := hw.live
  rw [hlive, List.map_nil] at hperm
  have hnil : payloads a.toNat bs = [] := List.map_eq_nil_iff.mp hperm.nil_eq.symm
  have hspan := hw.rep.span_eq
  have hne : bs ≠ [] := by
    rintro rfl
    exact absurd hspan (by decide)
  obtain ⟨s, rfl⟩ := eq_singleton_of_payloads_eq_nil hnil hw.separated hne
  rw [span_cons, span_nil] at hspan
  dsimp only at hspan
  obtain rfl : s = 4080 := by omega
  rfl

/-- **When every pointer has been given back the list is the initial one**, and the next request is
answered as on a fresh heap. -/
theorem isInitial_of_all_freed (ha : HeapPage a) (m : Memory)
    (hrun : Run.Reaches Step anyCall (World.start a m) w) (hlive : w.live = []) :
    IsInitial a w.heap ∧ ∀ m' n, ∃ p h h', kmalloc n w.heap = .ret (p, h) ∧
      kmalloc n (heapInit a m') = .ret (p, h') ∧ SameList h h' := by
  obtain ⟨bs, hw⟩ := holds_of_reaches ha hrun
  obtain rfl := hw.eq_fresh hlive
  exact ⟨hw.rep.isInitial ha, fun m' n ↦ kmalloc_congr hw.rep (represents_heapInit ha m') ha n⟩

/-- One request on a cleared page, given back. -/
theorem isInitial_of_all_freed_oneBlock : ∃ w : World, w.live = [] ∧ IsInitial 0x10000#32 w.heap ∧
    ∀ m' n, ∃ p h h', kmalloc n w.heap = .ret (p, h) ∧
      kmalloc n (heapInit 0x10000#32 m') = .ret (p, h') ∧ SameList h h' := by
  obtain ⟨h, hret⟩ : ∃ h, kmalloc 100#32 (World.start 0x10000#32 fun _ ↦ 0#8).heap =
      .ret (0x10F80#32, h) := ⟨_, rfl⟩
  exact ⟨⟨kfree 0x10F80#32 h, []⟩, rfl,
    isInitial_of_all_freed heapPage_example (fun _ ↦ 0#8)
      (.tail (.tail .refl trivial (.kmalloc hret (by decide))) trivial
        (.kfree (q := (0x10F80#32, 100#32)) List.mem_cons_self)) rfl⟩

end Sugarcat.Heap
