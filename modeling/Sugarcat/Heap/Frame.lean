import Sugarcat.Heap.Tiling

/-!
# Live data is left alone

The allocator writes in headers only, and no payload in use overlaps a header, of the tiling before
a call or of the one after it. A client that keeps a pointer over a call of another finds the
payload as it was, by the size in its header and byte for byte.

## Two tilings

Both tilings matter. A request cuts a block in two, and the new header is written into what was the
payload of a free block; a release takes a header out, which becomes part of the payload of a free
block. A payload that is in use before and after the call meets neither the headers of the one
tiling nor those of the other, and `Represents.kept` asks for no more than that.

The size in the header is part of what is kept. A release of a neighbour rewrites the links in that
header, and it leaves the size, as both tilings have the payload with the same size.
-/

namespace Sugarcat.Heap

open ByteMemory

/-- The payload at `p` is as it was. -/
structure Kept (m m' : Memory) (p : Addr) : Prop where
  size : getField .size m' (p - mmEntrySz) = getField .size m (p - mmEntrySz)
  bytes : ∀ x, InPayload m p x → m' x = m x

variable {a p : Addr} {w w' : World} {bs bs' : List Block} {c : Call} {h h' : State}
  {m m' : Memory} {S : List ℕ} {x s : ℕ}

theorem ChangesOnly.payload (hm : ChangesOnly (headers x bs) m m') {y : ℕ}
    (hy : (y, s) ∈ payloads x bs) {b : Addr} (hb : y ≤ b.toNat ∧ b.toNat < y + s) : m' b = m b := by
  refine hm b fun z hz hzb ↦ ?_
  have hapart := payload_apart_header hy hz
  rw [InHeader] at hzb
  omega

theorem Represents.size_payload (hr : Represents a h bs) (ha : HeapPage a)
    (hx : (x, s) ∈ payloads a.toNat bs) :
    (getField .size h.mem (ptr x - mmEntrySz)).toNat = s := by
  obtain ⟨l, r, rfl, rfl⟩ := mem_payloads_iff.mp hx
  rw [← ptr_add, BitVec.add_sub_cancel]
  exact hr.seg.header.toNat_size ha.fits

theorem Represents.inPayload_iff (hr : Represents a h bs) (ha : HeapPage a)
    (hx : (x, s) ∈ payloads a.toNat bs) {b : Addr} :
    InPayload h.mem (ptr x) b ↔ x ≤ b.toNat ∧ b.toNat < x + s := by
  have hbound := mem_payloads hx
  have hfits := ha.fits
  rw [hr.span_eq] at hbound
  have hnat : (ptr x).toNat = x := toNat_ptr (by omega)
  rw [InPayload, hr.size_payload ha hx, inRange_iff (by omega), hnat]

/-- A payload in use before and after is kept, when all that changed is in the headers of the one
tiling or of the other. -/
theorem Represents.kept (hr : Represents a h bs) (hr' : Represents a h' bs') (ha : HeapPage a)
    (hx : (x, s) ∈ payloads a.toNat bs) (hx' : (x, s) ∈ payloads a.toNat bs')
    (hm : ChangesOnly (headers a.toNat bs) h.mem h'.mem ∨
      ChangesOnly (headers a.toNat bs') h.mem h'.mem) : Kept h.mem h'.mem (ptr x) := by
  refine ⟨BitVec.eq_of_toNat_eq ?_, fun b hb ↦ ?_⟩
  · rw [hr'.size_payload ha hx', hr.size_payload ha hx]
  · rw [hr.inPayload_iff ha hx] at hb
    exact hm.elim (fun hm ↦ hm.payload hx hb) fun hm ↦ hm.payload hx' hb

theorem Holds.exists_mem_payloads (hw : Holds a w bs) (hp : p ∈ w.live.map Prod.fst) :
    ∃ x s, (x, s) ∈ payloads a.toNat bs ∧ ptr x = p := by
  obtain ⟨⟨x, s⟩, hx, heq⟩ := List.mem_map.mp (hw.live.mem_iff.mp hp)
  exact ⟨x, s, hx, heq⟩

/-- A request keeps what is live. -/
theorem Holds.kept_kmalloc (hw : Holds a w bs) (ha : HeapPage a) {n : Word}
    (hret : kmalloc n w.heap = .ret (p, h)) {q : Addr} (hq : q ∈ w.live.map Prod.fst) :
    Kept w.heap.mem h.mem q := by
  by_cases hn : n > 0#32
  · obtain ⟨o, bs', m, hspec, hserve, hrep, hm⟩ := kmalloc_spec hw.rep ha hn
    rw [hspec] at hret
    obtain ⟨-, rfl⟩ := Prod.mk.inj (Outcome.ret.inj hret)
    obtain ⟨x, s, hx, rfl⟩ := hw.exists_mem_payloads hq
    refine hw.rep.kept hrep ha hx ?_ (Or.inr hm)
    cases o with
    | none => rwa [hserve.payloads_none]
    | some y => exact (hserve.payloads_perm a.toNat).mem_iff.mpr (List.mem_cons_of_mem _ hx)
  · rw [kmalloc, if_neg hn] at hret
    obtain ⟨-, rfl⟩ := Prod.mk.inj (Outcome.ret.inj hret)
    exact ⟨rfl, fun _ _ ↦ rfl⟩

theorem Holds.kept_kfree (hw : Holds a w bs) (ha : HeapPage a) {q : Addr × Word} (hq : q ∈ w.live)
    (hp : p ∈ (w.live.erase q).map Prod.fst) : Kept w.heap.mem (kfree q.1 w.heap).mem p := by
  obtain ⟨bs', hw', hsub⟩ := hw.released ha hq
  obtain ⟨x, s, hx, rfl⟩ := hw'.exists_mem_payloads hp
  refine hw.rep.kept hw'.rep ha (hsub hx) hx (Or.inl ?_)
  obtain ⟨l, n, r, rfl, hptr⟩ := hw.exists_payload hq
  obtain ⟨m, hfree, -, hm⟩ := kfree_spec hw.rep ha
  rw [hptr, hfree]
  exact hm

/-- **What is live before and after a request or a release is kept**, in every run. -/
theorem kept_of_reaches (ha : HeapPage a) {m : Memory}
    (hrun : Run.Reaches Step anyCall (World.start a m) w) (hstep : Step w c w')
    (hcall : ∀ x v, c ≠ .write x v) (hp : p ∈ w.live.map Prod.fst)
    (hp' : p ∈ w'.live.map Prod.fst) : Kept w.heap.mem w'.heap.mem p := by
  obtain ⟨bs, hw⟩ := holds_of_reaches ha hrun
  cases hstep with
  | kmalloc hret _ => exact hw.kept_kmalloc ha hret hp
  | kmallocNull hret => exact hw.kept_kmalloc ha hret hp
  | kfree hq => exact hw.kept_kfree ha hq hp'
  | kfreeNull => exact ⟨rfl, fun _ _ ↦ rfl⟩
  | write v hq hx => exact absurd rfl (hcall _ v)

/-- A second request on a cleared page, and the block of the first. -/
theorem kept_of_reaches_twoBlocks : ∃ h h',
    kmalloc 100#32 (World.start 0x10000#32 fun _ ↦ 0#8).heap = .ret (0x10F80#32, h) ∧
      kmalloc 24#32 h = .ret (0x10F50#32, h') ∧ Kept h.mem h'.mem 0x10F80#32 := by
  obtain ⟨h, h', hret, hret'⟩ : ∃ h h',
      kmalloc 100#32 (World.start 0x10000#32 fun _ ↦ 0#8).heap = .ret (0x10F80#32, h) ∧
        kmalloc 24#32 h = .ret (0x10F50#32, h') := ⟨_, _, rfl, rfl⟩
  have hrun : Run.Reaches Step anyCall (World.start 0x10000#32 fun _ ↦ 0#8)
      ⟨h, [(0x10F80#32, 100#32)]⟩ := .tail .refl trivial (.kmalloc hret (by decide))
  exact ⟨h, h', hret, hret', kept_of_reaches heapPage_example hrun (.kmalloc hret' (by decide))
    (fun _ _ ↦ Call.noConfusion) (by simp) (by simp)⟩

end Sugarcat.Heap
