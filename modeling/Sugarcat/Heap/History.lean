import Sugarcat.Heap.Frame
import Sugarcat.Heap.Fresh

/-!
# The heap has no history

What a heap looks like, and what any later call gets, depends on the live pointers and the sizes of
their blocks alone, and not on the calls that led there: a set of pointers can be given back in any
order, and a session whose pointers are all given back was never held.

## Payloads determine blocks

Between two payloads in use there is at most one free block, and it takes up all of the room. So two
tilings with the same payloads in use are the same list of blocks (`eq_of_payloads_eq`), by
induction on the one and by cases on the first block of the other.

## Later runs

Two worlds are `Indistinguishable` if every run of the one, with the answers that its requests get,
is a run of the other with the same answers, and comes to a heap with the same list. The relation
that carries this is `SameBlocks`: both are tilings with the same blocks, and the same pointers are
live. One call preserves it and is answered alike, a request, a release and a write in a payload
(`SameBlocks.answered`), and so is a whole run, by simulation.

The pointers may be live in another order, and the sizes that were asked for may be others. A client
cannot tell, as the size of a block is the rounded one, and a release only looks at the pointer.
-/

namespace Sugarcat.Heap

open ByteMemory

/-! ## Payloads determine blocks -/

theorem Separated.tail {b : Block} {bs : List Block} (h : Separated (b :: bs)) : Separated bs :=
  List.IsChain.tail h

theorem Separated.after_free {s : ℕ} {bs : List Block} (h : Separated (⟨true, s⟩ :: bs)) :
    bs = [] ∨ ∃ n r, bs = ⟨false, n⟩ :: r := by
  rcases bs with - | ⟨⟨free, n⟩, r⟩
  · exact Or.inl rfl
  · obtain rfl : free = false := h.next (l := []) rfl
    exact Or.inr ⟨n, r, rfl⟩

/-- A block in use where another tiling has a free one. -/
theorem payloads_used_ne_free (a n s : ℕ) (bs bs' : List Block) :
    payloads a (⟨false, n⟩ :: bs) ≠ payloads a (⟨true, s⟩ :: bs') := by
  intro h
  have hmem : (a + 16, n) ∈ payloads (a + 16 + s) bs' := by
    rw [payloads, if_neg Bool.false_ne_true, payloads, if_pos rfl] at h
    exact h ▸ List.mem_cons_self
  have := (mem_payloads hmem).1
  omega

theorem free_size_eq {a s t : ℕ} {bs bs' : List Block} (h : Separated (⟨true, s⟩ :: bs))
    (h' : Separated (⟨true, t⟩ :: bs')) (hspan : s + span bs = t + span bs')
    (hp : payloads (a + 16 + s) bs = payloads (a + 16 + t) bs') : s = t := by
  rcases h.after_free with rfl | ⟨n, r, rfl⟩
  · rcases h'.after_free with rfl | ⟨k, r', rfl⟩
    · exact hspan
    · exact absurd hp.symm (by simp [payloads])
  · rcases h'.after_free with rfl | ⟨k, r', rfl⟩
    · exact absurd hp (by simp [payloads])
    · -- the first payload in use starts right after the free block and a header
      rw [payloads, if_neg Bool.false_ne_true, payloads, if_neg Bool.false_ne_true] at hp
      have hpos := congrArg Prod.fst (List.cons.inj hp).1
      dsimp only at hpos
      omega

/-- **The payloads in use determine the blocks.** -/
theorem eq_of_payloads_eq {a : ℕ} {bs bs' : List Block} (h : Separated bs) (h' : Separated bs')
    (hspan : span bs = span bs') (hp : payloads a bs = payloads a bs') : bs = bs' := by
  induction bs generalizing a bs' with
  | nil => exact ((span_eq_zero_iff bs').mp hspan.symm).symm
  | cons b bs ih =>
    obtain ⟨c, bs', rfl⟩ := List.exists_cons_of_ne_nil fun hnil : bs' = [] ↦ by
      rw [hnil, span_cons, span_nil] at hspan
      omega
    obtain ⟨free, s⟩ := b
    obtain ⟨free', t⟩ := c
    rw [span_cons, span_cons] at hspan
    dsimp only at hspan
    have hsize : free = free' ∧ s = t := by
      cases free with
      | false =>
        cases free' with
        | false =>
          rw [payloads, if_neg Bool.false_ne_true, payloads, if_neg Bool.false_ne_true] at hp
          exact ⟨rfl, congrArg Prod.snd (List.cons.inj hp).1⟩
        | true => exact absurd hp (payloads_used_ne_free a s t bs bs')
      | true =>
        cases free' with
        | false => exact absurd hp.symm (payloads_used_ne_free a t s bs' bs)
        | true => exact ⟨rfl, free_size_eq h h' (by omega) hp⟩
    obtain ⟨rfl, rfl⟩ := hsize
    have htail : payloads (a + 16 + s) bs = payloads (a + 16 + s) bs' := by
      cases free with
      | false =>
        rw [payloads, if_neg Bool.false_ne_true, payloads, if_neg Bool.false_ne_true] at hp
        exact (List.cons.inj hp).2
      | true => exact hp
    rw [ih h.tail h'.tail (by omega) htail]

/-! ## Worlds with the same payloads -/

/-- The live pointers and the sizes of their blocks are the same. -/
structure SameLive (w w' : World) : Prop where
  pointers : (w.live.map Prod.fst).Perm (w'.live.map Prod.fst)
  sizes : ∀ p ∈ w.live.map Prod.fst,
    getField .size w'.heap.mem (p - mmEntrySz) = getField .size w.heap.mem (p - mmEntrySz)

theorem SameLive.symm {w w' : World} (h : SameLive w w') : SameLive w' w :=
  ⟨h.pointers.symm, fun p hp ↦ (h.sizes p (h.pointers.mem_iff.mpr hp)).symm⟩

variable {a p : Addr} {w w' : World} {bs bs' : List Block} {n : Word} {h : State} {m m' : Memory}

theorem Holds.payloads_subset (hw : Holds a w bs) (hw' : Holds a w' bs') (ha : HeapPage a)
    (hlive : SameLive w w') : payloads a.toNat bs ⊆ payloads a.toNat bs' := by
  rintro ⟨x, s⟩ hx
  have hp : ptr x ∈ w.live.map Prod.fst := hw.live.mem_iff.mpr (List.mem_map_of_mem hx)
  obtain ⟨y, t, hy, heq⟩ := hw'.exists_mem_payloads (hlive.pointers.mem_iff.mp hp)
  have hxb := mem_payloads hx
  have hyb := mem_payloads hy
  have hfits := ha.fits
  rw [hw.rep.span_eq] at hxb
  rw [hw'.rep.span_eq] at hyb
  obtain rfl : y = x := by
    have hnat := congrArg BitVec.toNat heq
    rwa [toNat_ptr (by omega), toNat_ptr (by omega)] at hnat
  have hsize := congrArg BitVec.toNat (hlive.sizes _ hp)
  rw [hw.rep.size_payload ha hx, hw'.rep.size_payload ha hy] at hsize
  rwa [← hsize]

theorem pairwise_payloads_lt (a : ℕ) (bs : List Block) :
    (payloads a bs).Pairwise fun x y ↦ x.1 < y.1 :=
  (pairwise_payloads a bs).imp fun h ↦ by omega

theorem Holds.blocks_eq (hw : Holds a w bs) (hw' : Holds a w' bs') (ha : HeapPage a)
    (hlive : SameLive w w') : bs = bs' := by
  have hsub := hw.payloads_subset hw' ha hlive
  have hsub' := hw'.payloads_subset hw ha hlive.symm
  have hlt := pairwise_payloads_lt a.toNat bs
  have hlt' := pairwise_payloads_lt a.toNat bs'
  have hnodup : ∀ {l : List (ℕ × ℕ)}, l.Pairwise (fun x y ↦ x.1 < y.1) → l.Nodup :=
    fun hl ↦ hl.imp fun hxy heq ↦ absurd (congrArg Prod.fst heq) (by omega)
  have hperm : (payloads a.toNat bs).Perm (payloads a.toNat bs') :=
    (List.perm_ext_iff_of_nodup (hnodup hlt) (hnodup hlt')).mpr fun x ↦ ⟨@hsub x, @hsub' x⟩
  have heq : payloads a.toNat bs = payloads a.toNat bs' :=
    hperm.eq_of_pairwise (fun x y _ _ hxy hyx ↦ absurd hxy (by omega)) hlt hlt'
  exact eq_of_payloads_eq hw.separated hw'.separated
    (hw.rep.span_eq.trans hw'.rep.span_eq.symm) heq

/-! ## Later calls -/

/-- The pointer that a call gives back, in a heap. Only a request gives one. -/
def Call.answer (h : State) : Call → Option Addr
  | .kmalloc n =>
    match Heap.kmalloc n h with
    | .ret (p, _) => some p
    | _ => none
  | _ => none

/-- A call of a client, with the answer it gets. -/
def Answered (w : World) (x : Call × Option Addr) (w' : World) : Prop :=
  Step w x.1 w' ∧ x.1.answer w.heap = x.2

/-- Every later run from `w` is one from `w'`: the same calls get the same answers, and in the end
the list is the same. -/
def Matches (w w' : World) : Prop :=
  ∀ log v, Run.Trace Answered w log v → ∃ v', Run.Trace Answered w' log v' ∧ SameList v.heap v'.heap

/-- No later run of requests, releases and writes has an answer or a list that tells the two heaps
apart. What the payloads hold is not looked at. -/
def Indistinguishable (w w' : World) : Prop := Matches w w' ∧ Matches w' w

/-- Two worlds with the same blocks. -/
def SameBlocks (a : Addr) (w w' : World) : Prop := ∃ bs, Holds a w bs ∧ Holds a w' bs

theorem SameBlocks.symm (h : SameBlocks a w w') : SameBlocks a w' w :=
  h.imp fun _ ↦ And.symm

/-- Payloads in use have the same sizes where the blocks are the same. -/
theorem Holds.size_eq (hw : Holds a w bs) (hw' : Holds a w' bs) (ha : HeapPage a)
    (hp : p ∈ w.live.map Prod.fst) :
    getField .size w'.heap.mem (p - mmEntrySz) = getField .size w.heap.mem (p - mmEntrySz) := by
  obtain ⟨x, s, hx, rfl⟩ := hw.exists_mem_payloads hp
  refine BitVec.eq_of_toNat_eq ?_
  rw [hw.rep.size_payload ha hx, hw'.rep.size_payload ha hx]

theorem SameBlocks.sameLive (h : SameBlocks a w w') (ha : HeapPage a) : SameLive w w' := by
  obtain ⟨bs, hw, hw'⟩ := h
  exact ⟨hw.live.trans hw'.live.symm, fun p hp ↦ hw.size_eq hw' ha hp⟩

theorem Holds.sameBlocks (hw : Holds a w bs) (hw' : Holds a w' bs') (ha : HeapPage a)
    (hlive : SameLive w w') : SameBlocks a w w' := by
  obtain rfl := hw.blocks_eq hw' ha hlive
  exact ⟨bs, hw, hw'⟩

theorem SameBlocks.sameList (h : SameBlocks a w w') (ha : HeapPage a) :
    SameList w.heap w'.heap := by
  obtain ⟨bs, hw, hw'⟩ := h
  exact hw.rep.sameList hw'.rep ha

theorem World.erase_pointers {q : Addr × Word} (hq : q ∈ w.live) :
    ((w.live.erase q).map Prod.fst).Perm ((w.live.map Prod.fst).erase q.1) := by
  have hperm : (w.live.map Prod.fst).Perm (q.1 :: (w.live.erase q).map Prod.fst) :=
    (List.perm_cons_erase hq).map Prod.fst
  have herase := hperm.erase q.1
  rw [List.erase_cons_head] at herase
  exact herase.symm

theorem SameBlocks.kmalloc (h : SameBlocks a w w') (ha : HeapPage a) {k : State}
    (hret : Heap.kmalloc n w.heap = .ret (p, k)) :
    ∃ k', Heap.kmalloc n w'.heap = .ret (p, k') ∧
      (p = null → SameBlocks a ⟨k, w.live⟩ ⟨k', w'.live⟩) ∧
      (p ≠ null → SameBlocks a ⟨k, (p, n) :: w.live⟩ ⟨k', (p, n) :: w'.live⟩) := by
  obtain ⟨bs, hw, hw'⟩ := h
  obtain ⟨p', k', hret'⟩ := hw'.kmalloc_returns ha n
  rcases hw.kmalloc_cases ha hret with ⟨rfl, hrep, hfail⟩ | ⟨x, bs₁, rfl, hne, hn, hserve, hrep⟩
  · rcases hw'.kmalloc_cases ha hret' with ⟨rfl, hrep', -⟩ | ⟨x', bs₂, -, -, hn, hserve', -⟩
    · exact ⟨k', hret', fun _ ↦ ⟨bs, ⟨hrep, hw.separated, hw.live⟩,
        ⟨hrep', hw'.separated, hw'.live⟩⟩, fun hne ↦ absurd rfl hne⟩
    · exact absurd ((hfail hn).unique hserve').1 (by simp)
  · rcases hw'.kmalloc_cases ha hret' with ⟨rfl, -, hfail'⟩ | ⟨x', bs₂, rfl, -, -, hserve', hrep'⟩
    · exact absurd (hserve.unique (hfail' hn)).1 (by simp)
    · obtain ⟨heq, rfl⟩ := hserve.unique hserve'
      obtain rfl := Option.some_inj.mp heq
      exact ⟨k', hret', fun hnull ↦ absurd hnull hne,
        fun _ ↦ ⟨bs₁, hw.served hserve hrep, hw'.served hserve' hrep'⟩⟩

/-- What a release leaves depends on the blocks alone. -/
theorem SameBlocks.kfree (h : SameBlocks a w w') (ha : HeapPage a) {q : Addr × Word}
    (hq : q ∈ w.live) :
    ∃ q' ∈ w'.live, q'.1 = q.1 ∧ SameBlocks a ⟨Heap.kfree q.1 w.heap, w.live.erase q⟩
      ⟨Heap.kfree q.1 w'.heap, w'.live.erase q'⟩ := by
  have hsame := h.sameLive ha
  obtain ⟨bs, hw, hw'⟩ := h
  obtain ⟨q', hq', heq⟩ :=
    List.mem_map.mp (hsame.pointers.mem_iff.mp (List.mem_map_of_mem hq))
  obtain ⟨bs₁, hfree, -⟩ := hw.released ha hq
  obtain ⟨bs₂, hfree', -⟩ := hw'.released ha hq'
  have hrest : ((w.live.erase q).map Prod.fst).Perm ((w'.live.erase q').map Prod.fst) := by
    refine (World.erase_pointers hq).trans (List.Perm.trans ?_ (World.erase_pointers hq').symm)
    rw [heq]
    exact hsame.pointers.erase q.1
  refine ⟨q', hq', heq, ?_⟩
  rw [← heq] at hfree ⊢
  refine hfree.sameBlocks hfree' ha ⟨hrest, fun x hx ↦ ?_⟩
  -- what stays live keeps its size on either side
  have hlive : x ∈ w.live.map Prod.fst :=
    (List.erase_subset (a := q.1)) ((World.erase_pointers hq).mem_iff.mp hx)
  have hkept := hw.kept_kfree ha hq hx
  rw [← heq] at hkept
  rw [(hw'.kept_kfree ha hq' (hrest.mem_iff.mp hx)).size, hkept.size, hsame.sizes x hlive]

theorem SameBlocks.write (h : SameBlocks a w w') (ha : HeapPage a) {q : Addr × Word} {x : Addr}
    (hq : q ∈ w.live) (hx : InPayload w.heap.mem q.1 x) (v : Byte) :
    ∃ q' ∈ w'.live, InPayload w'.heap.mem q'.1 x ∧
      SameBlocks a ⟨{ w.heap with mem := writeByte w.heap.mem x v }, w.live⟩
        ⟨{ w'.heap with mem := writeByte w'.heap.mem x v }, w'.live⟩ := by
  have hsame := h.sameLive ha
  obtain ⟨bs, hw, hw'⟩ := h
  have hp : q.1 ∈ w.live.map Prod.fst := List.mem_map_of_mem hq
  obtain ⟨q', hq', heq⟩ := List.mem_map.mp (hsame.pointers.mem_iff.mp hp)
  have hx' : InPayload w'.heap.mem q'.1 x := by
    rw [InPayload, heq, hsame.sizes _ hp]
    exact hx
  exact ⟨q', hq', hx', bs, hw.written ha hq hx v, hw'.written ha hq' hx' v⟩

/-- **Every call of the one client gets the same answer for the other**, and the blocks stay the
same. -/
theorem SameBlocks.answered {v : World} {c : Call × Option Addr} (h : SameBlocks a w w')
    (ha : HeapPage a) (hstep : Answered w c v) : ∃ v', Answered w' c v' ∧ SameBlocks a v v' := by
  obtain ⟨c, o⟩ := c
  obtain ⟨hstep, hanswer⟩ := hstep
  dsimp only at hstep hanswer
  subst hanswer
  cases hstep with
  | kmalloc hret hp =>
    obtain ⟨k', hret', -, hsame⟩ := h.kmalloc ha hret
    refine ⟨_, ⟨.kmalloc hret' hp, ?_⟩, hsame hp⟩
    simp only [Call.answer, hret, hret']
  | kmallocNull hret =>
    obtain ⟨k', hret', hsame, -⟩ := h.kmalloc ha hret
    refine ⟨_, ⟨.kmallocNull hret', ?_⟩, hsame rfl⟩
    simp only [Call.answer, hret, hret']
  | kfree hq =>
    obtain ⟨q', hq', heq, hsame⟩ := h.kfree ha hq
    rw [← heq] at hsame ⊢
    exact ⟨_, ⟨.kfree hq', rfl⟩, hsame⟩
  | kfreeNull => exact ⟨_, ⟨.kfreeNull, rfl⟩, h⟩
  | write v hq hx =>
    obtain ⟨q', hq', hx', hsame⟩ := h.write ha hq hx v
    exact ⟨_, ⟨.write v hq' hx', rfl⟩, hsame⟩

theorem SameBlocks.matches (h : SameBlocks a w w') (ha : HeapPage a) : Matches w w' := by
  intro log v hlog
  have hstep : ∀ s s' c t, SameBlocks a s s' → Answered s c t →
      ∃ t', Answered s' c t' ∧ SameBlocks a t t' := fun _ _ _ _ hs ht ↦ hs.answered ha ht
  obtain ⟨v', hlog', hend⟩ := hlog.simulate hstep h
  exact ⟨v', hlog', hend.sameList ha⟩

theorem SameBlocks.indistinguishable (h : SameBlocks a w w') (ha : HeapPage a) :
    Indistinguishable w w' :=
  ⟨h.matches ha, h.symm.matches ha⟩

/-- **The heap has no history.** Any two runs, on any memory, that come to the same live pointers
with blocks of the same sizes come to heaps that no later run tells apart. -/
theorem indistinguishable_of_sameLive (ha : HeapPage a)
    (hrun : Run.Reaches Step anyCall (World.start a m) w)
    (hrun' : Run.Reaches Step anyCall (World.start a m') w') (hlive : SameLive w w') :
    Indistinguishable w w' := by
  obtain ⟨bs, hw⟩ := holds_of_reaches ha hrun
  obtain ⟨bs', hw'⟩ := holds_of_reaches ha hrun'
  exact (hw.sameBlocks hw' ha hlive).indistinguishable ha

/-- The same request on a cleared page and on one that is not. -/
theorem indistinguishable_of_sameLive_oneBlock : ∃ h h',
    kmalloc 100#32 (World.start 0x10000#32 fun _ ↦ 0#8).heap = .ret (0x10F80#32, h) ∧
      kmalloc 100#32 (World.start 0x10000#32 fun _ ↦ 1#8).heap = .ret (0x10F80#32, h') ∧
      Indistinguishable ⟨h, [(0x10F80#32, 100#32)]⟩ ⟨h', [(0x10F80#32, 100#32)]⟩ := by
  obtain ⟨h, hret, hsize⟩ : ∃ h,
      kmalloc 100#32 (World.start 0x10000#32 fun _ ↦ 0#8).heap = .ret (0x10F80#32, h) ∧
        getField .size h.mem 0x10F70#32 = 128#32 := ⟨_, rfl, rfl⟩
  obtain ⟨h', hret', hsize'⟩ : ∃ h',
      kmalloc 100#32 (World.start 0x10000#32 fun _ ↦ 1#8).heap = .ret (0x10F80#32, h') ∧
        getField .size h'.mem 0x10F70#32 = 128#32 := ⟨_, rfl, rfl⟩
  have hrun : Run.Reaches Step anyCall (World.start 0x10000#32 fun _ ↦ 0#8)
      ⟨h, [(0x10F80#32, 100#32)]⟩ := .tail .refl trivial (.kmalloc hret (by decide))
  have hrun' : Run.Reaches Step anyCall (World.start 0x10000#32 fun _ ↦ 1#8)
      ⟨h', [(0x10F80#32, 100#32)]⟩ := .tail .refl trivial (.kmalloc hret' (by decide))
  have hlive : SameLive ⟨h, [(0x10F80#32, 100#32)]⟩ ⟨h', [(0x10F80#32, 100#32)]⟩ := by
    refine ⟨.refl _, ?_⟩
    intro p hp
    obtain rfl := List.mem_singleton.mp hp
    exact hsize'.trans hsize.symm
  exact ⟨h, h', hret, hret',
    indistinguishable_of_sameLive heapPage_example hrun hrun' hlive⟩

/-! ## Releases in any order -/

/-- Give pointers back, one after the other. -/
def World.kfreeAll (ps : List Addr) (w : World) : World :=
  ⟨ps.foldl (fun h p ↦ kfree p h) w.heap, w.live.filter fun q ↦ q.1 ∉ ps⟩

theorem filter_cons_notMem {l : List (Addr × Word)} (hl : (l.map Prod.fst).Nodup)
    {q : Addr × Word} (hq : q ∈ l) (ps : List Addr) :
    (l.filter fun r ↦ r.1 ∉ q.1 :: ps) = (l.erase q).filter fun r ↦ r.1 ∉ ps := by
  rw [hl.of_map.erase_eq_filter, List.filter_filter]
  refine List.filter_congr fun r hr ↦ ?_
  have hne : r.1 = q.1 ↔ r = q := ⟨fun h ↦ List.inj_on_of_nodup_map hl hr hq h, fun h ↦ h ▸ rfl⟩
  simp only [List.mem_cons, not_or, hne, bne]
  by_cases hrq : r = q <;> simp [hrq]

theorem reaches_kfreeAll (ha : HeapPage a)
    (hrun : Run.Reaches Step anyCall (World.start a m) w) {ps : List Addr} (hps : ps.Nodup)
    (hlive : ps ⊆ w.live.map Prod.fst) :
    Run.Reaches Step anyCall (World.start a m) (w.kfreeAll ps) ∧
      ∀ p ∈ (w.kfreeAll ps).live.map Prod.fst,
        getField .size (w.kfreeAll ps).heap.mem (p - mmEntrySz)
          = getField .size w.heap.mem (p - mmEntrySz) := by
  induction ps generalizing w with
  | nil =>
    have hnil : w.kfreeAll [] = w := by
      rw [World.kfreeAll, List.foldl_nil, List.filter_eq_self.mpr (by simp)]
    rw [hnil]
    exact ⟨hrun, fun _ _ ↦ rfl⟩
  | cons p ps ih =>
    obtain ⟨hp, htail⟩ := List.nodup_cons.mp hps
    obtain ⟨hmem, hsub⟩ := List.cons_subset.mp hlive
    obtain ⟨q, hq, rfl⟩ := List.mem_map.mp hmem
    obtain ⟨bs, hw⟩ := holds_of_reaches ha hrun
    have herase := World.erase_pointers hq
    have hrest : ps ⊆ (w.live.erase q).map Prod.fst := fun x hx ↦
      herase.mem_iff.mpr ((List.mem_erase_of_ne (ne_of_mem_of_not_mem hx hp)).mpr (hsub hx))
    have hcons : w.kfreeAll (q.1 :: ps)
        = World.kfreeAll ps ⟨kfree q.1 w.heap, w.live.erase q⟩ := by
      rw [World.kfreeAll, World.kfreeAll, filter_cons_notMem (hw.tiling ha).distinct hq ps]
      rfl
    obtain ⟨hrun', hsize⟩ := ih (hrun.tail trivial (.kfree hq)) htail hrest
    rw [hcons]
    refine ⟨hrun', fun x hx ↦ (hsize x hx).trans ?_⟩
    obtain ⟨r, hr, rfl⟩ := List.mem_map.mp hx
    exact (hw.kept_kfree ha hq (List.mem_map_of_mem (List.mem_of_mem_filter hr))).size

/-- **Pointers can be given back in any order.** -/
theorem indistinguishable_kfreeAll (ha : HeapPage a)
    (hrun : Run.Reaches Step anyCall (World.start a m) w) {ps qs : List Addr} (hps : ps.Nodup)
    (hlive : ps ⊆ w.live.map Prod.fst) (hperm : ps.Perm qs) :
    Indistinguishable (w.kfreeAll ps) (w.kfreeAll qs) := by
  obtain ⟨hrun₁, hsize₁⟩ := reaches_kfreeAll ha hrun hps hlive
  obtain ⟨hrun₂, hsize₂⟩ := reaches_kfreeAll ha hrun
    (hperm.nodup_iff.mp hps) fun p hp ↦ hlive (hperm.mem_iff.mpr hp)
  have hsame : (w.kfreeAll ps).live = (w.kfreeAll qs).live :=
    List.filter_congr fun q _ ↦ by simp only [hperm.mem_iff]
  obtain ⟨bs₁, hw₁⟩ := holds_of_reaches ha hrun₁
  obtain ⟨bs₂, hw₂⟩ := holds_of_reaches ha hrun₂
  refine (hw₁.sameBlocks hw₂ ha ⟨hsame ▸ .refl _, fun p hp ↦ ?_⟩).indistinguishable ha
  rw [hsize₁ p hp, hsize₂ p (hsame ▸ hp)]

/-- Two blocks on a cleared page, given back in either order. -/
theorem indistinguishable_kfreeAll_twoBlocks : ∃ h h',
    kmalloc 100#32 (World.start 0x10000#32 fun _ ↦ 0#8).heap = .ret (0x10F80#32, h) ∧
      kmalloc 24#32 h = .ret (0x10F50#32, h') ∧
      Indistinguishable
        (World.kfreeAll [0x10F50#32, 0x10F80#32]
          ⟨h', [(0x10F50#32, 24#32), (0x10F80#32, 100#32)]⟩)
        (World.kfreeAll [0x10F80#32, 0x10F50#32]
          ⟨h', [(0x10F50#32, 24#32), (0x10F80#32, 100#32)]⟩) := by
  obtain ⟨h, h', hret, hret'⟩ : ∃ h h',
      kmalloc 100#32 (World.start 0x10000#32 fun _ ↦ 0#8).heap = .ret (0x10F80#32, h) ∧
        kmalloc 24#32 h = .ret (0x10F50#32, h') := ⟨_, _, rfl, rfl⟩
  have hrun : Run.Reaches Step anyCall (World.start 0x10000#32 fun _ ↦ 0#8)
      ⟨h', [(0x10F50#32, 24#32), (0x10F80#32, 100#32)]⟩ :=
    .tail (.tail .refl trivial (.kmalloc hret (by decide))) trivial (.kmalloc hret' (by decide))
  exact ⟨h, h', hret, hret', indistinguishable_kfreeAll heapPage_example hrun (by decide)
    (fun _ hp ↦ hp) (.swap _ _ _)⟩

/-! ## Sessions -/

/-- A session that started in `w₀` does not give back what was live then. -/
def OwnCall (w₀ : World) : World → Call → Prop
  | _, .kfree p => p ∉ w₀.live.map Prod.fst
  | _, _ => True

/-- What was live before a session keeps its block. -/
structure Undisturbed (w₀ w : World) : Prop where
  live : w₀.live.map Prod.fst ⊆ w.live.map Prod.fst
  sizes : ∀ p ∈ w₀.live.map Prod.fst,
    getField .size w.heap.mem (p - mmEntrySz) = getField .size w₀.heap.mem (p - mmEntrySz)

theorem Undisturbed.step {w₀ : World} {c : Call} (hkept : Undisturbed w₀ w) (hw : Holds a w bs)
    (ha : HeapPage a) (hok : OwnCall w₀ w c) (hstep : Step w c w') : Undisturbed w₀ w' := by
  cases hstep with
  | kmalloc hret hp =>
    exact ⟨fun x hx ↦ List.mem_cons_of_mem _ (hkept.live hx),
      fun x hx ↦ (hw.kept_kmalloc ha hret (hkept.live hx)).size.trans (hkept.sizes x hx)⟩
  | kmallocNull hret =>
    exact ⟨hkept.live,
      fun x hx ↦ (hw.kept_kmalloc ha hret (hkept.live hx)).size.trans (hkept.sizes x hx)⟩
  | @kfree q hq =>
    have hstay : ∀ x ∈ w₀.live.map Prod.fst, x ∈ (w.live.erase q).map Prod.fst := fun x hx ↦
      (World.erase_pointers hq).mem_iff.mpr
        ((List.mem_erase_of_ne (ne_of_mem_of_not_mem hx hok)).mpr (hkept.live hx))
    exact ⟨hstay, fun x hx ↦
      (hw.kept_kfree ha hq (hstay x hx)).size.trans (hkept.sizes x hx)⟩
  | kfreeNull => exact hkept
  | write v hq hx =>
    exact ⟨hkept.live, fun x hx' ↦
      (hw.size_eq (hw.written ha hq hx v) ha (hkept.live hx')).trans (hkept.sizes x hx')⟩

/-- **A session leaves no trace**: whatever is asked for, written and given back, no later run tells
the heap from the one before it when what is live is what was live before. -/
theorem indistinguishable_of_session (ha : HeapPage a) {w₀ : World}
    (hrun : Run.Reaches Step anyCall (World.start a m) w₀)
    (hsession : Run.Reaches Step (OwnCall w₀) w₀ w)
    (hlive : (w₀.live.map Prod.fst).Perm (w.live.map Prod.fst)) :
    Indistinguishable w₀ w := by
  have hrun' : Run.Reaches Step anyCall (World.start a m) w :=
    hrun.trans (hsession.mono fun _ _ _ ↦ trivial)
  obtain ⟨bs₀, hw₀⟩ := holds_of_reaches ha hrun
  obtain ⟨bs, hw⟩ := holds_of_reaches ha hrun'
  have hkept : (∃ bs, Holds a w bs) ∧ Undisturbed w₀ w := by
    refine hsession.invariant (P := fun w ↦ (∃ bs, Holds a w bs) ∧ Undisturbed w₀ w)
      ⟨⟨bs₀, hw₀⟩, fun _ hx ↦ hx, fun _ _ ↦ rfl⟩ ?_
    rintro t c u ⟨⟨bs, ht⟩, hkept⟩ hok hstep
    exact ⟨ht.step ha hstep, hkept.step ht ha hok hstep⟩
  exact (hw₀.sameBlocks hw ha ⟨hlive, hkept.2.sizes⟩).indistinguishable ha

/-- A request on a cleared page, and a second one that is given back. -/
theorem indistinguishable_of_session_twoBlocks : ∃ h h',
    kmalloc 100#32 (World.start 0x10000#32 fun _ ↦ 0#8).heap = .ret (0x10F80#32, h) ∧
      kmalloc 24#32 h = .ret (0x10F50#32, h') ∧
      Indistinguishable ⟨h, [(0x10F80#32, 100#32)]⟩
        ⟨kfree 0x10F50#32 h', [(0x10F80#32, 100#32)]⟩ := by
  obtain ⟨h, h', hret, hret'⟩ : ∃ h h',
      kmalloc 100#32 (World.start 0x10000#32 fun _ ↦ 0#8).heap = .ret (0x10F80#32, h) ∧
        kmalloc 24#32 h = .ret (0x10F50#32, h') := ⟨_, _, rfl, rfl⟩
  have hrun : Run.Reaches Step anyCall (World.start 0x10000#32 fun _ ↦ 0#8)
      ⟨h, [(0x10F80#32, 100#32)]⟩ := .tail .refl trivial (.kmalloc hret (by decide))
  have hown : OwnCall ⟨h, [(0x10F80#32, 100#32)]⟩ ⟨h, [(0x10F80#32, 100#32)]⟩
      (.kmalloc 24#32) := trivial
  have hfree : OwnCall ⟨h, [(0x10F80#32, 100#32)]⟩
      ⟨h', [(0x10F50#32, 24#32), (0x10F80#32, 100#32)]⟩ (.kfree 0x10F50#32) := by
    simp [OwnCall]
  have hsession : Run.Reaches Step (OwnCall ⟨h, [(0x10F80#32, 100#32)]⟩)
      ⟨h, [(0x10F80#32, 100#32)]⟩ ⟨kfree 0x10F50#32 h', [(0x10F80#32, 100#32)]⟩ :=
    .tail (.tail .refl hown (.kmalloc hret' (by decide))) hfree
      (.kfree (q := (0x10F50#32, 24#32)) List.mem_cons_self)
  exact ⟨h, h', hret, hret',
    indistinguishable_of_session heapPage_example hrun hsession (.refl _)⟩

end Sugarcat.Heap
