import Sugarcat.Heap.Client

/-!
# The test program

`alloc_test` of `test.c` keeps a table of 75 pointers in a block of its own, and asks for memory or
gives it back at random until it is interrupted. What it draws in each pass is a parameter, and the
interrupt is the end of the list of draws.

## What is shown

`allocTest_client` says that the program comes to its end and that its own calls are those of a
client as the allocator expects: every pointer that is given back is one that is held, and every
word that is read or written is one of the table. It says so of the record of its calls, of which
the request for the table is the first and the release of the table is the last.

The table is not cleared before it is used, so this is for memory where it starts out as zeros. What
is held at the end is what the table holds, and the program does not give it back.

## The invariant

`Driven` holds between two passes: the run so far is one of the allocator with requests that fit,
the table is held, and the live pointers are the table and its entries that are not `NULL`. A pass
picks an entry. If it fills the entry, one pointer comes in on both sides, and if it clears the
entry, one goes out. That the other entries are the same is the frame property of the allocator for
its own writes, and the writes of the program are in the payload of the table.
-/

namespace Sugarcat.Heap

open ByteMemory

/-! ## The code -/

/-- `gen_rand`, for a result of `rand()`. -/
def genRand (min max rand : ℕ) : ℕ := min + (rand % (max - min) + 1)

/-- What `rand()` returns in a pass, the last one only if there is a request. -/
structure Draws where
  index : ℕ
  rand : ℕ
  size : ℕ

/-- `&ptr_table[index]`. -/
def entryAddr (ptrTable : Addr) (index : ℕ) : Addr := ptrTable + ptr (4 * index)

def allocTestPass (ptrTable : Addr) (d : Draws) : Program Unit :=
  let entry := entryAddr ptrTable (genRand 0 74 d.index)
  if genRand 0 9 d.rand ≥ 5 then do
    let p ← Program.load entry
    if p = null then do
      let p ← Program.kmalloc (BitVec.ofNat 32 (genRand 10 110 d.size))
      Program.store entry p
      let p ← Program.load entry
      if p = null then Program.store entry null else pure ()
    else pure ()
  else do
    let p ← Program.load entry
    if p ≠ null then do
      let p ← Program.load entry
      Program.kfree p
      Program.store entry null
    else pure ()

/-- The passes up to the interrupt. -/
def allocTestLoop (ptrTable : Addr) : List Draws → Program Unit
  | [] => pure ()
  | d :: ds => do
    allocTestPass ptrTable d
    allocTestLoop ptrTable ds

/-- `75 * sizeof(void *)`. -/
abbrev ptrTableSz : Word := 300#32

/-- The test, where both signal handlers can be set. -/
def allocTest (draws : List Draws) : Program Unit := do
  let ptrTable ← Program.kmalloc ptrTableSz
  if ptrTable = null then pure ()
  else do
    allocTestLoop ptrTable draws
    Program.kfree ptrTable

variable {a table : Addr} {w w' : World} {bs : List Block} {h : State} {m m' : Memory} {i j : ℕ}

/-! ## The table -/

/-- The entries that are not `NULL`. Entry zero is never drawn. -/
def entries (m : Memory) (table : Addr) : List Addr :=
  ((List.range' 1 74).map fun i ↦ readWord m (entryAddr table i)).filter (· ≠ null)

/-- A place for the table: aligned, and below the top of the address space. -/
structure TablePlace (table : Addr) : Prop where
  aligned : table.toNat % 4 = 0
  fits : table.toNat + 300 < 2 ^ 32

theorem toNat_entryAddr (ht : TablePlace table) (hi : i < 75) :
    (entryAddr table i).toNat = table.toNat + 4 * i := by
  have hfits := ht.fits
  rw [entryAddr, BitVec.toNat_add, toNat_ptr (by omega), Nat.mod_eq_of_lt (by omega)]

theorem readWord_entry_of_ne (ht : TablePlace table) (hi : i < 75) (hj : j < 75) (hne : j ≠ i)
    (m : Memory) (v : Word) :
    readWord (writeWord m (entryAddr table i) v) (entryAddr table j) =
      readWord m (entryAddr table j) := by
  have hal := ht.aligned
  have hinat := toNat_entryAddr ht hi
  have hjnat := toNat_entryAddr ht hj
  refine readWord_writeWord_of_ne v (by omega) (by omega) fun heq ↦ hne ?_
  have hnat := congrArg BitVec.toNat heq
  omega

theorem filter_map_perm {l : List ℕ} (hl : l.Nodup) (hi : i ∈ l) {f g : ℕ → Addr}
    (hother : ∀ j ∈ l, j ≠ i → g j = f j) (hf : f i = null) (hg : g i ≠ null) :
    ((l.map g).filter (· ≠ null)).Perm (g i :: (l.map f).filter (· ≠ null)) := by
  have hsplit := List.perm_cons_erase hi
  have hsame : (l.erase i).map g = (l.erase i).map f :=
    List.map_congr_left fun j hj ↦
      hother j (List.mem_of_mem_erase hj) ((hl.mem_erase_iff).mp hj).1
  have hgl : ((l.map g).filter (· ≠ null)).Perm
      (g i :: ((l.erase i).map g).filter (· ≠ null)) := by
    have h := (hsplit.map g).filter (· ≠ null)
    rwa [List.map_cons, List.filter_cons_of_pos (by simpa using hg)] at h
  have hfl : ((l.map f).filter (· ≠ null)).Perm (((l.erase i).map f).filter (· ≠ null)) := by
    have h := (hsplit.map f).filter (· ≠ null)
    rwa [List.map_cons, List.filter_cons_of_neg (by simpa using hf)] at h
  rw [hsame] at hgl
  exact hgl.trans (hfl.symm.cons _)

/-- An entry that is filled comes in. -/
theorem entries_filled (ht : TablePlace table) (hi : i ∈ List.range' 1 74) {p : Word}
    (hnull : readWord m (entryAddr table i) = null) (hp : p ≠ null) :
    (entries (writeWord m (entryAddr table i) p) table).Perm (p :: entries m table) := by
  have hlt : ∀ j ∈ List.range' 1 74, j < 75 := fun j hj ↦ (List.mem_range'_1.mp hj).2
  have h := filter_map_perm List.nodup_range' hi
    (f := fun j ↦ readWord m (entryAddr table j))
    (g := fun j ↦ readWord (writeWord m (entryAddr table i) p) (entryAddr table j))
    (fun j hj hne ↦ readWord_entry_of_ne ht (hlt i hi) (hlt j hj) hne m p) hnull
    (by rwa [readWord_writeWord_self])
  rwa [readWord_writeWord_self] at h

theorem entries_cleared (ht : TablePlace table) (hi : i ∈ List.range' 1 74)
    (hp : readWord m (entryAddr table i) ≠ null) :
    (entries m table).Perm
      (readWord m (entryAddr table i) :: entries (writeWord m (entryAddr table i) null) table) := by
  have hlt : ∀ j ∈ List.range' 1 74, j < 75 := fun j hj ↦ (List.mem_range'_1.mp hj).2
  exact filter_map_perm List.nodup_range' hi
    (f := fun j ↦ readWord (writeWord m (entryAddr table i) null) (entryAddr table j))
    (g := fun j ↦ readWord m (entryAddr table j))
    (fun j hj hne ↦ (readWord_entry_of_ne ht (hlt i hi) (hlt j hj) hne m null).symm)
    (readWord_writeWord_self _ _ _) hp

theorem entries_congr (h : ∀ i < 75, ∀ x, InRange (entryAddr table i) 4 x → m' x = m x) :
    entries m' table = entries m table := by
  have hread : ∀ i ∈ List.range' 1 74,
      readWord m' (entryAddr table i) = readWord m (entryAddr table i) := fun i hi ↦
    readWord_congr fun x hx ↦ h i (List.mem_range'_1.mp hi).2 x hx
  rw [entries, entries, List.map_congr_left hread]

/-! ## Runs of the test -/

/-- The test after some passes: a client run in which what is live is the table and what is in it,
and every block is large enough. -/
structure Driven (a : Addr) (m : Memory) (table : Addr) (w : World) : Prop where
  reaches : Run.Reaches Step RequestFits (World.start a m) w
  held : (table, ptrTableSz) ∈ w.live
  live : (w.live.map Prod.fst).Perm (table :: entries w.heap.mem table)

theorem exists_sized (ha : HeapPage a)
    (hrun : Run.Reaches Step RequestFits (World.start a m) w) :
    ∃ bs, Holds a w bs ∧ Sized a w bs := by
  refine hrun.invariant (P := fun w ↦ ∃ bs, Holds a w bs ∧ Sized a w bs)
    ⟨_, holds_start ha m, fun q hq ↦ absurd hq List.not_mem_nil⟩ ?_
  rintro t c u ⟨bs, ht, hst⟩ hok hstep
  exact hst.step ht ha hok hstep

theorem Sized.tablePlace (hs : Sized a w bs) (hw : Holds a w bs) (ha : HeapPage a)
    (hheld : (table, ptrTableSz) ∈ w.live) :
    TablePlace table ∧ ∀ i < 75, ∀ x, InRange (entryAddr table i) 4 x →
      InPayload w.heap.mem table x := by
  obtain ⟨x, s, hx, rfl⟩ := hw.exists_mem_payloads (List.mem_map_of_mem hheld)
  have hsize : 300 ≤ s := hs _ hheld _ hx rfl
  have hbound := mem_payloads hx
  have hfits := ha.fits
  rw [hw.rep.span_eq] at hbound
  obtain ⟨l, r, rfl, rfl⟩ := mem_payloads_iff.mp hx
  have hal := hw.rep.seg.header.aligned
  have hnat : (ptr (a.toNat + span l + 16)).toNat = a.toNat + span l + 16 := toNat_ptr (by omega)
  have ht : TablePlace (ptr (a.toNat + span l + 16)) := ⟨by omega, by omega⟩
  refine ⟨ht, ?_⟩
  intro i hi y hy
  have hentry := toNat_entryAddr ht hi
  rw [inRange_iff (by omega), hentry] at hy
  rw [hw.rep.inPayload_iff ha hx]
  omega

theorem Kept.entries_eq (hkept : Kept m m' table)
    (hin : ∀ i < 75, ∀ x, InRange (entryAddr table i) 4 x → InPayload m table x) :
    entries m' table = entries m table ∧
      ∀ i < 75, readWord m' (entryAddr table i) = readWord m (entryAddr table i) :=
  ⟨entries_congr fun i hi x hx ↦ hkept.bytes x (hin i hi x hx),
    fun i hi ↦ readWord_congr fun x hx ↦ hkept.bytes x (hin i hi x hx)⟩

theorem Driven.holdsWord (hd : Driven a m table w) (ha : HeapPage a) (hi : i < 75) :
    w.HoldsWord (entryAddr table i) := by
  obtain ⟨bs, hw, hs⟩ := exists_sized ha hd.reaches
  obtain ⟨-, hin⟩ := hs.tablePlace hw ha hd.held
  exact ⟨_, hd.held, fun y hy ↦ hin i hi y hy⟩

theorem genRand_mem {min max : ℕ} (h : min < max) (rand : ℕ) :
    min < genRand min max rand ∧ genRand min max rand ≤ max := by
  have := Nat.mod_lt rand (Nat.sub_pos_of_lt h)
  rw [genRand]
  omega

theorem performs_storeEntry (ha : HeapPage a)
    (hrun : Run.Reaches Step RequestFits (World.start a m) w)
    (hheld : (table, ptrTableSz) ∈ w.live) (hi : i < 75) (v : Word) :
    ∃ w', (Program.store (entryAddr table i) v).Performs w () [.store (entryAddr table i) v] w' ∧
      w' = ⟨{ w.heap with mem := writeWord w.heap.mem (entryAddr table i) v }, w.live⟩ ∧
      Run.Reaches Step RequestFits (World.start a m) w' := by
  obtain ⟨bs, hw, hs⟩ := exists_sized ha hrun
  obtain ⟨-, hin⟩ := hs.tablePlace hw ha hheld
  have hx : w.HoldsWord (entryAddr table i) := ⟨_, hheld, fun y hy ↦ hin i hi y hy⟩
  exact ⟨_, Program.performs_store hx v, rfl, ClientStep.reaches ha hrun (.store v hx)⟩

/-- A request that fills an entry. -/
theorem Driven.filled (hd : Driven a m table w) (ha : HeapPage a) (hi : i ∈ List.range' 1 74)
    {n : Word} (hn : n.toNat ≤ 2 ^ 31) (hnull : readWord w.heap.mem (entryAddr table i) = null) :
    ∃ p w₁ w₂, (Program.kmalloc n).Performs w p [.kmalloc n p] w₁ ∧
      (Program.store (entryAddr table i) p).Performs w₁ () [.store (entryAddr table i) p] w₂ ∧
      Driven a m table w₂ := by
  obtain ⟨bs, hw, hs⟩ := exists_sized ha hd.reaches
  obtain ⟨ht, hin⟩ := hs.tablePlace hw ha hd.held
  have hlt : i < 75 := (List.mem_range'_1.mp hi).2
  obtain ⟨p, h, hret⟩ := hw.kmalloc_returns ha n
  obtain ⟨hentries, hread⟩ :=
    (hw.kept_kmalloc ha hret (List.mem_map_of_mem hd.held)).entries_eq hin
  have hnull' : readWord h.mem (entryAddr table i) = null := (hread i hlt).trans hnull
  by_cases hp : p = null
  · subst hp
    have hstep : ClientStep w (.kmalloc n null) ⟨h, w.live⟩ := .kmallocNull hn hret
    obtain ⟨w₂, hstore, rfl, hrun₂⟩ := performs_storeEntry (w := ⟨h, w.live⟩) ha
      (hstep.reaches ha hd.reaches) hd.held hlt null
    have hsame : writeWord h.mem (entryAddr table i) null = h.mem := by
      rw [← hnull', writeWord_readWord]
    refine ⟨null, _, _, Program.performs_kmalloc hret hstep rfl, hstore, hrun₂, hd.held, ?_⟩
    dsimp only
    rw [hsame, hentries]
    exact hd.live
  · have hstep : ClientStep w (.kmalloc n p) ⟨h, (p, n) :: w.live⟩ := .kmalloc hn hret hp
    have hheld : (table, ptrTableSz) ∈ (p, n) :: w.live := List.mem_cons_of_mem _ hd.held
    obtain ⟨w₂, hstore, rfl, hrun₂⟩ := performs_storeEntry (w := ⟨h, (p, n) :: w.live⟩) ha
      (hstep.reaches ha hd.reaches) hheld hlt p
    refine ⟨p, _, _, Program.performs_kmalloc hret hstep rfl, hstore, hrun₂, hheld, ?_⟩
    have hfilled := entries_filled ht hi hnull' hp
    rw [hentries] at hfilled
    calc (((p, n) :: w.live).map Prod.fst).Perm (p :: table :: entries w.heap.mem table) :=
          hd.live.cons p
      _ |>.Perm (table :: p :: entries w.heap.mem table) := .swap _ _ _
      _ |>.Perm _ := (hfilled.cons table).symm

theorem Driven.clear (hd : Driven a m table w) (ha : HeapPage a) (hi : i < 75)
    (hnull : readWord w.heap.mem (entryAddr table i) = null) :
    ∃ w', (Program.store (entryAddr table i) null).Performs w () [.store (entryAddr table i) null]
        w' ∧ Driven a m table w' := by
  obtain ⟨w', hstore, rfl, hrun⟩ := performs_storeEntry ha hd.reaches hd.held hi null
  refine ⟨_, hstore, hrun, hd.held, ?_⟩
  dsimp only
  rw [← hnull, writeWord_readWord]
  exact hd.live

/-- A release that clears an entry. -/
theorem Driven.cleared (hd : Driven a m table w) (ha : HeapPage a) (hi : i ∈ List.range' 1 74)
    {p : Addr} (hpdef : p = readWord w.heap.mem (entryAddr table i)) (hp : p ≠ null) :
    ∃ w₁ w₂, (Program.kfree p).Performs w () [.kfree p] w₁ ∧
      (Program.store (entryAddr table i) null).Performs w₁ () [.store (entryAddr table i) null] w₂ ∧
      Driven a m table w₂ := by
  obtain ⟨bs, hw, hs⟩ := exists_sized ha hd.reaches
  obtain ⟨ht, hin⟩ := hs.tablePlace hw ha hd.held
  have hlt : i < 75 := (List.mem_range'_1.mp hi).2
  rw [hpdef] at hp
  have hcleared := entries_cleared ht hi hp
  rw [← hpdef] at hcleared hp
  have hmem : p ∈ entries w.heap.mem table := hcleared.mem_iff.mpr List.mem_cons_self
  -- the pointer is held, and it is not the table
  obtain ⟨q, hq, hqp⟩ := List.mem_map.mp (hd.live.mem_iff.mpr (List.mem_cons_of_mem table hmem))
  have hnodup : (table :: entries w.heap.mem table).Nodup :=
    hd.live.nodup_iff.mp (hw.tiling ha).distinct
  have hne : p ≠ table := ne_of_mem_of_not_mem hmem (List.nodup_cons.mp hnodup).1
  have hheld : (table, ptrTableSz) ∈ w.live.erase q :=
    (List.mem_erase_of_ne fun heq ↦ hne (by rw [← hqp, ← heq])).mpr hd.held
  have hkept := hw.kept_kfree ha hq (List.mem_map_of_mem hheld)
  rw [hqp] at hkept
  obtain ⟨hentries, hread⟩ := hkept.entries_eq hin
  have hfree := Program.performs_kfree hq
  have hrun := ClientStep.reaches ha hd.reaches (.kfree hq)
  rw [hqp] at hfree hrun
  obtain ⟨w₂, hstore, rfl, hrun₂⟩ := performs_storeEntry ha hrun hheld hlt null
  refine ⟨_, _, hfree, hstore, hrun₂, hheld, ?_⟩
  have hp' : readWord (kfree p w.heap).mem (entryAddr table i) ≠ null := by
    rw [hread i hlt, ← hpdef]
    exact hp
  have hrest := entries_cleared ht hi hp'
  rw [hread i hlt, hentries, ← hpdef] at hrest
  have herase : ((w.live.erase q).map Prod.fst).Perm ((w.live.map Prod.fst).erase p) :=
    hqp ▸ World.erase_pointers hq
  refine herase.trans ((hd.live.erase p).trans ?_)
  rw [List.erase_cons_tail (by simpa using hne.symm)]
  have hcons := hrest.erase p
  rw [List.erase_cons_head] at hcons
  exact hcons.cons table

theorem genRand_index (rand : ℕ) : genRand 0 74 rand ∈ List.range' 1 74 := by
  have := genRand_mem (show 0 < 74 by decide) rand
  rw [List.mem_range'_1]
  omega

/-- **All that a pass does is what a client may do.** -/
theorem Driven.pass (hd : Driven a m table w) (ha : HeapPage a) (d : Draws) :
    ∃ es w', (allocTestPass table d).Performs w () es w' ∧ Driven a m table w' := by
  have hi := genRand_index d.index
  have hlt := (List.mem_range'_1.mp hi).2
  have hload := Program.performs_load (hd.holdsWord ha hlt)
  rw [allocTestPass]
  split_ifs with hrand
  · by_cases hnull : readWord w.heap.mem (entryAddr table (genRand 0 74 d.index)) = null
    · have hsize := (genRand_mem (show 10 < 110 by decide) d.size).2
      obtain ⟨p, w₁, w₂, hreq, hstore, hd₂⟩ :=
        hd.filled ha hi (n := BitVec.ofNat 32 (genRand 10 110 d.size))
          (by rw [toNat_ptr (by omega)]; omega) hnull
      have hload₂ := Program.performs_load (hd₂.holdsWord ha hlt)
      -- a request that failed clears an entry that is clear
      have hlast : ∃ es w₃, (if readWord w₂.heap.mem (entryAddr table (genRand 0 74 d.index)) = null
          then Program.store (entryAddr table (genRand 0 74 d.index)) null else pure ()).Performs
            w₂ () es w₃ ∧ Driven a m table w₃ := by
        split_ifs with hp
        · obtain ⟨w₃, hclear, hd₃⟩ := hd₂.clear ha hlt hp
          exact ⟨_, w₃, hclear, hd₃⟩
        · exact ⟨_, w₂, Program.performs_pure () w₂, hd₂⟩
      obtain ⟨es, w₃, hlast, hd₃⟩ := hlast
      exact ⟨_, w₃, hload.bind (.ite_of_pos hnull
        (hreq.bind (hstore.bind (hload₂.bind hlast)))), hd₃⟩
    · exact ⟨_, w, hload.bind (.ite_of_neg hnull (Program.performs_pure () w)), hd⟩
  · by_cases hnull : readWord w.heap.mem (entryAddr table (genRand 0 74 d.index)) ≠ null
    · obtain ⟨w₁, w₂, hfree, hstore, hd₂⟩ := hd.cleared ha hi rfl hnull
      exact ⟨_, w₂, hload.bind (.ite_of_pos hnull (hload.bind (hfree.bind hstore))), hd₂⟩
    · exact ⟨_, w, hload.bind (.ite_of_neg hnull (Program.performs_pure () w)), hd⟩

/-- **So is all that the loop does.** -/
theorem Driven.loop (hd : Driven a m table w) (ha : HeapPage a) (draws : List Draws) :
    ∃ es w', (allocTestLoop table draws).Performs w () es w' ∧ Driven a m table w' := by
  induction draws generalizing w with
  | nil => exact ⟨_, w, Program.performs_pure () w, hd⟩
  | cons d ds ih =>
    obtain ⟨es₁, w₁, hpass, hd₁⟩ := hd.pass ha d
    obtain ⟨es₂, w₂, hloop, hd₂⟩ := ih hd₁
    exact ⟨_, w₂, hpass.bind hloop, hd₂⟩

/-! ## From start to end -/

/-- Where the table gets its block on a fresh page. -/
abbrev tableOf (a : Addr) : Addr := ptr (a.toNat + 3584)

theorem serve_table : Serve (roundSize ptrTableSz).toNat [⟨true, 4080⟩] (some 3584)
    [⟨true, 3552⟩, ⟨false, 512⟩] :=
  Serve.split (l := []) (r := []) (s := 4080) ⟨rfl, by decide, by simp, by simp⟩ (by decide)

theorem changesOnly_heapInit (ha : HeapPage a) (m : Memory) :
    ChangesOnly [a.toNat] m (heapInit a m).mem := by
  have hal := ha.aligned
  have hx : Pos a.toNat := ⟨by omega, a.isLt⟩
  have hset : ∀ f m v, ChangesOnly [a.toNat] m (setField f m a v) := fun f m v ↦ by
    have h := changesOnly_setField hx f m v
    rwa [ptr_toNat] at h
  exact (hset _ _ _).trans ((hset _ _ _).trans ((hset _ _ _).trans (hset _ _ _)))

theorem driven_start (ha : HeapPage a) (hclear : entries m (tableOf a) = []) :
    ∃ w, (Program.kmalloc ptrTableSz).Performs (World.start a m) (tableOf a)
        [.kmalloc ptrTableSz (tableOf a)] w ∧ Driven a m (tableOf a) w := by
  have hfits := ha.fits
  obtain ⟨o, bs, m', hret, hserve, hrep, hm⟩ :=
    kmalloc_spec (represents_heapInit ha m) ha (n := ptrTableSz) (by decide)
  obtain ⟨rfl, rfl⟩ := hserve.unique serve_table
  have hne : tableOf a ≠ null := ptr_ne_zero (by omega) (by omega)
  have ht : TablePlace (tableOf a) := by
    have hal := ha.aligned
    have hnat : (tableOf a).toNat = a.toNat + 3584 := toNat_ptr (by omega)
    exact ⟨by omega, by omega⟩
  have hbytes : ∀ i < 75, ∀ x, InRange (entryAddr (tableOf a) i) 4 x → m' x = m x := by
    intro i hi x hx
    have hnat : (tableOf a).toNat = a.toNat + 3584 := toNat_ptr (by omega)
    have hentry := toNat_entryAddr ht hi
    rw [inRange_iff (by omega), hentry] at hx
    have houtside : ∀ y ∈ headers a.toNat [⟨true, 3552⟩, ⟨false, 512⟩], ¬InHeader y x := by
      intro y hy hyx
      simp only [headers, List.mem_cons, List.not_mem_nil, or_false] at hy
      rw [InHeader] at hyx
      omega
    refine (hm x houtside).trans (changesOnly_heapInit ha m x fun y hy ↦ houtside y ?_)
    rw [List.mem_singleton.mp hy]
    exact List.mem_cons_self
  have hstep : ClientStep (World.start a m) (.kmalloc ptrTableSz (tableOf a)) _ :=
    .kmalloc (by decide) hret hne
  refine ⟨_, Program.performs_kmalloc hret hstep rfl, hstep.reaches ha .refl,
    List.mem_cons_self, ?_⟩
  rw [entries_congr hbytes, hclear]
  exact .refl _

/-- The table is given back, and still there to be read. -/
theorem Driven.finish (hd : Driven a m table w) (ha : HeapPage a) :
    ∃ w', (Program.kfree table).Performs w () [.kfree table] w' ∧
      Run.Reaches Step RequestFits (World.start a m) w' ∧
      (w'.live.map Prod.fst).Perm (entries w'.heap.mem table) := by
  obtain ⟨bs, hw, hs⟩ := exists_sized ha hd.reaches
  obtain ⟨-, hin⟩ := hs.tablePlace hw ha hd.held
  refine ⟨_, Program.performs_kfree hd.held, ClientStep.reaches ha hd.reaches (.kfree hd.held), ?_⟩
  have hsame : entries (kfree table w.heap).mem table = entries w.heap.mem table := by
    obtain ⟨l, s, r, rfl, hptr⟩ := hw.exists_payload hd.held
    obtain ⟨m', hfree, -, hm⟩ := kfree_spec hw.rep ha
    have hx : (a.toNat + (span l + 16), s) ∈ payloads a.toNat (l ++ ⟨false, s⟩ :: r) :=
      mem_payloads_iff.mpr ⟨l, r, rfl, (Nat.add_assoc _ _ _).symm⟩
    dsimp only at hptr
    refine entries_congr fun i hi x hxi ↦ ?_
    have hxp := hin i hi x hxi
    rw [hptr, payloadPtr, hw.rep.inPayload_iff ha hx] at hxp
    rw [hptr, hfree]
    exact hm.payload hx hxp
  have herase := (World.erase_pointers hd.held).trans (hd.live.erase table)
  rw [List.erase_cons_head] at herase
  rw [hsame]
  exact herase

theorem Holds.isInitial_iff (hw : Holds a w bs) (ha : HeapPage a) :
    IsInitial a w.heap ↔ w.live = [] := by
  constructor
  · intro hinit
    have htiling := hw.tiling ha
    suffices hnone : ∀ p, p ∉ w.live.map Prod.fst from
      List.map_eq_nil_iff.mp (List.eq_nil_iff_forall_not_mem.mpr hnone)
    intro p hp
    obtain ⟨hnode, hstatus⟩ := (htiling.live (p - mmEntrySz)).mpr (by rwa [BitVec.sub_add_cancel])
    rw [htiling.list.unique hinit.list] at hnode
    rw [List.mem_singleton.mp hnode, hinit.status] at hstatus
    exact absurd hstatus (by decide)
  · intro hlive
    obtain rfl := hw.eq_fresh hlive
    exact hw.rep.isInitial ha

/-- **The test is a client as the allocator expects**, whatever is drawn and however long it runs.
It comes to its end, and its own requests, releases, reads and writes are those of a client: no bad
pointer is given back, read or written. What is live then is what the table holds, so the page is
free again exactly if the table is empty. -/
theorem allocTest_client (ha : HeapPage a) (hclear : entries m (tableOf a) = [])
    (draws : List Draws) :
    ∃ events w, allocTest draws (heapInit a m) = .ret ⟨(), events, w.heap⟩ ∧
      Run.Trace ClientStep (World.start a m) events w ∧
      (∃ es, events = .kmalloc ptrTableSz (tableOf a) :: (es ++ [.kfree (tableOf a)])) ∧
      (w.live.map Prod.fst).Perm (entries w.heap.mem (tableOf a)) ∧
      (IsInitial a w.heap ↔ entries w.heap.mem (tableOf a) = []) := by
  have hfits := ha.fits
  obtain ⟨w₁, hreq, hd₁⟩ := driven_start ha hclear
  obtain ⟨es, w₂, hloop, hd₂⟩ := hd₁.loop ha draws
  obtain ⟨w₃, hfree, hrun, hlive⟩ := hd₂.finish ha
  have hne : tableOf a ≠ null := ptr_ne_zero (by omega) (by omega)
  have htest : (allocTest draws).Performs (World.start a m) ()
      ([.kmalloc ptrTableSz (tableOf a)] ++ (es ++ [.kfree (tableOf a)])) w₃ :=
    hreq.bind (.ite_of_neg hne (hloop.bind hfree))
  refine ⟨_, w₃, htest.ends, htest.trace, ⟨es, rfl⟩, hlive, ?_⟩
  obtain ⟨bs, hw⟩ := holds_of_reaches ha (hrun.mono fun _ _ _ ↦ trivial)
  rw [hw.isInitial_iff ha, ← List.map_eq_nil_iff (f := Prod.fst)]
  exact ⟨fun hnil ↦ (hnil ▸ hlive).nil_eq.symm, fun hnil ↦ (hnil ▸ hlive).eq_nil⟩

/-- Three passes on the page that `main` gives to the heap, cleared. -/
theorem allocTest_client_cleared :
    ∃ events w, allocTest [⟨0, 5, 0⟩, ⟨3, 7, 20⟩, ⟨0, 0, 0⟩]
        (heapInit (heapStartOf 0x10000#32) fun _ ↦ 0#8) = .ret ⟨(), events, w.heap⟩ ∧
      Run.Trace ClientStep (World.start (heapStartOf 0x10000#32) fun _ ↦ 0#8) events w ∧
      (∃ es, events = .kmalloc ptrTableSz (tableOf (heapStartOf 0x10000#32)) ::
        (es ++ [.kfree (tableOf (heapStartOf 0x10000#32))])) ∧
      (w.live.map Prod.fst).Perm (entries w.heap.mem (tableOf (heapStartOf 0x10000#32))) ∧
      (IsInitial (heapStartOf 0x10000#32) w.heap ↔
        entries w.heap.mem (tableOf (heapStartOf 0x10000#32)) = []) :=
  allocTest_client (heapPage_heapStartOf (by decide) (by decide)) (by simp [entries, readWord_zero])
    [⟨0, 5, 0⟩, ⟨3, 7, 20⟩, ⟨0, 0, 0⟩]

end Sugarcat.Heap
