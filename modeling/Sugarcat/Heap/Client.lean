import Sugarcat.Heap.History
import Sugarcat.Heap.Soundness

/-!
# Programs that use the heap

A program on the heap asks for memory, gives it back, and reads and writes words. `Program` runs it
on the heap and keeps a record of what it does: each request with the pointer that it got, each
release, each word that was read or written. The record is not in the code; it is what lets a
theorem speak of the calls that were made and not of the heap they leave alone.

## What a client may do

`ClientStep` says which events are those of a client as the allocator expects one. It asks for at
most 2 GiB, gives back what it holds and never `NULL`, and reads and writes words that are in
payloads it holds. So a record that is a trace of `ClientStep` holds no bad pointer anywhere.

## Rules

`Program.Performs` is a run of a program: it ends, and its record is such a trace. There is a rule
for each primitive and one for sequence, and the proof about a program follows its code with them.
`ClientStep.reaches` leads back to the runs of the allocator: a word is written byte by byte, and
what is read leaves the heap as it is.
-/

namespace Sugarcat.Heap

open ByteMemory

/-! ## Programs -/

def Outcome.bind {α β : Type} (o : Outcome α) (f : α → Outcome β) : Outcome β :=
  match o with
  | .ret x => f x
  | .exit => .exit
  | .hang => .hang

/-- What a program does on the heap. A request comes with the pointer that it got. -/
inductive Event where
  | kmalloc (size : Word) (ptr : Addr)
  | kfree (ptr : Addr)
  | load (x : Addr)
  | store (x : Addr) (v : Word)

/-- A result, with the record of what was done for it. -/
structure Performed (α : Type) where
  value : α
  events : List Event
  heap : State

/-- A program on the heap. -/
def Program (α : Type) : Type := State → Outcome (Performed α)

namespace Program

variable {α β : Type}

instance : Monad Program where
  pure x := fun h ↦ .ret ⟨x, [], h⟩
  bind p f := fun h ↦ (p h).bind fun r ↦
    (f r.value r.heap).bind fun r' ↦ .ret ⟨r'.value, r.events ++ r'.events, r'.heap⟩

def kmalloc (size : Word) : Program Addr := fun h ↦
  (Heap.kmalloc size h).bind fun r ↦ .ret ⟨r.1, [.kmalloc size r.1], r.2⟩

def kfree (ptr : Addr) : Program Unit := fun h ↦ .ret ⟨(), [.kfree ptr], Heap.kfree ptr h⟩

def load (x : Addr) : Program Word := fun h ↦ .ret ⟨readWord h.mem x, [.load x], h⟩

def store (x : Addr) (v : Word) : Program Unit := fun h ↦
  .ret ⟨(), [.store x v], { h with mem := writeWord h.mem x v }⟩

end Program

/-! ## Clients -/

/-- The word at `x` is in a payload that is held. -/
def World.HoldsWord (w : World) (x : Addr) : Prop :=
  ∃ q ∈ w.live, ∀ y, InRange x 4 y → InPayload w.heap.mem q.1 y

/-- What a client may do: all requests are for at most 2 GiB, only what is held is given back, and
only words in payloads that are held are read or written. -/
inductive ClientStep : World → Event → World → Prop
  | kmalloc {w : World} {n : Word} {p : Addr} {h : State} (hn : n.toNat ≤ 2 ^ 31)
      (hret : kmalloc n w.heap = .ret (p, h)) (hp : p ≠ null) :
      ClientStep w (.kmalloc n p) ⟨h, (p, n) :: w.live⟩
  | kmallocNull {w : World} {n : Word} {h : State} (hn : n.toNat ≤ 2 ^ 31)
      (hret : kmalloc n w.heap = .ret (null, h)) : ClientStep w (.kmalloc n null) ⟨h, w.live⟩
  | kfree {w : World} {q : Addr × Word} (hq : q ∈ w.live) :
      ClientStep w (.kfree q.1) ⟨kfree q.1 w.heap, w.live.erase q⟩
  | load {w : World} {x : Addr} (hx : w.HoldsWord x) : ClientStep w (.load x) w
  | store {w : World} {x : Addr} (v : Word) (hx : w.HoldsWord x) :
      ClientStep w (.store x v) ⟨{ w.heap with mem := writeWord w.heap.mem x v }, w.live⟩

/-- From the world `w` the program ends with `x`, and all that it does on the way to `w'` is what a
client may do. -/
structure Program.Performs {α : Type} (p : Program α) (w : World) (x : α) (events : List Event)
    (w' : World) : Prop where
  ends : p w.heap = .ret ⟨x, events, w'.heap⟩
  trace : Run.Trace ClientStep w events w'

namespace Program

variable {α β : Type} {p : Program α} {f : α → Program β} {w w' w'' : World} {x : α} {y : β}
  {es es' : List Event} {n v : Word} {b ptr : Addr} {h : State}

theorem performs_pure (x : α) (w : World) : (pure x : Program α).Performs w x [] w :=
  ⟨rfl, .nil w⟩

/-- The rule of sequence. -/
theorem Performs.bind (hp : p.Performs w x es w') (hf : (f x).Performs w' y es' w'') :
    (p >>= f).Performs w y (es ++ es') w'' := by
  refine ⟨?_, hp.trace.append hf.trace⟩
  change (p w.heap).bind _ = _
  rw [hp.ends, Outcome.bind, hf.ends]
  rfl

theorem Performs.ite_of_pos {c : Prop} [Decidable c] {q : Program α} (hc : c)
    (hp : p.Performs w x es w') : (if c then p else q).Performs w x es w' := by
  rwa [if_pos hc]

theorem Performs.ite_of_neg {c : Prop} [Decidable c] {q : Program α} (hc : ¬c)
    (hp : p.Performs w x es w') : (if c then q else p).Performs w x es w' := by
  rwa [if_neg hc]

theorem performs_kmalloc (hret : Heap.kmalloc n w.heap = .ret (ptr, h))
    (hstep : ClientStep w (.kmalloc n ptr) w') (hheap : w'.heap = h) :
    (kmalloc n).Performs w ptr [.kmalloc n ptr] w' := by
  refine ⟨?_, .single hstep⟩
  rw [kmalloc, hret, hheap]
  rfl

theorem performs_kfree {q : Addr × Word} (hq : q ∈ w.live) :
    (kfree q.1).Performs w () [.kfree q.1] ⟨Heap.kfree q.1 w.heap, w.live.erase q⟩ :=
  ⟨rfl, .single (.kfree hq)⟩

theorem performs_load (hb : w.HoldsWord b) :
    (load b).Performs w (readWord w.heap.mem b) [.load b] w :=
  ⟨rfl, .single (.load hb)⟩

theorem performs_store (hb : w.HoldsWord b) (v : Word) :
    (store b v).Performs w () [.store b v]
      ⟨{ w.heap with mem := writeWord w.heap.mem b v }, w.live⟩ :=
  ⟨rfl, .single (.store v hb)⟩

end Program

/-! ## Words and bytes -/

variable {a : Addr} {w w' : World} {bs : List Block} {m : Memory}

theorem extractLsb'_readWord (m : Memory) (b : Addr) {k : ℕ} (hk : k < 4) :
    (readWord m b).extractLsb' (8 * k) 8 = m (b + ptr k) := by
  refine BitVec.eq_of_getLsbD_eq fun i hi ↦ ?_
  simp only [readWord, BitVec.getLsbD_append, BitVec.getLsbD_extractLsb', hi, decide_true,
    Bool.true_and]
  interval_cases k
  · simp [hi]
  · simp [show ¬8 + i < 8 by omega, hi]
  · simp [show ¬16 + i < 8 by omega, show ¬16 + i - 8 < 8 by omega,
      show 16 + i - 8 - 8 = i by omega, hi]
  · simp [show ¬24 + i < 8 by omega, show ¬24 + i - 8 < 8 by omega,
      show ¬24 + i - 8 - 8 < 8 by omega, show 24 + i - 8 - 8 - 8 = i by omega]

theorem writeWord_readWord (m : Memory) (b : Addr) : writeWord m b (readWord m b) = m := by
  funext x
  by_cases hx : InRange b 4 x
  · rw [writeWord, if_pos hx, extractLsb'_readWord m b hx, ptr_toNat]
    congr 1
    ring
  · exact writeWord_of_not_inRange _ hx

/-- The four bytes of a word at an address. -/
def wordBytes (b : Addr) (v : Word) : List (Addr × Byte) :=
  (List.range 4).map fun k ↦ (b + ptr k, v.extractLsb' (8 * k) 8)

theorem mem_wordBytes {b : Addr} {v : Word} {c : Addr × Byte} (hc : c ∈ wordBytes b v) :
    InRange b 4 c.1 := by
  obtain ⟨k, hk, rfl⟩ := List.mem_map.mp hc
  exact inRange_add (List.mem_range.mp hk) (by decide)

theorem foldl_wordBytes (m : Memory) (b : Addr) (v : Word) :
    (wordBytes b v).foldl (fun m c ↦ writeByte m c.1 c.2) m = writeWord m b v := by
  have hfirst : ∀ n ≤ 4, ∀ x,
      ((List.range n).map fun k ↦ (b + ptr k, v.extractLsb' (8 * k) 8)).foldl
          (fun m c ↦ writeByte m c.1 c.2) m x =
        if InRange b n x then v.extractLsb' (8 * (x - b).toNat) 8 else m x := by
    intro n hn x
    induction n with
    | zero =>
      have hout : ¬InRange b 0 x := Nat.not_lt_zero _
      rw [if_neg hout, List.range_zero, List.map_nil, List.foldl_nil]
    | succ n ih =>
      rw [List.range_succ, List.map_append, List.foldl_append, List.map_singleton,
        List.foldl_cons, List.foldl_nil]
      by_cases hx : (x - b).toNat = n
      · have hpos : x = b + ptr n := by
          rw [← hx, ptr_toNat]
          ring
        rw [hpos, writeByte_self, ← hpos, hx, if_pos (by rw [InRange, hx]; omega)]
      · have hne : x ≠ b + ptr n := by
          rintro rfl
          rw [add_sub_cancel_left, toNat_ptr (by omega)] at hx
          exact hx rfl
        have hiff : InRange b (n + 1) x ↔ InRange b n x := by
          rw [InRange, InRange]
          omega
        rw [writeByte_of_ne _ hne, ih (by omega)]
        simp only [hiff]
  exact funext fun x ↦ hfirst 4 le_rfl x

/-- A client may write any word in a payload it holds. -/
theorem reaches_writeBytes {ok : World → Call → Prop} (hok : ∀ w x v, ok w (.write x v))
    (ha : HeapPage a) {s : World} (hw : Holds a w bs) (hrun : Run.Reaches Step ok s w)
    {q : Addr × Word} (hq : q ∈ w.live) (bytes : List (Addr × Byte))
    (hin : ∀ c ∈ bytes, InPayload w.heap.mem q.1 c.1) :
    Run.Reaches Step ok s
      ⟨{ w.heap with mem := bytes.foldl (fun m c ↦ writeByte m c.1 c.2) w.heap.mem }, w.live⟩ ∧
    Holds a ⟨{ w.heap with mem := bytes.foldl (fun m c ↦ writeByte m c.1 c.2) w.heap.mem }, w.live⟩
      bs := by
  induction bytes generalizing w with
  | nil => exact ⟨hrun, hw⟩
  | cons c bytes ih =>
    obtain ⟨hc, hrest⟩ := List.forall_mem_cons.mp hin
    have hw' := hw.written ha hq hc c.2
    have hsize := hw.size_eq hw' ha (List.mem_map_of_mem hq)
    refine ih hw' (hrun.tail (hok _ _ _) (.write c.2 hq hc)) hq fun c hc ↦ ?_
    have hin' := hrest c hc
    rw [InPayload] at hin' ⊢
    rwa [hsize]

/-! ## Back to the allocator -/

/-- What a client may do is done by calls of the allocator. -/
theorem ClientStep.reaches {e : Event} (ha : HeapPage a)
    (hrun : Run.Reaches Step RequestFits (World.start a m) w) (h : ClientStep w e w') :
    Run.Reaches Step RequestFits (World.start a m) w' := by
  cases h with
  | kmalloc hn hret hp =>
    exact hrun.tail (show RequestFits w (.kmalloc _) from Or.inl hn) (.kmalloc hret hp)
  | kmallocNull hn hret =>
    exact hrun.tail (show RequestFits w (.kmalloc _) from Or.inl hn) (.kmallocNull hret)
  | kfree hq => exact hrun.tail (show RequestFits w (.kfree _) from trivial) (.kfree hq)
  | load _ => exact hrun
  | store v hx =>
    obtain ⟨q, hq, hin⟩ := hx
    obtain ⟨bs, hw⟩ := holds_of_reaches ha (hrun.mono fun _ _ _ ↦ trivial)
    have hbytes := reaches_writeBytes (fun _ _ _ ↦ trivial) ha hw hrun hq (wordBytes _ v)
      fun c hc ↦ hin c.1 (mem_wordBytes hc)
    rw [foldl_wordBytes] at hbytes
    exact hbytes.1

end Sugarcat.Heap
