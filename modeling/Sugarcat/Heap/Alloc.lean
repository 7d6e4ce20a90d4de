import Sugarcat.Machine.Loop
import Sugarcat.Util.Bits

/-!
# The one-page allocator

The allocator of `test.c`, for a 32-bit target: a page that is cut into blocks, each after a header
of four words, with the headers in a doubly linked list from `head`. `kmalloc` rounds a request up
to a power of two, takes a free block of exactly that size, or else cuts one off the tail of the
best larger one; `kfree` merges a block with its free neighbours.

## How it is modelled

A pointer is a word and `NULL` is zero. What is printed is left out. The state is memory, the
variable `head` and the variable `heap_start`; a function that the source calls for its effects
returns the state after it.

The loop over the list reads memory without changing it, so if it passes `2 ^ 32` nodes it has been
at one of them twice and does not end. `kmalloc` has three outcomes for that reason: it returns, it
ends the program in the branch that the source has for an error of its own, or it does not return at
all.
-/

namespace Sugarcat.Heap

open ByteMemory

/-! ## Headers -/

/-- The fields of `mm_entry`. -/
inductive Field where
  | status
  | size
  | next
  | prev
  deriving DecidableEq, Repr

def Field.offset : Field → Word
  | .status => 0#32
  | .size => 4#32
  | .next => 8#32
  | .prev => 12#32

/-- `sizeof(struct mm_entry)`. -/
abbrev mmEntrySz : Word := 16#32

abbrev statusAllocated : Word := 0xFFFFFFFF#32
abbrev statusFree : Word := 0xAAAAAAAA#32
abbrev pageSize : Word := 4096#32
abbrev minAlloc : Word := 16#32
abbrev null : Addr := 0#32

def getField (f : Field) (m : Memory) (node : Addr) : Word := readWord m (node + f.offset)

def setField (f : Field) (m : Memory) (node : Addr) (v : Word) : Memory :=
  writeWord m (node + f.offset) v

/-- The globals of the allocator, and memory. -/
structure State where
  heapStart : Addr
  head : Addr
  mem : Memory

/-- How a call ends: it returns, it ends the program, or it never ends. -/
inductive Outcome (α : Type) where
  | ret (value : α)
  | exit
  | hang

/-! ## Bits -/

def highestBit (x : Word) : Word :=
  let x := x ||| (x >>> 1)
  let x := x ||| (x >>> 2)
  let x := x ||| (x >>> 4)
  let x := x ||| (x >>> 8)
  let x := x ||| (x >>> 16)
  x - (x >>> 1)

/-! ## Finding and cutting blocks -/

/-- The variables of the search. -/
structure FitLoop where
  schNode : Addr
  nextBest : Addr

/-- One pass of `find_best_fit`. It leaves with a node and whether its size is exact. -/
def findBestFitStep (size : Word) (m : Memory) (l : FitLoop) : FitLoop ⊕ (Addr × Bool) :=
  if l.schNode ≠ null then
    let next := getField .next m l.schNode
    if getField .status m l.schNode = statusFree then
      if getField .size m l.schNode = size then .inr (l.schNode, true)
      -- a later candidate has to be smaller than the one before, the first one does not
      else if l.nextBest ≠ null then
        if getField .size m l.schNode < getField .size m l.nextBest ∧
            getField .size m l.schNode > size + mmEntrySz then
          .inl ⟨next, l.schNode⟩
        else .inl ⟨next, l.nextBest⟩
      else if getField .size m l.schNode > size + mmEntrySz then .inl ⟨next, l.schNode⟩
      else .inl ⟨next, l.nextBest⟩
    else .inl ⟨next, l.nextBest⟩
  else .inr (l.nextBest, false)

/-- The node to use for a block of `size` bytes; `none` when the list has no end. -/
def findBestFit (size : Word) (h : State) : Option (Addr × Bool) :=
  Loop.run (findBestFitStep size h.mem) (2 ^ 32) ⟨h.head, null⟩

/-- `if (x != NULL) x->prev = node`. -/
def setPrevOf (m : Memory) (x node : Addr) : Memory :=
  if x ≠ null then setField .prev m x node else m

/-- Cut a block of `desiredSize` bytes off the tail of `node`. -/
def breakChunk (node : Addr) (desiredSize : Word) (m : Memory) : Addr × Memory :=
  let actualSize := desiredSize + mmEntrySz
  if getField .status m node = statusFree then
    if getField .size m node > actualSize then
      let m := setField .size m node (getField .size m node - actualSize)
      let newNode := node + (getField .size m node + mmEntrySz)
      let m := setField .size m newNode desiredSize
      let m := setField .next m newNode (getField .next m node)
      let m := setField .prev m newNode node
      let m := setPrevOf m (getField .next m newNode) newNode
      let m := setField .next m node newNode
      (newNode, m)
    else (null, m)
  else (null, m)

/-! ## The interface -/

/-- The page `main` gives to the heap, out of two pages from `actualPtr` on. -/
def heapStartOf (actualPtr : Addr) : Addr := (actualPtr + (pageSize - 1#32)) &&& ~~~0xFFF#32

def heapInit (heapStart : Addr) (m : Memory) : State :=
  let m := setField .next m heapStart null
  let m := setField .prev m heapStart null
  let m := setField .size m heapStart (pageSize - mmEntrySz)
  let m := setField .status m heapStart statusFree
  ⟨heapStart, heapStart, m⟩

/-- The size of the block that serves a request. -/
def roundSize (size : Word) : Word :=
  if size < minAlloc then minAlloc
  -- above `2 ^ 31` the shift drops the only bit there is
  else if !isPowerOfTwo size then highestBit size <<< 1
  else size

def kmalloc (size : Word) (h : State) : Outcome (Addr × State) :=
  if size > 0#32 then
    let size := roundSize size
    match findBestFit size h with
    | none => .hang
    | some (node, bestFit) =>
      if node ≠ null then
        if !bestFit then
          let (nnode, m) := breakChunk node size h.mem
          if nnode = null then .exit
          else .ret (nnode + mmEntrySz, { h with mem := setField .status m nnode statusAllocated })
        else .ret (node + mmEntrySz, { h with mem := setField .status h.mem node statusAllocated })
      else .ret (null, h)
  else .ret (null, h)

/-- Take the block after `node` into `node`. -/
def eat (node next : Addr) (m : Memory) : Memory :=
  let m := setField .next m node (getField .next m next)
  let m := setPrevOf m (getField .next m node) node
  setField .size m node (getField .size m node + (getField .size m next + mmEntrySz))

def kfree (ptr : Addr) (h : State) : State :=
  if ptr ≠ null then
    let node := ptr - mmEntrySz
    if getField .status h.mem node = statusAllocated then
      let next := getField .next h.mem node
      let prev := getField .prev h.mem node
      let m := setField .status h.mem node statusFree
      -- look right, then left: the second merge reads what the first one wrote
      let m := if next ≠ null ∧ getField .status m next = statusFree then eat node next m else m
      let m := if prev ≠ null ∧ getField .status m prev = statusFree then eat prev node m else m
      { h with mem := m }
    else h
  else h

end Sugarcat.Heap
