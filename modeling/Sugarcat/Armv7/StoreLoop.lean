import Sugarcat.Armv7.Mmu
import Sugarcat.Machine.Loop
import Sugarcat.Machine.Run

/-!
# Filling a table

The set-up loops of the repository fill a directory or a region of tables with one store per pass.
`storeAll` is such a loop seen as a sequence of stores, whatever computed their addresses, and the
two facts about it are those one needs of the memory it leaves: a word no pass stored to is
unchanged, and a word that was stored to holds the value of the last pass that did.

A loop that stops at an error is a run of stores too, when every pass succeeds and stores one word
(`upToOk_eq_storeAll`). That is so for the loops of the set-up: their entries are of a kind that is
supported, which is all that a pass checks.

## Loops after each other

Loops that run after each other are one list of stores (`storeList`), and what a word holds at the
end is decided by the last store to it in the whole list, whichever loop made it (`load_storeList`).
The addresses have to be such that different ones name words that share no byte, which aligned
addresses are.
-/

namespace Sugarcat

open ByteMemory

namespace Machine

/-- Store `val i` at `addr i` for `i = 0, …, n - 1`, in this order. -/
def storeAll (addr : ℕ → Addr) (val : ℕ → Word) (n : ℕ) (s : Machine) : Machine :=
  Loop.upTo (fun i s ↦ s.store (addr i) (val i)) n s

variable {addr : ℕ → Addr} {val : ℕ → Word} {n : ℕ} {s : Machine} {b : Addr}

theorem storeAll_succ : s.storeAll addr val (n + 1)
    = (s.storeAll addr val n).store (addr n) (val n) := rfl

theorem storeAll_congr {addr' : ℕ → Addr} {val' : ℕ → Word}
    (haddr : ∀ i < n, addr i = addr' i) (hval : ∀ i < n, val i = val' i) :
    s.storeAll addr val n = s.storeAll addr' val' n := by
  induction n with
  | zero => rfl
  | succ n ih =>
    rw [storeAll_succ, storeAll_succ, haddr n (Nat.lt_succ_self n), hval n (Nat.lt_succ_self n),
      ih (fun i hi ↦ haddr i (Nat.lt_succ_of_lt hi)) fun i hi ↦ hval i (Nat.lt_succ_of_lt hi)]

theorem storeAll_registers (addr : ℕ → Addr) (val : ℕ → Word) (n : ℕ) (s : Machine) :
    (s.storeAll addr val n).sctlr = s.sctlr ∧ (s.storeAll addr val n).ttbcr = s.ttbcr ∧
      (s.storeAll addr val n).ttbr0 = s.ttbr0 ∧ (s.storeAll addr val n).ttbr1 = s.ttbr1 ∧
        (s.storeAll addr val n).dacr = s.dacr := by
  induction n with
  | zero => exact ⟨rfl, rfl, rfl, rfl, rfl⟩
  | succ n ih => exact ih

/-- A loop that stops at an error is a run of stores when every pass succeeds and stores one
word. -/
theorem upToOk_eq_storeAll {body : ℕ → Machine → Errno × Machine}
    (hbody : ∀ i < n, body i (s.storeAll addr val i)
      = (.esucc, (s.storeAll addr val i).store (addr i) (val i))) :
    Loop.upToOk .esucc body n s = (.esucc, s.storeAll addr val n) := by
  induction n with
  | zero => rfl
  | succ n ih =>
    have hprev := ih fun i hi ↦ hbody i (Nat.lt_succ_of_lt hi)
    rw [Loop.upToOk, hprev, if_pos rfl]
    exact hbody n (Nat.lt_succ_self n)

theorem load_storeAll_of_ne (haddr : ∀ i < n, (addr i).toNat % 4 = 0) (hb : b.toNat % 4 = 0)
    (hne : ∀ i < n, addr i ≠ b) : (s.storeAll addr val n).load b = s.load b := by
  induction n with
  | zero => rfl
  | succ n ih =>
    rw [storeAll_succ, load_store_of_ne (haddr n (Nat.lt_succ_self n)) hb
      (hne n (Nat.lt_succ_self n))]
    exact ih (fun i hi ↦ haddr i (Nat.lt_succ_of_lt hi)) fun i hi ↦ hne i (Nat.lt_succ_of_lt hi)

theorem load_storeAll_of_last {j : ℕ} (haddr : ∀ i < n, (addr i).toNat % 4 = 0) (hj : j < n)
    (hlast : ∀ i < n, j < i → addr i ≠ addr j) :
    (s.storeAll addr val n).load (addr j) = val j := by
  induction n with
  | zero => exact absurd hj (Nat.not_lt_zero j)
  | succ n ih =>
    rw [storeAll_succ]
    rcases Nat.lt_succ_iff_lt_or_eq.mp hj with hlt | rfl
    · rw [load_store_of_ne (haddr n (Nat.lt_succ_self n)) (haddr j hj)
        (hlast n (Nat.lt_succ_self n) hlt)]
      exact ih (fun i hi ↦ haddr i (Nat.lt_succ_of_lt hi)) hlt
        fun i hi ↦ hlast i (Nat.lt_succ_of_lt hi)
    · rw [load_store_self]

/-! ## Loops after each other -/

/-- Store the words of a list, in this order. -/
def storeList (l : List (Addr × Word)) (s : Machine) : Machine :=
  l.foldl (fun s x ↦ s.store x.1 x.2) s

variable {l l' : List (Addr × Word)}

theorem storeList_append : s.storeList (l ++ l') = (s.storeList l).storeList l' :=
  List.foldl_append

theorem storeList_concat (x : Addr × Word) :
    s.storeList (l ++ [x]) = (s.storeList l).store x.1 x.2 :=
  storeList_append

theorem storeAll_eq_storeList :
    s.storeAll addr val n = s.storeList ((List.range n).map fun i ↦ (addr i, val i)) := by
  induction n with
  | zero => rfl
  | succ n ih =>
    rw [storeAll_succ, ih, List.range_succ, List.map_append, List.map_singleton, storeList_concat]

theorem storeList_registers (l : List (Addr × Word)) (s : Machine) :
    (s.storeList l).sctlr = s.sctlr ∧ (s.storeList l).ttbcr = s.ttbcr ∧
      (s.storeList l).ttbr0 = s.ttbr0 ∧ (s.storeList l).ttbr1 = s.ttbr1 := by
  induction l using List.reverseRecOn with
  | nil => exact ⟨rfl, rfl, rfl, rfl⟩
  | append_singleton l x ih =>
    rw [storeList_concat]
    exact ih

/-- **A word holds what was stored to it last**, or what it held before. -/
theorem load_storeList (hl : ∀ x ∈ l, x.1.toNat % 4 = 0) (hb : b.toNat % 4 = 0) :
    (s.storeList l).load b =
      ((Run.lastMatch (fun x ↦ decide (x.1 = b)) l).map Prod.snd).getD (s.load b) := by
  induction l using List.reverseRecOn with
  | nil => rfl
  | append_singleton l x ih =>
    rw [List.forall_mem_append, List.forall_mem_singleton] at hl
    rw [storeList_concat, Run.lastMatch_concat]
    by_cases hx : x.1 = b
    · rw [if_pos (decide_eq_true hx), ← hx, load_store_self]
      rfl
    · rw [load_store_of_ne hl.2 hb hx, if_neg (by simpa using hx)]
      exact ih hl.1

end Machine

end Sugarcat
