import Mathlib.Data.Set.Card
import Sugarcat.Machine.Memory

/-!
# What a function writes

The addresses that a function on memory writes, told from outside: those whose byte it changes, for
some contents of memory. A write that puts back what was there cannot be seen in one run, but it is
seen in another one that begins with other contents, so the definition ranges over all of them.

Where the bytes that a function leaves somewhere do not depend on what was there before,
`mem_writes` and `writes_eq` say that the addresses told in this way are all that it writes. A
function that fills a buffer is of that kind, and then `ncard_inRange` counts its bytes.
-/

namespace ByteMemory

variable {f : Memory → Option Memory} {F : Addr → Prop} {a x : Addr} {n : ℕ}

/-- The addresses that `f` changes, for some contents of memory. -/
def writes (f : Memory → Option Memory) : Set Addr := {x | ∃ m m', f m = some m' ∧ m' x ≠ m x}

theorem mem_writes {b : Byte} (hreturns : ∀ m, ∃ m', f m = some m')
    (hb : ∀ m m', f m = some m' → m' x = b) : x ∈ writes f := by
  obtain ⟨m', hm'⟩ := hreturns fun _ ↦ b + 1#8
  refine ⟨_, m', hm', ?_⟩
  rw [hb _ _ hm']
  exact fun h ↦ absurd (left_eq_add.mp h) (by decide)

/-- A function writes a range that it overwrites, and leaves alone what is outside of. -/
theorem writes_eq (hf : ∀ m, ∃ m', f m = some m' ∧ EqOutside F m m')
    (hb : ∀ x, F x → ∃ b, ∀ m m', f m = some m' → m' x = b) : writes f = {x | F x} := by
  ext x
  constructor
  · rintro ⟨m, m', hm', hne⟩
    obtain ⟨m'', hm'', houtside⟩ := hf m
    obtain rfl := Option.some_inj.mp (hm'.symm.trans hm'')
    by_contra hx
    exact hne (houtside x hx)
  · intro hx
    obtain ⟨b, hb⟩ := hb x hx
    exact mem_writes (fun m ↦ (hf m).imp fun _ h ↦ h.1) hb

theorem eq_add_of_inRange (h : InRange a n x) : ∃ i < n, x = a + ptr i := by
  refine ⟨(x - a).toNat, h, ?_⟩
  rw [ptr_toNat]
  ring

theorem ncard_inRange (a : Addr) (hn : n ≤ 2 ^ 32) : {x | InRange a n x}.ncard = n := by
  refine Set.ncard_eq_of_bijective (fun i _ ↦ a + ptr i) (fun x hx ↦ ?_)
    (fun i hi ↦ inRange_add hi hn) fun i j hi hj heq ↦ ?_
  · obtain ⟨i, hi, rfl⟩ := eq_add_of_inRange hx
    exact ⟨i, hi, rfl⟩
  · have hnat := congrArg BitVec.toNat (add_left_cancel heq)
    rwa [toNat_ptr (by omega), toNat_ptr (by omega)] at hnat

end ByteMemory
