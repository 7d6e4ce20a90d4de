import Sugarcat.Atag.Queries
import Sugarcat.Machine.Pieces
import Sugarcat.Vexpress.HeldRegion

/-!
# The largest region of the tags

`init_get_mem_atag` is meant to return the largest contiguous union of the regions that the tags
`ATAG_MEM` list. In one pass it puts regions together only where they come in the order of their
addresses, and it goes around the top of memory. `getsLargest_iff` says when that is enough.

## What is meant

A contiguous union is a stretch of the address space that some of the regions make up, laid one
after the other (`IsUnion`), and a largest one is at least as large as any other. The regions are
banks: they are not empty, and no two of them overlap. Nothing is said of their order, and the
largest union is the same for any of them.

## When one pass is enough

`BuildsUp` says that a largest union is built up in the order of the tags: a region comes that
overtakes all before it, the rest of the union follows it in the order of addresses, and nothing
that comes in between or behind takes its place. If the function returns a largest union, then the
history of what is held is one like that.

A union that ends with the address space needs care, since its end is 0 as a word, and a region at 0
then seems to follow it.
-/

namespace Sugarcat

open ByteMemory

/-! ## The function -/

/-- `u.mem` of a tag. -/
def memAt (m : Memory) (sch : Addr) : MmReg where
  base := readWord m (sch + 12#32)
  size := readWord m (sch + 8#32)

/-- The variables of the loop of `init_get_mem_atag`. -/
structure MemAtagLoop where
  sch : Addr
  fnd : MmReg

def memAtagStep (m : Memory) (l : MemAtagLoop) : MemAtagLoop ⊕ Option MmReg :=
  match getNextTag m l.sch atagMem with
  | none => .inr none
  | some sch =>
    if sch ≠ 0#32 then .inl ⟨sch, memAtagBody l.fnd (memAt m sch)⟩ else .inr (some l.fnd)

/-- `memReg` is what the caller's pointer points to, and none for `NULL`. -/
def initGetMemAtag (m : Memory) (atagFdtBase : Addr) (memReg : Option MmReg) :
    Option (Errno × Option MmReg) :=
  match memReg with
  | none => some (.einval, none)
  | some memReg =>
    (getTag m atagFdtBase atagMem).bind fun sch ↦
      if sch ≠ 0#32 then
        (Loop.run (memAtagStep m) (2 ^ 32) ⟨sch, memAt m sch⟩).join.map fun fnd ↦ (.esucc, some fnd)
      else some (.enotfnd, some memReg)

/-! ## What is meant -/

def MmReg.lo (r : MmReg) : ℕ := r.base.toNat

def MmReg.len (r : MmReg) : ℕ := r.size.toNat

/-- Regions of memory: not empty, not over the top, and no two overlap. -/
structure Banks (rs : List MmReg) : Prop where
  pos : ∀ r ∈ rs, 0 < r.len
  fits : ∀ r ∈ rs, r.lo + r.len ≤ 2 ^ 32
  apart : rs.Pairwise (Pieces.Apart MmReg.lo MmReg.len)

/-- The regions `ks` are listed, and make up one region from `b` on. -/
structure IsUnion (rs : List MmReg) (b : ℕ) (ks : List MmReg) : Prop where
  ne : ks ≠ []
  listed : ∀ k ∈ ks, k ∈ rs
  laid : Pieces.LaidFrom MmReg.lo MmReg.len b ks

/-- `r` is a contiguous union of listed regions, and none is larger. -/
structure IsLargest (rs : List MmReg) (r : MmReg) : Prop where
  union : ∃ ks, IsUnion rs r.lo ks ∧ Pieces.total MmReg.len ks = r.len
  largest : ∀ b ks, IsUnion rs b ks → Pieces.total MmReg.len ks ≤ r.len

/-! ## What is enough -/

/-- The regions `ks` come in this order, and then `rest`; behind `n` bytes, none of those between is
larger than what comes before it. -/
inductive ListedUp : ℕ → List MmReg → List MmReg → List MmReg → Prop
  | done {n : ℕ} (rest : List MmReg) : ListedUp n [] rest rest
  | take {n : ℕ} {r : MmReg} {ks q rest : List MmReg} (h : ListedUp (n + r.len) ks q rest) :
      ListedUp n (r :: ks) (r :: q) rest
  | skip {n : ℕ} {r k : MmReg} {ks q rest : List MmReg} (hle : r.len ≤ n)
      (h : ListedUp n (k :: ks) q rest) : ListedUp n (k :: ks) (r :: q) rest

/-- The regions `j :: ks` are a largest union, short of all memory, and come in the order of their
addresses; `j` overtakes the regions before it; none between is larger than what comes before it;
and none of the rest follows around the top of memory. -/
structure BuildsUp (rs p : List MmReg) (j : MmReg) (q ks rest : List MmReg) : Prop where
  split : rs = p ++ j :: q
  overtakes : Overtakes p j
  listed : ListedUp j.len ks q rest
  union : IsUnion rs j.lo (j :: ks)
  largest : ∀ b ls, IsUnion rs b ls →
    Pieces.total MmReg.len ls ≤ Pieces.total MmReg.len (j :: ks)
  short : Pieces.total MmReg.len (j :: ks) < 2 ^ 32
  top : j.lo + Pieces.total MmReg.len (j :: ks) = 2 ^ 32 → ∀ r ∈ rest, r.base ≠ 0#32

variable {rs p q ks rest : List MmReg} {c d j r : MmReg} {n b : ℕ}

/-! ## Unions -/

theorem IsUnion.add_total_le (h : IsUnion rs b ks) (hb : Banks rs) :
    b + Pieces.total MmReg.len ks ≤ 2 ^ 32 :=
  h.laid.add_total_le h.ne fun k hk ↦ hb.fits k (h.listed k hk)

theorem IsUnion.total_pos (h : IsUnion rs b ks) (hb : Banks rs) :
    0 < Pieces.total MmReg.len ks := by
  cases ks with
  | nil => exact absurd rfl h.ne
  | cons k ks =>
    have hpos := hb.pos k (h.listed k List.mem_cons_self)
    rw [Pieces.total_cons]
    omega

theorem isUnion_singleton (hr : r ∈ rs) : IsUnion rs r.lo [r] :=
  ⟨by simp, fun k hk ↦ List.mem_singleton.mp hk ▸ hr, rfl, trivial⟩

theorem IsLargest.size_eq_of_perm {rs' : List MmReg} {r' : MmReg} (h : IsLargest rs r)
    (h' : IsLargest rs' r') (hperm : rs.Perm rs') : r.size = r'.size := by
  have hle : ∀ {l l' : List MmReg} {s s' : MmReg}, IsLargest l s → IsLargest l' s' → l.Perm l' →
      s.len ≤ s'.len := by
    intro l l' s s' hs hs' hp
    obtain ⟨ks, hks, htotal⟩ := hs.union
    rw [← htotal]
    exact hs'.largest _ ks ⟨hks.ne, fun k hk ↦ hp.mem_iff.mp (hks.listed k hk), hks.laid⟩
  exact BitVec.eq_of_toNat_eq (le_antisymm (hle h h' hperm) (hle h' h hperm.symm))

/-! ## What a region grows to -/

/-- A region and what is put to it, as words. -/
def grown (c : MmReg) (ks : List MmReg) : MmReg :=
  ⟨c.base, c.size + BitVec.ofNat 32 (Pieces.total MmReg.len ks)⟩

@[simp] theorem grown_nil (c : MmReg) : grown c [] = c := by
  rw [grown, Pieces.total_nil, BitVec.add_zero]

theorem grown_cons (c r : MmReg) (ks : List MmReg) :
    grown c (r :: ks) = grown ⟨c.base, c.size + r.size⟩ ks := by
  rw [grown, grown, Pieces.total_cons, BitVec.ofNat_add, MmReg.len, BitVec.ofNat_toNat,
    BitVec.setWidth_eq, add_assoc]

theorem len_grown (h : c.len + Pieces.total MmReg.len ks < 2 ^ 32) :
    (grown c ks).len = c.len + Pieces.total MmReg.len ks := by
  have hlen : c.size.toNat = c.len := rfl
  rw [MmReg.len, grown, BitVec.toNat_add, BitVec.toNat_ofNat, Nat.add_mod_mod, hlen,
    Nat.mod_eq_of_lt h]

theorem toNat_base_add_size (h : c.lo + c.len < 2 ^ 32) : (c.base + c.size).toNat = c.lo + c.len :=
  BitVec.toNat_add_of_lt h

theorem ListedUp.mem (h : ListedUp n ks q rest) :
    (∀ k ∈ ks, k ∈ q) ∧ ∀ r ∈ rest, r ∈ q := by
  induction h with
  | done rest => exact ⟨by simp, fun r hr ↦ hr⟩
  | take _ ih =>
    refine ⟨?_, fun r hr ↦ List.mem_cons_of_mem _ (ih.2 r hr)⟩
    intro k hk
    rcases List.mem_cons.mp hk with rfl | hk
    · exact List.mem_cons_self
    · exact List.mem_cons_of_mem _ (ih.1 k hk)
  | skip _ _ ih =>
    exact ⟨fun k hk ↦ List.mem_cons_of_mem _ (ih.1 k hk),
      fun r hr ↦ List.mem_cons_of_mem _ (ih.2 r hr)⟩

theorem GrowsTo.exists_listedUp (h : GrowsTo c q d) (hpos : ∀ r ∈ q, 0 < r.len) :
    ∃ ks, ks.Sublist q ∧ d = grown c ks ∧
      (c.len + Pieces.total MmReg.len ks < 2 ^ 32 →
        c.lo + (c.len + Pieces.total MmReg.len ks) ≤ 2 ^ 32 →
        Pieces.LaidFrom MmReg.lo MmReg.len (c.lo + c.len) ks ∧
          ∃ rest, ListedUp c.len ks q rest ∧ ∀ r ∈ rest, r.base ≠ d.base + d.size) := by
  induction h with
  | nil c => exact ⟨[], List.Sublist.refl _, (grown_nil c).symm, fun _ _ ↦
      ⟨trivial, [], .done [], by simp⟩⟩
  | @take c r d q hnext h ih =>
    rw [List.forall_mem_cons] at hpos
    obtain ⟨ks, hsub, hd, hlaid⟩ := ih hpos.2
    refine ⟨r :: ks, hsub.cons_cons r, by rw [hd, grown_cons], ?_⟩
    intro hshort htop
    rw [Pieces.total_cons] at hshort htop
    have hbase : r.lo = c.lo + c.len := by
      rw [MmReg.lo, hnext, toNat_base_add_size (by omega)]
    have hlen : (⟨c.base, c.size + r.size⟩ : MmReg).len = c.len + r.len :=
      BitVec.toNat_add_of_lt (by change c.len + r.len < _; omega)
    have hlo : (⟨c.base, c.size + r.size⟩ : MmReg).lo = c.lo := rfl
    rw [hlen, hlo] at hlaid
    obtain ⟨hks, rest, hlisted, hrest⟩ := hlaid (by omega) (by omega)
    rw [← Nat.add_assoc] at hks
    exact ⟨⟨hbase, hks⟩, rest, .take hlisted, hrest⟩
  | @skip c r d q hnext hsize h ih =>
    rw [List.forall_mem_cons] at hpos
    obtain ⟨ks, hsub, hd, hlaid⟩ := ih hpos.2
    refine ⟨ks, hsub.cons r, hd, ?_⟩
    intro hshort htop
    obtain ⟨hks, rest, hlisted, hrest⟩ := hlaid hshort htop
    refine ⟨hks, ?_⟩
    cases ks with
    | nil =>
      rw [grown_nil] at hd
      cases hlisted
      refine ⟨r :: q, .done _, ?_⟩
      rw [List.forall_mem_cons, hd]
      rw [hd] at hrest
      exact ⟨hnext, hrest⟩
    | cons k ks => exact ⟨rest, .skip (BitVec.le_def.mp hsize) hlisted, hrest⟩

/-- A region does not grow along regions that do not follow it and are not larger. -/
theorem growsTo_self (h : ∀ r ∈ q, r.base ≠ c.base + c.size ∧ r.size ≤ c.size) : GrowsTo c q c := by
  induction q with
  | nil => exact .nil c
  | cons r q ih =>
    rw [List.forall_mem_cons] at h
    exact .skip h.1.1 h.1.2 (ih h.2)

theorem ListedUp.growsTo (h : ListedUp n ks q rest) (hn : c.len = n)
    (hlaid : Pieces.LaidFrom MmReg.lo MmReg.len (c.lo + n) ks)
    (hshort : n + Pieces.total MmReg.len ks < 2 ^ 32)
    (htop : c.lo + (n + Pieces.total MmReg.len ks) ≤ 2 ^ 32) (hpos : ∀ r ∈ q, 0 < r.len)
    (hapart : q.Pairwise (Pieces.Apart MmReg.lo MmReg.len))
    (hrest : ∀ r ∈ rest, r.base ≠ (grown c ks).base + (grown c ks).size ∧
      r.size ≤ (grown c ks).size) : GrowsTo c q (grown c ks) := by
  induction h generalizing c with
  | done rest =>
    rw [grown_nil] at hrest ⊢
    exact growsTo_self hrest
  | @take n r ks q rest h ih =>
    obtain ⟨hlo, hks⟩ := hlaid
    rw [Pieces.total_cons] at hshort htop
    rw [List.forall_mem_cons] at hpos
    rw [List.pairwise_cons] at hapart
    rw [grown_cons] at hrest ⊢
    have hlen : (⟨c.base, c.size + r.size⟩ : MmReg).len = n + r.len := by
      rw [← hn]
      exact BitVec.toNat_add_of_lt (by change c.len + r.len < _; omega)
    have hnext : r.base = c.base + c.size := by
      refine BitVec.eq_of_toNat_eq ?_
      rw [toNat_base_add_size (by omega), hn]
      exact hlo
    refine .take hnext (ih hlen ?_ (by omega) ?_ hpos.2 hapart.2 hrest)
    · rw [← Nat.add_assoc]
      exact hks
    · change c.lo + _ ≤ _
      omega
  | @skip n r k ks q rest hle h ih =>
    rw [List.forall_mem_cons] at hpos
    rw [List.pairwise_cons] at hapart
    have hk := h.mem.1 k List.mem_cons_self
    -- the region that follows comes later, and no two begin at the same place
    have hne : r.base ≠ c.base + c.size := by
      intro hbase
      refine (hapart.1 k hk).lo_ne hpos.1 (hpos.2 k hk) ?_
      have hkpos := hpos.2 k hk
      rw [Pieces.total_cons] at htop hshort
      rw [hlaid.1, MmReg.lo, hbase, toNat_base_add_size (by omega), hn]
    refine .skip hne ?_ (ih hn hlaid hshort htop hpos.2 hapart.2 hrest)
    rw [BitVec.le_def]
    exact hle.trans_eq hn.symm

/-! ## When it is the largest -/

theorem Banks.apart_append (hb : Banks (p ++ j :: q)) :
    (j :: q).Pairwise (Pieces.Apart MmReg.lo MmReg.len) :=
  (List.pairwise_append.mp hb.apart).2.1

/-- What is held at the end is a largest union only if one is built up. -/
theorem IsLargest.exists_buildsUp (h : IsLargest rs r) (hb : Banks rs) (hheld : held rs = some r) :
    ∃ p j q ks rest, BuildsUp rs p j q ks rest := by
  obtain ⟨p, j, q, rfl, hover, hgrow⟩ := held_eq_some_iff.mp hheld
  have hq : ∀ s ∈ q, s ∈ p ++ j :: q := fun s hs ↦ by simp [hs]
  obtain ⟨ks, hsub, rfl, hlaid⟩ := hgrow.exists_listedUp fun s hs ↦ hb.pos s (hq s hs)
  obtain ⟨ls, hls, htotal⟩ := h.union
  have hpos := hls.total_pos hb
  have hend := hls.add_total_le hb
  have hmem : ∀ k ∈ j :: ks, k ∈ p ++ j :: q := by
    rw [List.forall_mem_cons]
    exact ⟨by simp, fun k hk ↦ hq k (hsub.subset hk)⟩
  -- all of memory would be held as nothing
  have hle : Pieces.total MmReg.len (j :: ks) ≤ 2 ^ 32 :=
    Pieces.total_le (hb.apart_append.sublist (hsub.cons_cons j)) fun k hk ↦ hb.fits k (hmem k hk)
  rw [Pieces.total_cons] at hle
  have hlen : (grown j ks).len = (j.len + Pieces.total MmReg.len ks) % 2 ^ 32 := by
    rw [MmReg.len, grown, BitVec.toNat_add, BitVec.toNat_ofNat, Nat.add_mod_mod]
    rfl
  have hshort : j.len + Pieces.total MmReg.len ks < 2 ^ 32 := by
    refine lt_of_le_of_ne hle fun hall ↦ ?_
    rw [hall, Nat.mod_self] at hlen
    omega
  rw [Nat.mod_eq_of_lt hshort] at hlen
  rw [htotal, hlen] at hend
  obtain ⟨hks, rest, hlisted, hrest⟩ := hlaid hshort hend
  refine ⟨p, j, q, ks, rest, rfl, hover, hlisted, ⟨by simp, hmem, rfl, hks⟩, fun b ls hls ↦ ?_,
    hshort, fun htop s hs hzero ↦ hrest s hs ?_⟩
  · rw [Pieces.total_cons, ← hlen]
    exact h.largest b ls hls
  · rw [hzero]
    refine BitVec.eq_of_toNat_eq ?_
    change 0 = ((grown j ks).base + (grown j ks).size).toNat
    have hsum : (grown j ks).base.toNat + (grown j ks).size.toNat = 2 ^ 32 :=
      (congrArg _ hlen).trans htop
    rw [BitVec.toNat_add, hsum, Nat.mod_self]

/-- A union that is built up is held at the end. -/
theorem BuildsUp.held_eq (h : BuildsUp rs p j q ks rest) (hb : Banks rs) :
    held rs = some (grown j ks) := by
  obtain ⟨rfl, hover, hlisted, hunion, hlargest, hshort, htop⟩ := h
  have hq : ∀ s ∈ q, s ∈ p ++ j :: q := fun s hs ↦ by simp [hs]
  have hend := hunion.add_total_le hb
  rw [Pieces.total_cons] at hend hshort htop
  have hlen := len_grown hshort
  refine held_eq_some_iff.mpr ⟨p, j, q, rfl, hover, ?_⟩
  refine hlisted.growsTo rfl hunion.laid.2 hshort hend (fun s hs ↦ hb.pos s (hq s hs))
    (List.pairwise_cons.mp hb.apart_append).2 fun s hs ↦ ⟨fun hbase ↦ ?_, ?_⟩
  · have hs' := hq s (hlisted.mem.2 s hs)
    rcases Nat.lt_or_ge (j.lo + (j.len + Pieces.total MmReg.len ks)) (2 ^ 32) with hlt | hge
    · -- it would make the union larger
      have hlo : s.lo = j.lo + Pieces.total MmReg.len (j :: ks) := by
        have hlt' : (grown j ks).lo + (grown j ks).len < 2 ^ 32 := hlen ▸ hlt
        rw [MmReg.lo, hbase, toNat_base_add_size hlt', hlen]
        rfl
      have hmore := hlargest j.lo (j :: ks ++ [s])
        ⟨by simp, fun k hk ↦ (List.mem_append.mp hk).elim (hunion.listed k)
          fun hk ↦ List.mem_singleton.mp hk ▸ hs', Pieces.laidFrom_concat.mpr ⟨hunion.laid, hlo⟩⟩
      have hpos := hb.pos s hs'
      rw [Pieces.total_append, Pieces.total_cons s, Pieces.total_nil] at hmore
      omega
    · refine htop (le_antisymm hend hge) s hs ?_
      rw [hbase]
      refine BitVec.eq_of_toNat_eq ?_
      change ((grown j ks).base + (grown j ks).size).toNat = 0
      have hsum : (grown j ks).base.toNat + (grown j ks).size.toNat = 2 ^ 32 :=
        (congrArg _ hlen).trans (le_antisymm hend hge)
      rw [BitVec.toNat_add, hsum, Nat.mod_self]
  · have hle := hlargest s.lo [s] (isUnion_singleton (hq s (hlisted.mem.2 s hs)))
    rw [Pieces.total_cons, Pieces.total_nil, Pieces.total_cons, ← hlen] at hle
    exact BitVec.le_def.mpr hle

theorem BuildsUp.isLargest (h : BuildsUp rs p j q ks rest) : IsLargest rs (grown j ks) := by
  have hshort := h.short
  rw [Pieces.total_cons] at hshort
  have hlen := len_grown hshort
  refine ⟨⟨j :: ks, h.union, ?_⟩, fun b ls hls ↦ ?_⟩
  · rw [hlen, Pieces.total_cons]
  · rw [hlen]
    exact h.largest b ls hls

/-! ## The tags -/

/-- The regions that the tags list, in the order of the tags. -/
def memRegions (m : Memory) (xs : List ℕ) : List MmReg := (tagsOfKind m atagMem xs).map (memAt m)

theorem run_memAtagStep {m : Memory} {x : Addr} {ys : List Addr}
    (h : Iterates 0#32 (getNextTag m · atagMem) x (x :: ys)) (fnd : MmReg) :
    Loop.run (memAtagStep m) ys.length ⟨x, fnd⟩
      = some (some ((ys.map (memAt m)).foldl memAtagBody fnd)) := by
  induction ys generalizing x fnd with
  | nil =>
    cases h with
    | cons hne hnext htail =>
      cases htail with
      | nil =>
        refine Loop.run_of_exit ?_ _
        rw [memAtagStep, hnext]
        rfl
  | cons y ys ih =>
    cases h with
    | @cons _ z _ hne hnext htail =>
      obtain rfl := htail.head_eq
      have hz := htail.ne_stop List.mem_cons_self
      have hpass : memAtagStep m ⟨x, fnd⟩ = .inl ⟨z, memAtagBody fnd (memAt m z)⟩ := by
        rw [memAtagStep, hnext]
        exact if_pos hz
      rw [List.length_cons, Loop.run_succ hpass, ih htail, List.map_cons, List.foldl_cons]

variable {m : Memory} {atagFdtBase : Addr} {xs : List ℕ}

/-- The function returns what is held after the listed regions. -/
theorem AtagList.initGetMemAtag_eq (h : AtagList m atagFdtBase xs) (hne : memRegions m xs ≠ [])
    (memReg : MmReg) :
    ∃ r, held (memRegions m xs) = some r ∧
      initGetMemAtag m atagFdtBase (some memReg) = some (.esucc, some r) := by
  obtain ⟨first, hfirst, hiter⟩ := h.tagSequence atagMem
  rw [h.tagsOfKind_tail (by decide)] at hiter
  have hlen := h.tags.length_le
  have hle := length_tagsOfKind_le m atagMem xs
  rw [memRegions] at hne ⊢
  generalize tagsOfKind m atagMem xs = ys at hiter hle hne ⊢
  cases ys with
  | nil => exact absurd rfl hne
  | cons y ys =>
    obtain rfl := hiter.head_eq
    have hnull := hiter.ne_stop List.mem_cons_self
    rw [List.length_cons] at hle
    have hrun := Loop.run_mono (by omega : ys.length ≤ 2 ^ 32)
      (run_memAtagStep hiter (memAt m first))
    refine ⟨_, rfl, ?_⟩
    rw [initGetMemAtag, hfirst, Option.bind_some, if_pos hnull, hrun, Option.join_some,
      Option.map_some]

/-- **The largest union is returned exactly when one is built up in the order of the tags.** -/
theorem getsLargest_iff (h : AtagList m atagFdtBase xs) (hne : memRegions m xs ≠ [])
    (hb : Banks (memRegions m xs)) (memReg : MmReg) :
    (∃ r, initGetMemAtag m atagFdtBase (some memReg) = some (.esucc, some r) ∧
        IsLargest (memRegions m xs) r)
      ↔ ∃ p j q ks rest, BuildsUp (memRegions m xs) p j q ks rest := by
  obtain ⟨r, hheld, hrun⟩ := h.initGetMemAtag_eq hne memReg
  constructor
  · rintro ⟨r', hrun', hlargest⟩
    rw [hrun, Option.some_inj, Prod.mk.injEq, Option.some_inj] at hrun'
    obtain ⟨-, rfl⟩ := hrun'
    exact hlargest.exists_buildsUp hb hheld
  · rintro ⟨p, j, q, ks, rest, hbuilds⟩
    rw [hbuilds.held_eq hb, Option.some_inj] at hheld
    subst hheld
    exact ⟨_, hrun, hbuilds.isLargest⟩

/-! ## Two neighbours -/

/-- A list with two regions of 256 MiB. -/
def memTagsWords (s t : Word) : List Word :=
  [2#32, atagCore, 4#32, atagMem, 0x10000000#32, s, 4#32, atagMem, 0x10000000#32, t, 0#32, atagNone]

def memTagsMemory (s t : Word) : Memory := wordsMemory 0x100#32 (memTagsWords s t)

theorem atagList_memTags {s t : Word} (h : s = 0x60000000#32 ∧ t = 0x70000000#32 ∨
      s = 0x70000000#32 ∧ t = 0x60000000#32) :
    AtagList (memTagsMemory s t) 0x100#32 [0x100, 0x108, 0x118] ∧
      memRegions (memTagsMemory s t) [0x100, 0x108, 0x118]
        = [⟨s, 0x10000000#32⟩, ⟨t, 0x10000000#32⟩] ∧
      Banks [⟨s, 0x10000000#32⟩, ⟨t, 0x10000000#32⟩] := by
  rcases h with ⟨rfl, rfl⟩ | ⟨rfl, rfl⟩ <;>
    exact ⟨⟨by decide +kernel, .cons (by decide +kernel) (by decide +kernel) <|
        .cons (by decide +kernel) (by decide +kernel) <|
        .cons (by decide +kernel) (by decide +kernel) <| .none (by decide +kernel) (by decide)⟩,
      by decide +kernel, by decide, by decide, by decide⟩

/-- Where the lower one is listed first, both are returned together. -/
theorem getsLargest_iff_ascending :
    ∃ r, initGetMemAtag (memTagsMemory 0x60000000#32 0x70000000#32) 0x100#32 (some ⟨0#32, 0#32⟩)
        = some (.esucc, some r) ∧
      IsLargest (memRegions (memTagsMemory 0x60000000#32 0x70000000#32) [0x100, 0x108, 0x118])
        r := by
  obtain ⟨hlist, hregions, hb⟩ := atagList_memTags (Or.inl ⟨rfl, rfl⟩)
  refine (getsLargest_iff hlist (by rw [hregions]; simp) (by rw [hregions]; exact hb) _).mpr
    ⟨[], ⟨0x60000000#32, 0x10000000#32⟩, [⟨0x70000000#32, 0x10000000#32⟩],
      [⟨0x70000000#32, 0x10000000#32⟩], [], ?_⟩
  rw [hregions]
  refine ⟨rfl, ?_, .take (.done []), ⟨by simp, by simp, by decide⟩, fun b ls hls ↦ ?_, by decide,
    by simp⟩
  · rw [Overtakes]
    intro p q i d heq
    exact absurd heq (by simp)
  · have hall : ∀ k ∈ [(⟨0x60000000#32, 0x10000000#32⟩ : MmReg), ⟨0x70000000#32, 0x10000000#32⟩],
        0x60000000 ≤ k.lo ∧ k.lo + k.len ≤ 0x80000000 := by decide
    have hend : b + Pieces.total MmReg.len ls ≤ 0x80000000 :=
      hls.laid.add_total_le hls.ne fun k hk ↦ (hall k (hls.listed k hk)).2
    have hstart : 0x60000000 ≤ b := by
      cases ls with
      | nil => exact absurd rfl hls.ne
      | cons k ls =>
        rw [← hls.laid.1]
        exact (hall k (hls.listed k List.mem_cons_self)).1
    have htotal : Pieces.total MmReg.len [(⟨0x60000000#32, 0x10000000#32⟩ : MmReg),
      ⟨0x70000000#32, 0x10000000#32⟩] = 0x20000000 := by decide
    rw [htotal]
    omega

/-- Where it is listed last, it is passed over. -/
theorem not_getsLargest_descending :
    AtagList (memTagsMemory 0x70000000#32 0x60000000#32) 0x100#32 [0x100, 0x108, 0x118] ∧
      memRegions (memTagsMemory 0x70000000#32 0x60000000#32) [0x100, 0x108, 0x118]
        = [⟨0x70000000#32, 0x10000000#32⟩, ⟨0x60000000#32, 0x10000000#32⟩] ∧
      Banks [⟨0x70000000#32, 0x10000000#32⟩, ⟨0x60000000#32, 0x10000000#32⟩] ∧
      initGetMemAtag (memTagsMemory 0x70000000#32 0x60000000#32) 0x100#32 (some ⟨0#32, 0#32⟩)
        = some (.esucc, some ⟨0x70000000#32, 0x10000000#32⟩) ∧
      ¬IsLargest [⟨0x70000000#32, 0x10000000#32⟩, ⟨0x60000000#32, 0x10000000#32⟩]
        ⟨0x70000000#32, 0x10000000#32⟩ := by
  obtain ⟨hlist, hregions, hb⟩ := atagList_memTags (Or.inr ⟨rfl, rfl⟩ :
    0x70000000#32 = 0x60000000#32 ∧ 0x60000000#32 = 0x70000000#32 ∨
      0x70000000#32 = 0x70000000#32 ∧ 0x60000000#32 = 0x60000000#32)
  refine ⟨hlist, hregions, hb, ?_, ?_⟩
  · obtain ⟨r, hheld, hrun⟩ := hlist.initGetMemAtag_eq (by rw [hregions]; simp) ⟨0#32, 0#32⟩
    rw [hregions] at hheld
    rw [hrun, ← Option.some_inj.mp hheld]
    decide
  · intro h
    have hboth := h.largest 0x60000000
      [⟨0x60000000#32, 0x10000000#32⟩, ⟨0x70000000#32, 0x10000000#32⟩]
      ⟨by simp, by simp, by decide⟩
    exact absurd hboth (by decide)

end Sugarcat
