import Sugarcat.Machine.Memory
import Sugarcat.Machine.Search

/-!
# Lists of tags

The functions of `util/atag.h`. A boot loader leaves a list of tags in memory. The header of a tag
has its size in words, which leads to the next one, and its kind; the kind `ATAG_NONE` ends the
list.

## The list

`AtagList m a xs` says that a list whose tags are at `xs` stands at `a`: each tag begins where the
one before it ends, up to one of the kind `ATAG_NONE`, and the first one is `ATAG_CORE`. The tags of
a kind are a filter of `xs`.

## The queries

Four loops go along the list, from different tags on. `queriesAgree_iff` says that they describe the
same tags of a kind, with one exception: `get_tag` passes over the first tag, so it does not find
the `ATAG_CORE` that every list begins with, while `tag_exists` and `get_tag_count` see it. For the
kinds that come later in the list the search from one tag to the next one of its kind gives exactly
the tags counted, and ends after the last of them.
-/

namespace Sugarcat

open ByteMemory

/-! ## The functions -/

abbrev atagNone : Word := 0x00000000#32
abbrev atagCore : Word := 0x54410001#32
abbrev atagMem : Word := 0x54410002#32

def headerSize (m : Memory) (sch : Addr) : Word := readWord m sch

def headerTag (m : Memory) (sch : Addr) : Word := readWord m (sch + 4#32)

/-- The size is in words. -/
def nextTag (m : Memory) (currTag : Addr) : Addr := currTag + 4#32 * headerSize m currTag

def tagExistsStep (m : Memory) (tag : Word) (sch : Addr) : Addr ⊕ Bool :=
  if headerTag m sch ≠ atagNone then
    if headerTag m sch = tag then .inr true else .inl (nextTag m sch)
  else .inr false

/-- There are not more addresses than passes, so `none` means that the loop does not end. -/
def tagExists (m : Memory) (atagBase : Addr) (tag : Word) : Option Bool :=
  if headerTag m atagBase = atagCore then Loop.run (tagExistsStep m tag) (2 ^ 32) atagBase
  else some false

/-- The variables of the loop of `get_tag_count`. -/
structure TagCountLoop where
  sch : Addr
  ret : Word

def tagCountStep (m : Memory) (tag : Word) (l : TagCountLoop) : TagCountLoop ⊕ Word :=
  if headerTag m l.sch ≠ atagNone then
    .inl ⟨nextTag m l.sch, if headerTag m l.sch = tag then l.ret + 1#32 else l.ret⟩
  else .inr l.ret

def getTagCount (m : Memory) (atagBase : Addr) (tag : Word) : Option Word :=
  if headerTag m atagBase = atagCore then
    Loop.run (tagCountStep m tag) (2 ^ 32) ⟨atagBase, 0#32⟩
  else some 0#32

/-- The loop of `get_next_tag` and `get_tag`. -/
def tagSearchStep (m : Memory) (tag : Word) : Addr → Addr ⊕ Option Addr :=
  searchStep 0#32 (headerTag m · != atagNone) (fun sch ↦ some (headerTag m sch == tag))
    fun sch ↦ some (nextTag m sch)

def getNextTag (m : Memory) (sch : Addr) (tag : Word) : Option Addr :=
  if sch ≠ 0#32 then
    if headerTag m sch ≠ atagNone then
      (Loop.run (tagSearchStep m tag) (2 ^ 32) (nextTag m sch)).join
    else some 0#32
  else some 0#32

def getTag (m : Memory) (atagBase : Addr) (tag : Word) : Option Addr :=
  if headerTag m atagBase = atagCore then
    (Loop.run (tagSearchStep m tag) (2 ^ 32) (nextTag m atagBase)).join
  else some 0#32

/-! ## Lists in memory -/

/-- From `a` on there are tags at `xs`, of two words or more each, and then the end, all of it below
the top of memory. -/
inductive AtagsFrom (m : Memory) : ℕ → List ℕ → Prop
  | none {a : ℕ} (htag : headerTag m (ptr a) = atagNone) (hfits : a + 8 ≤ 2 ^ 32) :
      AtagsFrom m a []
  | cons {a : ℕ} {xs : List ℕ} (htag : headerTag m (ptr a) ≠ atagNone)
      (hsize : 2 ≤ (headerSize m (ptr a)).toNat)
      (h : AtagsFrom m (a + 4 * (headerSize m (ptr a)).toNat) xs) : AtagsFrom m a (a :: xs)

/-- The tags at `xs` are a list at `atagBase`: the first one is `ATAG_CORE`. -/
structure AtagList (m : Memory) (atagBase : Addr) (xs : List ℕ) : Prop where
  core : headerTag m atagBase = atagCore
  tags : AtagsFrom m atagBase.toNat xs

/-- The tags of a kind, in the order of the list. -/
def tagsOfKind (m : Memory) (tag : Word) (xs : List ℕ) : List Addr :=
  (xs.map ptr).filter (headerTag m · == tag)

/-- `get_tag` and then `get_next_tag` up to `NULL` return the tags `ys`. -/
def TagSequence (m : Memory) (atagBase : Addr) (tag : Word) (ys : List Addr) : Prop :=
  ∃ first, getTag m atagBase tag = some first ∧ Iterates 0#32 (getNextTag m · tag) first ys

/-- All queries describe the tags `ys`. -/
structure QueriesAgree (m : Memory) (atagBase : Addr) (tag : Word) (ys : List Addr) : Prop where
  sequence : TagSequence m atagBase tag ys
  nodup : ys.Nodup
  count : ∃ n, getTagCount m atagBase tag = some n ∧ n.toNat = ys.length
  exist : ∃ b first, tagExists m atagBase tag = some b ∧ getTag m atagBase tag = some first ∧
    (b = true ↔ first ≠ 0#32)

variable {m : Memory} {a : ℕ} {xs : List ℕ} {tag : Word} {atagBase : Addr}

theorem nextTag_ptr (m : Memory) (a : ℕ) :
    nextTag m (ptr a) = ptr (a + 4 * (headerSize m (ptr a)).toNat) := by
  have hsize : 4#32 * headerSize m (ptr a) = ptr (4 * (headerSize m (ptr a)).toNat) := by
    refine BitVec.eq_of_toNat_eq ?_
    rw [BitVec.toNat_mul, BitVec.toNat_ofNat, BitVec.toNat_ofNat]
  rw [nextTag, hsize, ptr_add]

@[simp] theorem tagsOfKind_nil : tagsOfKind m tag [] = [] := rfl

theorem tagsOfKind_cons (m : Memory) (tag : Word) (a : ℕ) (xs : List ℕ) :
    tagsOfKind m tag (a :: xs)
      = if headerTag m (ptr a) = tag then ptr a :: tagsOfKind m tag xs
        else tagsOfKind m tag xs := by
  rw [tagsOfKind, List.map_cons, List.filter_cons]
  simp only [beq_iff_eq]
  rfl

/-! ## Where the tags are -/

theorem AtagsFrom.length_le (h : AtagsFrom m a xs) : a + 8 * xs.length + 8 ≤ 2 ^ 32 := by
  induction h with
  | none _ hfits => exact hfits
  | cons _ hsize _ ih =>
    rw [List.length_cons]
    omega

theorem AtagsFrom.le_of_mem (h : AtagsFrom m a xs) {x : ℕ} (hx : x ∈ xs) : a ≤ x ∧ x < 2 ^ 32 := by
  induction h with
  | none => exact absurd hx List.not_mem_nil
  | cons htag hsize h ih =>
    have hlen := h.length_le
    rcases List.mem_cons.mp hx with rfl | hx
    · omega
    · have hle := ih hx
      omega

theorem AtagsFrom.nodup (h : AtagsFrom m a xs) : xs.Nodup := by
  induction h with
  | none => exact List.nodup_nil
  | cons htag hsize h ih =>
    refine List.nodup_cons.mpr ⟨fun hmem ↦ ?_, ih⟩
    have hle := h.le_of_mem hmem
    omega

theorem AtagsFrom.nodup_tagsOfKind (h : AtagsFrom m a xs) (tag : Word) :
    (tagsOfKind m tag xs).Nodup := by
  refine List.Nodup.filter _ (List.Nodup.map_on (fun x hx y hy heq ↦ ?_) h.nodup)
  have hnat := congrArg BitVec.toNat heq
  rwa [toNat_ptr (h.le_of_mem hx).2, toNat_ptr (h.le_of_mem hy).2] at hnat

theorem AtagsFrom.walk (h : AtagsFrom m a xs) :
    ∃ z, Walk (fun sch ↦ some (nextTag m sch)) (ptr a) (xs.map ptr) z ∧
      headerTag m z = atagNone := by
  induction h with
  | none htag => exact ⟨_, .nil _, htag⟩
  | @cons a xs htag hsize h ih =>
    obtain ⟨z, hwalk, hz⟩ := ih
    exact ⟨z, .cons (congrArg some (nextTag_ptr m a)) hwalk, hz⟩

theorem AtagsFrom.ne_none_of_mem (h : AtagsFrom m a xs) {x : Addr} (hx : x ∈ xs.map ptr) :
    headerTag m x ≠ atagNone := by
  induction h with
  | none => exact absurd hx List.not_mem_nil
  | cons htag hsize h ih =>
    rcases List.mem_cons.mp hx with rfl | hx
    · exact htag
    · exact ih hx

/-! ## The loops along a list -/

theorem AtagsFrom.run_tagSearchStep (h : AtagsFrom m a xs) (tag : Word) :
    (Loop.run (tagSearchStep m tag) (2 ^ 32) (ptr a)).join
      = some ((tagsOfKind m tag xs).head?.getD 0#32) := by
  obtain ⟨z, hwalk, hz⟩ := h.walk
  have hlen := h.length_le
  have hrun : Loop.run (tagSearchStep m tag) (xs.map ptr).length (ptr a) = _ :=
    hwalk.run_searchStep (fun y hy ↦ bne_iff_ne.mpr (h.ne_none_of_mem hy)) (fun _ _ ↦ rfl)
      (by rw [hz]; rfl)
  rw [Loop.run_mono (by rw [List.length_map]; omega) hrun, Option.join_some, tagsOfKind,
    List.head?_filter]
  simp

theorem AtagsFrom.run_tagExistsStep (h : AtagsFrom m a xs) (tag : Word) :
    Loop.run (tagExistsStep m tag) xs.length (ptr a) = some (!(tagsOfKind m tag xs).isEmpty) := by
  induction h with
  | none htag =>
    refine Loop.run_of_exit ?_ _
    rw [tagExistsStep, if_neg (not_not.mpr htag)]
    rfl
  | @cons a xs htag hsize h ih =>
    rw [tagsOfKind_cons]
    by_cases hkind : headerTag m (ptr a) = tag
    · have hexit : tagExistsStep m tag (ptr a) = .inr true := by
        rw [tagExistsStep, if_pos htag, if_pos hkind]
      rw [Loop.run_of_exit hexit, if_pos hkind]
      rfl
    · have hpass : tagExistsStep m tag (ptr a)
          = .inl (ptr (a + 4 * (headerSize m (ptr a)).toNat)) := by
        rw [tagExistsStep, if_pos htag, if_neg hkind, nextTag_ptr]
      rw [List.length_cons, Loop.run_succ hpass, ih, if_neg hkind]

theorem AtagsFrom.run_tagCountStep (h : AtagsFrom m a xs) (tag : Word) (c : ℕ) :
    Loop.run (tagCountStep m tag) xs.length ⟨ptr a, BitVec.ofNat 32 c⟩
      = some (BitVec.ofNat 32 (c + (tagsOfKind m tag xs).length)) := by
  induction h generalizing c with
  | none htag =>
    refine Loop.run_of_exit ?_ _
    rw [tagCountStep, if_neg (not_not.mpr htag)]
    rfl
  | @cons a xs htag hsize h ih =>
    have hpass : tagCountStep m tag ⟨ptr a, BitVec.ofNat 32 c⟩
        = .inl ⟨ptr (a + 4 * (headerSize m (ptr a)).toNat),
            BitVec.ofNat 32 (if headerTag m (ptr a) = tag then c + 1 else c)⟩ := by
      rw [tagCountStep, if_pos htag]
      dsimp only
      rw [nextTag_ptr, apply_ite (BitVec.ofNat 32), BitVec.ofNat_add]
    rw [List.length_cons, Loop.run_succ hpass, ih, tagsOfKind_cons]
    split_ifs
    · rw [List.length_cons, Nat.add_assoc, Nat.add_comm 1]
    · rfl

/-- From a tag on, the tags of a kind follow. -/
theorem AtagsFrom.iterates_getNextTag (h : AtagsFrom m a xs) (ha : 0 < a) (tag : Word) :
    Iterates 0#32 (getNextTag m · tag) ((tagsOfKind m tag xs).head?.getD 0#32)
      (tagsOfKind m tag xs) := by
  induction h with
  | none => exact .nil
  | @cons a xs htag hsize h ih =>
    have hlen := h.length_le
    have htail := ih (by omega)
    rw [tagsOfKind_cons]
    split_ifs with hkind
    · have hne : ptr a ≠ 0#32 := ptr_ne_zero ha (by omega)
      rw [List.head?_cons, Option.getD_some]
      refine .cons hne ?_ htail
      rw [getNextTag, if_pos hne, if_pos htag, nextTag_ptr, h.run_tagSearchStep]
    · exact htail

/-! ## What the functions compute -/

theorem AtagList.exists_eq_cons (h : AtagList m atagBase xs) :
    ∃ ys, xs = atagBase.toNat :: ys ∧ headerTag m (ptr atagBase.toNat) = atagCore ∧
      AtagsFrom m (atagBase.toNat + 4 * (headerSize m (ptr atagBase.toNat)).toNat) ys ∧
      2 ≤ (headerSize m (ptr atagBase.toNat)).toNat := by
  have hcore := h.core
  rw [← ptr_toNat atagBase] at hcore
  cases h.tags with
  | none htag => exact absurd (htag.symm.trans hcore) (by decide)
  | @cons a ys htag hsize htail => exact ⟨ys, rfl, hcore, htail, hsize⟩

/-- The sequence of a kind is of the tags after the first one. -/
theorem AtagList.tagSequence (h : AtagList m atagBase xs) (tag : Word) :
    TagSequence m atagBase tag (tagsOfKind m tag xs.tail) := by
  obtain ⟨ys, rfl, hcore, htail, hsize⟩ := h.exists_eq_cons
  refine ⟨_, ?_, htail.iterates_getNextTag (by omega) tag⟩
  rw [ptr_toNat] at hcore
  rw [getTag, if_pos hcore, ← ptr_toNat atagBase, nextTag_ptr, ← htail.run_tagSearchStep, ptr_toNat]

theorem AtagList.tagsOfKind_tail (h : AtagList m atagBase xs) (hne : tag ≠ atagCore) :
    tagsOfKind m tag xs.tail = tagsOfKind m tag xs := by
  obtain ⟨ys, rfl, hcore, -, -⟩ := h.exists_eq_cons
  rw [tagsOfKind_cons, if_neg (by rw [hcore]; exact hne.symm), List.tail_cons]

theorem AtagList.getTagCount_eq (h : AtagList m atagBase xs) (tag : Word) :
    getTagCount m atagBase tag = some (BitVec.ofNat 32 (tagsOfKind m tag xs).length) := by
  have hlen := h.tags.length_le
  have hrun := h.tags.run_tagCountStep tag 0
  rw [ptr_toNat, Nat.zero_add] at hrun
  rw [getTagCount, if_pos h.core]
  exact Loop.run_mono (by omega) hrun

theorem AtagList.tagExists_eq (h : AtagList m atagBase xs) (tag : Word) :
    tagExists m atagBase tag = some (!(tagsOfKind m tag xs).isEmpty) := by
  have hlen := h.tags.length_le
  have hrun := h.tags.run_tagExistsStep tag
  rw [ptr_toNat] at hrun
  rw [tagExists, if_pos h.core]
  exact Loop.run_mono (by omega) hrun

theorem length_tagsOfKind_le (m : Memory) (tag : Word) (xs : List ℕ) :
    (tagsOfKind m tag xs).length ≤ xs.length :=
  (List.length_filter_le _ _).trans_eq (List.length_map _)

/-- **The queries agree for every kind but that of the first tag.** -/
theorem queriesAgree_iff (h : AtagList m atagBase xs) (tag : Word) :
    QueriesAgree m atagBase tag (tagsOfKind m tag xs) ↔ tag ≠ atagCore := by
  obtain ⟨first, hfirst, hiter⟩ := h.tagSequence tag
  constructor
  · rintro ⟨⟨first', hfirst', hiter'⟩, -, -, -⟩ rfl
    obtain rfl := Option.some_inj.mp (hfirst'.symm.trans hfirst)
    obtain ⟨ys, rfl, hcore, -, -⟩ := h.exists_eq_cons
    have hcount := congrArg List.length (hiter'.unique hiter)
    rw [tagsOfKind_cons, if_pos hcore, List.length_cons, List.tail_cons] at hcount
    omega
  · intro hne
    have hlen := h.tags.length_le
    have hle := length_tagsOfKind_le m tag xs
    have hcount := h.getTagCount_eq tag
    have hexist := h.tagExists_eq tag
    have hnodup := h.tags.nodup_tagsOfKind tag
    rw [h.tagsOfKind_tail hne] at hiter
    generalize tagsOfKind m tag xs = ys at *
    refine ⟨⟨first, hfirst, hiter⟩, hnodup, ⟨_, hcount, toNat_ptr (by omega)⟩,
      ⟨_, first, hexist, hfirst, ?_⟩⟩
    cases hiter with
    | nil => exact iff_of_false (by simp) (by simp)
    | cons hnull hnext hrest => exact iff_of_true (by simp) hnull

/-- The tags `ATAG_CORE`, twice `ATAG_MEM` and `ATAG_NONE`. -/
def bootTagsWords : List Word :=
  [2#32, atagCore, 4#32, atagMem, 0x10000000#32, 0x60000000#32, 4#32, atagMem, 0x10000000#32,
    0x70000000#32, 0#32, atagNone]

/-- Memory with words from `base` on. -/
def wordsMemory (base : Addr) (ws : List Word) : Memory := fun x ↦
  (ws.getD ((x - base).toNat / 4) 0#32).extractLsb' (8 * ((x - base).toNat % 4)) 8

theorem atagList_boot :
    AtagList (wordsMemory 0x100#32 bootTagsWords) 0x100#32 [0x100, 0x108, 0x118] :=
  ⟨by decide +kernel, .cons (by decide +kernel) (by decide +kernel) <|
    .cons (by decide +kernel) (by decide +kernel) <|
    .cons (by decide +kernel) (by decide +kernel) <| .none (by decide +kernel) (by decide +kernel)⟩

theorem queriesAgree_iff_boot :
    QueriesAgree (wordsMemory 0x100#32 bootTagsWords) 0x100#32 atagMem
      (tagsOfKind (wordsMemory 0x100#32 bootTagsWords) atagMem [0x100, 0x108, 0x118]) :=
  (queriesAgree_iff atagList_boot atagMem).mpr (by decide)

/-- `ATAG_CORE` exists and is counted, but there is no first one. -/
theorem not_queriesAgree_boot :
    AtagList (wordsMemory 0x100#32 bootTagsWords) 0x100#32 [0x100, 0x108, 0x118] ∧
      tagExists (wordsMemory 0x100#32 bootTagsWords) 0x100#32 atagCore = some true ∧
      getTagCount (wordsMemory 0x100#32 bootTagsWords) 0x100#32 atagCore = some 1#32 ∧
      getTag (wordsMemory 0x100#32 bootTagsWords) 0x100#32 atagCore = some 0#32 :=
  ⟨atagList_boot, by decide +kernel, by decide +kernel, by decide +kernel⟩

end Sugarcat
