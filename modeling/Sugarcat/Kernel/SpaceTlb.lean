import Sugarcat.Armv7.HardwareWalk
import Sugarcat.Kernel.AddressSpaces
import Sugarcat.Machine.Cache

/-!
# Address spaces and the TLB

The TLB is a cache of the hardware's walk. It is flushed when a page is invalidated, and when a
space is switched to; entries that are created leave it alone.

## When it cannot be wrong

`tlb_coherent_iff` says what may become of an address: it is translated as the tables say, whatever
the TLB has looked up, where the half that it is in has not translated it otherwise since the last
flush. What is done to the other halves does not matter, nor does an entry for an address that was
not translated before. The condition is on the calls of one half between the last flush and now, and
it comes from the general fact on caches through the refinement: the walk of the machine is the walk
of the half in use.

Stores are taken to be seen by the walk at once; the barriers are a matter of their own. Whether a
call flushes is told by its result, as a page that cannot be invalidated flushes nothing.
-/

namespace Sugarcat

open ByteMemory

/-! ## The walk -/

/-- What the hardware finds in a half. -/
def Half.walk (h : Half) (v : Addr) : Option Addr :=
  if h.slot (slotIndex v) &&& pgdTypeMask = Armv7MmuPgdType.pgdSection.toWord then
    some ((h.slot (slotIndex v) &&& pgdSectMask) ||| (v &&& ~~~pgdSectMask))
  else if h.IsTable (slotIndex v) then
    if (h.word (pageOf v)).getLsbD 1 then some (smallPageAddr (h.word (pageOf v)) v)
    else if (h.word (pageOf v)).getLsbD 0 then
      some ((h.word (pageOf v)).extractLsb' 16 16 ++ v.extractLsb' 0 16)
    else none
  else none

variable {K : Type*}

/-- The calls that flush the TLB, with their results. -/
def SpaceCall.flushes : SpaceCall K × Errno → Bool
  | (.setUserPageDir _, _) => true
  | (.invalidatePage _, e) => decide (e = .esucc)
  | (.createEntry _, _) | (.createNewEntry _ _, _) => false

namespace SpaceLayout

/-- The machine with its TLB. -/
def tlb (l : SpaceLayout K) : Run.Cached Machine (SpaceCall K) Errno Addr Addr where
  step := l.exec
  view := hardwareWalk
  flushes c s := .tlbInvalidate ∈ (l.exec c s).2.trace.drop s.trace.length

variable {l : SpaceLayout K} {a : K × (Option K → Half)} {s : Machine} {c : SpaceCall K}

theorem Refines.hardwareWalk_eq (h : l.Refines a s) (v : Addr) :
    hardwareWalk s v = (a.2 (l.halfOf a.1 v)).walk v := by
  rw [Sugarcat.hardwareWalk_eq h.enabled, Half.walk, h.liveSlot_eq]
  refine if_congr Iff.rfl rfl ?_
  by_cases htab : (a.2 (l.halfOf a.1 v)).IsTable (slotIndex v)
  · rw [if_pos htab, if_pos ((h.isTableSlot_iff v).mpr htab), h.ptAddr_eq htab,
      h.load_word (l.owns_halfOf _ _)]
  · rw [if_neg htab, if_neg fun h' ↦ htab ((h.isTableSlot_iff v).mp h')]

/-! ## Which calls flush -/

theorem archMmuCreateEntry_trace (hen : armv7MmuIsEnabled s = true) (e : MmuEntry) :
    (archMmuCreateEntry e s).2.trace = s.trace ∨
      ∃ b x, (archMmuCreateEntry e s).2.trace = s.trace ++ [.store b x] := by
  cases htype : e.type with
  | pgDir =>
    rw [archMmuCreateEntry_pgd hen (Or.inl htype)]
    exact Or.inr ⟨_, _, rfl⟩
  | pgDirInval =>
    rw [archMmuCreateEntry_pgd hen (Or.inr htype)]
    exact Or.inr ⟨_, _, rfl⟩
  | pgTab =>
    rw [archMmuCreateEntry_pgtb hen (Or.inl htype)]
    split_ifs
    · exact Or.inr ⟨_, _, rfl⟩
    · exact Or.inl rfl
  | pgTabInval =>
    rw [archMmuCreateEntry_pgtb hen (Or.inr htype)]
    split_ifs
    · exact Or.inr ⟨_, _, rfl⟩
    · exact Or.inl rfl

theorem exec_createNewEntry_trace (l : SpaceLayout K) (o : Option K) (e : MmuEntry) (s : Machine) :
    ∃ b x, (l.exec (.createNewEntry o e) s).2.trace = s.trace ++ [.store b x] := by
  rw [exec]
  cases htype : e.type with
  | pgDir =>
    dsimp only
    rw [archMmuCreateNewEntry_pgd _ _ (Or.inl htype)]
    exact ⟨_, _, rfl⟩
  | pgDirInval =>
    dsimp only
    rw [archMmuCreateNewEntry_pgd _ _ (Or.inr htype)]
    exact ⟨_, _, rfl⟩
  | pgTab =>
    dsimp only
    rw [archMmuCreateNewEntry_pgtb (Or.inl htype)]
    exact ⟨_, _, rfl⟩
  | pgTabInval =>
    dsimp only
    rw [archMmuCreateNewEntry_pgtb (Or.inr htype)]
    exact ⟨_, _, rfl⟩

/-- A call flushes the TLB as its result says. -/
theorem Refines.flushes_iff (h : l.Refines a s) (c : SpaceCall K) :
    l.tlb.flushes c s ↔ SpaceCall.flushes (c, (l.exec c s).1) = true := by
  change .tlbInvalidate ∈ (l.exec c s).2.trace.drop s.trace.length ↔ _
  cases c with
  | createEntry e =>
    refine iff_of_false ?_ Bool.false_ne_true
    rcases archMmuCreateEntry_trace h.enabled e with htrace | ⟨b, x, htrace⟩ <;>
      rw [SpaceLayout.exec, htrace] <;> simp
  | createNewEntry o e =>
    refine iff_of_false ?_ Bool.false_ne_true
    obtain ⟨b, x, htrace⟩ := l.exec_createNewEntry_trace o e s
    rw [htrace]
    simp
  | invalidatePage v =>
    have htrace := archMmuCreateEntry_trace h.enabled
      ⟨0x0#32, v, .pgTabInval, invalidateAcc v (archMmuGetKernVaddr s)⟩
    simp only [SpaceLayout.exec, mmuInvalidatePage, mmuCreatePgtbEntry, SpaceCall.flushes,
      decide_eq_true_eq, and_true]
    have hinval : ∀ u, (Sugarcat.archMmuInvalidate u).trace = u.trace ++ [.tlbInvalidate] :=
      fun _ ↦ rfl
    split_ifs with hret
    · refine iff_of_true ?_ hret
      rcases htrace with htrace | ⟨b, x, htrace⟩ <;> rw [hinval, htrace] <;> simp
    · refine iff_of_false ?_ hret
      rcases htrace with htrace | ⟨b, x, htrace⟩ <;> rw [htrace] <;> simp
  | setUserPageDir k =>
    refine iff_of_true ?_ rfl
    have halign : isAlignedN (l.pgDir (some k)) (1#32 <<< (ttbrAlign - armv7MmuGetPgDiv s)) =
        true := by
      rw [h.pgDiv]
      exact (isAlignedN_iff (Bits.toNat_one_shiftLeft
        (show 14 - l.pgDiv < 32 by omega))).mpr (l.user_aligned k)
    have hen : armv7MmuIsEnabled (armv7SetTtbr0 s (l.pgDir (some k) ||| (0x0#8).zeroExtend 32)) =
      true := h.enabled
    rw [SpaceLayout.exec, mmuSetUserPageDir, archMmuSetUserPgDir, armv7MmuSetUserPgd, if_pos halign]
    dsimp only
    rw [if_pos hen]
    simp [armv7MmuUpdate, Machine.armv7InvalidateUnifiedTlb, armv7SetTtbr0]

/-! ## Runs -/

variable [DecidableEq K]

theorem Allowed.of_append {pre post : List (SpaceCall K)} (hok : l.Allowed a (pre ++ post)) :
    l.Allowed a pre := by
  rintro l' c r rfl
  exact hok l' c (r ++ post) (by simp)

theorem Refines.quiet_iff (h : l.Refines a s) {pre post : List (SpaceCall K)}
    (hok : l.Allowed a (pre ++ post)) :
    l.tlb.Quiet s pre post ↔
      ∀ x ∈ (Run.exec l.exec s (pre ++ post)).1.drop pre.length, SpaceCall.flushes x = false := by
  have hlen : ∀ ops, (Run.exec l.exec s ops).1.length = ops.length := by
    intro ops
    rw [← List.length_map Prod.fst, Run.map_fst_exec]
  induction post using List.reverseRecOn with
  | nil =>
    refine iff_of_true (Run.Cached.quiet_nil _ _ _) fun x hx ↦ ?_
    rw [List.append_nil, ← hlen, List.drop_length] at hx
    exact absurd hx List.not_mem_nil
  | append_singleton post c ih =>
    rw [← List.append_assoc] at hok
    have href := (h.run hok.of_append).2
    rw [← List.append_assoc, Run.exec_concat,
      List.drop_append_of_le_length (by rw [hlen, List.length_append]; omega),
      List.forall_mem_append, List.forall_mem_singleton, ← Bool.not_eq_true, ← href.flushes_iff]
    exact Run.Cached.quiet_concat.trans (and_congr_left fun _ ↦ ih hok.of_append)

omit [DecidableEq K] in
theorem control_append {pre post : List (SpaceCall K)} (k : K)
    (h : ∀ c ∈ post, ∀ k', c ≠ .setUserPageDir k') :
    l.dispatch.control k (pre ++ post) = l.dispatch.control k pre := by
  induction post using List.reverseRecOn with
  | nil => rw [List.append_nil]
  | append_singleton post c ih =>
    rw [List.forall_mem_append, List.forall_mem_singleton] at h
    have hnext : ∀ k', l.dispatch.next k' c = k' := by
      intro k'
      cases c with
      | setUserPageDir k'' => exact absurd rfl (h.2 k'')
      | createEntry e | createNewEntry o e | invalidatePage v => rfl
    have hlast : l.dispatch.control k (pre ++ post ++ [c]) =
        l.dispatch.next (l.dispatch.control k (pre ++ post)) c := by
      rw [Run.Dispatch.control, List.foldl_append, List.foldl_cons, List.foldl_nil,
        Run.Dispatch.control]
    rw [← List.append_assoc, hlast, hnext, ih h.1]

/-- The hardware walks the halves as their own calls leave them. -/
theorem Refines.hardwareWalk_run (h : l.Refines a s) {calls : List (SpaceCall K)}
    (hok : l.Allowed a calls) (v : Addr) :
    hardwareWalk (Run.exec l.exec s calls).2 v =
      (l.alone a calls (l.halfOf (l.dispatch.control a.1 calls) v)).2.walk v := by
  have hcontrol : (Run.exec l.step a calls).2.1 = l.dispatch.control a.1 calls :=
    Run.Dispatch.exec_control calls
  rw [(h.run_alone hok).2.hardwareWalk_eq, ← hcontrol]

/-- **When the TLB cannot be wrong about an address.** -/
theorem tlb_coherent_iff (h : l.Refines a s) {calls : List (SpaceCall K)} (hok : l.Allowed a calls)
    (v : Addr) :
    (∀ cache, l.tlb.Holds s calls cache → ∀ p, cache v = some p →
        hardwareWalk (Run.exec l.exec s calls).2 v = some p) ↔
      ∀ pre post, calls = pre ++ post →
        (∀ x ∈ (Run.exec l.exec s calls).1.drop pre.length, SpaceCall.flushes x = false) →
        ∀ p, (l.alone a pre (l.halfOf (l.dispatch.control a.1 calls) v)).2.walk v = some p →
          (l.alone a calls (l.halfOf (l.dispatch.control a.1 calls) v)).2.walk v = some p := by
  refine (l.tlb.accurate_iff s calls v).trans (forall₂_congr fun pre post ↦ ?_)
  refine forall_congr' fun hcalls ↦ ?_
  subst hcalls
  rw [h.quiet_iff hok]
  refine forall_congr' fun hquiet ↦ ?_
  have hswitch : ∀ c ∈ post, ∀ k, c ≠ .setUserPageDir k := by
    rintro c hc k rfl
    have hmap : ((Run.exec l.exec s (pre ++ post)).1.drop pre.length).map Prod.fst = post := by
      rw [List.map_drop, Run.map_fst_exec, List.drop_left]
    rw [← hmap] at hc
    obtain ⟨x, hx, hxc⟩ := List.mem_map.mp hc
    obtain ⟨c, e⟩ := x
    subst hxc
    exact absurd (hquiet _ hx) (by simp [SpaceCall.flushes])
  have hpre := h.hardwareWalk_run hok.of_append v
  have hall := h.hardwareWalk_run hok v
  rw [control_append a.1 hswitch] at hall ⊢
  refine forall_congr' fun p ↦ ?_
  rw [← hpre, ← hall]
  rfl

/-- A page that is entered and taken away without a flush. -/
def unmapCalls : List (SpaceCall Bool) :=
  [.createEntry ⟨0x40000#32, 0x0#32, .pgDir, .user⟩,
    .createEntry ⟨0x60002000#32, 0x3000#32, .pgTab, .user⟩,
    .createEntry ⟨0x0#32, 0x3000#32, .pgTabInval, .user⟩]

/-- The TLB may still have the page. -/
theorem tlb_coherent_iff_narrowSpaces :
    ¬∀ cache, narrowSpaces.tlb.Holds narrowHalf unmapCalls cache → ∀ p, cache 0x3ABC#32 = some p →
      hardwareWalk (Run.exec narrowSpaces.exec narrowHalf unmapCalls).2 0x3ABC#32 = some p := by
  have hok : narrowSpaces.Allowed (false, narrowSpaces.read narrowHalf) unmapCalls := by
    intro pre c post h
    have hmem : ∀ d ∈ pre, ∀ k, d ≠ .setUserPageDir k := by
      intro d hd k hk
      have hin : SpaceCall.setUserPageDir k ∈ unmapCalls := by
        rw [h, ← hk]
        exact List.mem_append_left _ hd
      simp [unmapCalls] at hin
    have hcontrol : narrowSpaces.dispatch.control false ([] ++ pre) =
        narrowSpaces.dispatch.control false [] := control_append false hmem
    have hstay : (Run.exec narrowSpaces.step (false, narrowSpaces.read narrowHalf) pre).2.1 =
        false := (Run.Dispatch.exec_control pre).trans hcontrol
    have hc : c ∈ unmapCalls := by
      rw [h]
      simp
    simp only [unmapCalls, List.mem_cons, List.not_mem_nil, or_false] at hc
    rcases hc with rfl | rfl | rfl
    · rw [Ok, hstay]
      exact fun _ ↦ by decide
    · exact fun htype ↦ MmuEntryType.noConfusion htype
    · exact fun htype ↦ MmuEntryType.noConfusion htype
  rw [tlb_coherent_iff refines_narrowSpaces hok]
  intro h
  have hstale := h (unmapCalls.take 2) (unmapCalls.drop 2) rfl (by decide +kernel) 0x60002ABC#32
    (by decide +kernel)
  have hnone : (narrowSpaces.alone (false, narrowSpaces.read narrowHalf) unmapCalls
      (some false)).2.walk 0x3ABC#32 = none := by decide
  exact absurd (hnone.symm.trans hstale) (Option.some_ne_none _).symm

end SpaceLayout

end Sugarcat
