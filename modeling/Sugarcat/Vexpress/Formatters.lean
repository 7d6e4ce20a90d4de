import Sugarcat.Util.FormatScan
import Sugarcat.Vexpress.EarlyKprintf

/-!
# The three formatters

`sprintf`, `mach_early_kprintf` and `d_printf` are copies of one loop. All three scan the format in
the same way, so each of them goes behind the terminator of a format that ends in a lone `%`, and of
no other (`formatters_stopAtEnd_iff`). On formats that do not, they agree (`formatters_agree`).

## Scans

What is read of the format is told by the passes of the loops: `SprintfReads` and the others say
that a character of the format is looked at in some pass. For the general argument on scans each
loop has to be seen to move as a scan does, which asks that every directive returns, whatever its
argument is. A string that has no terminator in its place is still copied up to a zero byte
somewhere, and a number is always written.

It also asks that the format stays the same while it is scanned. The printers only write their
scratch buffer. The output of `sprintf` grows with the format, and it is known to be inside its
buffer from piece to piece.

## Agreement

The texts are the same by the specification of each of the three on formats made of pieces, and
every format that does not break off is made of pieces.
-/

namespace Sugarcat

open ByteMemory

/-! ## What is read of the format -/

def SprintfReads (m : Memory) (outStr format buf : Addr) (va : List Word) (k : Word) : Prop :=
  outStr ≠ 0#32 ∧ format ≠ 0#32 ∧
    ReadsChar (sprintfStep outStr format buf) (·.inIndex) (·.mem) format ⟨0#32, 0#32, va, m⟩ k

/-- What the bodies of the two printers read. -/
def UartReads (m : Memory) (format buf : Addr) (va : List Word) (k : Word) : Prop :=
  format ≠ 0#32 ∧
    ReadsChar (uartPrintfStep format buf) (·.index) (·.mem) format ⟨0#32, va, m, []⟩ k

def MachEarlyKprintfReads (m : Memory) (format buf : Addr) : List Word → Word → Prop :=
  UartReads m format buf

def DPrintfReads (m : Memory) (format buf : Addr) : List Word → Word → Prop :=
  UartReads m format buf

variable {m : Memory} {outStr format buf z : Addr} {n : ℕ} {fmt : CString} {va : List Word}

/-! ## Every directive returns -/

theorem exists_strncpy (m : Memory) (dest src : Addr) (n : Word) :
    ∃ m', strncpy m dest src n = some m' := by
  have hn := n.isLt
  have hpass : ∀ l l', True → strncpyStep dest src n l = .inl l' →
      True ∧ n.toNat - l'.i.toNat < n.toNat - l.i.toNat := by
    rintro l l' - hstep
    rw [strncpyStep] at hstep
    split_ifs at hstep with hi
    obtain rfl := Sum.inl.inj hstep
    have hlt := BitVec.lt_def.mp hi.1
    refine ⟨trivial, ?_⟩
    rw [BitVec.toNat_add, BitVec.toNat_ofNat]
    omega
  rw [strncpy]
  split_ifs
  · obtain ⟨l, hl⟩ := Loop.exists_run_of_measure (n := 2 ^ 32) (s := ⟨0#32, m⟩) _ hpass trivial
      (by omega)
    exact ⟨_, by rw [hl, Option.map_some]⟩
  · exact ⟨m, rfl⟩

theorem SprintfLoop.exists_put {l : SprintfLoop} (hz : l.mem z = 0#8) (outStr src : Addr) :
    ∃ l', l.put outStr src = some l' ∧ l'.inIndex = l.inIndex := by
  obtain ⟨size, hsize⟩ := exists_strlen hz src
  obtain ⟨m, hm⟩ := exists_strncpy l.mem (outStr + l.outIndex) src size
  exact ⟨{ l with outIndex := l.outIndex + size, mem := m },
    by rw [put, hsize, Option.bind_some, hm, Option.map_some], rfl⟩

theorem exists_uartPuts (hz : m z = 0#8) (buf : Addr) (sent : List Byte) :
    ∃ sent', uartPuts m buf sent = some sent' := by
  -- the distance to the zero byte
  refine Loop.exists_run_of_measure (I := fun _ ↦ True) (fun l ↦ (z - (buf + l.i)).toNat) ?_ trivial
    (BitVec.isLt _).le
  rintro l l' - hstep
  rw [uartPutsStep] at hstep
  split_ifs at hstep with hne
  obtain rfl := Sum.inl.inj hstep
  refine ⟨trivial, ?_⟩
  dsimp only
  rw [← add_assoc]
  exact toNat_sub_add_one_lt fun hzl ↦ hne (hzl ▸ hz)

theorem UartLoop.exists_puts {l : UartLoop} (hz : l.mem z = 0#8) (buf : Addr) :
    ∃ sent, l.puts buf = some { l with sent := sent } := by
  obtain ⟨sent, hsent⟩ := exists_uartPuts hz buf l.sent
  exact ⟨sent, by rw [puts, hsent, Option.map_some]⟩

/-- A conversion returns, leaves a string in the scratch buffer, and writes nothing else. -/
theorem exists_scratch_number (conv : Memory → Option Memory) {t : CString} (m : Memory)
    (ht : t.bytes.length ≤ 11)
    (hconv : ∃ m', conv (memset buf 0#8 11#32 m) = some m' ∧ t.At m' buf.toNat ∧
      EqOutside (InRange buf (t.bytes.length + 1)) (memset buf 0#8 11#32 m) m') :
    ∃ m' z, conv (memset buf 0#8 11#32 m) = some m' ∧ m' z = 0#8 ∧
      EqOutside (InRange buf 12) m m' := by
  obtain ⟨m', hrun, hat, hm'⟩ := hconv
  have hclear : EqOutside (InRange buf 12) m (memset buf 0#8 11#32 m) :=
    (eqOutside_memset buf 0#8 11#32 m).mono fun x hx ↦ inRange_mono (by decide) hx
  exact ⟨m', _, hrun, hat.2, hclear.trans (hm'.mono fun x hx ↦ inRange_mono (by omega) hx)⟩

theorem ScratchFits.exists_itox (h : ScratchFits buf) (v : Word) (m : Memory) :
    ∃ m' z, itox (memset buf 0#8 11#32 m) v buf = some m' ∧ m' z = 0#8 ∧
      EqOutside (InRange buf 12) m m' := by
  have hfits := h.fits
  have hlen : (hexString v).bytes.length ≤ 8 := length_hexDigits_le v.isLt
  have hitox := itox_eq (memset buf 0#8 11#32 m) v h.pos (by omega)
  rw [ptr_toNat] at hitox
  exact exists_scratch_number (fun m ↦ itox m v buf) m (by omega) hitox

theorem ScratchFits.exists_itoa (h : ScratchFits buf) (v : Word) (m : Memory) :
    ∃ m' z, itoa (memset buf 0#8 11#32 m) v buf = some m' ∧ m' z = 0#8 ∧
      EqOutside (InRange buf 12) m m' := by
  have hfits := h.fits
  have hlen := length_itoaString_le v
  have hitoa := itoa_eq (memset buf 0#8 11#32 m) v h.pos (by omega)
  rw [ptr_toNat] at hitoa
  exact exists_scratch_number (fun m ↦ itoa m v buf) m hlen hitoa

theorem ScratchFits.exists_sprintfDirective (h : ScratchFits buf) {l : SprintfLoop}
    (hz : l.mem z = 0#8) (outStr : Addr) (d : Byte) :
    ∃ l', sprintfDirective outStr buf d l = some l' ∧ l'.inIndex = l.inIndex := by
  obtain ⟨m₁, z₁, hitox, hz₁, -⟩ := h.exists_itox (l.va.headD 0#32) l.mem
  obtain ⟨m₂, z₂, hitoa, hz₂, -⟩ := h.exists_itoa (l.va.headD 0#32) l.mem
  rw [sprintfDirective]
  dsimp only
  split_ifs with hnum hx hs hc
  · rw [hitox, Option.bind_some]
    exact SprintfLoop.exists_put hz₁ outStr buf
  · rw [hitoa, Option.bind_some]
    exact SprintfLoop.exists_put hz₂ outStr buf
  · exact SprintfLoop.exists_put (l := { l with va := l.va.tail }) hz outStr _
  · exact ⟨_, rfl, rfl⟩
  · exact ⟨l, rfl, rfl⟩

theorem ScratchFits.exists_uartDirective (h : ScratchFits buf) {l : UartLoop} (hz : l.mem z = 0#8)
    (d : Byte) :
    ∃ l', uartDirective buf d l = some l' ∧ l'.index = l.index ∧
      EqOutside (InRange buf 12) l.mem l'.mem := by
  obtain ⟨m₁, z₁, hitox, hz₁, hm₁⟩ := h.exists_itox (l.va.headD 0#32) l.mem
  obtain ⟨m₂, z₂, hitoa, hz₂, hm₂⟩ := h.exists_itoa (l.va.headD 0#32) l.mem
  rw [uartDirective]
  split_ifs with hx hi hs hc
  · rw [hitox, Option.bind_some]
    obtain ⟨sent, hputs⟩ :=
      UartLoop.exists_puts (l := { l with va := l.va.tail, mem := m₁ }) hz₁ buf
    exact ⟨_, hputs, rfl, hm₁⟩
  · rw [hitoa, Option.bind_some]
    obtain ⟨sent, hputs⟩ :=
      UartLoop.exists_puts (l := { l with va := l.va.tail, mem := m₂ }) hz₂ buf
    exact ⟨_, hputs, rfl, hm₂⟩
  · obtain ⟨sent, hputs⟩ := UartLoop.exists_puts (l := { l with va := l.va.tail }) hz
      (l.va.headD 0#32)
    exact ⟨_, hputs, rfl, EqOutside.refl _ _⟩
  · exact ⟨_, rfl, rfl, EqOutside.refl _ _⟩
  · exact ⟨l, rfl, rfl, EqOutside.refl _ _⟩

/-! ## All three scan the format -/

theorem ScratchFits.formatScan_sprintfStep (h : ScratchFits buf) (outStr format : Addr) :
    FormatScan (sprintfStep outStr format buf) (·.inIndex) (·.mem) format where
  stop l hl := ⟨some l, if_neg (not_not.mpr hl)⟩
  char l hzero hpercent := ⟨_, by rw [sprintfStep, if_pos hzero, if_neg hpercent], rfl⟩
  directive l hl := by
    rintro ⟨z, hz⟩
    obtain ⟨l', hdir, hindex⟩ := h.exists_sprintfDirective hz outStr
      (l.mem (format + (l.inIndex + 1#32)))
    refine ⟨{ l' with inIndex := l.inIndex + 1#32 + 1#32 }, ?_, add_assoc _ _ _⟩
    rw [sprintfStep, if_pos (by rw [hl]; decide), if_pos hl]
    dsimp only
    rw [hdir]

theorem ScratchFits.formatScan_uartPrintfStep (h : ScratchFits buf) (format : Addr) :
    FormatScan (uartPrintfStep format buf) (·.index) (·.mem) format where
  stop l hl := ⟨some l, if_neg (not_not.mpr hl)⟩
  char l hzero hpercent := ⟨_, by rw [uartPrintfStep, if_pos hzero, if_neg hpercent], rfl⟩
  directive l hl := by
    rintro ⟨z, hz⟩
    obtain ⟨l', hdir, -⟩ := h.exists_uartDirective hz (l.mem (format + (l.index + 1#32)))
    refine ⟨{ l' with index := l.index + 1#32 + 1#32 }, ?_, add_assoc _ _ _⟩
    rw [uartPrintfStep, if_pos (by rw [hl]; decide), if_pos hl]
    dsimp only
    rw [hdir]

theorem ScratchFits.eqOutside_of_visits (h : ScratchFits buf)
    (hfmt : LiteralApart (InRange buf 12) m format fmt) {l : UartLoop}
    (hl : Loop.Visits (uartPrintfStep format buf) ⟨0#32, va, m, []⟩ l) :
    EqOutside (InRange buf 12) m l.mem := by
  induction hl with
  | refl => exact EqOutside.refl _ _
  | @tail l l' _ hstep ih =>
    refine ih.trans ?_
    obtain ⟨l'', hdir, -, hm⟩ := h.exists_uartDirective (hfmt.of_eqOutside ih).at.2
      (l.mem (format + (l.index + 1#32)))
    rw [uartPrintfStep] at hstep
    dsimp only at hstep
    rw [hdir] at hstep
    split_ifs at hstep with hzero hpercent
    · obtain rfl := Sum.inl.inj hstep
      exact hm
    · obtain rfl := Sum.inl.inj hstep
      exact EqOutside.refl _ _

theorem ScratchFits.keepsFormat (h : ScratchFits buf)
    (hfmt : LiteralApart (InRange buf 12) m format fmt) (va : List Word) :
    KeepsFormat (uartPrintfStep format buf) (·.index) (·.mem) format ⟨0#32, va, m, []⟩ fmt :=
  fun _ hl _ ↦ (hfmt.of_eqOutside (h.eqOutside_of_visits hfmt hl)).at

theorem ScratchFits.uartReads_iff (h : ScratchFits buf)
    (hfmt : LiteralApart (InRange buf 12) m format fmt) (va : List Word) :
    (∀ k, UartReads m format buf va k → k.toNat ≤ fmt.bytes.length) ↔ ¬LonePercent fmt.bytes := by
  have hnull : format ≠ 0#32 := hfmt.literal.ne_null
  rw [← (h.formatScan_uartPrintfStep format).stopsAtEnd_iff
    (s := ⟨0#32, va, m, []⟩) hfmt.literal (h.keepsFormat hfmt va) rfl]
  exact forall_congr' fun k ↦ imp_congr_left (and_iff_right hnull)

/-- The loop is at the beginning of a piece of `cs`, with the text of those before it in the
output. -/
def BetweenPieces (m : Memory) (outStr : Addr) (n : ℕ) (buf : Addr) (cs : List Piece)
    (va : List Word) (l : SprintfLoop) : Prop :=
  ∃ ds es, cs = ds ++ es ∧ BytesAt l.mem outStr.toNat (textOf ds) ∧
    EqOutside (Buffers outStr.toNat n buf.toNat) m l.mem ∧
    l = ⟨ptr (textOf ds).length, ptr (formatOf ds).length, argsOf es ++ va, l.mem⟩

/-- A pass goes from one piece to the next. -/
theorem SprintfInputs.betweenPieces_step {cs : List Piece} {l l' : SprintfLoop}
    (h : SprintfInputs m outStr n format buf cs) (hl : BetweenPieces m outStr n buf cs va l)
    (hstep : sprintfStep outStr format buf l = .inl l') :
    BetweenPieces m outStr n buf cs va l' := by
  obtain ⟨ds, es, rfl, hout, hm, hl⟩ := hl
  obtain ⟨hbytes, hend⟩ := (h.format.of_eqOutside hm).at
  change BytesAt l.mem format.toNat (formatOf (ds ++ es)) at hbytes
  change l.mem (ptr (format.toNat + (formatOf (ds ++ es)).length)) = 0#8 at hend
  have hroom := h.room
  cases es with
  | nil =>
    -- the loop ends here
    rw [List.append_nil] at hend
    have hexit : sprintfStep outStr format buf l = .inr (some l) := by
      refine if_neg (not_not.mpr ?_)
      rw [hl, ← hend, ← ptr_add, ptr_toNat]
    exact absurd (hstep.symm.trans hexit) (by simp)
  | cons c es =>
    have hcons : formatOf (ds ++ c :: es) = formatOf ds ++ (c.bytes ++ formatOf es) :=
      formatOf_append _ _
    rw [hcons, bytesAt_append, bytesAt_append] at hbytes
    have htext : textOf (ds ++ c :: es) = textOf ds ++ (c.text ++ textOf es) :=
      textOf_append _ _
    rw [htext, List.length_append, List.length_append] at hroom
    obtain ⟨m', hgo, hbytes', hm'⟩ := exists_sprintfStep h.fit hbytes.2.1
      ((h.ready c (by simp)).of_eqOutside hm) hout (by omega) (argsOf es ++ va)
    rw [ptr_toNat, ptr_toNat, ptr_toNat] at hgo
    rw [hl] at hstep
    have hargs : argsOf (c :: es) ++ va = c.args ++ (argsOf es ++ va) :=
      List.append_assoc _ _ _
    rw [hargs] at hstep
    obtain rfl := Sum.inl.inj (hgo.symm.trans hstep)
    refine ⟨ds ++ [c], es, by simp, ?_, hm.trans hm', ?_⟩
    · rw [textOf_append]
      simpa [textOf] using hbytes'
    · rw [textOf_append, formatOf_append, List.length_append, List.length_append]
      simp [textOf, formatOf]

theorem SprintfInputs.betweenPieces_of_visits {cs : List Piece} {l : SprintfLoop}
    (h : SprintfInputs m outStr n format buf cs)
    (hl : Loop.Visits (sprintfStep outStr format buf) ⟨0#32, 0#32, argsOf cs ++ va, m⟩ l) :
    BetweenPieces m outStr n buf cs va l := by
  induction hl with
  | refl => exact ⟨[], cs, rfl, bytesAt_nil _ _, EqOutside.refl _ _, rfl⟩
  | tail _ hstep ih => exact h.betweenPieces_step ih hstep

theorem SprintfInputs.keepsFormat {cs : List Piece} (h : SprintfInputs m outStr n format buf cs)
    (va : List Word) :
    KeepsFormat (sprintfStep outStr format buf) (·.inIndex) (·.mem) format
      ⟨0#32, 0#32, argsOf cs ++ va, m⟩ (formatString cs) := by
  intro l hl _
  obtain ⟨ds, es, -, -, hm, -⟩ := h.betweenPieces_of_visits hl
  exact (h.format.of_eqOutside hm).at

/-- **A formatter goes behind the terminator exactly of a format that ends in a lone `%`.** -/
theorem formatters_stopAtEnd_iff {stack early debug : Addr} (hstack : ScratchFits stack)
    (hearly : ScratchFits early) (hdebug : ScratchFits debug)
    (hkeep : outStr ≠ 0#32 → KeepsFormat (sprintfStep outStr format stack) (·.inIndex) (·.mem)
      format ⟨0#32, 0#32, va, m⟩ fmt)
    (hearlyApart : LiteralApart (InRange early 12) m format fmt)
    (hdebugApart : LiteralApart (InRange debug 12) m format fmt) :
    ((∀ k, SprintfReads m outStr format stack va k → k.toNat ≤ fmt.bytes.length)
        ↔ outStr = 0#32 ∨ ¬LonePercent fmt.bytes) ∧
      ((∀ k, MachEarlyKprintfReads m format early va k → k.toNat ≤ fmt.bytes.length)
        ↔ ¬LonePercent fmt.bytes) ∧
      ((∀ k, DPrintfReads m format debug va k → k.toNat ≤ fmt.bytes.length)
        ↔ ¬LonePercent fmt.bytes) := by
  refine ⟨?_, hearly.uartReads_iff hearlyApart va, hdebug.uartReads_iff hdebugApart va⟩
  have hlit : LiteralAt m format fmt := hearlyApart.literal
  by_cases hout : outStr = 0#32
  · exact iff_of_true (fun k hk ↦ absurd hout hk.1) (Or.inl hout)
  · rw [or_iff_right hout, ← (hstack.formatScan_sprintfStep outStr format).stopsAtEnd_iff
      (s := ⟨0#32, 0#32, va, m⟩) hlit (hkeep hout) rfl]
    refine forall_congr' fun k ↦ imp_congr_left ?_
    rw [SprintfReads, and_iff_right hout, and_iff_right hlit.ne_null]

theorem scratchFits_print :
    ScratchFits 0x3000#32 ∧ ScratchFits 0x3100#32 ∧ ScratchFits 0x3200#32 :=
  ⟨⟨by decide, by decide⟩, ⟨by decide, by decide⟩, ⟨by decide, by decide⟩⟩

theorem formatters_stopAtEnd_iff_print :
    (∀ k, SprintfReads (printMemory 0#8) 0x2000#32 0x1000#32 0x3000#32 (argsOf printPieces) k →
        k.toNat ≤ 9) ∧
      (∀ k, MachEarlyKprintfReads (printMemory 0#8) 0x1000#32 0x3100#32 (argsOf printPieces) k →
        k.toNat ≤ 9) ∧
      ∀ k, DPrintfReads (printMemory 0#8) 0x1000#32 0x3200#32 (argsOf printPieces) k →
        k.toNat ≤ 9 := by
  obtain ⟨hstack, hearly, hdebug⟩ := scratchFits_print
  have hin := sprintfInputs_print (c := 0#8) (Or.inl rfl)
  have hkeep := hin.keepsFormat []
  rw [List.append_nil] at hkeep
  have hlone : ¬LonePercent (formatString printPieces).bytes := not_lonePercent_formatOf _
  have hiff := formatters_stopAtEnd_iff hstack hearly hdebug (fun _ ↦ hkeep)
    ⟨hin.format.literal, by decide +kernel⟩ ⟨hin.format.literal, by decide +kernel⟩
  exact ⟨hiff.1.mpr (Or.inr hlone), hiff.2.1.mpr hlone, hiff.2.2.mpr hlone⟩

theorem zero_notMem_percent : 0#8 ∉ [0x25#8] := by decide

/-- A lone `%`. -/
def percentString : CString := ⟨[0x25#8], zero_notMem_percent⟩

def percentMemory : Memory := fun x ↦ if x = 0x1000#32 then 0x25#8 else 0#8

/-- Behind the terminator of a lone `%`, one more character is read. -/
theorem not_formatters_stopAtEnd_percent :
    LiteralAt percentMemory 0x1000#32 percentString ∧
      SprintfReads percentMemory 0x2000#32 0x1000#32 0x3000#32 [] 2#32 ∧
      MachEarlyKprintfReads percentMemory 0x1000#32 0x3100#32 [] 2#32 ∧
      DPrintfReads percentMemory 0x1000#32 0x3200#32 [] 2#32 ∧
      ¬(2#32 : Word).toNat ≤ percentString.bytes.length := by
  have hsprintf : sprintfStep 0x2000#32 0x1000#32 0x3000#32 ⟨0#32, 0#32, [], percentMemory⟩
      = .inl ⟨0#32, 2#32, [], percentMemory⟩ := rfl
  have huart : ∀ buf, uartPrintfStep 0x1000#32 buf ⟨0#32, [], percentMemory, []⟩
      = .inl ⟨2#32, [], percentMemory, []⟩ := fun _ ↦ rfl
  refine ⟨by decide +kernel, ⟨by decide, by decide, _, .single hsprintf, Or.inl rfl⟩,
    ⟨by decide, _, .single (huart _), Or.inl rfl⟩, ⟨by decide, _, .single (huart _), Or.inl rfl⟩,
    by decide⟩

/-! ## Agreement -/

/-- **The three formatters agree.** -/
theorem formatters_agree {stack early debug : Addr} {cs : List Piece}
    (hsprintf : SprintfInputs m outStr n format stack cs) (hearly : UartInputs m format early cs)
    (hdebug : UartInputs m format debug cs) (va : List Word) :
    ∃ l e d, sprintfEnd m outStr format stack (argsOf cs ++ va) = some l ∧
      machEarlyKprintf m format early (argsOf cs ++ va) = some e ∧
      dPrintf m format debug (argsOf cs ++ va) = some d ∧
      e.sent = d.sent ∧ BytesAt l.mem outStr.toNat e.sent ∧ l.outIndex.toNat = e.sent.length ∧
      l.va = va ∧ e.va = va ∧ d.va = va := by
  obtain ⟨m₁, hs, hbytes, -⟩ := hsprintf.exists_end va
  obtain ⟨m₂, he⟩ := hearly.exists_end va
  obtain ⟨m₃, hd⟩ := hdebug.exists_end va
  have hroom := hsprintf.room
  have hfits := hsprintf.fit.out_fits
  have hindex : (ptr (textOf cs).length).toNat = (textOf cs).length := toNat_ptr (by omega)
  exact ⟨_, _, _, hs, he, hd, rfl, hbytes, hindex, rfl, rfl, rfl⟩

theorem uartInputs_print {buf : Addr} (hbuf : buf = 0x3100#32 ∨ buf = 0x3200#32) :
    UartInputs (printMemory 0#8) 0x1000#32 buf printPieces := by
  have hin := sprintfInputs_print (c := 0#8) (Or.inl rfl)
  have hready : ∀ d ∈ printPieces, d.Ready (InRange buf 11) (printMemory 0#8) := by
    intro d hd
    simp only [printPieces, List.mem_cons, List.not_mem_nil, or_false] at hd
    rcases hd with rfl | rfl | rfl | rfl | rfl
    · trivial
    · trivial
    · exact (by decide : -1000000000 < (-5#32 : Word).toInt)
    · rcases hbuf with rfl | rfl <;> exact ⟨by decide +kernel, by decide +kernel⟩
    · trivial
  rcases hbuf with rfl | rfl <;>
    exact ⟨⟨by decide, by decide⟩, ⟨hin.format.literal, by decide +kernel⟩, hready⟩

theorem formatters_agree_print :
    ∃ l e d,
      sprintfEnd (printMemory 0#8) 0x2000#32 0x1000#32 0x3000#32 (argsOf printPieces ++ [])
        = some l ∧
      machEarlyKprintf (printMemory 0#8) 0x1000#32 0x3100#32 (argsOf printPieces ++ []) = some e ∧
      dPrintf (printMemory 0#8) 0x1000#32 0x3200#32 (argsOf printPieces ++ []) = some d ∧
      e.sent = d.sent ∧ BytesAt l.mem 0x2000 e.sent ∧ l.outIndex.toNat = e.sent.length ∧
      l.va = [] ∧ e.va = [] ∧ d.va = [] :=
  formatters_agree (sprintfInputs_print (Or.inl rfl)) (uartInputs_print (Or.inl rfl))
    (uartInputs_print (Or.inr rfl)) []

end Sugarcat
