import Sugarcat.Util.Sprintf

/-!
# Output on the serial line

`mach_early_kprintf` of `mach_early_kprintf.c` and `d_printf` of `debug.c`. Their loops are that of
`sprintf`, with each character sent to the UART: a number goes to the scratch buffer first, and a
string is sent up to its terminator. The data register of the UART is not in memory, and what is
written to it is the list of the bytes sent.

## One loop for both

The two functions are the same text in the source, with the same two helpers. `uartPrintf` is that
text, and each function keeps its own definition. As in `sprintf`, one pass of the loop deals with
one piece of the format (`exists_uartPrintfStep`), and the loop is by induction on the pieces.

## What memory is left like

Only numbers write to memory, to the scratch buffer, so a format without numbers leaves memory as it
is (`uartPrintf_plain`). `UartInputs.exists_end_eqOutside` is the general statement, which those use
that print between two looks at the same tree.
-/

namespace Sugarcat

open ByteMemory

/-! ## The functions -/

structure PutsLoop where
  i : Word
  sent : List Byte

def uartPutsStep (m : Memory) (buf : Addr) (l : PutsLoop) : PutsLoop ⊕ List Byte :=
  if m (buf + l.i) ≠ 0#8 then .inl ⟨l.i + 1#32, l.sent ++ [m (buf + l.i)]⟩ else .inr l.sent

/-- What has been sent after `uart_puts`. A `NULL` is not checked for. -/
def uartPuts (m : Memory) (buf : Addr) (sent : List Byte) : Option (List Byte) :=
  Loop.run (uartPutsStep m buf) (2 ^ 32) ⟨0#32, sent⟩

/-- The variables of the loop, with the arguments that are left, memory, and what has been sent. -/
structure UartLoop where
  index : Word
  va : List Word
  mem : Memory
  sent : List Byte

def UartLoop.puts (l : UartLoop) (buf : Addr) : Option UartLoop :=
  (uartPuts l.mem buf l.sent).map fun sent ↦ { l with sent := sent }

/-- What a directive does. An unknown one does nothing. -/
def uartDirective (buf : Addr) (d : Byte) (l : UartLoop) : Option UartLoop :=
  let arg := l.va.headD 0#32
  if d = 0x78#8 then
    (itox (memset buf 0#8 11#32 l.mem) arg buf).bind fun m ↦
      { l with va := l.va.tail, mem := m }.puts buf
  else if d = 0x69#8 then
    (itoa (memset buf 0#8 11#32 l.mem) arg buf).bind fun m ↦
      { l with va := l.va.tail, mem := m }.puts buf
  else if d = 0x73#8 then { l with va := l.va.tail }.puts arg
  else if d = 0x63#8 then some { l with va := l.va.tail, sent := l.sent ++ [arg.truncate 8] }
  else some l

/-- One pass of the loop, at a character of the format. -/
def uartPrintfStep (format buf : Addr) (l : UartLoop) : UartLoop ⊕ Option UartLoop :=
  if l.mem (format + l.index) ≠ 0#8 then
    if l.mem (format + l.index) = 0x25#8 then
      let index := l.index + 1#32
      match uartDirective buf (l.mem (format + index)) l with
      | none => .inr none
      | some l => .inl { l with index := index + 1#32 }
    else
      .inl { l with index := l.index + 1#32, sent := l.sent ++ [l.mem (format + l.index)] }
  else .inr (some l)

/-- The bodies of the two functions, which differ in where `buf` is. -/
def uartPrintf (m : Memory) (format buf : Addr) (va : List Word) : Option UartLoop :=
  if format ≠ 0#32 then
    (Loop.run (uartPrintfStep format buf) (2 ^ 32) ⟨0#32, va, m, []⟩).join
  else some ⟨0#32, va, m, []⟩

/-- `buf` is on the stack. -/
def machEarlyKprintf (m : Memory) (format buf : Addr) (va : List Word) : Option UartLoop :=
  uartPrintf m format buf va

/-- `buf` is static. -/
def dPrintf (m : Memory) (format buf : Addr) (va : List Word) : Option UartLoop :=
  uartPrintf m format buf va

/-! ## Strings -/

variable {m : Memory} {p q f : ℕ} {s sent : List Byte}

theorem run_uartPutsStep {k : ℕ} (h : BytesAt m (p + k) s) (hnz : 0#8 ∉ s)
    (hend : m (ptr (p + k + s.length)) = 0#8) (sent : List Byte) :
    Loop.run (uartPutsStep m (ptr p)) s.length ⟨ptr k, sent⟩ = some (sent ++ s) := by
  induction s generalizing k sent with
  | nil =>
    have hexit : uartPutsStep m (ptr p) ⟨ptr k, sent⟩ = .inr sent := by
      refine if_neg (not_not.mpr ?_)
      rw [ptr_add]
      exact hend
    rw [Loop.run_of_exit hexit, List.append_nil]
  | cons b s ih =>
    rw [bytesAt_cons, Nat.add_assoc] at h
    rw [List.mem_cons, not_or] at hnz
    have hread : m (ptr p + ptr k) = b := by
      rw [ptr_add]
      exact h.1
    have hstep : uartPutsStep m (ptr p) ⟨ptr k, sent⟩ = .inl ⟨ptr (k + 1), sent ++ [b]⟩ := by
      rw [uartPutsStep, if_pos (by rw [hread]; exact fun hb ↦ hnz.1 hb.symm)]
      dsimp only
      rw [hread, ptr_add_one]
    have hend' : m (ptr (p + (k + 1) + s.length)) = 0#8 := by
      rw [← hend, List.length_cons]
      congr 2
      omega
    rw [List.length_cons, Loop.run_succ hstep, ih h.2 hnz.2 hend', List.append_assoc,
      List.singleton_append]

theorem uartPuts_eq {t : CString} {x : ℕ} (h : t.At m x) (hfits : x + t.bytes.length < 2 ^ 32)
    (sent : List Byte) : uartPuts m (ptr x) sent = some (sent ++ t.bytes) :=
  Loop.run_mono (by omega) (run_uartPutsStep (k := 0) h.1 t.nonzero h.2 sent)

/-! ## Pieces -/

/-- The scratch buffer, and the byte behind it that `itoa` may write. -/
structure ScratchFits (buf : Addr) : Prop where
  pos : 0 < buf.toNat
  fits : buf.toNat + 11 < 2 ^ 32

/-- The format of a printer and its strings are outside of its scratch buffer. -/
structure UartInputs (m : Memory) (format buf : Addr) (cs : List Piece) : Prop where
  scratch : ScratchFits buf
  format : LiteralApart (InRange buf 11) m format (formatString cs)
  ready : ∀ c ∈ cs, c.Ready (InRange buf 11) m

theorem exists_puts_number (conv : Memory → Option Memory) {t : CString} {l : UartLoop}
    (hconv : ∃ m', conv (memset (ptr q) 0#8 11#32 l.mem) = some m' ∧ t.At m' q ∧
      EqOutside (InRange (ptr q) (t.bytes.length + 1)) (memset (ptr q) 0#8 11#32 l.mem) m')
    (ht : t.bytes.length ≤ 10) (hq : q + 11 < 2 ^ 32) :
    ∃ m', (conv (memset (ptr q) 0#8 11#32 l.mem)).bind
        (fun m ↦ { l with va := l.va.tail, mem := m }.puts (ptr q))
        = some { l with va := l.va.tail, mem := m', sent := l.sent ++ t.bytes } ∧
      EqOutside (InRange (ptr q) 11) l.mem m' := by
  obtain ⟨m', hrun, hat, hm'⟩ := hconv
  have hclear : EqOutside (InRange (ptr q) 11) l.mem (memset (ptr q) 0#8 11#32 l.mem) :=
    eqOutside_memset (ptr q) 0#8 11#32 l.mem
  refine ⟨m', ?_, hclear.trans (hm'.mono fun x hx ↦ inRange_mono (by omega) hx)⟩
  rw [hrun, Option.bind_some, UartLoop.puts, uartPuts_eq hat (by omega), Option.map_some]

theorem uartPrintfStep_directive {k : ℕ} {d : Byte} {l l' : UartLoop} (hk : l.index = ptr k)
    (hpercent : l.mem (ptr (f + k)) = 0x25#8) (hread : l.mem (ptr (f + k + 1)) = d)
    (hdir : uartDirective (ptr q) d l = some l') :
    uartPrintfStep (ptr f) (ptr q) l = .inl { l' with index := ptr (k + 2) } := by
  have hchar : l.mem (ptr f + l.index) = 0x25#8 := by rw [hk, ptr_add, hpercent]
  have hnext : l.mem (ptr f + (l.index + 1#32)) = d := by
    rw [hk, ptr_add_one, ptr_add, ← Nat.add_assoc, hread]
  rw [uartPrintfStep, if_pos (by rw [hchar]; decide), if_pos hchar]
  dsimp only
  rw [hnext, hdir]
  dsimp only
  rw [hk, ptr_add_one, ptr_add_one]

theorem uartPrintfStep_char {k : ℕ} {b : Byte} {l : UartLoop} (hk : l.index = ptr k)
    (hread : l.mem (ptr (f + k)) = b) (hzero : b ≠ 0#8) (hpercent : b ≠ 0x25#8) :
    uartPrintfStep (ptr f) (ptr q) l
      = .inl { l with index := ptr (k + 1), sent := l.sent ++ [b] } := by
  have hchar : l.mem (ptr f + l.index) = b := by rw [hk, ptr_add, hread]
  rw [uartPrintfStep, if_pos (by rw [hchar]; exact hzero), if_neg (by rw [hchar]; exact hpercent),
    hchar, hk, ptr_add_one]

/-- **One pass sends the text of one piece.** -/
theorem exists_uartPrintfStep {c : Piece} {k : ℕ} (hq : 0 < q) (hfits : q + 11 < 2 ^ 32)
    (hformat : BytesAt m (f + k) c.bytes) (hready : c.Ready (InRange (ptr q) 11) m)
    (va : List Word) (sent : List Byte) :
    ∃ m', uartPrintfStep (ptr f) (ptr q) ⟨ptr k, c.args ++ va, m, sent⟩
        = .inl ⟨ptr (k + c.bytes.length), va, m', sent ++ c.text⟩ ∧
      EqOutside (InRange (ptr q) 11) m m' := by
  cases c with
  | char b hzero hpercent =>
    have hread : m (ptr (f + k)) = b := (bytesAt_cons.mp hformat).1
    exact ⟨m, uartPrintfStep_char rfl hread hzero hpercent, EqOutside.refl _ _⟩
  | unknown d hzero hletter =>
    obtain ⟨hpercent, hd, -⟩ := bytesAt_cons_cons.mp hformat
    simp only [directiveLetters, List.mem_cons, List.not_mem_nil, or_false, not_or] at hletter
    obtain ⟨hx, hi, hstr, hchr⟩ := hletter
    have hdir : uartDirective (ptr q) d ⟨ptr k, va, m, sent⟩ = some ⟨ptr k, va, m, sent⟩ := by
      rw [uartDirective, if_neg hx, if_neg hi, if_neg hstr, if_neg hchr]
    refine ⟨m, ?_, EqOutside.refl _ _⟩
    rw [Piece.text, List.append_nil]
    exact uartPrintfStep_directive rfl hpercent hd hdir
  | hex v =>
    obtain ⟨hpercent, hd, -⟩ := bytesAt_cons_cons.mp hformat
    have hlen : (hexString v).bytes.length ≤ 8 := length_hexDigits_le v.isLt
    have hitox := itox_eq (memset (ptr q) 0#8 11#32 m) v hq (by omega)
    obtain ⟨m', hputs, hm'⟩ := exists_puts_number (fun m ↦ itox m v (ptr q))
      (l := ⟨ptr k, v :: va, m, sent⟩) hitox (by omega) hfits
    have hdir : uartDirective (ptr q) 0x78#8 ⟨ptr k, v :: va, m, sent⟩
        = some ⟨ptr k, va, m', sent ++ (hexString v).bytes⟩ := hputs
    exact ⟨m', uartPrintfStep_directive rfl hpercent hd hdir, hm'⟩
  | int v =>
    obtain ⟨hpercent, hd, -⟩ := bytesAt_cons_cons.mp hformat
    obtain ⟨heq, hlen⟩ := itoaString_eq hready
    have hitoa := itoa_eq (memset (ptr q) 0#8 11#32 m) v hq (by rw [heq]; omega)
    rw [heq] at hitoa
    obtain ⟨m', hputs, hm'⟩ := exists_puts_number (fun m ↦ itoa m v (ptr q))
      (l := ⟨ptr k, v :: va, m, sent⟩) hitoa hlen hfits
    have hdir : uartDirective (ptr q) 0x69#8 ⟨ptr k, v :: va, m, sent⟩
        = some ⟨ptr k, va, m', sent ++ (intString v).bytes⟩ := hputs
    exact ⟨m', uartPrintfStep_directive rfl hpercent hd hdir, hm'⟩
  | str a t =>
    obtain ⟨hpercent, hd, -⟩ := bytesAt_cons_cons.mp hformat
    have hputs := uartPuts_eq hready.literal.at hready.literal.fits sent
    rw [ptr_toNat] at hputs
    have hdir : uartDirective (ptr q) 0x73#8 ⟨ptr k, a :: va, m, sent⟩
        = some ⟨ptr k, va, m, sent ++ t.bytes⟩ := by
      change UartLoop.puts ⟨ptr k, va, m, sent⟩ a = _
      rw [UartLoop.puts, hputs, Option.map_some]
    exact ⟨m, uartPrintfStep_directive rfl hpercent hd hdir, EqOutside.refl _ _⟩
  | chr v =>
    obtain ⟨hpercent, hd, -⟩ := bytesAt_cons_cons.mp hformat
    have hdir : uartDirective (ptr q) 0x63#8 ⟨ptr k, v :: va, m, sent⟩
        = some ⟨ptr k, va, m, sent ++ [v.truncate 8]⟩ := rfl
    exact ⟨m, uartPrintfStep_directive rfl hpercent hd hdir, EqOutside.refl _ _⟩

/-! ## Formats -/

/-- **The loop sends the text of a format**, from any piece of it on. -/
theorem exists_run_uartPrintfStep {cs : List Piece} {k : ℕ} (hq : 0 < q) (hfits : q + 11 < 2 ^ 32)
    (hformat : ∀ m', EqOutside (InRange (ptr q) 11) m m' → BytesAt m' (f + k) (formatOf cs))
    (hready : ∀ c ∈ cs, c.Ready (InRange (ptr q) 11) m) (va : List Word) (sent : List Byte)
    (N : ℕ) :
    ∃ m', (Loop.run (uartPrintfStep (ptr f) (ptr q)) (cs.length + N)
        ⟨ptr k, argsOf cs ++ va, m, sent⟩ = Loop.run (uartPrintfStep (ptr f) (ptr q)) N
          ⟨ptr (k + (formatOf cs).length), va, m', sent ++ textOf cs⟩) ∧
      EqOutside (InRange (ptr q) 11) m m' := by
  induction cs generalizing k sent m with
  | nil =>
    refine ⟨m, ?_, EqOutside.refl _ _⟩
    rw [List.length_nil, Nat.zero_add, textOf, List.flatMap_nil, List.append_nil]
    rfl
  | cons c cs ih =>
    have htext : textOf (c :: cs) = c.text ++ textOf cs := rfl
    have hargs : argsOf (c :: cs) = c.args ++ argsOf cs := rfl
    have hbytes : formatOf (c :: cs) = c.bytes ++ formatOf cs := rfl
    rw [hbytes] at hformat
    obtain ⟨m₁, hstep, hm₁⟩ := exists_uartPrintfStep hq hfits
      (bytesAt_append.mp (hformat m (EqOutside.refl _ _))).1 (hready c List.mem_cons_self)
      (argsOf cs ++ va) sent
    have hformat₁ : ∀ m', EqOutside (InRange (ptr q) 11) m₁ m' →
        BytesAt m' (f + (k + c.bytes.length)) (formatOf cs) := by
      intro m' hm'
      rw [← Nat.add_assoc]
      exact (bytesAt_append.mp (hformat m' (hm₁.trans hm'))).2
    have hready₁ : ∀ c ∈ cs, c.Ready (InRange (ptr q) 11) m₁ :=
      fun d hd ↦ (hready d (List.mem_cons_of_mem _ hd)).of_eqOutside hm₁
    obtain ⟨m₂, hrun, hm₂⟩ := ih hformat₁ hready₁ (sent ++ c.text)
    refine ⟨m₂, ?_, hm₁.trans hm₂⟩
    rw [List.length_cons, Nat.add_right_comm, hargs, List.append_assoc, Loop.run_succ hstep, hrun,
      htext, hbytes, List.length_append, Nat.add_assoc, List.append_assoc]

/-- **What the printers come to**, with memory as it was outside of the scratch buffer. -/
theorem UartInputs.exists_end_eqOutside {format buf : Addr} {cs : List Piece}
    (h : UartInputs m format buf cs) (va : List Word) :
    ∃ m', uartPrintf m format buf (argsOf cs ++ va)
      = some ⟨ptr (formatOf cs).length, va, m', textOf cs⟩ ∧ EqOutside (InRange buf 11) m m' := by
  have hbuf : ptr buf.toNat = buf := ptr_toNat buf
  have hready := h.ready
  have hformat : ∀ m', EqOutside (InRange buf 11) m m' →
      BytesAt m' (format.toNat + 0) (formatOf cs) :=
    fun m' hm' ↦ (h.format.of_eqOutside hm').at.1
  rw [← hbuf] at hformat hready
  obtain ⟨m', hrun, hm'⟩ := exists_run_uartPrintfStep h.scratch.pos h.scratch.fits hformat hready
    va [] 0
  rw [Nat.zero_add, List.nil_append, ptr_toNat, ptr_toNat] at hrun
  rw [hbuf] at hm'
  have hend : m' (format + ptr (formatOf cs).length) = 0#8 := by
    have hzero := (h.format.of_eqOutside hm').at.2
    rwa [← ptr_add, ptr_toNat] at hzero
  have hexit : uartPrintfStep format buf ⟨ptr (formatOf cs).length, va, m', textOf cs⟩
      = .inr (some ⟨ptr (formatOf cs).length, va, m', textOf cs⟩) := if_neg (not_not.mpr hend)
  rw [Loop.run_of_exit hexit] at hrun
  have hlen := length_le_formatOf cs
  have hfits : format.toNat + (formatOf cs).length < 2 ^ 32 := h.format.literal.fits
  refine ⟨m', ?_, hm'⟩
  rw [uartPrintf, if_pos h.format.literal.ne_null]
  exact (congrArg Option.join (Loop.run_mono (by omega) hrun)).trans rfl

theorem UartInputs.exists_end {format buf : Addr} {cs : List Piece}
    (h : UartInputs m format buf cs) (va : List Word) :
    ∃ m', uartPrintf m format buf (argsOf cs ++ va)
      = some ⟨ptr (formatOf cs).length, va, m', textOf cs⟩ := by
  obtain ⟨m', hend, -⟩ := h.exists_end_eqOutside va
  exact ⟨m', hend⟩

/-! ## Formats without numbers -/

/-- The piece is no number, and its string stands in memory. -/
def Piece.Plain (m : Memory) : Piece → Prop
  | .hex _ | .int _ => False
  | .str a s => LiteralAt m a s
  | _ => True

theorem uartPrintfStep_plain {c : Piece} {k : ℕ} (hformat : BytesAt m (f + k) c.bytes)
    (hplain : c.Plain m) (va : List Word) (sent : List Byte) :
    uartPrintfStep (ptr f) (ptr q) ⟨ptr k, c.args ++ va, m, sent⟩
      = .inl ⟨ptr (k + c.bytes.length), va, m, sent ++ c.text⟩ := by
  cases c with
  | char b hzero hpercent =>
    have hread : m (ptr (f + k)) = b := (bytesAt_cons.mp hformat).1
    exact uartPrintfStep_char rfl hread hzero hpercent
  | unknown d hzero hletter =>
    obtain ⟨hpercent, hd, -⟩ := bytesAt_cons_cons.mp hformat
    simp only [directiveLetters, List.mem_cons, List.not_mem_nil, or_false, not_or] at hletter
    obtain ⟨hx, hi, hstr, hchr⟩ := hletter
    have hdir : uartDirective (ptr q) d ⟨ptr k, va, m, sent⟩ = some ⟨ptr k, va, m, sent⟩ := by
      rw [uartDirective, if_neg hx, if_neg hi, if_neg hstr, if_neg hchr]
    rw [Piece.text, List.append_nil]
    exact uartPrintfStep_directive rfl hpercent hd hdir
  | hex v => exact hplain.elim
  | int v => exact hplain.elim
  | str a t =>
    obtain ⟨hpercent, hd, -⟩ := bytesAt_cons_cons.mp hformat
    have hputs := uartPuts_eq hplain.at hplain.fits sent
    rw [ptr_toNat] at hputs
    have hdir : uartDirective (ptr q) 0x73#8 ⟨ptr k, a :: va, m, sent⟩
        = some ⟨ptr k, va, m, sent ++ t.bytes⟩ := by
      change UartLoop.puts ⟨ptr k, va, m, sent⟩ a = _
      rw [UartLoop.puts, hputs, Option.map_some]
    exact uartPrintfStep_directive rfl hpercent hd hdir
  | chr v =>
    obtain ⟨hpercent, hd, -⟩ := bytesAt_cons_cons.mp hformat
    have hdir : uartDirective (ptr q) 0x63#8 ⟨ptr k, v :: va, m, sent⟩
        = some ⟨ptr k, va, m, sent ++ [v.truncate 8]⟩ := rfl
    exact uartPrintfStep_directive rfl hpercent hd hdir

theorem run_uartPrintfStep_plain {cs : List Piece} {k : ℕ}
    (hformat : BytesAt m (f + k) (formatOf cs)) (hplain : ∀ c ∈ cs, c.Plain m) (va : List Word)
    (sent : List Byte) (N : ℕ) :
    Loop.run (uartPrintfStep (ptr f) (ptr q)) (cs.length + N) ⟨ptr k, argsOf cs ++ va, m, sent⟩
      = Loop.run (uartPrintfStep (ptr f) (ptr q)) N
          ⟨ptr (k + (formatOf cs).length), va, m, sent ++ textOf cs⟩ := by
  induction cs generalizing k sent with
  | nil =>
    rw [List.length_nil, Nat.zero_add, textOf, List.flatMap_nil, List.append_nil]
    rfl
  | cons c cs ih =>
    have htext : textOf (c :: cs) = c.text ++ textOf cs := rfl
    have hargs : argsOf (c :: cs) = c.args ++ argsOf cs := rfl
    have hbytes : formatOf (c :: cs) = c.bytes ++ formatOf cs := rfl
    rw [hbytes, bytesAt_append, Nat.add_assoc] at hformat
    rw [List.forall_mem_cons] at hplain
    rw [List.length_cons, Nat.add_right_comm, hargs, List.append_assoc,
      Loop.run_succ (uartPrintfStep_plain hformat.1 hplain.1 _ _), ih hformat.2 hplain.2, htext,
      hbytes, List.length_append, Nat.add_assoc, List.append_assoc]

/-- **Without numbers a format is sent as it is, and memory is left alone.** -/
theorem uartPrintf_plain {format : Addr} {cs : List Piece}
    (hformat : LiteralAt m format (formatString cs)) (hplain : ∀ c ∈ cs, c.Plain m) (buf : Addr)
    (va : List Word) :
    uartPrintf m format buf (argsOf cs ++ va)
      = some ⟨ptr (formatOf cs).length, va, m, textOf cs⟩ := by
  have hrun := run_uartPrintfStep_plain (f := format.toNat) (q := buf.toNat) (k := 0)
    hformat.at.1 hplain va [] 0
  rw [Nat.zero_add, List.nil_append, ptr_toNat, ptr_toNat] at hrun
  have hend : m (format + ptr (formatOf cs).length) = 0#8 := by
    have hzero := hformat.at.2
    rwa [← ptr_add, ptr_toNat] at hzero
  have hexit : uartPrintfStep format buf ⟨ptr (formatOf cs).length, va, m, textOf cs⟩
      = .inr (some ⟨ptr (formatOf cs).length, va, m, textOf cs⟩) := if_neg (not_not.mpr hend)
  rw [Loop.run_of_exit hexit] at hrun
  have hlen := length_le_formatOf cs
  have hfits : format.toNat + (formatOf cs).length < 2 ^ 32 := hformat.fits
  rw [uartPrintf, if_pos hformat.ne_null]
  exact (congrArg Option.join (Loop.run_mono (by omega) hrun)).trans rfl

end Sugarcat
