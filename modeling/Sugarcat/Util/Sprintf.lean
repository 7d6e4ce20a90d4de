import Sugarcat.Kernel.Mem
import Sugarcat.Util.Format

/-!
# Formatted output

`strncpy` and `sprintf` of `util/str.c`. A format is copied to the output up to each `%`, and what a
directive stands for is put in its place. Numbers are written to a scratch buffer first. No
terminator is written at the end of the output.

## Where things lie

The output and the scratch buffer are in memory, and what a format says is only clear where it is in
neither of them. `SprintfInputs` collects that: the format and the strings among the arguments lie
outside of the two buffers, the buffers do not overlap, and the text fits the output.

## One pass, one piece

`exists_sprintfStep` says that one pass of the loop puts the text of one piece behind the output so
far. It has a case for an ordinary character and one for each directive; `%s` copies a string, and
the two directives for numbers write the scratch buffer and copy it. `exists_run_sprintfStep` is the
loop, by induction on the pieces that are left.

## The terminator

What is behind the text in the output was there before. So the output is a string, and reads as the
text, exactly when a zero byte happened to be behind it. `SprintfInputs.exists_end` keeps where the
loop ends, because that is the byte in question.
-/

namespace Sugarcat

open ByteMemory

/-! ## The functions -/

structure CopyLoop where
  i : Word
  mem : Memory

def strncpyStep (dest src : Addr) (n : Word) (l : CopyLoop) : CopyLoop ⊕ CopyLoop :=
  if l.i < n ∧ l.mem (src + l.i) ≠ 0#8 then
    .inl ⟨l.i + 1#32, writeByte l.mem (dest + l.i) (l.mem (src + l.i))⟩
  else .inr l

/-- Copy up to `n` characters, and fill up with zeros. -/
def strncpy (m : Memory) (dest src : Addr) (n : Word) : Option Memory :=
  if dest ≠ 0#32 ∧ src ≠ 0#32 then
    (Loop.run (strncpyStep dest src n) (2 ^ 32) ⟨0#32, m⟩).map fun l ↦
      Loop.upTo (fun k m ↦ writeByte m (dest + (l.i + ptr k)) 0#8) (n - l.i).toNat l.mem
  else some m

/-- The variables of the loop of `sprintf`, with the arguments that are left, and memory. -/
structure SprintfLoop where
  outIndex : Word
  inIndex : Word
  va : List Word
  mem : Memory

/-- Put the string at `src` to the output. -/
def SprintfLoop.put (l : SprintfLoop) (outStr src : Addr) : Option SprintfLoop :=
  (strlen l.mem src).bind fun size ↦
    (strncpy l.mem (outStr + l.outIndex) src size).map fun m ↦
      { l with outIndex := l.outIndex + size, mem := m }

/-- What a directive does. An unknown one does nothing. -/
def sprintfDirective (outStr buf : Addr) (d : Byte) (l : SprintfLoop) : Option SprintfLoop :=
  let arg := l.va.headD 0#32
  if d = 0x78#8 ∨ d = 0x69#8 then
    let m := memset buf 0#8 11#32 l.mem
    (if d = 0x78#8 then itox m arg buf else itoa m arg buf).bind fun m ↦
      { l with va := l.va.tail, mem := m }.put outStr buf
  else if d = 0x73#8 then { l with va := l.va.tail }.put outStr arg
  else if d = 0x63#8 then
    some { l with
      outIndex := l.outIndex + 1#32
      va := l.va.tail
      mem := writeByte l.mem (outStr + l.outIndex) (arg.truncate 8) }
  else some l

/-- One pass of the loop of `sprintf`, at a character of the format. -/
def sprintfStep (outStr format buf : Addr) (l : SprintfLoop) :
    SprintfLoop ⊕ Option SprintfLoop :=
  if l.mem (format + l.inIndex) ≠ 0#8 then
    if l.mem (format + l.inIndex) = 0x25#8 then
      let inIndex := l.inIndex + 1#32
      match sprintfDirective outStr buf (l.mem (format + inIndex)) l with
      | none => .inr none
      | some l => .inl { l with inIndex := inIndex + 1#32 }
    else
      .inl { l with
        outIndex := l.outIndex + 1#32
        inIndex := l.inIndex + 1#32
        mem := writeByte l.mem (outStr + l.outIndex) (l.mem (format + l.inIndex)) }
  else .inr (some l)

/-- `buf` is the scratch buffer. The indices are of type `int`, so there are not more passes than
that. -/
def sprintf (m : Memory) (outStr format buf : Addr) (va : List Word) : Option Memory :=
  if outStr ≠ 0#32 ∧ format ≠ 0#32 then
    (Loop.run (sprintfStep outStr format buf) (2 ^ 32) ⟨0#32, 0#32, va, m⟩).join.map (·.mem)
  else some m

/-! ## Copying -/

variable {m : Memory} {p q f n : ℕ} {s t l r : List Byte}

theorem bytesAt_append {l r : List Byte} :
    BytesAt m p (l ++ r) ↔ BytesAt m p l ∧ BytesAt m (p + l.length) r := by
  induction l generalizing p with
  | nil => simp [BytesAt]
  | cons b l ih =>
    have hlen : p + (b :: l).length = p + 1 + l.length := by
      rw [List.length_cons]
      omega
    rw [List.cons_append, bytesAt_cons, bytesAt_cons, ih, hlen, and_assoc]

theorem bytesAt_cons_cons {b c : Byte} :
    BytesAt m p (b :: c :: s) ↔ m (ptr p) = b ∧ m (ptr (p + 1)) = c ∧ BytesAt m (p + 2) s := by
  rw [bytesAt_cons, bytesAt_cons]

theorem run_strncpyStep (hl : BytesAt m p l) (hr : BytesAt m (q + l.length) r) (hnz : 0#8 ∉ r)
    (hn : l.length + r.length = n) (hp : p + n < 2 ^ 32) (hq : q + n < 2 ^ 32)
    (hapart : p + n ≤ q ∨ q + n ≤ p) :
    ∃ m', Loop.run (strncpyStep (ptr p) (ptr q) (ptr n)) r.length ⟨ptr l.length, m⟩
        = some ⟨ptr n, m'⟩ ∧ BytesAt m' p (l ++ r) ∧ EqOutside (InRange (ptr p) n) m m' := by
  induction r generalizing l m with
  | nil =>
    rw [List.length_nil, Nat.add_zero] at hn
    have hstep : strncpyStep (ptr p) (ptr q) (ptr n) ⟨ptr n, m⟩ = .inr ⟨ptr n, m⟩ :=
      if_neg fun h ↦ BitVec.lt_irrefl (ptr n) h.1
    rw [List.append_nil, hn]
    exact ⟨m, Loop.run_of_exit hstep _, hl, EqOutside.refl _ _⟩
  | cons b r ih =>
    rw [List.length_cons] at hn
    rw [bytesAt_cons] at hr
    rw [List.mem_cons, not_or] at hnz
    have hlen : (l ++ [b]).length = l.length + 1 := by simp
    have hread : m (ptr q + ptr l.length) = b := by
      rw [ptr_add]
      exact hr.1
    have hlt : ptr l.length < ptr n := by
      rw [BitVec.lt_def, toNat_ptr (by omega), toNat_ptr (by omega)]
      omega
    have hstep : strncpyStep (ptr p) (ptr q) (ptr n) ⟨ptr l.length, m⟩
        = .inl ⟨ptr (l ++ [b]).length, writeByte m (ptr (p + l.length)) b⟩ := by
      have hcond : ptr l.length < ptr n ∧ m (ptr q + ptr l.length) ≠ 0#8 :=
        ⟨hlt, by rw [hread]; exact fun h ↦ hnz.1 h.symm⟩
      rw [strncpyStep, if_pos hcond]
      dsimp only
      rw [hread, ptr_add, ptr_add, hlen]
    have hrest : BytesAt (writeByte m (ptr (p + l.length)) b) (q + (l ++ [b]).length) r := by
      rw [hlen, ← Nat.add_assoc]
      exact hr.2.congr fun i hi ↦ writeByte_of_ne _ (ptr_ne_ptr (by omega) (by omega) (by omega))
    obtain ⟨m', hrun, hbytes, hm'⟩ := ih (hl.concat (by omega) b) hrest hnz.2 (by omega)
    rw [List.append_assoc, List.singleton_append] at hbytes
    refine ⟨m', by rw [List.length_cons, Loop.run_succ hstep, hrun], hbytes, ?_⟩
    exact (eqOutside_writeByte (inRange_ptr (by omega) (by omega)) _ _).trans hm'

/-- A string is copied where it does not overlap the copy. -/
theorem strncpy_eq {s : CString} (h : s.At m q) (hp : 0 < p) (hq : 0 < q)
    (hpfits : p + s.bytes.length < 2 ^ 32) (hqfits : q + s.bytes.length < 2 ^ 32)
    (hapart : p + s.bytes.length ≤ q ∨ q + s.bytes.length ≤ p) :
    ∃ m', strncpy m (ptr p) (ptr q) (ptr s.bytes.length) = some m' ∧ BytesAt m' p s.bytes ∧
      EqOutside (InRange (ptr p) s.bytes.length) m m' := by
  obtain ⟨m', hrun, hbytes, hm'⟩ := run_strncpyStep (l := []) (fun i hi ↦ absurd hi (by simp)) h.1
    s.nonzero (by simp) hpfits hqfits hapart
  refine ⟨m', ?_, hbytes, hm'⟩
  have hrun' : Loop.run (strncpyStep (ptr p) (ptr q) (ptr s.bytes.length)) (2 ^ 32) ⟨0#32, m⟩
      = some ⟨ptr s.bytes.length, m'⟩ := Loop.run_mono (by omega) hrun
  rw [strncpy, if_pos ⟨ptr_ne_zero hp (by omega), ptr_ne_zero hq (by omega)⟩, hrun',
    Option.map_some]
  dsimp only
  rw [BitVec.sub_self]
  rfl

/-! ## Pieces -/

/-- The bytes that `sprintf` may write, with `n` bytes of output. -/
def Buffers (p n q : ℕ) (x : Addr) : Prop := InRange (ptr p) n x ∨ InRange (ptr q) 11 x

instance (p n q : ℕ) (x : Addr) : Decidable (Buffers p n q x) :=
  inferInstanceAs (Decidable (_ ∨ _))

theorem eqOutside_memset (dat : Addr) (c : Byte) (size : Word) (m : Memory) :
    EqOutside (InRange dat size.toNat) m (memset dat c size m) := by
  intro x hx
  rw [memset_apply, if_neg hx]

/-- The places of the output and the scratch buffer. -/
structure BuffersFit (p n q : ℕ) : Prop where
  out_pos : 0 < p
  out_fits : p + n < 2 ^ 32
  buf_pos : 0 < q
  buf_fits : q + 11 < 2 ^ 32
  apart : p + n ≤ q ∨ q + 11 ≤ p

theorem le_or_le_of_not_inRange {x k : ℕ} (hp : p + n < 2 ^ 32) (hx : x + k < 2 ^ 32) (hn : 0 < n)
    (hout : ∀ i < k + 1, ¬InRange (ptr p) n (ptr (x + i))) : p + n ≤ x ∨ x + k < p := by
  have hpp : (ptr p).toNat = p := toNat_ptr (by omega)
  have hiff : ∀ i < k + 1, InRange (ptr p) n (ptr (x + i)) ↔ p ≤ x + i ∧ x + i < p + n := by
    intro i hi
    rw [inRange_iff (by omega), hpp, toNat_ptr (by omega)]
  by_contra hmid
  rcases Nat.lt_or_ge x p with hlt | hge
  · have hin := (hiff (p - x) (by omega)).mpr
    exact hout (p - x) (by omega) (hin (by omega))
  · exact hout 0 (by omega) ((hiff 0 (by omega)).mpr (by omega))

theorem SprintfLoop.put_eq {t : CString} {x : ℕ} {l : SprintfLoop} (hs : BytesAt l.mem p s)
    (hout : l.outIndex = ptr s.length) (ht : t.At l.mem x) (hx : 0 < x)
    (hxfits : x + t.bytes.length < 2 ^ 32) (hp : 0 < p) (hpn : p + n < 2 ^ 32)
    (hfits : s.length + t.bytes.length ≤ n) (hapart : p + n ≤ x ∨ x + t.bytes.length ≤ p) :
    ∃ m', l.put (ptr p) (ptr x)
        = some { l with outIndex := ptr (s.length + t.bytes.length), mem := m' } ∧
      BytesAt m' p (s ++ t.bytes) ∧ EqOutside (InRange (ptr p) n) l.mem m' := by
  obtain ⟨m', hcopy, hbytes, hm'⟩ := strncpy_eq (p := p + s.length) ht (by omega) hx (by omega)
    hxfits (by omega)
  have hpp : (ptr p).toNat = p := toNat_ptr (by omega)
  have hps : (ptr (p + s.length)).toNat = p + s.length := toNat_ptr (by omega)
  refine ⟨m', ?_, bytesAt_append.mpr ⟨?_, hbytes⟩, hm'.mono fun y hy ↦ ?_⟩
  · rw [put, strlen_eq ht hx hxfits, Option.bind_some, hout, ptr_add p, hcopy,
      Option.map_some, ptr_add]
  · refine hs.of_eqOutside hm' fun i hi hin ↦ ?_
    rw [inRange_iff (by omega), hps, toNat_ptr (by omega)] at hin
    omega
  · rw [inRange_iff (by omega), hps] at hy
    rw [inRange_iff (by omega), hpp]
    omega

/-- A number goes to the scratch buffer, and from there to the output. -/
theorem exists_put_number (conv : Memory → Option Memory) {t : CString} {l : SprintfLoop}
    (hfit : BuffersFit p n q)
    (hconv : ∃ m', conv (memset (ptr q) 0#8 11#32 l.mem) = some m' ∧ t.At m' q ∧
      EqOutside (InRange (ptr q) (t.bytes.length + 1)) (memset (ptr q) 0#8 11#32 l.mem) m')
    (ht : t.bytes.length ≤ 10) (hs : BytesAt l.mem p s) (hout : l.outIndex = ptr s.length)
    (hfits : s.length + t.bytes.length ≤ n) :
    ∃ m', (conv (memset (ptr q) 0#8 11#32 l.mem)).bind
        (fun m ↦ { l with va := l.va.tail, mem := m }.put (ptr p) (ptr q))
        = some { l with
            outIndex := ptr (s.length + t.bytes.length), va := l.va.tail, mem := m' } ∧
      BytesAt m' p (s ++ t.bytes) ∧ EqOutside (Buffers p n q) l.mem m' := by
  obtain ⟨hp, hpn, hq, hqn, hapart⟩ := hfit
  obtain ⟨m₁, hrun, hat, hm₁⟩ := hconv
  have hclear : EqOutside (InRange (ptr q) 11) l.mem (memset (ptr q) 0#8 11#32 l.mem) :=
    eqOutside_memset (ptr q) 0#8 11#32 l.mem
  have hm : EqOutside (InRange (ptr q) 11) l.mem m₁ :=
    hclear.trans (hm₁.mono fun x hx ↦ inRange_mono (by omega) hx)
  have hqq : (ptr q).toNat = q := toNat_ptr (by omega)
  have hs₁ : BytesAt m₁ p s := by
    refine hs.of_eqOutside hm fun i hi hin ↦ ?_
    rw [inRange_iff (by omega), hqq, toNat_ptr (by omega)] at hin
    omega
  obtain ⟨m₂, hput, hbytes, hm₂⟩ :=
    SprintfLoop.put_eq (l := { l with va := l.va.tail, mem := m₁ }) hs₁ hout hat hq (by omega) hp
      hpn hfits (by omega)
  refine ⟨m₂, ?_, hbytes, ?_⟩
  · rw [hrun, Option.bind_some, hput]
  · exact (hm.mono fun x hx ↦ Or.inr hx).trans (hm₂.mono fun x hx ↦ Or.inl hx)

/-- A pass at a directive. -/
theorem sprintfStep_directive {k : ℕ} {d : Byte} {l l' : SprintfLoop} (hk : l.inIndex = ptr k)
    (hpercent : l.mem (ptr (f + k)) = 0x25#8) (hread : l.mem (ptr (f + k + 1)) = d)
    (hdir : sprintfDirective (ptr p) (ptr q) d l = some l') :
    sprintfStep (ptr p) (ptr f) (ptr q) l = .inl { l' with inIndex := ptr (k + 2) } := by
  have hchar : l.mem (ptr f + l.inIndex) = 0x25#8 := by rw [hk, ptr_add, hpercent]
  have hnext : l.mem (ptr f + (l.inIndex + 1#32)) = d := by
    rw [hk, ptr_add_one, ptr_add, ← Nat.add_assoc, hread]
  rw [sprintfStep, if_pos (by rw [hchar]; decide), if_pos hchar]
  dsimp only
  rw [hnext, hdir]
  dsimp only
  rw [hk, ptr_add_one, ptr_add_one]

theorem sprintfStep_char {k : ℕ} {b : Byte} {l : SprintfLoop} (hk : l.inIndex = ptr k)
    (hread : l.mem (ptr (f + k)) = b) (hzero : b ≠ 0#8) (hpercent : b ≠ 0x25#8)
    (hout : l.outIndex = ptr s.length) :
    sprintfStep (ptr p) (ptr f) (ptr q) l = .inl { l with
      outIndex := ptr (s.length + 1)
      inIndex := ptr (k + 1)
      mem := writeByte l.mem (ptr (p + s.length)) b } := by
  have hchar : l.mem (ptr f + l.inIndex) = b := by rw [hk, ptr_add, hread]
  rw [sprintfStep, if_pos (by rw [hchar]; exact hzero), if_neg (by rw [hchar]; exact hpercent),
    hchar, hout, hk, ptr_add_one, ptr_add_one, ptr_add]

/-- **One pass puts the text of one piece.** -/
theorem exists_sprintfStep {c : Piece} {k : ℕ} (hfit : BuffersFit p n q)
    (hformat : BytesAt m (f + k) c.bytes) (hready : c.Ready (Buffers p n q) m)
    (hs : BytesAt m p s) (hfits : s.length + c.text.length ≤ n) (va : List Word) :
    ∃ m', sprintfStep (ptr p) (ptr f) (ptr q) ⟨ptr s.length, ptr k, c.args ++ va, m⟩
        = .inl ⟨ptr (s.length + c.text.length), ptr (k + c.bytes.length), va, m'⟩ ∧
      BytesAt m' p (s ++ c.text) ∧ EqOutside (Buffers p n q) m m' := by
  cases c with
  | char b hzero hpercent =>
    have hread : m (ptr (f + k)) = b := (bytesAt_cons.mp hformat).1
    change s.length + 1 ≤ n at hfits
    have := hfit.out_fits
    refine ⟨_, sprintfStep_char rfl hread hzero hpercent rfl, hs.concat (by omega) b, ?_⟩
    exact eqOutside_writeByte (Or.inl (inRange_ptr (by omega) (by omega))) m b
  | unknown d hzero hletter =>
    obtain ⟨hpercent, hd, -⟩ := bytesAt_cons_cons.mp hformat
    simp only [directiveLetters, List.mem_cons, List.not_mem_nil, or_false, not_or] at hletter
    obtain ⟨hx, hi, hstr, hchr⟩ := hletter
    have hdir : sprintfDirective (ptr p) (ptr q) d ⟨ptr s.length, ptr k, va, m⟩
        = some ⟨ptr s.length, ptr k, va, m⟩ := by
      rw [sprintfDirective, if_neg (not_or.mpr ⟨hx, hi⟩), if_neg hstr, if_neg hchr]
    refine ⟨m, sprintfStep_directive rfl hpercent hd hdir, ?_, EqOutside.refl _ _⟩
    rw [Piece.text, List.append_nil]
    exact hs
  | hex v =>
    obtain ⟨hpercent, hd, -⟩ := bytesAt_cons_cons.mp hformat
    have hlen : (hexString v).bytes.length ≤ 8 := length_hexDigits_le v.isLt
    have hqn := hfit.buf_fits
    have hitox := itox_eq (memset (ptr q) 0#8 11#32 m) v hfit.buf_pos (by omega)
    obtain ⟨m', hput, hbytes, hm'⟩ := exists_put_number (fun m ↦ itox m v (ptr q))
      (l := ⟨ptr s.length, ptr k, v :: va, m⟩) hfit hitox (by omega) hs rfl hfits
    have hdir : sprintfDirective (ptr p) (ptr q) 0x78#8 ⟨ptr s.length, ptr k, v :: va, m⟩
        = some ⟨ptr (s.length + (hexString v).bytes.length), ptr k, va, m'⟩ := hput
    exact ⟨m', sprintfStep_directive rfl hpercent hd hdir, hbytes, hm'⟩
  | int v =>
    obtain ⟨hpercent, hd, -⟩ := bytesAt_cons_cons.mp hformat
    obtain ⟨heq, hlen⟩ := itoaString_eq hready
    have hqn := hfit.buf_fits
    have hitoa := itoa_eq (memset (ptr q) 0#8 11#32 m) v hfit.buf_pos (by rw [heq]; omega)
    rw [heq] at hitoa
    obtain ⟨m', hput, hbytes, hm'⟩ := exists_put_number (fun m ↦ itoa m v (ptr q))
      (l := ⟨ptr s.length, ptr k, v :: va, m⟩) hfit hitoa hlen hs rfl hfits
    have hdir : sprintfDirective (ptr p) (ptr q) 0x69#8 ⟨ptr s.length, ptr k, v :: va, m⟩
        = some ⟨ptr (s.length + (intString v).bytes.length), ptr k, va, m'⟩ := hput
    exact ⟨m', sprintfStep_directive rfl hpercent hd hdir, hbytes, hm'⟩
  | str a t =>
    obtain ⟨hpercent, hd, -⟩ := bytesAt_cons_cons.mp hformat
    obtain ⟨⟨hat, hpos, hends⟩, hapart⟩ := hready
    have hout : ∀ i < t.bytes.length + 1, ¬InRange (ptr p) n (ptr (a.toNat + i)) :=
      fun i hi hin ↦ hapart i hi (Or.inl hin)
    change s.length + t.bytes.length ≤ n at hfits
    have hside : p + n ≤ a.toNat ∨ a.toNat + t.bytes.length ≤ p := by
      rcases Nat.eq_zero_or_pos n with hn | hn
      · omega
      · have := le_or_le_of_not_inRange hfit.out_fits hends hn hout
        omega
    obtain ⟨m', hput, hbytes, hm'⟩ := SprintfLoop.put_eq (l := ⟨ptr s.length, ptr k, va, m⟩)
      hs rfl hat hpos hends hfit.out_pos hfit.out_fits hfits hside
    rw [ptr_toNat] at hput
    have hdir : sprintfDirective (ptr p) (ptr q) 0x73#8 ⟨ptr s.length, ptr k, a :: va, m⟩
        = some ⟨ptr (s.length + t.bytes.length), ptr k, va, m'⟩ := hput
    exact ⟨m', sprintfStep_directive rfl hpercent hd hdir, hbytes, hm'.mono fun x hx ↦ Or.inl hx⟩
  | chr v =>
    obtain ⟨hpercent, hd, -⟩ := bytesAt_cons_cons.mp hformat
    change s.length + 1 ≤ n at hfits
    have hpn := hfit.out_fits
    have hdir : sprintfDirective (ptr p) (ptr q) 0x63#8 ⟨ptr s.length, ptr k, v :: va, m⟩
        = some ⟨ptr (s.length + 1), ptr k, va,
            writeByte m (ptr (p + s.length)) (v.truncate 8)⟩ := by
      rw [← ptr_add_one, ← ptr_add]
      rfl
    refine ⟨_, sprintfStep_directive rfl hpercent hd hdir, hs.concat (by omega) _, ?_⟩
    exact eqOutside_writeByte (Or.inl (inRange_ptr (by omega) (by omega))) m _

/-! ## Formats -/

/-- **The loop puts the text of a format**, from any piece of it on. -/
theorem exists_run_sprintfStep {cs : List Piece} {k : ℕ} (hfit : BuffersFit p n q)
    (hformat : ∀ m', EqOutside (Buffers p n q) m m' → BytesAt m' (f + k) (formatOf cs))
    (hready : ∀ c ∈ cs, c.Ready (Buffers p n q) m) (hs : BytesAt m p s)
    (hfits : s.length + (textOf cs).length ≤ n) (va : List Word) (N : ℕ) :
    ∃ m', (Loop.run (sprintfStep (ptr p) (ptr f) (ptr q)) (cs.length + N)
        ⟨ptr s.length, ptr k, argsOf cs ++ va, m⟩ = Loop.run (sprintfStep (ptr p) (ptr f) (ptr q)) N
          ⟨ptr (s.length + (textOf cs).length), ptr (k + (formatOf cs).length), va, m'⟩) ∧
      BytesAt m' p (s ++ textOf cs) ∧ EqOutside (Buffers p n q) m m' := by
  induction cs generalizing k s m with
  | nil =>
    refine ⟨m, ?_, ?_, EqOutside.refl _ _⟩
    · rw [List.length_nil, Nat.zero_add]
      rfl
    · rw [textOf, List.flatMap_nil, List.append_nil]
      exact hs
  | cons c cs ih =>
    have htext : textOf (c :: cs) = c.text ++ textOf cs := rfl
    have hargs : argsOf (c :: cs) = c.args ++ argsOf cs := rfl
    have hbytes : formatOf (c :: cs) = c.bytes ++ formatOf cs := rfl
    rw [htext, List.length_append] at hfits
    rw [hbytes] at hformat
    obtain ⟨m₁, hstep, hs₁, hm₁⟩ := exists_sprintfStep hfit
      (bytesAt_append.mp (hformat m (EqOutside.refl _ _))).1 (hready c List.mem_cons_self) hs
      (by omega) (argsOf cs ++ va)
    have hformat₁ : ∀ m', EqOutside (Buffers p n q) m₁ m' →
        BytesAt m' (f + (k + c.bytes.length)) (formatOf cs) := by
      intro m' hm'
      rw [← Nat.add_assoc]
      exact (bytesAt_append.mp (hformat m' (hm₁.trans hm'))).2
    have hready₁ : ∀ c ∈ cs, c.Ready (Buffers p n q) m₁ :=
      fun d hd ↦ (hready d (List.mem_cons_of_mem _ hd)).of_eqOutside hm₁
    obtain ⟨m₂, hrun, hs₂, hm₂⟩ := ih hformat₁ hready₁ hs₁ (by rw [List.length_append]; omega)
    refine ⟨m₂, ?_, by rw [htext, ← List.append_assoc]; exact hs₂, hm₁.trans hm₂⟩
    rw [List.length_append] at hrun
    rw [List.length_cons, Nat.add_right_comm, hargs, List.append_assoc, Loop.run_succ hstep, hrun,
      htext, hbytes, List.length_append, List.length_append, Nat.add_assoc, Nat.add_assoc]

/-- How the loop of `sprintf` ends. -/
def sprintfEnd (m : Memory) (outStr format buf : Addr) (va : List Word) : Option SprintfLoop :=
  (Loop.run (sprintfStep outStr format buf) (2 ^ 32) ⟨0#32, 0#32, va, m⟩).join

theorem sprintf_eq_map_end {outStr format buf : Addr} (hout : outStr ≠ 0#32)
    (hformat : format ≠ 0#32) (va : List Word) :
    sprintf m outStr format buf va = (sprintfEnd m outStr format buf va).map (·.mem) :=
  if_pos ⟨hout, hformat⟩

/-- A format and its strings, outside of the output and the scratch buffer, with room for the
text. -/
structure SprintfInputs (m : Memory) (outStr : Addr) (n : ℕ) (format buf : Addr)
    (cs : List Piece) : Prop where
  fit : BuffersFit outStr.toNat n buf.toNat
  format : LiteralApart (Buffers outStr.toNat n buf.toNat) m format (formatString cs)
  ready : ∀ c ∈ cs, c.Ready (Buffers outStr.toNat n buf.toNat) m
  room : (textOf cs).length ≤ n

theorem length_le_formatOf (cs : List Piece) : cs.length ≤ (formatOf cs).length := by
  induction cs with
  | nil => exact Nat.zero_le _
  | cons c cs ih =>
    have hbytes : formatOf (c :: cs) = c.bytes ++ formatOf cs := rfl
    have hpos : 0 < c.bytes.length := by cases c <;> exact Nat.succ_pos _
    rw [hbytes, List.length_append, List.length_cons]
    omega

/-- **What `sprintf` comes to.** -/
theorem SprintfInputs.exists_end {outStr format buf : Addr} {cs : List Piece}
    (h : SprintfInputs m outStr n format buf cs) (va : List Word) :
    ∃ m', sprintfEnd m outStr format buf (argsOf cs ++ va)
        = some ⟨ptr (textOf cs).length, ptr (formatOf cs).length, va, m'⟩ ∧
      BytesAt m' outStr.toNat (textOf cs) ∧
      EqOutside (Buffers outStr.toNat n buf.toNat) m m' := by
  have hformat : ∀ m', EqOutside (Buffers outStr.toNat n buf.toNat) m m' →
      BytesAt m' (format.toNat + 0) (formatOf cs) :=
    fun m' hm' ↦ (h.format.of_eqOutside hm').at.1
  obtain ⟨m', hrun, hbytes, hm'⟩ := exists_run_sprintfStep h.fit hformat h.ready
    (bytesAt_nil m outStr.toNat) (by rw [List.length_nil, Nat.zero_add]; exact h.room) va 0
  rw [List.length_nil, Nat.zero_add, Nat.zero_add, ptr_toNat, ptr_toNat, ptr_toNat] at hrun
  have hend : m' (format + ptr (formatOf cs).length) = 0#8 := by
    have hzero := (h.format.of_eqOutside hm').at.2
    rwa [← ptr_add, ptr_toNat] at hzero
  have hexit : sprintfStep outStr format buf
      ⟨ptr (textOf cs).length, ptr (formatOf cs).length, va, m'⟩
        = .inr (some ⟨ptr (textOf cs).length, ptr (formatOf cs).length, va, m'⟩) :=
    if_neg (not_not.mpr hend)
  rw [Loop.run_of_exit hexit] at hrun
  have hlen := length_le_formatOf cs
  have hfits : format.toNat + (formatOf cs).length < 2 ^ 32 := h.format.literal.fits
  refine ⟨m', ?_, hbytes, hm'⟩
  rw [sprintfEnd]
  exact (congrArg Option.join (Loop.run_mono (by omega) hrun)).trans rfl

/-! ## The terminator -/

/-- After `sprintf`, the string at `outStr` is the text of the format. -/
def Formats (m : Memory) (outStr format buf : Addr) (cs : List Piece) (va : List Word) : Prop :=
  ∃ m', sprintf m outStr format buf (argsOf cs ++ va) = some m' ∧
    ∃ s : CString, s.At m' outStr.toNat ∧ s.bytes = textOf cs

variable {outStr format buf : Addr} {cs : List Piece}

theorem LiteralApart.mono {F G : Addr → Prop} {a : Addr} {s : CString} (h : LiteralApart F m a s)
    (hGF : ∀ x, G x → F x) : LiteralApart G m a s :=
  ⟨h.literal, fun i hi hG ↦ h.apart i hi (hGF _ hG)⟩

theorem Piece.Ready.mono {F G : Addr → Prop} {c : Piece} (h : c.Ready F m)
    (hGF : ∀ x, G x → F x) : c.Ready G m := by
  cases c with
  | str a s => exact LiteralApart.mono h hGF
  | int v => exact h
  | char _ _ _ | unknown _ _ _ | hex _ | chr _ => trivial

theorem SprintfInputs.mono {k : ℕ} (h : SprintfInputs m outStr n format buf cs) (hkn : k ≤ n)
    (hroom : (textOf cs).length ≤ k) : SprintfInputs m outStr k format buf cs := by
  have hbuffers : ∀ x, Buffers outStr.toNat k buf.toNat x → Buffers outStr.toNat n buf.toNat x :=
    fun x hx ↦ hx.imp (inRange_mono hkn) id
  obtain ⟨hp, hpn, hq, hqn, hapart⟩ := h.fit
  exact {
    fit := ⟨hp, by omega, hq, hqn, by omega⟩
    format := h.format.mono hbuffers
    ready := fun c hc ↦ (h.ready c hc).mono hbuffers
    room := hroom }

/-- `sprintf` writes the text, and nothing behind it. -/
theorem SprintfInputs.exists_sprintf (h : SprintfInputs m outStr n format buf cs)
    (hroom : (textOf cs).length < n) (va : List Word) :
    ∃ m', sprintf m outStr format buf (argsOf cs ++ va) = some m' ∧
      BytesAt m' outStr.toNat (textOf cs) ∧
      m' (outStr + ptr (textOf cs).length) = m (outStr + ptr (textOf cs).length) := by
  obtain ⟨m', hend, hbytes, hm'⟩ := (h.mono hroom.le le_rfl).exists_end va
  obtain ⟨hp, hpn, hq, hqn, hapart⟩ := h.fit
  have hnull : outStr ≠ 0#32 := ne_zero_of_toNat_pos hp
  refine ⟨m', ?_, hbytes, hm' _ ?_⟩
  · rw [sprintf_eq_map_end hnull h.format.literal.ne_null, hend, Option.map_some]
  have hnext : (outStr + ptr (textOf cs).length).toNat = outStr.toNat + (textOf cs).length := by
    rw [BitVec.toNat_add, toNat_ptr (by omega), Nat.mod_eq_of_lt (by omega)]
  rw [Buffers, ptr_toNat, ptr_toNat]
  rintro (hin | hin)
  · rw [inRange_iff (by omega), hnext] at hin
    omega
  · rw [inRange_iff (by omega), hnext] at hin
    omega

/-- **The text is a string exactly when a zero byte was behind it before.** -/
theorem formats_iff (h : SprintfInputs m outStr n format buf cs) (hroom : (textOf cs).length < n)
    (hvisible : ∀ c ∈ cs, c.Visible) (va : List Word) :
    Formats m outStr format buf cs va ↔ m (outStr + ptr (textOf cs).length) = 0#8 := by
  obtain ⟨m', hrun, hbytes, hnext⟩ := h.exists_sprintf hroom va
  rw [← hnext, Formats, hrun]
  simp only [Option.some.injEq, exists_eq_left']
  constructor
  · rintro ⟨s, ⟨-, hend⟩, hs⟩
    rwa [hs, ← ptr_add, ptr_toNat] at hend
  · intro hend
    refine ⟨⟨textOf cs, zero_notMem_textOf hvisible⟩, ⟨hbytes, ?_⟩, rfl⟩
    rwa [← ptr_add, ptr_toNat]

theorem zero_notMem_word : 0#8 ∉ [0x6F#8, 0x6B#8] := by decide

/-- The argument of `%s`, at `0x1100`. -/
def printWord : CString := ⟨[0x6F#8, 0x6B#8], zero_notMem_word⟩

theorem ordinary_letter : (0x61#8 : Byte) ≠ 0#8 ∧ (0x61#8 : Byte) ≠ 0x25#8 := by decide

/-- A piece of each kind. -/
def printPieces : List Piece :=
  [.char 0x61#8 ordinary_letter.1 ordinary_letter.2, .hex 0x2A#32, .int (-5#32),
    .str 0x1100#32 printWord, .chr 0x63#32]

/-- Their format at `0x1000`, and an output at `0x2000` that was filled with `c`. -/
def printMemory (c : Byte) : Memory := fun x ↦
  if InRange 0x2000#32 16 x then c
  else if InRange 0x1100#32 2 x then printWord.bytes.getD (x - 0x1100#32).toNat 0#8
  else (formatOf printPieces).getD (x - 0x1000#32).toNat 0#8

theorem sprintfInputs_print {c : Byte} (hc : c = 0#8 ∨ c = 0x58#8) :
    SprintfInputs (printMemory c) 0x2000#32 16 0x1000#32 0x3000#32 printPieces := by
  have hready : ∀ d ∈ printPieces, d.Ready (Buffers 0x2000 16 0x3000) (printMemory c) := by
    intro d hd
    simp only [printPieces, List.mem_cons, List.not_mem_nil, or_false] at hd
    rcases hd with rfl | rfl | rfl | rfl | rfl
    · trivial
    · trivial
    · exact (by decide : -1000000000 < (-5#32 : Word).toInt)
    · rcases hc with rfl | rfl <;> exact ⟨by decide +kernel, by decide +kernel⟩
    · trivial
  rcases hc with rfl | rfl <;>
    exact {
      fit := ⟨by decide, by decide, by decide, by decide, by decide⟩
      format := ⟨by decide +kernel, by decide +kernel⟩
      ready := hready
      room := by decide +kernel }

theorem visible_printPieces : ∀ c ∈ printPieces, c.Visible := by
  intro c hc
  simp only [printPieces, List.mem_cons, List.not_mem_nil, or_false] at hc
  rcases hc with rfl | rfl | rfl | rfl | rfl
  · trivial
  · trivial
  · trivial
  · trivial
  · exact (by decide : ((0x63#32 : Word).truncate 8 : Byte) ≠ 0#8)

theorem formats_iff_print :
    Formats (printMemory 0#8) 0x2000#32 0x1000#32 0x3000#32 printPieces [] :=
  (formats_iff (sprintfInputs_print (Or.inl rfl)) (by decide +kernel) visible_printPieces []).mpr
    (by decide +kernel)

/-- What was in the output before is still there behind the text. -/
theorem not_formats_print :
    SprintfInputs (printMemory 0x58#8) 0x2000#32 16 0x1000#32 0x3000#32 printPieces ∧
      (∀ c ∈ printPieces, c.Visible) ∧
      ¬Formats (printMemory 0x58#8) 0x2000#32 0x1000#32 0x3000#32 printPieces [] := by
  have hin := sprintfInputs_print (c := 0x58#8) (Or.inr rfl)
  refine ⟨hin, visible_printPieces, ?_⟩
  obtain ⟨m', hrun, -, hnext⟩ := hin.exists_sprintf (by decide +kernel) []
  rintro ⟨m'', hrun', s, ⟨-, hend⟩, hs⟩
  obtain rfl := Option.some_inj.mp (hrun.symm.trans hrun')
  rw [hs, ← ptr_add, ptr_toNat, hnext] at hend
  exact absurd hend (by decide +kernel)

end Sugarcat
