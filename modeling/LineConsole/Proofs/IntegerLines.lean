import LineConsole.Proofs.Independence
import LineConsole.Proofs.LineQueue
import LineConsole.Proofs.Literals

/-!
Integers that are printed and read back. The decimal digits of a number have that number as their
value, with zeros in front and without; the sign of a negative number is no digit. A line on a
console that reads what it writes stays behind the lines before it, whatever is written meanwhile,
until exactly these have been read.
-/
namespace LineConsole

open LineBuffer Pieces Fallible Utf8

/-! The value of printed digits -/

namespace Literal

theorem digitValue_ofNat {c : Char} (h : c.isDigit) :
    digitValue (UInt8.ofNat c.toNat) = c.toNat - '0'.toNat := by
  have hc := isPrintable_of_isDigit h
  rw [digitValue, UInt8.toNat_ofNat_of_lt' (Nat.lt_trans hc.2 (by decide))]
  rfl

theorem isDigit_ofNat {c : Char} (h : c.isDigit) : IsDigit (UInt8.ofNat c.toNat) := by
  have hc := isPrintable_of_isDigit h
  rw [IsDigit, UInt8.toNat_ofNat_of_lt' (Nat.lt_trans hc.2 (by decide))]
  exact Char.isDigit_iff_toNat.mp h

/-- The bytes of digits have the value of the digits. -/
theorem value_map {digits : List Char} (h : ∀ c ∈ digits, c.isDigit) :
    value (digits.map fun c => UInt8.ofNat c.toNat) = Nat.ofDigitChars 10 digits 0 := by
  induction digits with
  | nil => rfl
  | cons c rest ih =>
    have hrest : ∀ d ∈ rest, d.isDigit := fun d hd => h d (List.mem_cons_of_mem c hd)
    have hfirst : Nat.ofDigitChars 10 (c :: rest) 0 =
        10 ^ rest.length * (c.toNat - '0'.toNat) + Nat.ofDigitChars 10 rest 0 := by
      rw [Nat.ofDigitChars_cons, Nat.mul_zero, Nat.zero_add]
      exact Nat.ofDigitChars_eq_ofDigitChars_zero
    rw [List.map_cons, value_cons, ih hrest, digitValue_ofNat (h c List.mem_cons_self),
      List.length_map, hfirst, Nat.mul_comm]

/-- A text of digits, if there are any and they stay in range, is read as their value. -/
theorem parse_digits {text : String} {n : Int32} (hdigits : ∀ c ∈ text.toList, c.isDigit)
    (htext : text.toList ≠ []) (hvalue : n.toInt = Nat.ofDigitChars 10 text.toList 0) :
    parse (encode text) = .ok n := by
  have hbytes := encode_printable fun c hc => isPrintable_of_isDigit (hdigits c hc)
  have hrange := n.toInt_lt
  rw [hbytes, parse_eq_ok_iff, value_map hdigits]
  refine ⟨?_, ?_, ?_, hvalue⟩
  · simpa using htext
  · intro b hb
    obtain ⟨c, hc, rfl⟩ := List.mem_map.mp hb
    exact isDigit_ofNat (hdigits c hc)
  · omega

end Literal

namespace Value

theorem toList_text_of_nonneg {n : Int32} (h : 0 ≤ n) :
    (int n).text.toList = Nat.toDigits 10 n.toInt.natAbs := by
  rw [text, pieces, if_neg (by simpa using h), List.nil_append]
  simp [Nat.toList_repr]

theorem toList_text_of_neg {n : Int32} (h : n < 0) :
    (int n).text.toList = '-' :: Nat.toDigits 10 n.toInt.natAbs := by
  rw [text, pieces, if_pos h]
  simp [Nat.toList_repr]

/-- The text of an integer behind additional zeros. -/
def padded (zeros : Nat) (n : Int32) : String :=
  String.ofList (List.replicate zeros '0') ++ (int n).text

theorem toList_padded (zeros : Nat) (n : Int32) :
    (padded zeros n).toList = List.replicate zeros '0' ++ (int n).text.toList := by
  rw [padded, String.toList_append, String.toList_ofList]

theorem padded_zero (n : Int32) : padded 0 n = (int n).text := by
  rw [← String.toList_inj, toList_padded]
  rfl

theorem isDigit_of_mem_padded {zeros : Nat} {n : Int32} (hn : 0 ≤ n) {c : Char}
    (h : c ∈ (padded zeros n).toList) : c.isDigit := by
  rw [toList_padded, toList_text_of_nonneg hn] at h
  rcases List.mem_append.mp h with hzero | hdigit
  · rw [List.eq_of_mem_replicate hzero]
    decide
  · exact Nat.isDigit_of_mem_toDigits (by decide) (by decide) hdigit

/-- An integer that is not negative is read from its text, with any number of zeros in front. -/
theorem parse_padded (zeros : Nat) {n : Int32} (hn : 0 ≤ n) :
    Literal.parse (encode (padded zeros n)) = .ok n := by
  apply Literal.parse_digits fun c hc => isDigit_of_mem_padded hn hc
  · rw [toList_padded, toList_text_of_nonneg hn]
    simp [Nat.toDigits_ne_nil]
  · have hpos : 0 ≤ n.toInt := Int32.le_iff_toInt_le.mp hn
    rw [toList_padded, toList_text_of_nonneg hn, Nat.ofDigitChars_append,
      Nat.ofDigitChars_replicate_zero, Nat.mul_zero, Nat.ofDigitChars_ten_toDigits,
      Int.natAbs_of_nonneg hpos]

/-- The text of a negative integer is refused for its sign. -/
theorem parse_text_of_neg {n : Int32} (hn : n < 0) :
    Literal.parse (encode (int n).text) =
      .error ⟨.invalidDigit, encode (int n).text⟩ := by
  apply Literal.parse_of_not_digit
  refine ⟨0x2D, ?_, fun h => absurd h.1 (by decide)⟩
  rw [encode, toList_text_of_neg hn]
  exact List.mem_cons_self

end Value

namespace Console

/-! A line in a stream of lines -/

/-- A text of digits is a line if there is room for it. -/
theorem fits_of_digits {line : String} (hdigits : ∀ c ∈ line.toList, c.isDigit)
    (hlength : (encode line).length ≤ 254) : Fits (encode line) := by
  have hprintable : ∀ c ∈ line.toList, IsPrintable c :=
    fun c hc => isPrintable_of_isDigit (hdigits c hc)
  rw [encode_printable hprintable, List.length_map] at hlength
  have hnarrow : Narrow 254 line := ⟨hprintable, hlength⟩
  exact fits_of_narrow hnarrow (Nat.le_refl _)

/-- The number of operations that read from the input. -/
def reads (ops : List Op) : Nat := ops.countP fun op => op.request?.isSome

def Begins (front : Bytes) (s t : Loopback) : Prop := s = t ∧ ∃ more, s.queue = front ++ more

theorem writesAlike_begins (front : Bytes) : Channel.WritesAlike (Begins front) where
  writeAll bytes := by
    rintro s _ ⟨rfl, more, hs⟩
    refine ⟨_, _, _, rfl, rfl, rfl, more ++ bytes, ?_⟩
    rw [hs, List.append_assoc]
  flush := by
    rintro s _ ⟨rfl, hs⟩
    exact ⟨_, _, _, rfl, rfl, rfl, hs⟩

/-- Whatever an operation writes comes behind all that waits. -/
theorem run_adds {op : Op} (hop : op.request? = none) (c : Console Loopback) :
    ∃ more, (op.run c).2.channel.queue = c.channel.queue ++ more := by
  have hagree := Op.run_output_agree (writesAlike_begins c.channel.queue) hop
  obtain ⟨r, s, _, hrun, -, -, hs⟩ := hagree c c ⟨rfl, [], (List.append_nil _).symm⟩
  rw [hrun]
  exact hs

/-- Whatever is made of a line, reading it leaves what a plain read leaves. -/
theorem state_of_read {read : Op} (h : read.IsRequest) (hread : read ≠ .readByte)
    (c : Console Loopback) : (read.run c).2 = (readLine c).2 := by
  cases h with
  | readLine | inputLiteral => rw [Op.run, bind_pure_apply]
  | input => rw [Op.run, bind_pure_apply, input_apply]
  | readByte => exact absurd rfl hread

/-- A prompt comes behind all that waits too, and then one line is read. -/
theorem run_takes {op read : Op} (hop : op.request? = some read) (hread : read ≠ .readByte)
    (c : Console Loopback) :
    ∃ more, (op.run c).2 = (readLine ⟨⟨c.channel.queue ++ more⟩, c.line⟩).2 := by
  obtain ⟨more, hask⟩ :
      ∃ more, ask op.question c.channel = (.ok (), ⟨c.channel.queue ++ more⟩) := by
    cases op.question with
    | none => exact ⟨[], by rw [List.append_nil]; rfl⟩
    | some text => exact ⟨text, rfl⟩
  refine ⟨more, ?_⟩
  rw [Op.run_request hop, hask]
  exact state_of_read (Op.isRequest_of_request? hop) hread _

/-- A finished piece at the front is read, and nothing behind it. -/
theorem readLine_front {q : Bytes} {byte : UInt8} (hq : Unfinished q)
    (hb : ¬ Unfinished (q ++ [byte])) (rest : Bytes) (old : LineBuffer) :
    (readLine (⟨⟨q ++ byte :: rest⟩, old⟩ : Console Loopback)).2.channel = ⟨rest⟩ := by
  have hdelivers := delivers_loopback (q ++ [byte]) rest
  rw [← List.append_cons] at hdelivers
  rw [readLine_finished hdelivers hq hb]

/-- A history that reads just the lines in front leaves what stands behind them in front. -/
theorem through_lines {later : List Op} (hlater : .readByte ∉ later) {before : Bytes}
    (hbefore : IsLines before) (hreads : reads later = (cut before).length) (rest : Bytes)
    (c : Console Loopback) (hc : c.channel.queue = before ++ rest) :
    ∃ more, (through c later).channel.queue = rest ++ more := by
  induction later generalizing before rest c with
  | nil =>
    have hcut : cut before = [] := List.length_eq_zero_iff.mp hreads.symm
    obtain rfl : before = [] := by rw [← cut_flatten before, hcut, List.flatten_nil]
    exact ⟨[], by rw [List.append_nil]; exact hc⟩
  | cons op later ih =>
    have hrest : .readByte ∉ later := fun h => hlater (List.mem_cons_of_mem op h)
    cases hop : op.request? with
    | none =>
      obtain ⟨more, hmore⟩ := run_adds hop c
      rw [hc, List.append_assoc] at hmore
      have hsame : reads (op :: later) = reads later := by simp [reads, hop]
      obtain ⟨last, hlast⟩ := ih hrest hbefore (hsame ▸ hreads) (rest ++ more) _ hmore
      exact ⟨more ++ last, by rw [through, hlast, List.append_assoc]⟩
    | some read =>
      have hone : reads (op :: later) = reads later + 1 := by simp [reads, hop]
      have hread : read ≠ .readByte := by
        rintro rfl
        cases op <;> cases hop
        exact hlater List.mem_cons_self
      rcases unfinished_or_finished before with hshort | ⟨q, byte, left, rfl, hq, hb⟩
      · -- No line is left to be read.
        rw [hbefore.eq_nil hshort, hone] at hreads
        cases hreads
      · obtain ⟨more, hmore⟩ := run_takes hop hread c
        have hfront := readLine_front hq hb (left ++ (rest ++ more)) c.line
        rw [← List.cons_append, ← List.append_assoc, ← List.append_assoc, ← hc, ← hmore] at hfront
        rw [cut_finished left hq hb, hone] at hreads
        obtain ⟨last, hlast⟩ := ih hrest hbefore.of_append (Nat.succ.inj hreads) (rest ++ more) _
          (congrArg Loopback.queue hfront)
        exact ⟨more ++ last, by rw [through, hlast, List.append_assoc]⟩

/-- A line is read as it was written as soon as the lines in front of it have been read. -/
theorem readLine_behind {op : Op} {line : String} (hop : op.line? = some line)
    (hline : Fits (encode line)) (c : Console Loopback) (hc : IsLines c.channel.queue)
    {later : List Op} (hlater : .readByte ∉ later)
    (hreads : reads later = (cut c.channel.queue).length) :
    (readLine (through c (op :: later))).1 = .ok (encode line) := by
  have hrun := run_line hop c
  obtain ⟨more, hmore⟩ := through_lines hlater hc hreads (lineOf line) (op.run c).2 (by rw [hrun])
  have hshort : Unfinished (encode line) := ⟨hline.newline, Nat.lt_succ_of_le hline.length_le⟩
  have hfull : ¬ Unfinished (encode line ++ [LineBuffer.newline]) :=
    fun h => h.1 (List.mem_append_right _ List.mem_cons_self)
  have hdelivers : Channel.Delivers (through c (op :: later)).channel (lineOf line) ⟨more⟩ := by
    have hqueue : (through c (op :: later)).channel = ⟨lineOf line ++ more⟩ :=
      congrArg Loopback.mk hmore
    rw [hqueue]
    exact delivers_loopback (lineOf line) more
  rw [readLine_finished hdelivers hshort hfull, content_newline, dropEnd_of_ne hline.last]

theorem literal_behind {op : Op} {line : String} (hop : op.line? = some line)
    (hline : Fits (encode line)) (c : Console Loopback) (hc : IsLines c.channel.queue)
    {later : List Op} (hlater : .readByte ∉ later)
    (hreads : reads later = (cut c.channel.queue).length) :
    (Op.inputLiteral.run (through c (op :: later))).1 =
      .ok (.literal (Literal.parse (encode line))) := by
  have hread := readLine_behind hop hline c hc hlater hreads
  have hrun := bind_pure_apply readLine (fun line => Answer.literal (Literal.parse line))
    (through c (op :: later))
  rw [hread] at hrun
  exact congrArg Prod.fst hrun

/-- An integer that is printed behind complete lines is read as soon as these have been read,
whatever is written meanwhile. A negative one is refused with its text as it was printed; any
other is read as itself, also behind zeros as long as one read has room for the line. -/
theorem printed_integer_is_read_back (n : Int32) (c : Console Loopback)
    (hc : IsLines c.channel.queue) (later : List Op) (hlater : .readByte ∉ later)
    (hreads : reads later = (cut c.channel.queue).length) :
    let literal (op : Op) := (Op.inputLiteral.run (through c (op :: later))).1
    (0 ≤ n → literal (.print (.int n)) = .ok (.literal (.ok n))) ∧
    (n < 0 → literal (.print (.int n)) =
      .ok (.literal (.error ⟨.invalidDigit, encode (Value.int n).text⟩))) ∧
    (0 ≤ n → ∀ zeros, (encode (Value.padded zeros n)).length ≤ 254 →
      ∀ op : Op, op.line? = some (Value.padded zeros n) → literal op = .ok (.literal (.ok n))) := by
  intro literal
  have htext : Fits (encode (Value.int n).text) :=
    fits_of_narrow (Value.narrow_int n) (by decide)
  have hprinted : literal (.print (.int n)) =
      .ok (.literal (Literal.parse (encode (Value.int n).text))) :=
    literal_behind rfl htext c hc hlater hreads
  refine ⟨?_, ?_, ?_⟩
  · intro hn
    rw [hprinted, ← Value.padded_zero, Value.parse_padded 0 hn]
  · intro hn
    rw [hprinted, Value.parse_text_of_neg hn]
  · intro hn zeros hlength op hop
    have hline := fits_of_digits (fun c hc => Value.isDigit_of_mem_padded hn hc) hlength
    have hpadded := literal_behind hop hline c hc hlater hreads
    rwa [Value.parse_padded zeros hn] at hpadded

/-- The ends of the range behind an old line, with a prompt that reads that line. -/
theorem printed_limits_are_read_back :
    let c : Console Loopback := { channel := ⟨lineOf "old"⟩ }
    let later : List Op := [.print (.str "new"), .prompt [0x3E]]
    let literal (op : Op) := (Op.inputLiteral.run (through c (op :: later))).1
    IsLines c.channel.queue ∧ .readByte ∉ later ∧
      reads later = (cut c.channel.queue).length ∧
      literal (.print (.int 2147483647)) = .ok (.literal (.ok 2147483647)) ∧
      literal (.print (.int (-2147483648))) =
        .ok (.literal (.error ⟨.invalidDigit, encode "-2147483648"⟩)) ∧
      literal (.print (.str "0002147483647")) = .ok (.literal (.ok 2147483647)) := by
  intro c later literal
  have hlines : IsLines c.channel.queue := Or.inr (by decide +kernel)
  have hlater : .readByte ∉ later := by simp [later]
  have hreads : reads later = (cut c.channel.queue).length := by decide +kernel
  obtain ⟨hmax, -, hpadded⟩ := printed_integer_is_read_back 2147483647 c hlines later hlater hreads
  obtain ⟨-, hmin, -⟩ := printed_integer_is_read_back (-2147483648) c hlines later hlater hreads
  have htext : (Value.int (-2147483648)).text = "-2147483648" := by decide +kernel
  have hzeros : Value.padded 3 2147483647 = "0002147483647" := by decide +kernel
  refine ⟨hlines, hlater, hreads, hmax (by decide), ?_, ?_⟩
  · rw [← htext]
    exact hmin (by decide)
  · exact hpadded (by decide) 3 (by decide +kernel) _ (congrArg some hzeros.symm)

end Console

end LineConsole
