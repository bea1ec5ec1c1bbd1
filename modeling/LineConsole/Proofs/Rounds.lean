import LineConsole.Demo.Rounds
import LineConsole.Proofs.DeviceReading
import LineConsole.Proofs.Program

/-!
The rounds of the device's demo program. Each takes one line of what is received, and what it
sends depends on that line alone, whatever became of the lines before it.
-/
namespace LineConsole.Demo

open Device Fallible Console LineBuffer Pieces
open Utf8 (encode decode? decode?_eq_some_iff)

/-! What a round makes of its line -/

def lineAt (bytes : Bytes) (round : Nat) : Option Bytes := ((cut bytes)[round]?).map content

theorem lineAt_behind (bytes : Bytes) (k i : Nat) :
    lineAt ((cut bytes).drop k).flatten i = lineAt bytes (k + i) := by
  rw [lineAt, cut_flatten_drop, List.getElem?_drop, lineAt]

def textOf : Option Bytes → Except Fault String
  | none => .error .endOfStream
  | some line =>
      match decode? line with
      | none => .error .invalidUtf8
      | some text => .ok text

theorem bind_text (line : Option Bytes) :
    ((line.elim (.error .endOfStream) .ok : Except Fault Bytes).bind fun bytes =>
      (ofBytes bytes).text) = textOf line := by
  cases line with
  | none => rfl
  | some bytes =>
    rw [textOf, Option.elim_some, Except.bind, LineBuffer.text, bytes_ofBytes]
    cases decode? bytes <;> rfl

theorem textOf_encode (text : String) : textOf (some (encode text)) = .ok text := by
  rw [textOf, decode?_eq_some_iff.mpr rfl]

theorem textOf_error {line : Option Bytes} {fault : Fault} (h : textOf line = .error fault) :
    fault = .endOfStream ∨ fault = .invalidUtf8 := by
  cases line with
  | none => exact Or.inl (Except.error.inj h).symm
  | some bytes =>
    rw [textOf] at h
    split at h
    · exact Or.inr (Except.error.inj h).symm
    · cases h

theorem eq_encode_of_textOf {line : Option Bytes} {text : String} (h : textOf line = .ok text) :
    line = some (encode text) := by
  cases line with
  | none => cases h
  | some bytes =>
    cases hdecode : decode? bytes with
    | none => simp [textOf, hdecode] at h
    | some decoded =>
      simp only [textOf, hdecode, Except.ok.injEq] at h
      rw [decode?_eq_some_iff.mp hdecode, h]

/-- A line fits where it is copied to. -/
theorem length_lineAt_le {bytes line : Bytes} {i : Nat} (h : lineAt bytes i = some line) :
    line.length ≤ LineBuffer.capacity := by
  obtain ⟨p, hp, rfl⟩ := Option.map_eq_some_iff.mp h
  calc (content p).length
      ≤ p.length := length_content_le p
    _ ≤ limit := length_le_of_mem_cut (List.mem_of_getElem? hp)
    _ ≤ LineBuffer.capacity := by decide

/-- What a round sends. -/
def roundOutput (line : Option Bytes) : Bytes :=
  encode question ++
    match textOf line with
    | .error _ => []
    | .ok text =>
        match Literal.parse (encode text) with
        | .error e => lineOf e.message
        | .ok n => Fibonacci.lines n.toInt.toNat

def roundResult (line : Option Bytes) : Except Fault Unit := (textOf line).map fun _ => ()

def roundsOutput (bytes : Bytes) (rounds : Nat) : Bytes :=
  (List.range rounds).flatMap fun i => roundOutput (lineAt bytes i)

theorem roundsOutput_succ (bytes : Bytes) (k : Nat) :
    roundsOutput bytes (k + 1) =
      roundOutput (lineAt bytes 0) ++ roundsOutput ((cut bytes).drop 1).flatten k := by
  simp only [roundsOutput, List.range_succ_eq_map, List.flatMap_cons, List.flatMap_map,
    lineAt_behind, Nat.add_comm 1]

/-! What a round does -/

/-- From one state of the serial line to the other these bytes were sent, and those are left. -/
structure Sends (u : Uart) (bytes left : Bytes) (v : Uart) : Prop where
  steady : v.Steady
  sent : v.transmitter.sent = u.transmitter.sent ++ bytes
  left : v.receiver.queue = left

theorem Sends.refl {u : Uart} (h : u.Steady) : Sends u [] u.receiver.queue u :=
  ⟨h, (List.append_nil _).symm, rfl⟩

theorem Sends.trans {u v w : Uart} {a b left left' : Bytes} (h : Sends u a left v)
    (h' : Sends v b left' w) : Sends u (a ++ b) left' w := by
  refine ⟨h'.steady, ?_, h'.left⟩
  rw [h'.sent, h.sent, List.append_assoc]

theorem Sends.put {u : Uart} (h : u.Steady) (bytes : Bytes) :
    Sends u bytes u.receiver.queue (Uart.outlet.settle (Uart.outlet.put bytes u)) :=
  ⟨h.of_traffic _ _ _, rfl, rfl⟩

/-- The next line, or the end of the input. -/
theorem readLine_sends {u : Uart} (h : u.Steady) (old : LineBuffer) :
    ∃ v line, readLine ⟨u, old⟩ =
        ((lineAt u.receiver.queue 0).elim (.error .endOfStream) .ok, ⟨v, line⟩) ∧
      Sends u [] ((cut u.receiver.queue).drop 1).flatten v := by
  cases hcut : cut u.receiver.queue with
  | nil =>
    have hread := h.supplies.readLine_nil hcut old
    have hleft : u.receiver.queue = [] := by rw [← cut_flatten u.receiver.queue, hcut]; rfl
    rw [lineAt, hcut]
    exact ⟨u, _, hread, h, (List.append_nil _).symm, hleft⟩
  | cons p ps =>
    have hread := h.supplies.readLine_cons hcut old
    rw [lineAt, hcut]
    exact ⟨_, _, hread, h.of_traffic _ _ _, (List.append_nil _).symm, rfl⟩

/-- The question is sent, and a line is taken whether it is a text or not. -/
theorem question_sends {u : Uart} (h : u.Steady) (old : LineBuffer) :
    ∃ v line, inputPrompt question ⟨u, old⟩ = (textOf (lineAt u.receiver.queue 0), ⟨v, line⟩) ∧
      Sends u (encode question) ((cut u.receiver.queue).drop 1).flatten v := by
  have hasked := Sends.put h (encode question)
  have hprompt := Uart.outlet.prompt (c := ⟨u, old⟩) h (encode question)
  obtain ⟨v, line, hread, hsends⟩ := readLine_sends hasked.steady old
  rw [hasked.left] at hread hsends
  have htext := readText_apply (some (encode question)) ⟨u, old⟩
  rw [readBehind, hprompt, hread, bind_text] at htext
  exact ⟨v, line, htext, List.append_nil (encode question) ▸ hasked.trans hsends⟩

section Ask

variable {u : Uart} (h : u.Steady) (old : LineBuffer)

include h

theorem ask_error {fault : Fault} (hline : textOf (lineAt u.receiver.queue 0) = .error fault) :
    ∃ v line, ask ⟨u, old⟩ = (.error fault, ⟨v, line⟩) ∧
      Sends u (encode question) ((cut u.receiver.queue).drop 1).flatten v := by
  obtain ⟨v, line, hquestion, hsends⟩ := question_sends h old
  refine ⟨v, line, ?_, hsends⟩
  rw [ask, bind_apply, hquestion, hline]

theorem ask_refused {text : String} {e : LiteralError}
    (hline : textOf (lineAt u.receiver.queue 0) = .ok text)
    (he : Literal.parse (encode text) = .error e) :
    ∃ v line, ask ⟨u, old⟩ = (.ok none, ⟨v, line⟩) ∧
      Sends u (encode question ++ lineOf e.message) ((cut u.receiver.queue).drop 1).flatten v := by
  obtain ⟨v, line, hquestion, hsends⟩ := question_sends h old
  have hfits := length_lineAt_le (eq_encode_of_textOf hline)
  have hrender := Uart.outlet.render_ofPieces hsends.steady e.pieces
  have hput := Sends.put hsends.steady (lineOf e.message)
  rw [hsends.left] at hput
  refine ⟨_, line, ?_, hsends.trans hput⟩
  rw [ask, bind_apply, hquestion, hline]
  simp only [if_neg (Nat.not_lt_of_le hfits), he]
  rw [bind_apply, onChannel_apply, hrender]
  rfl

theorem ask_accepted {text : String} {n : Int32}
    (hline : textOf (lineAt u.receiver.queue 0) = .ok text)
    (hn : Literal.parse (encode text) = .ok n) :
    ∃ v line, ask ⟨u, old⟩ = (.ok (some n), ⟨v, line⟩) ∧
      Sends u (encode question) ((cut u.receiver.queue).drop 1).flatten v := by
  obtain ⟨v, line, hquestion, hsends⟩ := question_sends h old
  have hfits := length_lineAt_le (eq_encode_of_textOf hline)
  refine ⟨v, line, ?_, hsends⟩
  rw [ask, bind_apply, hquestion, hline]
  simp only [if_neg (Nat.not_lt_of_le hfits), hn]
  rfl

end Ask

theorem sendAll_sends (numbers : List Int32) {s : Device.State} {line : LineBuffer}
    (hslot : s.slot = .idle line) (h : s.uart.Steady) :
    ∃ v, sendAll numbers s = (.ok (.ok ()), { s with uart := v }) ∧
      Sends s.uart (numbers.flatMap fun n => lineOf (Value.int n).text) s.uart.receiver.queue
        v := by
  induction numbers generalizing s with
  | nil => exact ⟨s.uart, rfl, .refl h⟩
  | cons n rest ih =>
    have hprint := Uart.outlet.print h (.int n)
    have hput := Sends.put h (lineOf (Value.int n).text)
    generalize Uart.outlet.settle _ = w at hprint hput
    have hrun := Run.withUart_idle (Console.print (.int n)) hslot
      (by rw [hprint]; exact hput.steady.running)
    rw [hprint] at hrun
    obtain ⟨v, hrest, hsends⟩ := ih (s := { s with uart := w }) hslot hput.steady
    refine ⟨v, ?_, hput.trans (hput.left ▸ hsends)⟩
    rw [sendAll, bind_apply, hrun]
    exact hrest

/-- A round takes the next line if there is one, and sends what belongs to it. -/
theorem round_sends {s : Device.State} {old : LineBuffer} (hslot : s.slot = .idle old)
    (h : s.uart.Steady) :
    ∃ v line, round s = (.ok (roundResult (lineAt s.uart.receiver.queue 0)),
        { s with uart := v, slot := .idle line }) ∧
      Sends s.uart (roundOutput (lineAt s.uart.receiver.queue 0))
        ((cut s.uart.receiver.queue).drop 1).flatten v := by
  unfold roundResult roundOutput
  cases hline : textOf (lineAt s.uart.receiver.queue 0) with
  | error fault =>
    obtain ⟨v, line, hask, hsends⟩ := ask_error h old hline
    refine ⟨v, line, ?_, (List.append_nil (encode question)).symm ▸ hsends⟩
    rw [round, bind_apply, Run.withConsole_running hslot hask hsends.steady.running]
    rfl
  | ok text =>
    cases hparse : Literal.parse (encode text) with
    | error e =>
      obtain ⟨v, line, hask, hsends⟩ := ask_refused h old hline hparse
      refine ⟨v, line, ?_, by simpa [hparse] using hsends⟩
      rw [round, bind_apply, Run.withConsole_running hslot hask hsends.steady.running]
      rfl
    | ok n =>
      obtain ⟨v, line, hask, hsends⟩ := ask_accepted h old hline hparse
      obtain ⟨w, hall, hnumbers⟩ := sendAll_sends (Fibonacci.numbers n.toInt.toNat)
        (s := { s with uart := v, slot := .idle line }) rfl hsends.steady
      rw [Fibonacci.flatMap_numbers] at hnumbers
      refine ⟨w, line, ?_, ?_⟩
      · rw [round, bind_apply, Run.withConsole_running hslot hask hsends.steady.running]
        exact hall
      · simp only [hparse]
        exact hsends.trans (hsends.left ▸ hnumbers)

/-! Runs of rounds -/

theorem Sends.no_rounds {u : Uart} (h : u.Steady) :
    Sends u (roundsOutput u.receiver.queue 0) ((cut u.receiver.queue).drop 0).flatten u := by
  rw [List.drop_zero, cut_flatten]
  exact .refl h

/-- The rounds behind the first are those of the lines behind the first. -/
theorem Sends.rounds_succ {u v w : Uart} {k : Nat}
    (h : Sends u (roundOutput (lineAt u.receiver.queue 0))
      ((cut u.receiver.queue).drop 1).flatten v)
    (h' : Sends v (roundsOutput v.receiver.queue k) ((cut v.receiver.queue).drop k).flatten w) :
    Sends u (roundsOutput u.receiver.queue (k + 1))
      ((cut u.receiver.queue).drop (k + 1)).flatten w := by
  have hall := h.trans h'
  rw [h.left, cut_flatten_drop, List.drop_drop, Nat.add_comm 1, ← roundsOutput_succ] at hall
  exact hall

variable {s : Device.State} {old : LineBuffer}

theorem after_round (hslot : s.slot = .idle old) (h : s.uart.Steady) (k : Nat) :
    ∃ v line, after round k s = { s with uart := v, slot := .idle line } ∧
      Sends s.uart (roundsOutput s.uart.receiver.queue k)
        ((cut s.uart.receiver.queue).drop k).flatten v := by
  induction k generalizing s old with
  | zero => exact ⟨s.uart, old, hslot ▸ rfl, .no_rounds h⟩
  | succ k ih =>
    obtain ⟨v, line, hround, hsends⟩ := round_sends hslot h
    obtain ⟨w, line', hafter, hrest⟩ :=
      ih (s := { s with uart := v, slot := .idle line }) rfl hsends.steady
    refine ⟨w, line', ?_, hsends.rounds_succ hrest⟩
    rw [after, hround]
    exact hafter

/-- The program goes on behind a round that has failed. -/
theorem rounds_send (hslot : s.slot = .idle old) (h : s.uart.Steady) (k : Nat) :
    ∃ t, rounds k s = (.ok (), t) ∧ t.slot.IsIdle ∧
      Sends s.uart (roundsOutput s.uart.receiver.queue k)
        ((cut s.uart.receiver.queue).drop k).flatten t.uart := by
  induction k generalizing s old with
  | zero => exact ⟨s, rfl, ⟨old, hslot⟩, .no_rounds h⟩
  | succ k ih =>
    obtain ⟨v, line, hround, hsends⟩ := round_sends hslot h
    have hnext (log : List Event) :
        ∃ t, rounds k { s with uart := v, slot := .idle line, log } = (.ok (), t) ∧
          t.slot.IsIdle ∧ Sends s.uart (roundsOutput s.uart.receiver.queue (k + 1))
            ((cut s.uart.receiver.queue).drop (k + 1)).flatten t.uart := by
      obtain ⟨t, hrun, hidle, hrest⟩ :=
        ih (s := { s with uart := v, slot := .idle line, log }) rfl hsends.steady
      exact ⟨t, hrun, hidle, hsends.rounds_succ hrest⟩
    rw [rounds, bind_apply, hround]
    cases roundResult (lineAt s.uart.receiver.queue 0) with
    | ok _ => exact hnext s.log
    | error fault => exact hnext (s.log ++ [.roundFailed fault])

/-- What the program of the host prints for a line is what a round sends, as long as it shows
its diagnostics there. -/
theorem stdout_eq_roundOutput (logger : Logger) {input : Script} {environment : Host.Environment}
    {line : Bytes} (hline : Host.firstLine input = .ok line)
    (hstream : ∀ e, Literal.parse line = .error e →
      (Host.Settings.load environment).1.stream = .stdout) :
    (outcome logger (start input environment)).stdout = roundOutput (some line) := by
  unfold roundOutput
  cases htext : textOf (some line) with
  | error fault =>
    have hno (text : String) : Host.firstLine input ≠ .ok (encode text) := by
      rw [hline]
      rintro ⟨⟩
      rw [textOf_encode] at htext
      cases htext
    obtain ⟨hstdout, -⟩ := outcome_no_text logger input environment hno
    rw [hstdout]
    exact (List.append_nil _).symm
  | ok text =>
    obtain rfl := Option.some.inj (eq_encode_of_textOf htext)
    cases hparse : Literal.parse (encode text) with
    | error e =>
      obtain ⟨hstdout, -⟩ := outcome_refused logger input environment hline hparse
      rw [hstdout, if_pos (hstream e hparse)]
      simp [hparse]
    | ok n =>
      obtain ⟨hstdout, -⟩ := outcome_accepted logger input environment hline hparse
      rw [hstdout]
      simp [hparse]

theorem roundResult_ne_invalidValue (line : Option Bytes) :
    roundResult line ≠ .error .invalidValue := by
  unfold roundResult
  cases htext : textOf line with
  | ok text => exact nofun
  | error fault => rcases textOf_error htext with rfl | rfl <;> exact nofun

/-- With every round the device sends the question and what belongs to the line of that round:
the numbers that the program of the host prints for it, or its diagnostic if it is no number.
A line that is no text and the end of the input are told from the result; that the line does not
fit where it is copied to is never a result. -/
theorem rounds_follow_lines (s : Device.State) (hidle : s.slot.IsIdle) (h : s.uart.Steady)
    (k : Nat) :
    (after round k s).uart.transmitter.sent = s.uart.transmitter.sent ++
      (List.range k).flatMap (fun i => roundOutput (lineAt s.uart.receiver.queue i)) ∧
    (after round k s).uart.receiver.queue = ((cut s.uart.receiver.queue).drop k).flatten ∧
    answer round k s = .ok (roundResult (lineAt s.uart.receiver.queue k)) ∧
    answer round k s ≠ .ok (.error .invalidValue) ∧
    ∀ logger input environment line, Host.firstLine input = .ok line →
      (∀ e, Literal.parse line = .error e →
        (Host.Settings.load environment).1.stream = .stdout) →
      (outcome logger (start input environment)).stdout = roundOutput (some line) := by
  obtain ⟨old, hslot⟩ := hidle
  obtain ⟨v, line, hafter, hsends⟩ := after_round hslot h k
  obtain ⟨w, line', hround, -⟩ :=
    round_sends (s := { s with uart := v, slot := .idle line }) rfl hsends.steady
  have hanswer : answer round k s = .ok (roundResult (lineAt s.uart.receiver.queue k)) := by
    rw [answer, hafter, hround, hsends.left, lineAt_behind, Nat.add_zero]
  refine ⟨?_, ?_, hanswer, ?_, ?_⟩
  · rw [hafter]
    exact hsends.sent
  · rw [hafter]
    exact hsends.left
  · rw [hanswer]
    intro heq
    exact roundResult_ne_invalidValue _ (Except.ok.inj heq)
  · exact fun logger input environment line => stdout_eq_roundOutput logger

/-- A number, a word, and a last line that is no text, of which only the first was a number. -/
theorem rounds_on_lines :
    let queue : Bytes := [0x32, 0x0A, 0x78, 0x0A, 0xFF]
    let s : Device.State := { uart := { receiver.queue := queue }, slot := .idle .empty }
    answer round 0 s = .ok (.ok ()) ∧ answer round 1 s = .ok (.ok ()) ∧
      answer round 2 s = .ok (.error .invalidUtf8) ∧
      answer round 3 s = .ok (.error .endOfStream) ∧
      (after round 1 s).uart.transmitter.sent = encode question ++ lineOf "0" ++ lineOf "1" ∧
      (after round 4 s).uart.receiver.queue = [] := by
  intro queue s
  have hidle : s.slot.IsIdle := ⟨.empty, rfl⟩
  have hrounds := rounds_follow_lines s hidle ⟨rfl, rfl, rfl, rfl, rfl⟩
  obtain ⟨-, -, hnumber, -, -⟩ := hrounds 0
  obtain ⟨hsent, -, hrefused, -, -⟩ := hrounds 1
  obtain ⟨-, -, hinvalid, -, -⟩ := hrounds 2
  obtain ⟨-, -, hended, -, -⟩ := hrounds 3
  obtain ⟨-, hleft, -, -, -⟩ := hrounds 4
  exact ⟨hnumber, hrefused, hinvalid, hended, hsent.trans (by decide +kernel), hleft⟩

end LineConsole.Demo
