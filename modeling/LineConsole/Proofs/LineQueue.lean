import LineConsole.Console.Op
import LineConsole.Proofs.NumberTexts
import LineConsole.Proofs.Output
import LineConsole.Proofs.TextInput

/-!
A console whose output is its own input is a queue of lines. Every line that is printed waits
behind the lines before it, and every read takes the first line that waits, as long as each line
fits into one read with its newline and does not end like a terminator.
-/
namespace LineConsole

open LineBuffer Pieces Fallible Utf8

def Loopback.outlet : Outlet Loopback where
  Open _ := True
  put bytes s := ⟨s.queue ++ bytes⟩
  settle s := s
  open_put _ _ h := h
  writeAll _ _ _ := rfl
  flush _ _ := rfl
  put_nil s := by simp
  put_put a b s := by simp

namespace Console

/-- A line that one read returns as it was printed. -/
structure Fits (line : Bytes) : Prop where
  length_le : line.length ≤ 254
  newline : LineBuffer.newline ∉ line
  last : line.getLast? ≠ some carriageReturn

theorem fits_of_narrow {width : Nat} {text : String} (h : Narrow width text)
    (hwidth : width ≤ 254) : Fits (encode text) := by
  have hbytes := encode_printable h.printable
  have hmem : ∀ b ∈ encode text, 0x20 ≤ b.toNat := by
    intro b hb
    rw [hbytes] at hb
    obtain ⟨c, hc, rfl⟩ := List.mem_map.mp hb
    have hrange := h.printable c hc
    rw [UInt8.toNat_ofNat_of_lt' (Nat.lt_trans hrange.2 (by decide))]
    exact hrange.1
  constructor
  · rw [hbytes, List.length_map]
    exact Nat.le_trans h.length_le hwidth
  · intro hnewline
    exact absurd (hmem _ hnewline) (by decide)
  · intro hlast
    exact absurd (hmem _ (List.mem_of_getLast? hlast)) (by decide)

def Op.line? : Op → Option String
  | .print v => some v.text
  | .printValues vs => some (Value.joined vs)
  | _ => none

/-- The operations of a queue: those that print a line, and the one that reads a line. -/
inductive Op.Queues : Op → Prop
  | print (v : Value) : Queues (.print v)
  | printValues (vs : List Value) : Queues (.printValues vs)
  | input : Queues .input

def printed (ops : List Op) : List String := ops.filterMap Op.line?

def Entry.text? {σ : Type} (e : Entry σ) : Option String :=
  match e.result with
  | some (.ok (.text text)) => some text
  | _ => none

def received {σ : Type} (entries : List (Entry σ)) : List String := entries.filterMap Entry.text?

def queued (lines : List String) : Bytes := lines.flatMap lineOf

theorem queued_concat (lines : List String) (line : String) :
    queued (lines ++ [line]) = queued lines ++ lineOf line := by
  simp [queued]

theorem output_ok {σ : Type} [Channel σ] {a : Action σ Unit} {c : Console σ} {t : σ}
    (h : a c.channel = (.ok (), t)) : Op.output a c = (.ok .done, ⟨t, c.line⟩) := by
  rw [Op.output, bind_apply, onChannel, on, h]
  rfl

/-- A printed line waits behind all others. -/
theorem run_line {op : Op} {line : String} (hop : op.line? = some line) (c : Console Loopback) :
    op.run c = (.ok .done, ⟨⟨c.channel.queue ++ lineOf line⟩, c.line⟩) := by
  cases op with
  | print v =>
    obtain rfl : v.text = line := Option.some.inj hop
    exact output_ok (Loopback.outlet.print (s := c.channel) trivial v)
  | printValues vs =>
    obtain rfl : Value.joined vs = line := Option.some.inj hop
    exact output_ok (Loopback.outlet.printValues (s := c.channel) trivial vs)
  | _ => cases hop

theorem delivers_loopback (front back : Bytes) :
    Channel.Delivers (⟨front ++ back⟩ : Loopback) front ⟨back⟩ := by
  induction front with
  | nil => rfl
  | cons byte rest ih => exact Channel.delivers_cons rfl ih

/-- A read takes the first line that waits, and nothing of the next one. -/
theorem input_line {line : String} (hline : Fits (encode line)) (rest : Bytes) (old : LineBuffer) :
    input (⟨⟨lineOf line ++ rest⟩, old⟩ : Console Loopback) =
      (.ok line, ⟨⟨rest⟩, ofBytes (encode line)⟩) := by
  have hshort : (encode line).length < limit := Nat.lt_succ_of_le hline.length_le
  have hfull : ¬ Unfinished (encode line ++ [LineBuffer.newline]) := by
    intro h
    exact h.1 (List.mem_append_right _ List.mem_cons_self)
  have hread := readLine_finished (c := (⟨⟨lineOf line ++ rest⟩, old⟩ : Console Loopback))
    (delivers_loopback (lineOf line) rest) ⟨hline.newline, hshort⟩ hfull
  rw [content_newline, dropEnd_of_ne hline.last] at hread
  rw [input_apply, hread]
  exact congrArg (Prod.mk · _) (text_ofBytes_encode line)

/-- Without a line that waits, a read finds the end of the input. -/
theorem input_nothing (old : LineBuffer) :
    input (⟨⟨[]⟩, old⟩ : Console Loopback) = (.error .endOfStream, ⟨⟨[]⟩, .empty⟩) := by
  rw [input_apply, readLine_ended rfl]
  rfl

/-- What an operation does, by the lines that wait before it and those that wait after it. -/
inductive Turn (op : Op) (waiting : List String) (e : Entry Loopback) : List String → Prop
  | printed (line : String) (hop : op.line? = some line) (hresult : e.result = some (.ok .done)) :
      Turn op waiting e (waiting ++ [line])
  | nothing (hop : op = .input) (hwaiting : waiting = [])
      (hresult : e.result = some (.error .endOfStream)) (hline : e.after.line = .empty) :
      Turn op waiting e []
  | read (line : String) (rest : List String) (hop : op = .input)
      (hwaiting : waiting = line :: rest) (hresult : e.result = some (.ok (.text line))) :
      Turn op waiting e rest

theorem run_turn {op : Op} (hop : op.Queues) {c : Console Loopback} {waiting : List String}
    (hc : c.channel.queue = queued waiting) (hfits : ∀ line ∈ waiting, Fits (encode line)) :
    ∃ left, Turn op waiting (Event.run c (.op op)) left ∧
      (Event.run c (.op op)).after.channel.queue = queued left := by
  have hprint : ∀ line, op.line? = some line → ∃ left,
      Turn op waiting (Event.run c (.op op)) left ∧
        (Event.run c (.op op)).after.channel.queue = queued left := by
    intro line hline
    have hrun := run_line hline c
    refine ⟨waiting ++ [line], .printed line hline ?_, ?_⟩
    · rw [Event.run, hrun]
    · rw [Event.run, hrun, queued_concat, ← hc]
  cases hop with
  | print v => exact hprint _ rfl
  | printValues vs => exact hprint _ rfl
  | input =>
    obtain ⟨⟨queue⟩, old⟩ := c
    obtain rfl : queue = queued waiting := hc
    cases waiting with
    | nil =>
      have hread : input (⟨⟨queued []⟩, old⟩ : Console Loopback) = _ := input_nothing old
      have hrun : Op.run .input (⟨⟨queued []⟩, old⟩ : Console Loopback) =
          (.error .endOfStream, ⟨⟨[]⟩, .empty⟩) := by
        rw [Op.run, bind_apply, hread]
      refine ⟨[], .nothing rfl rfl ?_ ?_, ?_⟩ <;> rw [Event.run, hrun]
      rfl
    | cons line rest =>
      have hread : input (⟨⟨queued (line :: rest)⟩, old⟩ : Console Loopback) = _ :=
        input_line (hfits line List.mem_cons_self) (queued rest) old
      have hrun : Op.run .input (⟨⟨queued (line :: rest)⟩, old⟩ : Console Loopback) =
          (.ok (.text line), ⟨⟨queued rest⟩, ofBytes (encode line)⟩) := by
        rw [Op.run, bind_apply, hread]
        rfl
      refine ⟨rest, .read line rest rfl rfl ?_, ?_⟩ <;> rw [Event.run, hrun]

/-- Nothing is lost: what was waiting or is printed is read or waits. -/
theorem Turn.balance {op : Op} {waiting left : List String} {e : Entry Loopback}
    (h : Turn op waiting e left) : e.text?.toList ++ left = waiting ++ op.line?.toList := by
  cases h with
  | printed line hop hresult => simp [Entry.text?, hop, hresult]
  | nothing hop hwaiting hresult hline => simp [Entry.text?, Op.line?, hop, hwaiting, hresult]
  | read line rest hop hwaiting hresult =>
    simp [Entry.text?, Op.line?, hop, hwaiting, hresult]

theorem received_cons {σ : Type} (e : Entry σ) (entries : List (Entry σ)) :
    received (e :: entries) = e.text?.toList ++ received entries := by
  unfold received
  cases h : e.text? <;> simp [h]

theorem printed_cons (op : Op) (ops : List Op) :
    printed (op :: ops) = op.line?.toList ++ printed ops := by
  unfold printed
  cases h : op.line? <;> simp [h]

/-- The input behind `k` operations finds all lines read and reports the end, or it reads the
next line. -/
theorem replay_turns (ops : List Op) (hops : ∀ op ∈ ops, op.Queues) (c : Console Loopback)
    (waiting : List String) (hc : c.channel.queue = queued waiting)
    (hfits : ∀ line ∈ waiting ++ printed ops, Fits (encode line)) :
    (∃ left, received (replay c (ops.map .op)) ++ left = waiting ++ printed ops) ∧
    ∀ k : Nat, ops[k]? = some .input → ∃ e left, (replay c (ops.map .op))[k]? = some e ∧
      received ((replay c (ops.map .op)).take k) ++ left = waiting ++ printed (ops.take k) ∧
      ((left = [] ∧ e.result = some (.error .endOfStream) ∧ e.after.line = .empty) ∨
        ∃ line rest, left = line :: rest ∧ e.result = some (.ok (.text line))) := by
  induction ops generalizing c waiting with
  | nil => exact ⟨⟨waiting, by simp [replay, received, printed]⟩, by simp⟩
  | cons op ops ih =>
    rw [printed_cons, ← List.append_assoc] at hfits
    obtain ⟨left, hturn, hqueue⟩ := run_turn (hops op List.mem_cons_self) hc
      fun line hline => hfits line (List.mem_append_left _ (List.mem_append_left _ hline))
    have hbalance := hturn.balance
    rw [← hbalance, List.append_assoc] at hfits
    obtain ⟨⟨last, hlast⟩, hinputs⟩ := ih (fun o ho => hops o (List.mem_cons_of_mem _ ho)) _ left
      hqueue fun line hline => hfits line (List.mem_append_right _ hline)
    rw [List.map_cons, replay]
    constructor
    · refine ⟨last, ?_⟩
      rw [received_cons, printed_cons, List.append_assoc, hlast, ← List.append_assoc, hbalance,
        List.append_assoc]
    · intro k hk
      cases k with
      | zero =>
        obtain rfl : op = .input := by simpa using hk
        refine ⟨_, waiting, rfl, by simp [received, printed], ?_⟩
        cases hturn with
        | printed line hop hresult => cases hop
        | nothing hop hwaiting hresult hline => exact Or.inl ⟨hwaiting, hresult, hline⟩
        | read line rest hop hwaiting hresult => exact Or.inr ⟨line, left, hwaiting, hresult⟩
      | succ k =>
        obtain ⟨e, rest, he, hreceived, hcase⟩ := hinputs k hk
        refine ⟨e, rest, he, ?_, hcase⟩
        rw [List.take_succ_cons, List.take_succ_cons, received_cons, printed_cons,
          List.append_assoc, hreceived, ← List.append_assoc, hbalance, List.append_assoc]

/-- On a console that reads what it writes, the i-th text that is read is the i-th line that was
printed, and exactly the reads that have all lines behind them find the end of the input. Lines
of one number always fit. -/
theorem loopback_is_queue (c : Console Loopback) (hc : c.channel.queue = []) (ops : List Op)
    (hops : ∀ op ∈ ops, op.Queues) (hfits : ∀ line ∈ printed ops, Fits (encode line)) :
    (∀ (i : Nat) (text : String), (received (replay c (ops.map .op)))[i]? = some text →
      (printed ops)[i]? = some text) ∧
    (∀ k : Nat, ops[k]? = some .input → ∃ e, (replay c (ops.map .op))[k]? = some e ∧
      (e.result = some (.error .endOfStream) ↔
        received ((replay c (ops.map .op)).take k) = printed (ops.take k)) ∧
      (e.result = some (.error .endOfStream) → e.after.line = .empty) ∧
      (e.result ≠ some (.error .endOfStream) → ∃ text, e.result = some (.ok (.text text)))) ∧
    (∀ n, Fits (encode (Value.int n).text)) ∧ ∀ x, Fits (encode (Value.float x).text) := by
  obtain ⟨⟨left, hleft⟩, hinputs⟩ := replay_turns ops hops c [] hc hfits
  rw [List.nil_append] at hleft
  refine ⟨?_, ?_, ?_, ?_⟩
  · intro i text hi
    obtain ⟨hlt, -⟩ := List.getElem?_eq_some_iff.mp hi
    rwa [← hleft, List.getElem?_append_left hlt]
  · intro k hk
    obtain ⟨e, rest, he, hreceived, hcase⟩ := hinputs k hk
    rw [List.nil_append] at hreceived
    refine ⟨e, he, ?_⟩
    rcases hcase with ⟨rfl, hresult, hline⟩ | ⟨line, more, rfl, hresult⟩
    · rw [List.append_nil] at hreceived
      refine ⟨iff_of_true hresult hreceived, fun _ => hline, fun h => absurd hresult h⟩
    · have hne : e.result ≠ some (.error .endOfStream) := by simp [hresult]
      have hmore : received ((replay c (ops.map .op)).take k) ≠ printed (ops.take k) := by
        intro heq
        simp [heq] at hreceived
      exact ⟨iff_of_false hne hmore, fun h => absurd h hne, fun _ => ⟨line, hresult⟩⟩
  · intro n
    exact fits_of_narrow (Value.narrow_int n) (by decide)
  · intro x
    exact fits_of_narrow (Value.narrow_float x) (by decide)

/-- A read that comes too early, two lines, and a read more than there are lines. -/
theorem queue_of_two_lines :
    let c : Console Loopback := { channel := {} }
    let ops : List Op := [.input, .print (.int (-7)), .printValues [.str "a", .str "b"], .input,
      .input, .input]
    c.channel.queue = [] ∧ (∀ op ∈ ops, op.Queues) ∧
      (∀ line ∈ printed ops, Fits (encode line)) ∧
      received (replay c (ops.map .op)) = ["-7", "a b"] ∧
      ∃ e, (replay c (ops.map .op))[5]? = some e ∧ e.result = some (.error .endOfStream) ∧
        e.after.line = .empty := by
  intro c ops
  have hops : ∀ op ∈ ops, op.Queues := by
    intro op hop
    simp only [ops, List.mem_cons, List.not_mem_nil, or_false] at hop
    rcases hop with rfl | rfl | rfl | rfl | rfl | rfl <;> constructor
  have hprinted : printed ops = ["-7", "a b"] := by decide +kernel
  have hfits : ∀ line ∈ printed ops, Fits (encode line) := by
    intro line hline
    rw [hprinted] at hline
    simp only [List.mem_cons, List.not_mem_nil, or_false] at hline
    rcases hline with rfl | rfl <;> constructor <;> decide +kernel
  have hreceived : received (replay c (ops.map .op)) = ["-7", "a b"] := by decide +kernel
  have hread : received ((replay c (ops.map .op)).take 5) = printed (ops.take 5) := by
    decide +kernel
  obtain ⟨-, hinputs, -⟩ := loopback_is_queue c rfl ops hops hfits
  obtain ⟨e, he, hiff, hline, -⟩ := hinputs 5 rfl
  have hended := hiff.mpr hread
  exact ⟨rfl, hops, hfits, hreceived, e, he, hended, hline hended⟩

end Console

end LineConsole
