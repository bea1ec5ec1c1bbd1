import LineConsole.Proofs.HostReading
import LineConsole.Proofs.TextInput
import Mathlib.Data.List.TakeWhile

/-!
The two ways into a host process. A native program and a program in C that ask for the same get
the same: the same output, the same input taken and the same end, call by call. Only the results
differ in form. A line that is no text is refused to native programs alone, and both use it up.
-/
namespace LineConsole

open Fallible

/-- A string is written as the bytes that it is. -/
theorem Console.print_str {σ : Type} [Channel σ] (text : String) :
    (Console.print (.str text) : Action σ Unit) = printBytes (Utf8.encode text) true := by
  funext s
  have hwrite : (Rendering.ofPieces (Value.str text).pieces).write s =
      Channel.writeAll (Utf8.encode text) s := by
    simp only [Value.pieces, Rendering.ofPieces, Rendering.sequence, Rendering.write,
      Rendering.runFrom]
    rcases Channel.writeAll (Utf8.encode text) s with ⟨_ | _, t⟩ <;> rfl
  rw [print, render, printBytes, bind_apply, bind_apply, hwrite]
  rfl

/-- A line, read behind the prompt if there is one, as a text. -/
def Console.readText {σ : Type} [Channel σ] (question : Option Bytes) :
    Action (Console σ) String := do
  let _ ← readBehind question
  lineText

theorem Console.readBehind_ok {σ : Type} [Channel σ] {question : Option Bytes}
    {c c' : Console σ} {bytes : Bytes} (h : readBehind question c = (.ok bytes, c')) :
    c'.line.bytes = bytes := by
  cases question with
  | none => exact readLine_ok h
  | some text =>
    rw [readBehind, prompt_apply] at h
    split at h
    · exact readLine_ok h
    · cases h

theorem Console.readText_apply {σ : Type} [Channel σ] (question : Option Bytes)
    (c : Console σ) :
    readText question c =
      ((readBehind question c).1.bind fun bytes => (LineBuffer.ofBytes bytes).text,
        (readBehind question c).2) :=
  lineText_behind readBehind_ok c

def Value.strings : Value → List String
  | .str text => [text]
  | _ => []

def ZeroFree (texts : List String) : Prop := ∀ text ∈ texts, 0 ∉ Utf8.encode text

instance (texts : List String) : Decidable (ZeroFree texts) :=
  inferInstanceAs (Decidable (∀ text ∈ texts, 0 ∉ Utf8.encode text))

namespace Foreign

theorem upToZero_eq_self {bytes : Bytes} (h : 0 ∉ bytes) : upToZero bytes = bytes := by
  apply List.takeWhile_eq_self_iff.mpr
  intro b hb
  simpa using fun hzero : b = 0 => h (hzero ▸ hb)

def Raw.ofValue : Value → Raw
  | .int n => .ofInt n
  | .float x => .ofFloat x
  | .str text => .ofString (Utf8.encode text)

theorem Raw.toValue_ofValue {v : Value} (h : ZeroFree v.strings) : (ofValue v).toValue = .ok v := by
  cases v with
  | int n => rfl
  | float x => rfl
  | str text =>
    have hbytes := upToZero_eq_self (h text List.mem_cons_self)
    have hdecode := Utf8.decode?_eq_some_iff.mpr (rfl : Utf8.encode text = _)
    have hkind : Kind.ofTag (ofValue (.str text)).tag = .ok .str := Kind.ofTag_tag .str
    have hstring : string (ofValue (.str text)).str = some (Utf8.encode text) :=
      congrArg some hbytes
    simp only [toValue, hkind, hstring, hdecode]

theorem Values.convert_ofValue {vs : List Value} (h : ZeroFree (vs.flatMap Value.strings)) :
    convert (vs.map Raw.ofValue) = .ok vs := by
  induction vs with
  | nil => rfl
  | cons v rest ih =>
    have hv : ZeroFree v.strings := fun text hmem => h text (by simp [hmem])
    have hrest : ZeroFree (rest.flatMap Value.strings) :=
      fun text hmem => h text (List.mem_append_right _ hmem)
    simp only [List.map_cons, convert, Raw.toValue_ofValue hv, ih hrest]
    rfl

theorem Values.visited_ofList (raws : List Raw) : (ofList raws).visited = .ok raws := by
  cases raws with
  | nil => rfl
  | cons raw rest => simp [visited, ofList]

end Foreign

namespace Host

open Console Foreign

inductive Request
  | print (v : Value)
  | printValues (vs : List Value)
  | newline
  | input
  | inputPrompt (text : String)
  | parseInt (literal : String)

namespace Request

def native : Request → Call
  | .print v => .print v
  | .printValues vs => .printValues vs
  | .newline => .newline
  | .input => .input
  | .inputPrompt text => .inputPrompt text
  | .parseInt literal => .parseIntOrExit literal

def exported : Request → Foreign.Call
  | .print (.int n) => .printInt n
  | .print (.float x) => .printFloat x
  | .print (.str text) => .printString (some (Utf8.encode text))
  | .printValues vs => .printValues (.ofList (vs.map .ofValue))
  | .newline => .newline
  | .input => .input
  | .inputPrompt text => .inputPrompt (some (Utf8.encode text))
  | .parseInt literal => .parseInt (some (Utf8.encode literal))

def strings : Request → List String
  | .print v => v.strings
  | .printValues vs => vs.flatMap Value.strings
  | .inputPrompt text => [text]
  | .parseInt literal => [literal]
  | _ => []

inductive ReadsLine : Request → Option Bytes → Prop
  | input : ReadsLine .input none
  | inputPrompt (text : String) : ReadsLine (.inputPrompt text) (some (Utf8.encode text))

theorem stringOrEmpty_encode {text : String} (h : ZeroFree [text]) :
    stringOrEmpty (some (Utf8.encode text)) = Utf8.encode text :=
  upToZero_eq_self (h text List.mem_cons_self)

theorem ReadsLine.exported {r : Request} {question : Option Bytes} (h : r.ReadsLine question)
    (hzero : ZeroFree r.strings) : r.exported.ReadsLine question := by
  cases h with
  | input => exact .input
  | inputPrompt text =>
    have hprompt := Call.ReadsLine.inputPrompt (some (Utf8.encode text))
    rwa [stringOrEmpty_encode hzero] at hprompt

theorem call_native {ω : Type} [Sink ω] (r : Request) :
    (Session.call r.native : Session ω → Session ω) = Session.single r.native := by
  cases r <;> rfl

end Request

variable {ω : Type}

/-- The same process for everyone outside, with the same line. What was logged may differ, and
the input status, which only callers in C can see. -/
structure View.Tied (P : ω → Prop) (v w : View ω) : Prop where
  streams : Streams.Tied P v.state.streams w.state.streams
  environment : v.state.environment = w.state.environment
  stderr : v.state.stderr = w.state.stderr
  settings : v.state.settings = w.state.settings
  line : v.thread.line = w.thread.line

namespace Run

variable {P : ω → Prop} {α β : Type}

def Tied (P : ω → Prop) (a : Run ω α) (b : Run ω β) : Prop :=
  ∀ v w, v.Tied P w → (a v).2.Tied P (b w).2 ∧
    ((∃ x y, (a v).1 = .ok x ∧ (b w).1 = .ok y) ∨
      ∃ code, (a v).1 = .error code ∧ (b w).1 = .error code)

theorem tied_pure (x : α) (y : β) : Tied P (pure x) (pure y) :=
  fun _ _ h => ⟨h, Or.inl ⟨x, y, rfl, rfl⟩⟩

theorem Tied.bind {γ δ : Type} {a : Run ω α} {b : Run ω β} {f : α → Run ω γ} {g : β → Run ω δ}
    (hab : Tied P a b) (hfg : ∀ x y, Tied P (f x) (g y)) :
    Tied P (a >>= f) (b >>= g) := by
  intro v w h
  obtain ⟨hstates, hresults⟩ := hab v w h
  rw [bind_apply, bind_apply]
  generalize a v = p at hstates hresults
  generalize b w = q at hstates hresults
  obtain ⟨r, v'⟩ := p
  obtain ⟨r', w'⟩ := q
  rcases hresults with ⟨x, y, rfl, rfl⟩ | ⟨code, rfl, rfl⟩
  · exact hfg x y v' w' hstates
  · exact ⟨hstates, Or.inr ⟨code, rfl, rfl⟩⟩

theorem tied_of_agree {a b : Run ω α} (h : Agree (View.Tied P) a b) : Tied P a b := by
  intro v w hvw
  obtain ⟨r, v', w', ha, hb, hstates⟩ := h v w hvw
  rw [ha, hb]
  refine ⟨hstates, ?_⟩
  cases r with
  | ok x => exact Or.inl ⟨x, x, rfl, rfl⟩
  | error code => exact Or.inr ⟨code, rfl, rfl⟩

theorem agree_log (e : Event) :
    Agree (View.Tied P) (log e : Run ω Unit) (log e : Run ω Unit) := by
  intro v w h
  refine ⟨_, _, _, log_apply e v, log_apply e w, ?_⟩
  exact ⟨h.streams.of_log _ _, h.environment, h.stderr, h.settings, h.line⟩

theorem agree_console {a : Action (Console (Streams ω)) α}
    (h : Agree (Console.Alike (Streams.Tied P)) a a) :
    Agree (View.Tied P) (console a) (console a) := by
  intro v w hvw
  obtain ⟨r, c, d, hc, hd, hstreams, hline⟩ := h ⟨v.state.streams, v.thread.line⟩
    ⟨w.state.streams, w.thread.line⟩ ⟨hvw.streams, hvw.line⟩
  rw [console_apply, console_apply, hc, hd]
  exact ⟨.ok r, _, _, rfl, rfl, hstreams, hvw.environment, hvw.stderr, hvw.settings, hline⟩

theorem agree_settings : Agree (View.Tied P) settings settings := by
  intro v w h
  have hconfigured : v.state.configured = w.state.configured := by
    rw [Process.configured, Process.configured, h.settings, h.environment]
  refine ⟨_, _, _, settings_apply v, hconfigured ▸ settings_apply w, ?_⟩
  exact ⟨h.streams.of_log _ _, h.environment, h.stderr, rfl, h.line⟩

/-- Output comes to the same; a fault is returned to one and logged for the other. -/
theorem tied_write (symbol : String) {a : Action (Streams ω) Unit}
    (h : Agree (Streams.Tied P) a a) : Tied P (output a) (write symbol a) := by
  intro v w hvw
  obtain ⟨r, s, t, hs, ht, hstreams⟩ := h _ _ hvw.streams
  rw [output_apply, write_apply, hs, ht]
  refine ⟨?_, Or.inl ⟨r, .nothing, rfl, rfl⟩⟩
  exact ⟨hstreams.of_log _ _, hvw.environment, hvw.stderr, hvw.settings, hvw.line⟩

variable [Sink ω]

theorem agree_exitInvalid (hP : Sink.Keeps P) (e : LiteralError) :
    Agree (View.Tied P) (exitInvalid e : Run ω α) (exitInvalid e) := by
  have hthrow (code : ExitCode) :
      Agree (View.Tied P) (throw code : Run ω α) (throw code : Run ω α) :=
    fun v w h => ⟨.error code, v, w, rfl, rfl, h⟩
  apply agree_settings.bind
  intro settings
  apply (agree_log _).bind
  intro _
  cases settings.stream with
  | stdout =>
    have hrender := render_agree (Streams.alike_tied hP).writes (.ofPieces e.pieces)
    exact (agree_console (onChannel_agree hrender)).bind fun _ => hthrow _
  | stderr =>
    apply Agree.bind _ fun _ => hthrow _
    intro v w h
    refine ⟨.ok ⟨⟩, _, _, rfl, rfl, h.streams, h.environment, ?_, h.settings, h.line⟩
    exact congrArg (· ++ _) h.stderr

/-- Both refuse the same literals, and in the same way. -/
theorem agree_parseInt (hP : Sink.Keeps P) (literal : Bytes) :
    Agree (View.Tied P) (parseInt literal : Run ω Int32) (parseInt literal : Run ω Int32) := by
  unfold parseInt
  split
  · exact agree_pure _
  · exact agree_exitInvalid hP _

/-- Both read the same line. -/
theorem tied_read (hP : Sink.Keeps P) (question : Option Bytes) :
    Tied P (console (readText question) : Run ω _) (readInto (readBehind question)) := by
  intro v w hvw
  obtain ⟨r, c, d, hc, hd, hstreams, hline⟩ := readBehind_agree (Streams.alike_tied hP) question
    ⟨v.state.streams, v.thread.line⟩ ⟨w.state.streams, w.thread.line⟩ ⟨hvw.streams, hvw.line⟩
  rw [console_apply, readText_apply, readInto_apply hd, hc]
  refine ⟨?_, Or.inl ⟨_, _, rfl, rfl⟩⟩
  exact ⟨hstreams.of_log _ _, hvw.environment, hvw.stderr, hvw.settings, hline⟩

/-- A string without zeros is printed as a native program prints it. -/
theorem foreign_printString {text : String} (h : ZeroFree [text]) :
    (foreign (.printString (some (Utf8.encode text))) : Run ω _) =
      write "print_p" (Console.print (.str text)) := by
  have hbytes := upToZero_eq_self (h text List.mem_cons_self)
  have hstring : string (some (Utf8.encode text)) = some (Utf8.encode text) :=
    congrArg some hbytes
  rw [foreign, hstring, print_str]
  rfl

theorem foreign_printValues {vs : List Value} (h : ZeroFree (vs.flatMap Value.strings)) :
    (foreign (.printValues (.ofList (vs.map .ofValue))) : Run ω _) =
      write "print_values" (Console.printValues vs) := by
  simp only [foreign, Values.visited_ofList, Values.convert_ofValue h]
  rfl

theorem foreign_parseInt {literal : String} (h : ZeroFree [literal]) :
    (foreign (.parseInt (some (Utf8.encode literal))) : Run ω _) =
      parseInt (Utf8.encode literal) >>= fun n => pure (.int n) := by
  rw [foreign, Request.stringOrEmpty_encode h]

theorem single_foreign_eq (call : Foreign.Call) :
    (single (.foreign call) : Run ω Reply) = foreign call >>= fun reply => pure (.foreign reply) :=
  rfl

theorem single_readsLine {r : Request} {question : Option Bytes} (h : r.ReadsLine question) :
    (single r.native : Run ω Reply) =
      console (readText question) >>= fun result => pure (native result .text) := by
  cases h <;> rfl

/-- Every request comes to the same in both languages. -/
theorem tied_request (hP : Sink.Keeps P) (r : Request) (hzero : ZeroFree r.strings) :
    Tied P (single r.native) (single (.foreign r.exported)) := by
  have htied := Streams.alike_tied hP
  have hinput (question : Option Bytes) (h : r.ReadsLine question) :
      Tied P (single r.native) (single (.foreign r.exported)) := by
    rw [single_readsLine h, single_foreign_eq, foreign_readsLine (h.exported hzero)]
    exact (tied_read hP question).bind fun _ _ => tied_pure _ _
  cases r with
  | print v =>
    cases v with
    | int n => exact (tied_write _ (render_agree htied.writes _)).bind fun _ _ => tied_pure _ _
    | float x => exact (tied_write _ (render_agree htied.writes _)).bind fun _ _ => tied_pure _ _
    | str text =>
      rw [Request.exported, single_foreign_eq, foreign_printString hzero]
      exact (tied_write _ (render_agree htied.writes _)).bind fun _ _ => tied_pure _ _
  | printValues vs =>
    rw [Request.exported, single_foreign_eq, foreign_printValues hzero]
    exact (tied_write _ (printValues_agree htied.writes vs)).bind fun _ _ => tied_pure _ _
  | newline => exact (tied_write _ (newline_agree htied.writes)).bind fun _ _ => tied_pure _ _
  | input => exact hinput none .input
  | inputPrompt text => exact hinput _ (.inputPrompt text)
  | parseInt literal =>
    rw [Request.exported, single_foreign_eq, foreign_parseInt hzero]
    simp only [bind_assoc, pure_bind]
    exact (tied_of_agree (agree_parseInt hP _)).bind fun _ _ => tied_pure _ _

end Run

/-- What programs in both languages see of their outcome. -/
structure InputsAgree (before after : Script) (line : Bytes) (result : Except Error Answer)
    (string : Bytes) (status : Int32) : Prop where
  endOfStream : result = .error (.console .endOfStream) ↔ status = 1
  readFailed : result = .error (.console .readFailed) ↔ status = -1
  otherwise : status ≠ 1 → status ≠ -1 → status = 0
  text : status = 0 → ∀ text, line = Utf8.encode text →
    result = .ok (.text text) ∧ string = upToZero (Utf8.encode text)
  invalid : status = 0 → ¬ Utf8.IsText line → result = .error (.console .invalidUtf8)
  /-- The line, a text or not, is the next one of the input, and it is used up. -/
  taken : status = 0 → ∃ p, (Pieces.cut before.remaining)[0]? = some p ∧
    line = Pieces.content p ∧ before.remaining = p ++ after.remaining

open Utf8 LineBuffer Pieces

/-- What a native program gets for a read. -/
def textResult (r : Except Fault Bytes) : Except Error Answer :=
  ((r.bind fun bytes => (ofBytes bytes).text).map .text).mapError .console

theorem textResult_of_isText (text : String) :
    textResult (.ok (encode text)) = .ok (.text text) := by
  simp only [textResult, Except.bind, text_ofBytes_encode]
  rfl

theorem textResult_of_not_isText {bytes : Bytes} (h : ¬ IsText bytes) :
    textResult (.ok bytes) = .error (.console .invalidUtf8) := by
  simp only [textResult, Except.bind, text_ofBytes_of_not_isText h]
  rfl

theorem textResult_ne {bytes : Bytes} {e : Fault} (he : e ≠ .invalidUtf8) :
    textResult (.ok bytes) ≠ .error (.console e) := by
  intro h
  by_cases htext : IsText bytes
  · obtain ⟨text, rfl⟩ := htext
    rw [textResult_of_isText] at h
    cases h
  · rw [textResult_of_not_isText htext] at h
    cases h
    exact he rfl

theorem LineRead.inputsAgree {before : Script} {r : Except Fault Bytes}
    {c : Console (Streams ω)} (h : LineRead before r c) :
    InputsAgree before c.channel.input c.line.bytes (textResult r) c.line.pointee
      (InputStatus.ofResult r).code := by
  cases h with
  | line p t first taken =>
    have hbytes := bytes_ofBytes (content p)
    have hstring : (ofBytes (content p)).pointee = upToZero (content p) := pointee_ofBytes _
    have hended : (0 : Int32) ≠ 1 := by decide
    have hfailed : (0 : Int32) ≠ -1 := by decide
    constructor
    case endOfStream => exact iff_of_false (textResult_ne (by decide)) hended
    case readFailed => exact iff_of_false (textResult_ne (by decide)) hfailed
    case otherwise => exact fun _ _ => rfl
    case text =>
      intro _ text htext
      rw [hbytes] at htext
      rw [hstring, htext]
      exact ⟨textResult_of_isText text, rfl⟩
    case invalid =>
      intro _ htext
      rw [hbytes] at htext
      exact textResult_of_not_isText htext
    case taken => exact fun _ => ⟨p, first, hbytes, taken⟩
  | ended t hremaining hleft =>
    have hstatus : (1 : Int32) ≠ 0 := by decide
    constructor
    case endOfStream => exact iff_of_true rfl rfl
    case readFailed => exact iff_of_false (by rintro ⟨⟩) (by decide)
    case otherwise => exact fun hne => absurd rfl hne
    case text => exact fun hzero => absurd hzero hstatus
    case invalid => exact fun hzero => absurd hzero hstatus
    case taken => exact fun hzero => absurd hzero hstatus
  | failed t hunsound =>
    have hstatus : (-1 : Int32) ≠ 0 := by decide
    constructor
    case endOfStream => exact iff_of_false (by rintro ⟨⟩) (by decide)
    case readFailed => exact iff_of_true rfl rfl
    case otherwise => exact fun _ hne => absurd rfl hne
    case text => exact fun hzero => absurd hzero hstatus
    case invalid => exact fun hzero => absurd hzero hstatus
    case taken => exact fun hzero => absurd hzero hstatus

namespace Session

structure Tied (P : ω → Prop) (n c : Session ω) : Prop where
  view : n.view.Tied P c.view
  exit : n.exit = c.exit
  calls : n.journal.length = c.journal.length

variable {ω : Type} [Sink ω] {P : ω → Prop} {n c : Session ω}

theorem tied_single {a b : Call} (hab : Run.Tied P (Run.single a) (Run.single b))
    (h : n.Tied P c) : (single a n).Tied P (single b c) := by
  obtain ⟨hstates, hresults⟩ := hab _ _ h.view
  unfold single
  generalize Run.single a n.view = p at hstates hresults
  generalize Run.single b c.view = q at hstates hresults
  obtain ⟨r, v⟩ := p
  obtain ⟨r', w⟩ := q
  rcases hresults with ⟨x, y, rfl, rfl⟩ | ⟨code, rfl, rfl⟩
  · refine ⟨hstates, h.exit, ?_⟩
    simp [record, h.calls]
  · exact ⟨hstates, rfl, h.calls⟩

theorem tied_call (hP : Sink.Keeps P) (r : Request) (hzero : ZeroFree r.strings)
    (h : n.Tied P c) :
    (call r.native n).Tied P (call (.foreign r.exported) c) := by
  rw [r.call_native]
  exact tied_single (Run.tied_request hP r hzero) h

theorem tied_callAll (hP : Sink.Keeps P) (requests : List Request)
    (hzero : ∀ r ∈ requests, ZeroFree r.strings) (h : n.Tied P c) :
    (callAll (requests.map Request.native) n).Tied P
      (callAll (requests.map fun r => .foreign r.exported) c) := by
  induction requests generalizing n c with
  | nil => exact h
  | cons r rest ih =>
    have hcall := tied_call hP r (hzero r List.mem_cons_self) h
    have hrest := ih (fun r hr => hzero r (List.mem_cons_of_mem _ hr)) hcall
    -- Where one process ends, the other does, and neither makes the rest of its calls.
    cases hexit : (call r.native n).exit with
    | none =>
      have hexit' := hcall.exit.symm.trans hexit
      rwa [List.map_cons, List.map_cons, callAll_cons _ hexit, callAll_cons _ hexit']
    | some code =>
      have hexit' := hcall.exit.symm.trans hexit
      rwa [List.map_cons, List.map_cons, callAll_cons_exit _ hexit, callAll_cons_exit _ hexit']

/-- An input is made and its status is asked for, each in its own language. -/
theorem tied_inputs (contents : Sink.Contents ω) {r : Request} {question : Option Bytes}
    (hr : r.ReadsLine question) (hzero : ZeroFree r.strings) (h : n.Tied contents.Works c)
    (hexit : n.exit = none) :
    ∃ result string status p₁ p₂ p₃,
      (callAll [r.native] n).journal = n.journal ++ [⟨r.native, .native result, p₁⟩] ∧
      (callAll [.foreign r.exported, .foreign .inputStatus] c).journal = c.journal ++
        [⟨.foreign r.exported, .foreign (.string string), p₂⟩,
          ⟨.foreign .inputStatus, .foreign (.int status), p₃⟩] ∧
      InputsAgree n.view.state.streams.input
        (callAll [r.native] n).view.state.streams.input
        (callAll [r.native] n).view.thread.line.bytes result string status := by
  obtain ⟨result, d, e, hd, he, -, hline⟩ := readBehind_agree
    (Streams.alike_tied contents.keeps) question ⟨n.view.state.streams, n.view.thread.line⟩
    ⟨c.view.state.streams, c.view.thread.line⟩ ⟨h.view.streams, h.view.line⟩
  have hworks : contents.Works n.view.state.streams.output := by
    rw [h.view.streams.output]
    exact h.view.streams.kept
  have hread :=
    readBehind_lineRead contents question ⟨n.view.state.streams, n.view.thread.line⟩ hworks
  rw [hd] at hread
  have hforeign := Run.readInto_apply he
  rw [← Run.foreign_readsLine (hr.exported hzero)] at hforeign
  obtain ⟨p₂, p₃, hjournal⟩ := callAll_status (h.exit.symm.trans hexit) hforeign
  have hnative : call r.native n = record r.native (.native (textResult result))
      { n with view := { n.view with state.streams := d.channel, thread.line := d.line } } := by
    rw [r.call_native, single, Run.single_readsLine hr, bind_apply, Run.console_apply,
      readText_apply, hd]
    rfl
  have hcall : callAll [r.native] n = call r.native n := by
    rw [callAll_cons [] (by rw [hnative]; exact hexit), callAll]
  refine ⟨textResult result, _, _, { n.view.state with streams := d.channel }, p₂, p₃, ?_,
    hjournal, ?_⟩
  · rw [hcall, hnative]
    rfl
  · rw [hcall, hnative, ← hline]
    exact hread.inputsAgree

/-- A native program and a program in C with the same requests, none of which has a zero in a
string, write the same and take the same input up to every call, and end at the same call with
the same code. Where standard output works, the outcomes of each input agree. -/
theorem native_foreign_agree (s : Session ω) (requests : List Request)
    (hzero : ∀ r ∈ requests, ZeroFree r.strings) (k : Nat) :
    let n := callAll ((requests.take k).map Request.native) s
    let c := callAll ((requests.take k).map fun r => .foreign r.exported) s
    n.view.state.streams.output = c.view.state.streams.output ∧
    n.view.state.streams.input = c.view.state.streams.input ∧
    n.exit = c.exit ∧
    n.journal.length = c.journal.length ∧
    ∀ (contents : Sink.Contents ω) r question, contents.Works s.view.state.streams.output →
      requests[k]? = some r → r.ReadsLine question → n.exit = none →
      ∃ result string status p₁ p₂ p₃,
        (callAll [r.native] n).journal = n.journal ++ [⟨r.native, .native result, p₁⟩] ∧
        (callAll [.foreign r.exported, .foreign .inputStatus] c).journal = c.journal ++
          [⟨.foreign r.exported, .foreign (.string string), p₂⟩,
            ⟨.foreign .inputStatus, .foreign (.int status), p₃⟩] ∧
        InputsAgree n.view.state.streams.input
          (callAll [r.native] n).view.state.streams.input
          (callAll [r.native] n).view.thread.line.bytes result string status := by
  intro n c
  have htied {P : ω → Prop} (hP : Sink.Keeps P) (hs : P s.view.state.streams.output) :
      n.Tied P c :=
    tied_callAll hP _ (fun r hr => hzero r (List.mem_of_mem_take hr))
      ⟨⟨⟨rfl, rfl, hs⟩, rfl, rfl, rfl, rfl⟩, rfl, rfl⟩
  have hany : n.Tied (fun _ => True) c := htied ⟨fun _ _ _ => trivial, fun _ _ => trivial⟩ trivial
  refine ⟨hany.view.streams.output, hany.view.streams.input, hany.exit, hany.calls, ?_⟩
  intro contents r question hworks hr hreads hrunning
  exact tied_inputs contents hreads (hzero r (List.mem_of_getElem? hr))
    (htied contents.keeps hworks) hrunning

/-- A line that is no text, behind a prompt. -/
theorem native_foreign_agree_on_noise :
    let s : Session Stdout := { view := { state := {
      streams := { input := ⟨[.data [0xFF, 0x0A, 0x61]], .endOfStream⟩, output := {} }
      environment := fun _ => none } } }
    ∃ result string status p₁ p₂ p₃,
      (callAll [.inputPrompt "?"] s).journal = [⟨.inputPrompt "?", .native result, p₁⟩] ∧
      (callAll [.foreign (.inputPrompt (some [0x3F])), .foreign .inputStatus] s).journal =
        [⟨.foreign (.inputPrompt (some [0x3F])), .foreign (.string string), p₂⟩,
          ⟨.foreign .inputStatus, .foreign (.int status), p₃⟩] ∧
      status = 0 ∧ result = .error (.console .invalidUtf8) := by
  intro s
  obtain ⟨-, -, -, -, hinputs⟩ := native_foreign_agree s [.inputPrompt "?"] (by decide +kernel) 0
  obtain ⟨result, string, status, p₁, p₂, p₃, hnative, hforeign, hagree⟩ :=
    hinputs Stdout.contents _ _ rfl rfl (.inputPrompt "?") rfl
  have hstatus : status = 0 := by
    have hreply : some (Reply.foreign (.int 0)) = some (Reply.foreign (.int status)) :=
      congrArg (fun journal => journal.getLast?.map Finished.reply) hforeign
    cases hreply
    rfl
  have hline : (callAll [.inputPrompt "?"] s).view.thread.line.bytes = [0xFF] := by
    decide +kernel
  have hnoise : ¬ IsText (callAll [.inputPrompt "?"] s).view.thread.line.bytes := by
    rw [hline, isText_iff]
    decide
  exact ⟨result, string, status, p₁, p₂, p₃, hnative, hforeign, hstatus,
    hagree.invalid hstatus hnoise⟩

end Session

end Host

end LineConsole
