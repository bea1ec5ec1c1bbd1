import LineConsole.Proofs.Agreement
import LineConsole.Proofs.Host

/-!
How a refused literal ends a process. Calls that refuse no literal return, leave standard error
alone and change no setting. The first call that refuses one ends the process with the exit code
of the settings, wherever it stands among calls and threads, and shows its diagnostic on the
stream of the settings and nowhere else. Standard output may be any sink: one that works takes
what is written to it, and on any other the process ends just as it does there.
-/
namespace LineConsole

open Fallible

def Literal.refusal (literal : Bytes) : Option LiteralError :=
  match parse literal with
  | .ok _ => none
  | .error e => some e

theorem Literal.refusal_eq_none_iff {literal : Bytes} :
    refusal literal = none ↔ ∃ n, parse literal = .ok n := by
  unfold refusal
  split <;> simp_all

theorem Literal.refusal_eq_some_iff {literal : Bytes} {e : LiteralError} :
    refusal literal = some e ↔ parse literal = .error e := by
  unfold refusal
  split <;> simp_all

def Foreign.Call.refusal : Call → Option LiteralError
  | .parseInt literal => Literal.refusal (stringOrEmpty literal)
  | _ => none

namespace Host

mutual

/-- The error of the first literal that the call refuses; a thread refuses what its calls do. -/
def Call.refusal : Call → Option LiteralError
  | .foreign call => call.refusal
  | .parseIntOrExit literal => Literal.refusal (Utf8.encode literal)
  | .thread calls => firstRefusal calls
  | _ => none

def firstRefusal : List Call → Option LiteralError
  | [] => none
  | c :: rest => c.refusal.or (firstRefusal rest)

end

mutual

/-- The calls that are made up to the one that refuses a literal, with or without it. -/
def Call.upTo (last : Bool) : Call → List Call
  | .thread calls => [.thread (upToRefusal last calls)]
  | c => if last then [c] else []

def upToRefusal (last : Bool) : List Call → List Call
  | [] => []
  | c :: rest => if c.refusal.isSome then c.upTo last else c :: upToRefusal last rest

end

/-- The call returns the number of the literal, or else ends the process. -/
inductive Call.Parses : Call → Bytes → (Int32 → Reply) → Prop
  | native (text : String) : Parses (.parseIntOrExit text) (Utf8.encode text) .int
  | foreign (p : Foreign.Pointer) :
      Parses (.foreign (.parseInt p)) (Foreign.stringOrEmpty p) fun n => .foreign (.int n)

def Call.IsSingle (c : Call) : Prop := ∀ calls, c ≠ .thread calls

theorem Call.IsSingle.call {ω : Type} [Sink ω] {c : Call} (h : c.IsSingle) (s : Session ω) :
    Session.call c s = Session.single c s := by
  cases c with
  | thread calls => exact absurd rfl (h calls)
  | _ => rfl

theorem Call.IsSingle.upTo {c : Call} (h : c.IsSingle) (last : Bool) :
    c.upTo last = if last then [c] else [] := by
  cases c with
  | thread calls => exact absurd rfl (h calls)
  | _ => rfl

/-- Induction over calls: a thread is reached from its calls. -/
theorem Call.induction {motive : Call → Prop} (single : ∀ c, c.IsSingle → motive c)
    (thread : ∀ calls, (∀ c ∈ calls, motive c) → motive (.thread calls)) (c : Call) :
    motive c := by
  cases c with
  | thread calls => exact thread calls fun c _ => Call.induction single thread c
  | _ => exact single _ fun _ h => by cases h
termination_by sizeOf c
decreasing_by
  have hless := List.sizeOf_lt_of_mem ‹c ∈ calls›
  simp only [Call.thread.sizeOf_spec]
  omega

variable {ω : Type} [Sink ω]

/-- What no call changes that returns. -/
structure Kept (p q : Process ω) : Prop where
  stderr : q.stderr = p.stderr
  configured : q.configured = p.configured
  output : ∀ P, Sink.Keeps P → P p.streams.output → P q.streams.output

theorem Kept.refl (p : Process ω) : Kept p p := ⟨rfl, rfl, fun _ _ h => h⟩

theorem Kept.trans {p q r : Process ω} (h : Kept p q) (h' : Kept q r) : Kept p r where
  stderr := h'.stderr.trans h.stderr
  configured := h'.configured.trans h.configured
  output P hP hp := h'.output P hP (h.output P hP hp)

namespace Run

def Returns {α : Type} (a : Run ω α) : Prop :=
  ∀ v, ∃ x w, a v = (.ok x, w) ∧ Kept v.state w.state

theorem returns_pure {α : Type} (x : α) : Returns (pure x : Run ω α) :=
  fun v => ⟨x, v, rfl, .refl _⟩

theorem Returns.bind {α β : Type} {a : Run ω α} {f : α → Run ω β} (ha : Returns a)
    (hf : ∀ x, Returns (f x)) : Returns (a >>= f) := by
  intro v
  obtain ⟨x, w, hax, hkept⟩ := ha v
  obtain ⟨y, u, hfy, hkept'⟩ := hf x w
  refine ⟨y, u, ?_, hkept.trans hkept'⟩
  rw [bind_apply, hax]
  exact hfy

theorem returns_get : Returns (get : Run ω (View ω)) := fun v => ⟨v, v, rfl, .refl _⟩

theorem returns_thread (f : View ω → Thread) :
    Returns (modify fun v => { v with thread := f v } : Run ω Unit) := fun _ => ⟨⟨⟩, _, rfl, .refl _⟩

theorem returns_log (e : Event) : Returns (log e : Run ω Unit) :=
  fun _ => ⟨(), _, rfl, rfl, rfl, fun _ _ h => h⟩

theorem returns_settings : Returns (settings : Run ω Settings) := by
  intro v
  exact ⟨_, _, settings_apply v, rfl, rfl, fun _ _ h => h⟩

theorem returns_console {α : Type} {a : Action (Console (Streams ω)) α}
    (h : ∀ P, Sink.Keeps P → Agree (Console.Alike (Streams.Tied P)) a a) :
    Returns (console a) := by
  intro v
  refine ⟨_, _, console_apply a v, rfl, rfl, ?_⟩
  exact fun P hP hp => Streams.kept_of_agree (h P hP) _ hp

theorem returns_output {a : Action (Streams ω) Unit}
    (h : ∀ P, Sink.Keeps P → Agree (Streams.Tied P) a a) : Returns (output a) :=
  returns_console fun P hP => Console.onChannel_agree (h P hP)

theorem returns_report (symbol : String) (result : Except Fault Unit) :
    Returns (report symbol result : Run ω Unit) := by
  cases result with
  | ok _ => exact returns_pure ()
  | error fault => exact returns_log _

theorem returns_write (symbol : String) {a : Action (Streams ω) Unit}
    (h : ∀ P, Sink.Keeps P → Agree (Streams.Tied P) a a) : Returns (write symbol a) := by
  apply (returns_output h).bind
  intro result
  apply (returns_report symbol result).bind
  intro _
  exact returns_pure _

theorem returns_skip (e : Event) : Returns (skip e : Run ω Foreign.Reply) :=
  (returns_log e).bind fun _ => returns_pure _

theorem returns_readInto {read : Action (Console (Streams ω)) Bytes}
    (h : ∀ P, Sink.Keeps P → Agree (Console.Alike (Streams.Tied P)) read read) :
    Returns (readInto read) := by
  intro v
  refine ⟨_, _, readInto_apply rfl, rfl, rfl, ?_⟩
  exact fun P hP hp => Streams.kept_of_agree (h P hP) _ hp

theorem parseInt_ok {literal : Bytes} {n : Int32} (h : Literal.parse literal = .ok n) :
    (parseInt literal : Run ω Int32) = pure n := by
  rw [parseInt, h]

theorem parseInt_error {literal : Bytes} {e : LiteralError}
    (h : Literal.parse literal = .error e) :
    (parseInt literal : Run ω Int32) = exitInvalid e := by
  rw [parseInt, h]

theorem returns_parseInt {literal : Bytes} (h : Literal.refusal literal = none) :
    Returns (parseInt literal : Run ω Int32) := by
  obtain ⟨n, hn⟩ := Literal.refusal_eq_none_iff.mp h
  rw [parseInt_ok hn]
  exact returns_pure n

open Console in
/-- A call from C that refuses no literal returns. -/
theorem returns_foreign (call : Foreign.Call) (h : call.refusal = none) :
    Returns (foreign call : Run ω Foreign.Reply) := by
  have htied (P : ω → Prop) (hP : Sink.Keeps P) := Streams.alike_tied hP
  cases call with
  | newline => exact returns_write _ fun P hP => newline_agree (htied P hP).writes
  | printInt n => exact returns_write _ fun P hP => render_agree (htied P hP).writes _
  | printFloat x => exact returns_write _ fun P hP => render_agree (htied P hP).writes _
  | printString s =>
    rw [foreign]
    split
    · exact returns_skip _
    · exact returns_write _ fun P hP => printBytes_agree (htied P hP).writes _ _
  | printValues vs =>
    rw [foreign]
    split
    · exact returns_skip _
    · split
      · exact returns_skip _
      · exact returns_write _ fun P hP => printValues_agree (htied P hP).writes _
  | input => exact returns_readInto fun P hP => readLine_agree (htied P hP).readByte
  | inputPrompt prompt => exact returns_readInto fun P hP => prompt_agree (htied P hP) _
  | inputStatus => exact returns_get.bind fun _ => returns_pure _
  | parseInt literal => exact (returns_parseInt h).bind fun _ => returns_pure _
  | floor x =>
    rw [foreign]
    dsimp only
    split
    · exact returns_pure _
    · exact (returns_log _).bind fun _ => returns_pure _

open Console in
/-- A call that refuses no literal returns, if it is made at once. -/
theorem returns_single (call : Call) (h : call.refusal = none) :
    Returns (single call : Run ω Reply) := by
  have htied (P : ω → Prop) (hP : Sink.Keeps P) := Streams.alike_tied hP
  cases call with
  | foreign call => exact (returns_foreign call h).bind fun _ => returns_pure _
  | print v =>
    exact (returns_output fun P hP => render_agree (htied P hP).writes _).bind fun _ => returns_pure _
  | printValues vs =>
    exact (returns_output fun P hP => printValues_agree (htied P hP).writes _).bind fun _ =>
      returns_pure _
  | newline =>
    exact (returns_output fun P hP => newline_agree (htied P hP).writes).bind fun _ => returns_pure _
  | input =>
    exact (returns_console fun P hP => input_agree (htied P hP)).bind fun _ => returns_pure _
  | inputPrompt text =>
    exact (returns_console fun P hP => inputPrompt_agree (htied P hP) _).bind fun _ =>
      returns_pure _
  | parseInt literal => exact returns_pure _
  | parseIntOrExit literal => exact (returns_parseInt h).bind fun _ => returns_pure _
  | floor x => exact returns_pure _
  | printInline v =>
    exact (returns_output fun P hP => renderInline_agree (htied P hP).writes _).bind fun _ =>
      returns_pure _
  | line => exact returns_get.bind fun _ => returns_pure _
  | readByte =>
    exact (returns_console fun P hP => onChannel_agree (htied P hP).readByte).bind fun _ =>
      returns_pure _
  | freshPrompt text =>
    apply returns_get.bind
    intro v
    apply (returns_thread _).bind
    intro _
    apply (returns_console fun P hP => prompt_agree (htied P hP) text).bind
    intro _
    exact (returns_thread _).bind fun _ => returns_pure _
  | nested => exact returns_pure _
  | settings => exact returns_settings.bind fun _ => returns_pure _
  | thread calls => exact returns_pure _

/-- A literal that is accepted changes nothing. -/
theorem single_parses {c : Call} {literal : Bytes} {reply : Int32 → Reply}
    (hc : c.Parses literal reply) {n : Int32} (h : Literal.parse literal = .ok n)
    (v : View ω) : single c v = (.ok (reply n), v) := by
  cases hc with
  | native text =>
    rw [single, parseInt_ok h]
    rfl
  | foreign p =>
    rw [single, foreign, parseInt_ok h]
    rfl

/-- The process ends inside the call. -/
theorem single_refused {c : Call} (hc : c.IsSingle) {e : LiteralError}
    (h : c.refusal = some e) (v : View ω) :
    ∃ q, single c v = (.error v.state.configured.exitCode, { v with state := q }) ∧
      Refused e v.state q := by
  cases c with
  | foreign call =>
    cases call with
    | parseInt literal =>
      obtain ⟨q, hexit, hrefused⟩ := exitInvalid_apply (α := Int32) e v
      refine ⟨q, ?_, hrefused⟩
      rw [single, foreign, parseInt_error (Literal.refusal_eq_some_iff.mp h), bind_apply,
        bind_apply, hexit]
    | _ => cases h
  | parseIntOrExit literal =>
    obtain ⟨q, hexit, hrefused⟩ := exitInvalid_apply (α := Int32) e v
    refine ⟨q, ?_, hrefused⟩
    rw [single, parseInt_error (Literal.refusal_eq_some_iff.mp h), bind_apply, hexit]
  | thread calls => exact absurd rfl (hc calls)
  | _ => cases h

end Run

theorem firstRefusal_eq_none_iff {calls : List Call} :
    firstRefusal calls = none ↔ ∀ c ∈ calls, c.refusal = none := by
  induction calls with
  | nil => simp [firstRefusal]
  | cons c rest ih => simp [firstRefusal, ih]

namespace Session

/-- The session goes on and the process has kept what calls keep. -/
structure GoesOn (s t : Session ω) : Prop where
  running : t.exit = none
  kept : Kept s.view.state t.view.state

/-- A thread that returns leaves the line and the status of the thread that started it. -/
theorem call_thread {s : Session ω} (calls : List Call)
    (h : (callAll calls { s with view.thread := {} }).exit = none) :
    call (.thread calls) s = record (.thread calls) .nothing
      { callAll calls { s with view.thread := {} } with view.thread := s.view.thread } := by
  rw [call]
  simp [h]

theorem call_thread_exit {s : Session ω} {calls : List Call} {code : ExitCode}
    (h : (callAll calls { s with view.thread := {} }).exit = some code) :
    call (.thread calls) s = callAll calls { s with view.thread := {} } := by
  rw [call]
  simp [h]

theorem callAll_goesOn_of {calls : List Call}
    (h : ∀ c ∈ calls, ∀ s : Session ω, s.exit = none → GoesOn s (call c s)) (s : Session ω)
    (hs : s.exit = none) : GoesOn s (callAll calls s) := by
  induction calls generalizing s with
  | nil => exact ⟨hs, .refl _⟩
  | cons c rest ih =>
    have hcall := h c List.mem_cons_self s hs
    have hrest := ih (fun d hd => h d (List.mem_cons_of_mem _ hd)) _ hcall.running
    rw [callAll_cons rest hcall.running]
    exact ⟨hrest.running, hcall.kept.trans hrest.kept⟩

theorem call_goesOn (c : Call) (h : c.refusal = none) (s : Session ω) (hs : s.exit = none) :
    GoesOn s (call c s) := by
  induction c using Call.induction generalizing s with
  | single c hc =>
    obtain ⟨reply, w, hrun, hkept⟩ := Run.returns_single c h s.view
    rw [hc.call, single, hrun]
    exact ⟨hs, hkept⟩
  | thread calls ih =>
    have hcalls := firstRefusal_eq_none_iff.mp h
    have hinner := callAll_goesOn_of (fun c hc => ih c hc (hcalls c hc))
      { s with view.thread := {} } hs
    rw [call_thread calls hinner.running]
    exact ⟨hinner.running, hinner.kept⟩

/-- Calls that refuse no literal are all made. -/
theorem callAll_goesOn {calls : List Call} (h : firstRefusal calls = none) (s : Session ω)
    (hs : s.exit = none) : GoesOn s (callAll calls s) :=
  callAll_goesOn_of (fun c hc => call_goesOn c (firstRefusal_eq_none_iff.mp h c hc)) s hs

/-- How a process ends that refuses a literal: the calls before it are made, and the literal is
refused where they have led. -/
structure Ends (e : LiteralError) (s before after : Session ω) : Prop where
  goesOn : GoesOn s before
  exit : after.exit = some s.view.state.configured.exitCode
  refused : Refused e before.view.state after.view.state

theorem GoesOn.ends {e : LiteralError} {s t before after : Session ω} (h : GoesOn s t)
    (hends : Ends e t before after) : Ends e s before after where
  goesOn := ⟨hends.goesOn.running, h.kept.trans hends.goesOn.kept⟩
  exit := by rw [hends.exit, h.kept.configured]
  refused := hends.refused

theorem callAll_ends_of {calls : List Call}
    (h : ∀ c ∈ calls, ∀ e, c.refusal = some e → ∀ s : Session ω, s.exit = none →
      Ends e s (callAll (c.upTo false) s) (call c s) ∧ callAll (c.upTo true) s = call c s)
    {e : LiteralError} (he : firstRefusal calls = some e) (s : Session ω) (hs : s.exit = none) :
    Ends e s (callAll (upToRefusal false calls) s) (callAll calls s) ∧
      callAll (upToRefusal true calls) s = callAll calls s := by
  induction calls generalizing s with
  | nil => cases he
  | cons c rest ih =>
    cases hc : c.refusal with
    | none =>
      have hcall := call_goesOn c hc s hs
      have hrest : firstRefusal rest = some e := by simpa [firstRefusal, hc] using he
      obtain ⟨hends, hwhole⟩ := ih (fun d hd => h d (List.mem_cons_of_mem _ hd)) hrest _
        hcall.running
      simp only [upToRefusal, hc, Option.isSome_none, Bool.false_eq_true, if_false,
        callAll_cons _ hcall.running]
      exact ⟨hcall.ends hends, hwhole⟩
    | some e' =>
      obtain rfl : e' = e := by simpa [firstRefusal, hc] using he
      obtain ⟨hends, hwhole⟩ := h c List.mem_cons_self e' hc s hs
      simp only [upToRefusal, hc, Option.isSome_some, if_true, callAll_cons_exit rest hends.exit]
      exact ⟨hends, hwhole⟩

theorem call_ends (c : Call) {e : LiteralError} (he : c.refusal = some e) (s : Session ω)
    (hs : s.exit = none) :
    Ends e s (callAll (c.upTo false) s) (call c s) ∧ callAll (c.upTo true) s = call c s := by
  induction c using Call.induction generalizing e s with
  | single c hc =>
    obtain ⟨q, hrun, hrefused⟩ := Run.single_refused hc he s.view
    have hcall : call c s = { s with
        view := { s.view with state := q }
        exit := s.view.state.configured.exitCode } := by
      rw [hc.call, single, hrun]
    rw [hc.upTo, hc.upTo, hcall]
    refine ⟨⟨⟨hs, .refl _⟩, rfl, hrefused⟩, ?_⟩
    rw [if_pos rfl, callAll_cons_exit [] (by rw [hcall]), hcall]
  | thread calls ih =>
    -- The thread itself returns if its calls stop before the literal, and only then.
    obtain ⟨hends, hwhole⟩ := callAll_ends_of (fun c hc e he => ih c hc he) he
      { s with view.thread := {} } hs
    have hafter : call (.thread calls) s = callAll calls { s with view.thread := {} } :=
      call_thread_exit hends.exit
    have hbefore := call_thread (upToRefusal false calls) hends.goesOn.running
    have hinside : call (.thread (upToRefusal true calls)) s =
        callAll calls { s with view.thread := {} } :=
      hwhole ▸ call_thread_exit (hwhole ▸ hends.exit)
    have hrunning : (call (.thread (upToRefusal false calls)) s).exit = none := by
      rw [hbefore]
      exact hends.goesOn.running
    rw [Call.upTo, Call.upTo, hafter, callAll_cons _ hrunning, callAll, hbefore]
    refine ⟨⟨⟨hends.goesOn.running, hends.goesOn.kept⟩, hends.exit, hends.refused⟩, ?_⟩
    rw [callAll_cons_exit [] (by rw [hinside]; exact hends.exit), hinside]

theorem callAll_parses {c : Call} {literal : Bytes} {reply : Int32 → Reply}
    (hc : c.Parses literal reply) {n : Int32} (h : Literal.parse literal = .ok n)
    (rest : List Call) (s : Session ω) (hs : s.exit = none) :
    callAll (c :: rest) s = callAll rest (record c (reply n) s) := by
  have hsingle : c.IsSingle := by cases hc <;> rintro _ ⟨⟩
  have hcall : call c s = record c (reply n) s := by
    rw [hsingle.call, single, Run.single_parses hc h]
  rw [callAll_cons rest (by rw [hcall]; exact hs), hcall]

/-- The end of a process that started with nothing on standard error: literals that are accepted
change nothing; the first that is refused ends the process with the code of the settings, with
its diagnostic on the stream of the settings, and nothing is called behind it. No failure of
standard output changes this, but then the diagnostic is not shown there. -/
theorem refused_literal_ends_process (streams : Streams ω) (environment : Environment)
    (calls : List Call) :
    let s : Session ω := { view := { state := { streams, environment } } }
    let settings := (Settings.load environment).1
    let after := callAll calls s
    (1 ≤ settings.exitCode.val ∧ settings.exitCode.val ≤ 255) ∧
    (∀ (c : Call) (literal : Bytes) (reply : Int32 → Reply) (n : Int32) (rest : List Call)
      (t : Session ω), c.Parses literal reply → Literal.parse literal = .ok n → t.exit = none →
        callAll (c :: rest) t = callAll rest (record c (reply n) t)) ∧
    (firstRefusal calls = none → after.exit = none ∧ after.view.state.stderr = []) ∧
    ∀ e, firstRefusal calls = some e →
      let before := callAll (upToRefusal false calls) s
      before.exit = none ∧
      after.exit = some settings.exitCode ∧
      callAll (upToRefusal true calls) s = after ∧
      after.view.state.stderr = (if settings.stream = .stderr then lineOf e.message else []) ∧
      ∀ contents : Sink.Contents ω, contents.Works streams.output →
        contents.taken after.view.state.streams.output =
          contents.taken before.view.state.streams.output ++
            if settings.stream = .stdout then lineOf e.message else [] := by
  intro s settings after
  refine ⟨⟨settings.exitCode.pos, settings.exitCode.le⟩, ?_, ?_, ?_⟩
  · intro c literal reply n rest t hc h ht
    exact callAll_parses hc h rest t ht
  · intro h
    have hgoes := callAll_goesOn h s rfl
    exact ⟨hgoes.running, hgoes.kept.stderr⟩
  · intro e h before
    obtain ⟨hends, hwhole⟩ := callAll_ends_of (fun c _ _ he t ht => call_ends c he t ht) h s rfl
    have hsettings : before.view.state.configured = settings := hends.goesOn.kept.configured
    have hstderr := hends.refused.stderr
    rw [hends.goesOn.kept.stderr, hsettings] at hstderr
    refine ⟨hends.goesOn.running, hends.exit, hwhole, hstderr, ?_⟩
    intro contents hworks
    have hstdout := hends.refused.stdout contents
      (hends.goesOn.kept.output contents.Works contents.keeps hworks)
    rwa [hsettings] at hstdout

/-- A thread refuses a literal after a line of output, with the diagnostic on standard error. -/
theorem refused_literal_on_stderr :
    let s : Session Stdout := { view := { state := {
      streams := { input := ⟨[], .endOfStream⟩, output := {} }
      environment := fun | .diagnosticStream => some " STDERR" | .exitCode => some "7" } } }
    let after := callAll [.parseIntOrExit "12", .thread [.newline, .parseIntOrExit "1x"],
      .print (.int 5)] s
    after.exit.map ExitCode.val = some 7 ∧ after.view.state.streams.output.written = [0x0A] ∧
      after.view.state.stderr =
        lineOf "ValueError: Invalid literal for int() with base 10: '1x'" := by
  intro s after
  obtain ⟨-, -, -, hends⟩ := refused_literal_ends_process s.view.state.streams
    s.view.state.environment [.parseIntOrExit "12", .thread [.newline, .parseIntOrExit "1x"],
      .print (.int 5)]
  have hsettings : (Settings.load s.view.state.environment).1 = ⟨.stderr, { val := 7 }⟩ := by
    decide +kernel
  obtain ⟨-, hexit, -, hstderr, hstdout⟩ :=
    hends ⟨.invalidDigit, Utf8.encode "1x"⟩ (by decide +kernel)
  rw [hsettings] at hexit hstderr hstdout
  refine ⟨?_, ?_, ?_⟩
  · rw [hexit]
    rfl
  · exact (hstdout Stdout.contents rfl).trans (by decide +kernel)
  · exact hstderr.trans (by decide +kernel)

end Session

end Host

end LineConsole
