import LineConsole.Host.Call
import LineConsole.Proofs.Agreement
import LineConsole.Proofs.Output

/-!
What calls do to a host process, in one equation each. The process is seen by one of its threads,
and a use of the console changes nothing but the streams and the line of that thread. What is
logged has no influence on anything else. Of the sink behind standard output nothing is known but
what it keeps, or what it has taken if it works.
-/
namespace LineConsole

structure Sink.Keeps {ω : Type} [Sink ω] (P : ω → Prop) : Prop where
  writeAll : ∀ bytes o, P o → P (Sink.writeAll bytes o).2
  flush : ∀ o, P o → P (Sink.flush o).2

/-- When a sink works, and what one that works has taken so far. -/
structure Sink.Contents (ω : Type) [Sink ω] where
  Works : ω → Prop
  taken : ω → Bytes
  writeAll : ∀ bytes o, Works o → ∃ p, Sink.writeAll bytes o = (.ok (), p) ∧ Works p ∧
    taken p = taken o ++ bytes
  flush : ∀ o, Works o → ∃ p, Sink.flush o = (.ok (), p) ∧ Works p ∧ taken p = taken o

theorem Sink.Contents.keeps {ω : Type} [Sink ω] (contents : Sink.Contents ω) :
    Sink.Keeps contents.Works where
  writeAll bytes o h := by
    obtain ⟨p, hp, hworks, -⟩ := contents.writeAll bytes o h
    rwa [hp]
  flush o h := by
    obtain ⟨p, hp, hworks, -⟩ := contents.flush o h
    rwa [hp]

namespace Host

open Fallible

theorem Stdout.writeAll_of_not_full {o : Stdout} (h : o.full = false) (bytes : Bytes) :
    Sink.writeAll bytes o = (.ok (), { o with written := o.written ++ bytes }) := by
  simp only [Sink.writeAll, h]
  rfl

theorem Stdout.flush_of_not_full {o : Stdout} (h : o.full = false) :
    Sink.flush o = (.ok (), o) := by
  simp only [Sink.flush, h]
  rfl

def Stdout.contents : Sink.Contents Stdout where
  Works o := o.full = false
  taken := written
  writeAll bytes _ h := ⟨_, writeAll_of_not_full h bytes, h, rfl⟩
  flush _ h := ⟨_, flush_of_not_full h, h, rfl⟩

variable {ω : Type}

theorem Streams.readByte_apply [Sink ω] (s : Streams ω) :
    Channel.readByte s = match s.input.read with
      | (.ok byte, input) => (.ok byte, { s with input })
      | (.error reason, input) =>
          (.error .readFailed, { s with input, log := s.log ++ [.readFailed reason] }) := rfl

theorem Streams.writeAll_apply [Sink ω] (bytes : Bytes) (s : Streams ω) :
    Channel.writeAll bytes s = ((Sink.writeAll bytes s.output).1,
      { s with output := (Sink.writeAll bytes s.output).2 }) := rfl

theorem Streams.flush_apply [Sink ω] (s : Streams ω) :
    Channel.flush s = ((Sink.flush s.output : Except Fault Unit × ω).1,
      { s with output := (Sink.flush s.output).2 }) := rfl

/-- The same streams but for their logs, in front of a sink that is as it stays. -/
structure Streams.Tied (P : ω → Prop) (s t : Streams ω) : Prop where
  input : s.input = t.input
  output : s.output = t.output
  kept : P t.output

theorem Streams.Tied.of_log {P : ω → Prop} {s t : Streams ω} (h : Tied P s t)
    (log log' : List Event) : Tied P { s with log } { t with log := log' } :=
  ⟨h.input, h.output, h.kept⟩

/-- A use of the console that agrees with itself keeps what the sink keeps. -/
theorem Streams.kept_of_agree {P : ω → Prop} {α : Type} {a : Action (Console (Streams ω)) α}
    (h : Agree (Console.Alike (Tied P)) a a) (c : Console (Streams ω))
    (hc : P c.channel.output) : P (a c).2.channel.output := by
  obtain ⟨r, d, e, -, he, ⟨-, -, hkept⟩, -⟩ := h c c ⟨⟨rfl, rfl, hc⟩, rfl⟩
  rwa [he]

/-- The log decides nothing. -/
theorem Streams.alike_tied [Sink ω] {P : ω → Prop} (hP : Sink.Keeps P) : Channel.Alike (Tied P) where
  readByte := by
    rintro ⟨input, output, log⟩ ⟨_, _, log'⟩ ⟨rfl, rfl, hkept⟩
    simp only [readByte_apply]
    rcases input.read with ⟨reason | byte, next⟩
    · exact ⟨_, _, _, rfl, rfl, rfl, rfl, hkept⟩
    · exact ⟨_, _, _, rfl, rfl, rfl, rfl, hkept⟩
  writeAll bytes := by
    rintro ⟨input, output, log⟩ ⟨_, _, log'⟩ ⟨rfl, rfl, hkept⟩
    exact ⟨_, _, _, rfl, rfl, rfl, rfl, hP.writeAll bytes output hkept⟩
  flush := by
    rintro ⟨input, output, log⟩ ⟨_, _, log'⟩ ⟨rfl, rfl, hkept⟩
    exact ⟨_, _, _, rfl, rfl, rfl, rfl, hP.flush output hkept⟩

/-- Standard output that works takes everything. -/
def Streams.outlet : Outlet (Streams Stdout) where
  Open s := s.output.full = false
  put bytes s := { s with output.written := s.output.written ++ bytes }
  settle s := s
  open_put _ _ h := h
  writeAll bytes s h := by rw [writeAll_apply, Stdout.writeAll_of_not_full h]
  flush s h := by rw [flush_apply, Stdout.flush_of_not_full h]
  put_nil s := by simp
  put_put a b s := by simp

structure Streams.Shown [Sink ω] (contents : Sink.Contents ω) (s : Streams ω)
    (t : Streams Stdout) : Prop where
  works : contents.Works s.output
  working : t.output.full = false
  same : contents.taken s.output = t.output.written

theorem Streams.writesAlike_shown [Sink ω] (contents : Sink.Contents ω) :
    Channel.WritesAlike (Shown contents) where
  writeAll bytes s t h := by
    obtain ⟨p, hp, hworks, htaken⟩ := contents.writeAll bytes s.output h.works
    refine ⟨.ok (), { s with output := p }, outlet.put bytes t, ?_,
      outlet.writeAll bytes t h.working, hworks, h.working, ?_⟩
    · rw [writeAll_apply, hp]
    · rw [htaken, h.same]
      rfl
  flush s t h := by
    obtain ⟨p, hp, hworks, htaken⟩ := contents.flush s.output h.works
    refine ⟨.ok (), { s with output := p }, t, ?_, outlet.flush t h.working, hworks, h.working,
      htaken.trans h.same⟩
    rw [flush_apply, hp]

/-- Every sink that works takes the text of a rendering and the newline behind it. -/
theorem Streams.taken_render [Sink ω] (contents : Sink.Contents ω) {s : Streams ω}
    (h : contents.Works s.output) (pieces : List String) :
    contents.taken (Console.render (.ofPieces pieces) s).2.output =
      contents.taken s.output ++ lineOf (String.join pieces) := by
  let t : Streams Stdout := ⟨s.input, { written := contents.taken s.output }, s.log⟩
  have hrender := outlet.render_ofPieces (s := t) rfl pieces
  obtain ⟨r, u, v, hs, ht, hshown⟩ :=
    Console.render_agree (writesAlike_shown contents) (.ofPieces pieces) s t ⟨h, rfl, rfl⟩
  cases hrender.symm.trans ht
  rw [hs, hshown.same]
  rfl

/-- A question is out before its answer is read. -/
theorem Streams.prompt_of_works [Sink ω] (contents : Sink.Contents ω) (text : Bytes)
    {c : Console (Streams ω)} (h : contents.Works c.channel.output) :
    ∃ o, Console.prompt text c = Console.readLine ⟨{ c.channel with output := o }, c.line⟩ := by
  obtain ⟨o, ho, hworks, -⟩ := contents.writeAll text c.channel.output h
  obtain ⟨p, hp, -, -⟩ := contents.flush o hworks
  refine ⟨p, ?_⟩
  simp only [Console.prompt, bind_apply, Console.onChannel, on, writeAll_apply, ho, flush_apply, hp]

/-- The settings in force: those that were loaded, or else those that the environment gives. -/
def Process.configured (p : Process ω) : Settings := p.settings.getD (Settings.load p.environment).1

/-- What the end of a process by a refused literal leaves of it. -/
structure Refused [Sink ω] (e : LiteralError) (p q : Process ω) : Prop where
  stderr : q.stderr =
    p.stderr ++ if p.configured.stream = .stderr then lineOf e.message else []
  stdout : ∀ contents : Sink.Contents ω, contents.Works p.streams.output →
    contents.taken q.streams.output = contents.taken p.streams.output ++
      if p.configured.stream = .stdout then lineOf e.message else []

namespace Run

theorem console_apply {α : Type} (a : Action (Console (Streams ω)) α) (v : View ω) :
    console a v =
      let r := a ⟨v.state.streams, v.thread.line⟩
      (.ok r.1, { v with state.streams := r.2.channel, thread.line := r.2.line }) := rfl

theorem output_apply (a : Action (Streams ω) Unit) (v : View ω) :
    output a v = (.ok (a v.state.streams).1,
      { v with state.streams := (a v.state.streams).2 }) := rfl

theorem log_apply (e : Event) (v : View ω) :
    log e v = (.ok (), { v with state.streams.log := v.state.streams.log ++ [e] }) := rfl

theorem forM_log (f : SettingWarning → Event) (warnings : List SettingWarning) (v : View ω) :
    (warnings.forM fun w => log (f w)) v =
      (.ok (), { v with state.streams.log := v.state.streams.log ++ warnings.map f }) := by
  induction warnings generalizing v with
  | nil =>
    rw [List.map_nil, List.append_nil]
    rfl
  | cons w rest ih =>
    change (log (f w) >>= fun _ => rest.forM fun w => log (f w)) v = _
    rw [bind_apply, log_apply]
    simp only [ih, List.map_cons, List.append_assoc, List.singleton_append]

def loadLog (p : Process ω) : List Event :=
  match p.settings with
  | some _ => []
  | none => (Settings.load p.environment).2.map .settingIgnored

/-- The settings are loaded once. -/
theorem settings_apply (v : View ω) :
    settings v = (.ok v.state.configured,
      { v with
        state.settings := some v.state.configured
        state.streams.log := v.state.streams.log ++ loadLog v.state }) := by
  obtain ⟨⟨streams, environment, stderr, stored⟩, thread⟩ := v
  rw [settings, bind_apply, get_apply]
  cases stored with
  | some stored => simp [Process.configured, loadLog, pure_apply]
  | none =>
    simp only [bind_apply, get_apply, modify_apply, forM_log, pure_apply]
    rfl

theorem exitInvalid_apply [Sink ω] {α : Type} (e : LiteralError) (v : View ω) :
    ∃ q, (exitInvalid e : Run ω α) v =
        (.error v.state.configured.exitCode, { v with state := q }) ∧
      Refused e v.state q := by
  rw [exitInvalid, bind_apply, settings_apply]
  simp only [bind_apply, log_apply]
  cases hstream : v.state.configured.stream with
  | stdout =>
    simp only [bind_apply, output_apply, throw_apply]
    generalize v.state.streams.log ++ loadLog v.state ++ _ = logged
    refine ⟨_, rfl, ?_, ?_⟩
    · simp [hstream]
    · intro contents hworks
      rw [if_pos hstream]
      exact Streams.taken_render contents (s := { v.state.streams with log := logged }) hworks
        e.pieces
  | stderr =>
    simp only [bind_apply, modify_apply, throw_apply]
    refine ⟨_, rfl, ?_, ?_⟩
    · simp [hstream, encode_newline]
    · simp [hstream]

def outputLog (symbol : String) : Except Fault Unit → List Event
  | .ok _ => []
  | .error fault => [.outputFailed symbol fault]

theorem write_apply (symbol : String) (a : Action (Streams ω) Unit) (v : View ω) :
    write symbol a v = (.ok .nothing, { v with
      state.streams := { (a v.state.streams).2 with
        log := (a v.state.streams).2.log ++ outputLog symbol (a v.state.streams).1 } }) := by
  rw [write, bind_apply, output_apply]
  rcases a v.state.streams with ⟨fault | _, s⟩
  · rfl
  · simp only [outputLog, List.append_nil]
    rfl

def inputLog {α : Type} : Except Fault α → List Event
  | .ok _ => []
  | .error fault => [.inputFailed fault]

/-- A read always returns the line that it leaves, and keeps how it went. -/
theorem readInto_apply {read : Action (Console (Streams ω)) Bytes} {v : View ω}
    {r : Except Fault Bytes} {c : Console (Streams ω)}
    (h : read ⟨v.state.streams, v.thread.line⟩ = (r, c)) :
    readInto read v =
      (.ok (.string c.line.pointee),
        { state := { v.state with
            streams := { c.channel with log := c.channel.log ++ inputLog r } }
          thread := ⟨c.line, .ofResult r⟩ }) := by
  cases r with
  | ok bytes =>
    simp only [readInto, bind_apply, console_apply, h, inputLog, List.append_nil]
    rfl
  | error fault =>
    simp only [readInto, bind_apply, console_apply, h, inputLog]
    rfl

end Run

namespace Session

variable [Sink ω]

theorem call_foreign {s : Session ω} {call : Foreign.Call} {reply : Foreign.Reply} {v : View ω}
    (h : Run.foreign call s.view = (.ok reply, v)) :
    Session.call (.foreign call) s =
      record (.foreign call) (.foreign reply) { s with view := v } := by
  have hsingle : Run.single (.foreign call) s.view = (.ok (.foreign reply), v) := by
    rw [Run.single, bind_apply, h]
    rfl
  change single (.foreign call) s = _
  rw [single, hsingle]

theorem callAll_cons {s : Session ω} {c : Call} (rest : List Call) (h : (call c s).exit = none) :
    callAll (c :: rest) s = callAll rest (call c s) := by
  rw [callAll]
  simp [h]

/-- A call from C that returns is journalled, and the session goes on. -/
theorem callAll_foreign {s : Session ω} {call : Foreign.Call} {reply : Foreign.Reply} {v : View ω}
    (rest : List Call) (hexit : s.exit = none)
    (h : Run.foreign call s.view = (.ok reply, v)) :
    callAll (.foreign call :: rest) s =
      callAll rest (record (.foreign call) (.foreign reply) { s with view := v }) := by
  have hcall := call_foreign h
  rw [callAll_cons rest (by rw [hcall]; exact hexit), hcall]

/-- A call that ends the process is the last one. -/
theorem callAll_cons_exit {s : Session ω} {c : Call} {code : ExitCode} (rest : List Call)
    (h : (call c s).exit = some code) : callAll (c :: rest) s = call c s := by
  rw [callAll]
  simp [h]

/-- What the process has survived can be told apart from what comes then. -/
theorem callAll_append {s : Session ω} {front : List Call} (back : List Call)
    (h : (callAll front s).exit = none) :
    callAll (front ++ back) s = callAll back (callAll front s) := by
  induction front generalizing s with
  | nil => rfl
  | cons c rest ih =>
    rw [List.cons_append]
    cases hcall : (call c s).exit with
    | none =>
      rw [callAll_cons rest hcall] at h ⊢
      rw [callAll_cons _ hcall, ih h]
    | some code =>
      rw [callAll_cons_exit rest hcall, hcall] at h
      cases h

/-- A call from C that ends the process is the last one. -/
theorem callAll_foreign_exit {s : Session ω} {call : Foreign.Call} {code : ExitCode} {v : View ω}
    (rest : List Call) (h : Run.foreign call s.view = (.error code, v)) :
    callAll (.foreign call :: rest) s = { s with view := v, exit := some code } := by
  have hsingle : Run.single (.foreign call) s.view = (.error code, v) := by
    rw [Run.single, bind_apply, h]
  have hcall : Session.call (.foreign call) s = { s with view := v, exit := some code } := by
    change single (.foreign call) s = _
    rw [single, hsingle]
  rw [callAll_cons_exit rest (by rw [hcall]), hcall]

/-- The input status can be asked for after every call that returns. -/
theorem callAll_status {s : Session ω} {call : Foreign.Call} {reply : Foreign.Reply} {v : View ω}
    (hexit : s.exit = none) (h : Run.foreign call s.view = (.ok reply, v)) :
    ∃ p q, (callAll [.foreign call, .foreign .inputStatus] s).journal = s.journal ++
      [⟨.foreign call, .foreign reply, p⟩,
        ⟨.foreign .inputStatus, .foreign (.int v.thread.status.code), q⟩] := by
  have hstatus : Run.foreign .inputStatus v = (.ok (.int v.thread.status.code), v) := rfl
  have hrest := callAll_foreign
    (s := record (.foreign call) (.foreign reply) { s with view := v }) [] hexit hstatus
  refine ⟨v.state, v.state, ?_⟩
  rw [callAll_foreign _ hexit h, hrest, callAll, record, record, List.append_assoc]
  rfl

end Session

end Host

end LineConsole
