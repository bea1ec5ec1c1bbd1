import LineConsole.Proofs.DeviceExports

/-!
The console of a device has one user at a time. It is installed once. Who wants it while it is
held, or before it is there, does not get it, and calls from C leave it alone then; when its user
is done, it can be had again as that user left it. This holds of all trees of calls: users make
calls while they hold the console, and these may again ask for it. What an interrupt calls is
called so, too: whatever it interrupts is the user.
-/
namespace LineConsole.Device

open Fallible Console

def Slot.users : Slot → Nat
  | .held _ => 1
  | _ => 0

theorem Slot.users_le (slot : Slot) : slot.users ≤ 1 := by
  cases slot with
  | held line => exact Nat.le_refl 1
  | _ => exact Nat.zero_le 1

theorem Slot.users_eq_one_iff {slot : Slot} : slot.users = 1 ↔ ∃ line, slot = .held line := by
  cases slot <;> simp [users]

theorem Slot.not_isIdle_absent : ¬ Slot.absent.IsIdle := by
  rintro ⟨_, ⟨⟩⟩

/-- The console is not installed, not lent and not given back. -/
structure Slot.Stays (a b : Slot) : Prop where
  absent : b = .absent ↔ a = .absent
  users : b.users = a.users

theorem Slot.Stays.refl (a : Slot) : a.Stays a := ⟨Iff.rfl, rfl⟩

theorem Slot.stays_idle (line line' : LineBuffer) : (idle line).Stays (idle line') :=
  ⟨⟨nofun, nofun⟩, rfl⟩

theorem Slot.stays_held (line line' : LineBuffer) : (held line).Stays (held line') :=
  ⟨⟨nofun, nofun⟩, rfl⟩

def Call.IsExport : Call → Prop
  | .foreign _ | .serial _ => True
  | _ => False

theorem Call.IsExport.isSingle {c : Call} (h : c.IsExport) : c.IsSingle := by
  rintro _ rfl
  exact h

/-! Calls from C -/

namespace Run

variable {α β : Type}

/-- A console that is at hand is put back, and no other is touched. -/
structure Borrows (a : Run α) : Prop where
  back : ∀ s : State, s.slot.IsIdle → (a s).2.slot.IsIdle
  untouched : ∀ s : State, ¬ s.slot.IsIdle → (a s).2.uart = s.uart ∧ (a s).2.slot = s.slot

theorem borrows_of_same {a : Run α} (huart : ∀ s, (a s).2.uart = s.uart)
    (hslot : ∀ s, (a s).2.slot = s.slot) : Borrows a :=
  ⟨fun s h => by rwa [hslot], fun s _ => ⟨huart s, hslot s⟩⟩

theorem borrows_pure (x : α) : Borrows (pure x : Run α) := borrows_of_same (fun _ => rfl) fun _ => rfl

theorem borrows_get : Borrows (get : Run State) := borrows_of_same (fun _ => rfl) fun _ => rfl

theorem borrows_log (e : Event) : Borrows (log e) := borrows_of_same (fun _ => rfl) fun _ => rfl

theorem borrows_throw (halt : Halt) : Borrows (throw halt : Run α) :=
  borrows_of_same (fun _ => rfl) fun _ => rfl

theorem borrows_setStatus (status : Foreign.InputStatus) : Borrows (setStatus status) :=
  borrows_of_same (fun _ => rfl) fun _ => rfl

theorem Borrows.bind {a : Run α} {f : α → Run β} (ha : Borrows a) (hf : ∀ x, Borrows (f x)) :
    Borrows (a >>= f) := by
  constructor
  · intro s h
    have hback := ha.back s h
    rw [bind_apply]
    generalize a s = p at hback
    obtain ⟨halt | x, t⟩ := p
    · exact hback
    · exact (hf x).back t hback
  · intro s h
    obtain ⟨huart, hslot⟩ := ha.untouched s h
    rw [bind_apply]
    generalize a s = p at huart hslot
    obtain ⟨halt | x, t⟩ := p
    · exact ⟨huart, hslot⟩
    · obtain ⟨huart', hslot'⟩ := (hf x).untouched t (hslot ▸ h)
      exact ⟨huart'.trans huart, hslot'.trans hslot⟩

theorem borrows_withConsole (a : Action (Console Uart) α) : Borrows (withConsole a) := by
  constructor
  · rintro s ⟨line, hidle⟩
    rw [withConsole_idle a hidle, map_apply]
    exact ⟨_, rfl⟩
  · intro s h
    rw [withConsole_unavailable a h]
    exact ⟨rfl, rfl⟩

/-- The rates are set only if the console can be had. -/
theorem borrows_begin (n : Int32) : Borrows (begin n) := by
  unfold begin
  split
  · exact borrows_log _
  · next rate _ =>
    constructor
    · rintro s ⟨line, hidle⟩
      simp only [bind_apply, get_apply, hidle, setRate]
      split <;> exact ⟨line, rfl⟩
    · intro s h
      rw [bind_apply, get_apply]
      cases hslot : s.slot with
      | idle line => exact absurd ⟨line, hslot⟩ h
      | _ =>
        simp only [hslot]
        exact ⟨rfl, hslot⟩

theorem borrows_console : ConsoleClosed Borrows where
  pure := borrows_pure
  bind := Borrows.bind
  get := borrows_get
  log := borrows_log
  output _ := borrows_withConsole _
  ready := borrows_withConsole _
  read _ := borrows_withConsole _
  poll := borrows_withConsole _
  status := borrows_setStatus
  throw := borrows_throw

theorem borrows_serial (call : SerialCall) : Borrows (serial call) := by
  by_cases hrate : ∃ n, call = .setRate n
  · obtain ⟨n, rfl⟩ := hrate
    exact (borrows_begin n).bind fun _ => borrows_pure _
  · exact borrows_console.serial fun n hn => hrate ⟨n, hn⟩

theorem borrows_single {c : Call} (h : c.IsExport) : Borrows (single c) := by
  cases c with
  | foreign call => exact (borrows_console.foreign call).bind fun _ => borrows_pure _
  | serial call => exact (borrows_serial call).bind fun _ => borrows_pure _
  | _ => exact absurd h id

/-- A call from C gives back the console that it takes. -/
theorem Borrows.stays {a : Run α} (ha : Borrows a) (s : State) : s.slot.Stays (a s).2.slot := by
  by_cases h : s.slot.IsIdle
  · obtain ⟨line', hline'⟩ := ha.back s h
    obtain ⟨line, hline⟩ := h
    rw [hline, hline']
    exact Slot.stays_idle line line'
  · rw [(ha.untouched s h).2]
    exact .refl _

/-! Installations -/

theorem install_absent {s : State} (hslot : s.slot = .absent) :
    install s = (.ok true, { s with slot := .idle .empty }) := by
  obtain ⟨uart, slot, status, log⟩ := s
  obtain rfl : slot = .absent := hslot
  rfl

theorem install_present {s : State} (hslot : s.slot ≠ .absent) :
    install s = (.ok false, { s with log := s.log ++ [.alreadyInstalled] }) := by
  obtain ⟨uart, slot, status, log⟩ := s
  cases slot with
  | absent => exact absurd rfl hslot
  | _ => rfl

/-- What an attempt to install the console answers, and what it leaves. -/
inductive Installing (s : State) : Reply → State → Prop
  | refused (r t : Nat) :
      Installing s .rateRefused { s with uart.receiver.rate := r, uart.transmitter.rate := t }
  | first (r t : Nat) (h : s.slot = .absent) :
      Installing s (.flag true)
        { s with uart.receiver.rate := r, uart.transmitter.rate := t, slot := .idle .empty }
  | again (r t : Nat) (h : s.slot ≠ .absent) :
      Installing s (.flag false)
        { s with
          uart.receiver.rate := r
          uart.transmitter.rate := t
          log := s.log ++ [.alreadyInstalled] }

theorem single_install (rate : Nat) (s : State) :
    ∃ reply t, single (.install rate) s = (.ok reply, t) ∧ Installing s reply t := by
  obtain ⟨accepted, r, t, hset⟩ := s.uart.setRate_apply rate
  have hrate : setRate rate s =
      (.ok accepted, { s with uart.receiver.rate := r, uart.transmitter.rate := t }) := by
    rw [setRate, hset]
  rw [single, bind_apply, hrate]
  cases accepted with
  | false => exact ⟨_, _, rfl, .refused r t⟩
  | true =>
    simp only [if_true, bind_apply]
    by_cases hslot : s.slot = .absent
    · rw [install_absent]
      · exact ⟨_, _, rfl, .first r t hslot⟩
      · exact hslot
    · rw [install_present]
      · exact ⟨_, _, rfl, .again r t hslot⟩
      · exact hslot

/-- The user that holds the console keeps it, and nobody else can use it so. -/
theorem withHeld_stays (a : Action (Console Uart) α) (s : State) :
    s.slot.Stays (withHeld a s).2.slot := by
  rw [withHeld, bind_apply, get_apply]
  cases h : s.slot with
  | held line =>
    simp only [h]
    rw [← map_eq_pure_bind, map_apply]
    exact Slot.stays_held line _
  | _ =>
    simp only [h]
    rw [pure_apply, h]
    exact .refl _

/-- No call but an installation installs the console. -/
theorem single_stays {c : Call} (h : ∀ rate, c ≠ .install rate) (s : State) :
    s.slot.Stays (single c s).2.slot := by
  cases c with
  | install rate => exact absurd rfl (h rate)
  | foreign call => exact (borrows_single (c := .foreign call) trivial).stays s
  | serial call => exact (borrows_single (c := .serial call) trivial).stays s
  | held op =>
    have hsingle : single (.held op) s = (Reply.held <$> withHeld op.run) s := by
      rw [map_eq_pure_bind]
      rfl
    rw [hsingle, map_apply]
    exact withHeld_stays op.run s
  | _ => exact .refl _

theorem single_users (c : Call) (s : State) : (single c s).2.slot.users = s.slot.users := by
  by_cases h : ∃ rate, c = .install rate
  · obtain ⟨rate, rfl⟩ := h
    obtain ⟨reply, t, hrun, hinstalling⟩ := single_install rate s
    rw [hrun]
    cases hinstalling with
    | first r t h =>
      rw [h]
      rfl
    | _ => rfl
  · exact (single_stays (fun rate hc => h ⟨rate, hc⟩) s).users

end Run

/-! Trees of calls -/

/-- Induction over calls: a user is reached from the calls that are made while it holds the
console. -/
theorem Call.induction {motive : Call → Prop} (single : ∀ c, c.IsSingle → motive c)
    (hold : ∀ calls, (∀ c ∈ calls, motive c) → motive (.hold calls)) (c : Call) : motive c := by
  cases c with
  | hold calls => exact hold calls fun c _ => Call.induction single hold c
  | _ => exact single _ fun _ h => by cases h
termination_by sizeOf c
decreasing_by
  have hless := List.sizeOf_lt_of_mem ‹c ∈ calls›
  simp only [Call.hold.sizeOf_spec]
  omega

namespace Session

/-- What every call keeps is kept to the end. -/
theorem callAll_preserves {motive : Session → Prop} {calls : List Call}
    (hstep : ∀ c ∈ calls, ∀ s, s.halt = none → motive s → motive (call c s)) {s : Session}
    (hrunning : s.halt = none) (h : motive s) : motive (callAll calls s) := by
  induction calls generalizing s with
  | nil => exact h
  | cons c rest ih =>
    have hnext := hstep c List.mem_cons_self s hrunning h
    cases hhalt : (call c s).halt with
    | none =>
      rw [callAll_cons rest hhalt]
      exact ih (fun d hd => hstep d (List.mem_cons_of_mem _ hd)) hhalt hnext
    | some halt =>
      rw [callAll_cons_halt rest hhalt]
      exact hnext

/-- The session of a user that has just been lent the console. -/
def lend (line : LineBuffer) (s : Session) : Session := { s with state.slot := .held line }

theorem call_hold_idle (calls : List Call) {s : Session} {line : LineBuffer}
    (hslot : s.state.slot = .idle line) :
    call (.hold calls) s =
      if (callAll calls (s.lend line)).halt.isSome then callAll calls (s.lend line)
      else record (.hold calls) (.flag true) (callAll calls (s.lend line)).putBack := by
  rw [call]
  simp only [hslot]
  rfl

theorem call_hold_unavailable (calls : List Call) {s : Session} (hslot : ¬ s.state.slot.IsIdle) :
    call (.hold calls) s = record (.hold calls) (.flag false) s := by
  rw [call]
  split
  · next line hidle => exact absurd ⟨line, hidle⟩ hslot
  · rfl

/-- A user that returns gives back the console as its last call has left it. -/
theorem call_hold_returns (calls : List Call) {s : Session} {line : LineBuffer}
    (hslot : s.state.slot = .idle line) (hreturns : (call (.hold calls) s).halt = none)
    (husers : (callAll calls (s.lend line)).halt = none →
      (callAll calls (s.lend line)).state.slot.users = 1) :
    ∃ line', (callAll calls (s.lend line)).state.slot = .held line' ∧
      call (.hold calls) s = record (.hold calls) (.flag true)
        { callAll calls (s.lend line) with state.slot := .idle line' } := by
  have hcall := call_hold_idle calls hslot
  by_cases hhalt : (callAll calls (s.lend line)).halt.isSome
  · rw [if_pos hhalt] at hcall
    rw [hcall] at hreturns
    rw [hreturns] at hhalt
    cases hhalt
  · rw [if_neg hhalt] at hcall
    obtain ⟨line', hline'⟩ := Slot.users_eq_one_iff.mp (husers (by simpa using hhalt))
    refine ⟨line', hline', ?_⟩
    rw [hcall, putBack, hline']

/-- Calls that leave the user alone that they find do so one behind another. -/
theorem callAll_users {calls : List Call}
    (hcalls : ∀ c ∈ calls, ∀ s, s.halt = none → (call c s).halt = none →
      (call c s).state.slot.users = s.state.slot.users)
    {s : Session} (hrunning : s.halt = none) :
    (callAll calls s).halt = none → (callAll calls s).state.slot.users = s.state.slot.users :=
  callAll_preserves (motive := fun t => t.halt = none → t.state.slot.users = s.state.slot.users)
    (fun c hc t ht husers hhalt => (hcalls c hc t ht hhalt).trans (husers ht)) hrunning
    fun _ => rfl

/-- A call that returns leaves the user that it has found, and no other. -/
theorem call_users (c : Call) (s : Session) (hrunning : s.halt = none)
    (hreturns : (call c s).halt = none) :
    (call c s).state.slot.users = s.state.slot.users := by
  induction c using Call.induction generalizing s with
  | single c hc =>
    rw [hc.call, single_state]
    exact Run.single_users c s.state
  | hold calls ih =>
    by_cases hslot : s.state.slot.IsIdle
    · obtain ⟨line, hidle⟩ := hslot
      have hheld := callAll_users (s := s.lend line) ih hrunning
      obtain ⟨line', -, hcall⟩ := call_hold_returns calls hidle hreturns hheld
      rw [hcall, hidle]
      rfl
    · rw [call_hold_unavailable calls hslot]
      rfl

end Session

/-! Installations and users of a whole session -/

/-- The answer to an attempt to install the console. -/
def Entry.installed? : Entry → Option Bool
  | ⟨.install _, .flag answer, _⟩ => some answer
  | _ => none

namespace Session

def installs (s : Session) : List Bool := s.journal.filterMap Entry.installed?

theorem installs_record (c : Call) (reply : Reply) (s : Session) :
    (record c reply s).installs =
      s.installs ++ (Entry.installed? ⟨c, reply, s.state⟩).toList := by
  rw [installs, record, List.filterMap_append]
  rfl

theorem installs_record_other {c : Call} (hc : ∀ rate, c ≠ .install rate) (reply : Reply)
    (s : Session) : (record c reply s).installs = s.installs := by
  have hnone : Entry.installed? ⟨c, reply, s.state⟩ = none := by
    cases c with
    | install rate => exact absurd rfl (hc rate)
    | _ => rfl
  rw [installs_record, hnone]
  exact List.append_nil _

/-- The console is there if and only if an installation has succeeded, and then it was the
first. -/
inductive Installed (s : Session) : Prop
  | no (slot : s.state.slot = .absent) (installs : s.installs = [])
  | yes (slot : s.state.slot ≠ .absent) (again : Nat)
      (installs : s.installs = true :: List.replicate again false)

theorem Installed.of_absent_iff {s t : Session} (h : Installed s)
    (hslot : t.state.slot = .absent ↔ s.state.slot = .absent)
    (hinstalls : t.installs = s.installs) : Installed t := by
  cases h with
  | no slot installs => exact .no (hslot.mpr slot) (hinstalls.trans installs)
  | yes slot again installs =>
    exact .yes (fun h => slot (hslot.mp h)) again (hinstalls.trans installs)

/-- The first attempt to install the console succeeds, and no other does. -/
theorem Installed.install {s : Session} (h : Installed s) (rate : Nat) :
    Installed (call (.install rate) s) := by
  obtain ⟨reply, t, hrun, hinstalling⟩ := Run.single_install rate s.state
  rw [call_single (by rintro _ ⟨⟩) hrun]
  cases hinstalling with
  | refused =>
    refine h.of_absent_iff Iff.rfl ?_
    rw [installs_record]
    exact List.append_nil _
  | first r t hslot =>
    cases h with
    | no slot installs =>
      refine .yes nofun 0 ?_
      rw [installs_record]
      exact congrArg (· ++ [true]) installs
    | yes slot again installs => exact absurd hslot slot
  | again r t hslot =>
    cases h with
    | no slot installs => exact absurd slot hslot
    | yes slot again installs =>
      refine .yes hslot (again + 1) ?_
      rw [installs_record, List.replicate_succ']
      exact congrArg (· ++ [false]) installs

theorem Installed.record_other {s : Session} (h : Installed s) {c : Call}
    (hc : ∀ rate, c ≠ .install rate) (reply : Reply) : Installed (record c reply s) :=
  h.of_absent_iff Iff.rfl (installs_record_other hc reply s)

/-- Other calls install nothing, also where they stop the device. -/
theorem Installed.single {s : Session} (h : Installed s) {c : Call}
    (hc : ∀ rate, c ≠ .install rate) : Installed (single c s) := by
  refine h.of_absent_iff ?_ ?_
  · rw [single_state]
    exact (Run.single_stays hc s.state).absent
  · rw [Session.single]
    rcases Run.single c s.state with ⟨halt | reply, t⟩
    · rfl
    · exact installs_record_other hc reply _

theorem Installed.putBack {s : Session} (h : Installed s) : Installed s.putBack := by
  rw [Session.putBack]
  split
  · next line hheld =>
    refine h.of_absent_iff ?_ rfl
    rw [hheld]
    exact ⟨nofun, nofun⟩
  · exact h

theorem Installed.lend {s : Session} (h : Installed s) {line : LineBuffer}
    (hslot : s.state.slot = .idle line) : Installed (s.lend line) := by
  refine h.of_absent_iff ?_ rfl
  rw [hslot]
  exact ⟨nofun, nofun⟩

theorem Installed.call {s : Session} (h : Installed s) (hrunning : s.halt = none) (c : Call) :
    Installed (call c s) := by
  induction c using Call.induction generalizing s with
  | single c hc =>
    by_cases hinstall : ∃ rate, c = .install rate
    · obtain ⟨rate, rfl⟩ := hinstall
      exact h.install rate
    · rw [hc.call]
      exact h.single fun rate hrate => hinstall ⟨rate, hrate⟩
  | hold calls ih =>
    by_cases hslot : s.state.slot.IsIdle
    · obtain ⟨line, hidle⟩ := hslot
      have hinner : Installed (callAll calls (s.lend line)) :=
        callAll_preserves (fun c hc _ ht hinstalled => ih c hc hinstalled ht) hrunning
          (h.lend hidle)
      rw [call_hold_idle calls hidle]
      split
      · exact hinner
      · exact hinner.putBack.record_other (by rintro _ ⟨⟩) _
    · rw [call_hold_unavailable calls hslot]
      exact h.record_other (by rintro _ ⟨⟩) _

/-- Among these calls, made from this session, the call is made in a session in which so many
users are active, one inside another. -/
inductive Made : List Call → Session → Nat → Call → Session → Prop
  | here (c : Call) (rest : List Call) (s : Session) : Made (c :: rest) s 0 c s
  | behind {c d : Call} {rest : List Call} {s u : Session} {users : Nat}
      (returns : (call c s).halt = none) (later : Made rest (call c s) users d u) :
      Made (c :: rest) s users d u
  | inside {d : Call} {calls rest : List Call} {s u : Session} {line : LineBuffer} {users : Nat}
      (idle : s.state.slot = .idle line) (inner : Made calls (s.lend line) users d u) :
      Made (.hold calls :: rest) s (users + 1) d u

/-- Every user that is active holds the console. -/
theorem Made.users_eq {calls : List Call} {s u : Session} {users : Nat} {c : Call}
    (h : Made calls s users c u) (hrunning : s.halt = none) :
    u.halt = none ∧ u.state.slot.users = s.state.slot.users + users := by
  induction h with
  | here c rest s => exact ⟨hrunning, rfl⟩
  | behind returns later ih =>
    obtain ⟨hhalt, husers⟩ := ih returns
    rw [call_users _ _ hrunning returns] at husers
    exact ⟨hhalt, husers⟩
  | @inside d calls rest s u line users idle inner ih =>
    obtain ⟨hhalt, husers⟩ := ih hrunning
    have hlent : (s.lend line).state.slot.users = 1 := rfl
    have hidle : s.state.slot.users = 0 := congrArg Slot.users idle
    refine ⟨hhalt, ?_⟩
    omega

theorem Made.installed {calls : List Call} {s u : Session} {users : Nat} {c : Call}
    (h : Made calls s users c u) (hrunning : s.halt = none) (hinstalled : Installed s) :
    Installed u := by
  induction h with
  | here c rest s => exact hinstalled
  | behind returns later ih => exact ih returns (hinstalled.call hrunning _)
  | inside idle inner ih => exact ih hrunning (hinstalled.lend idle)

/-- How a call finds the console and how it leaves it. -/
structure Lends (c : Call) (u : Session) : Prop where
  refused : ∀ calls, c = .hold calls → ¬ u.state.slot.IsIdle →
    call c u = record c (.flag false) u
  lent : ∀ calls line, c = .hold calls → u.state.slot = .idle line → (call c u).halt = none →
    ∃ line', (callAll calls (u.lend line)).state.slot = .held line' ∧
      call c u = record c (.flag true)
        { callAll calls (u.lend line) with state.slot := .idle line' }
  untouched : c.IsExport → ¬ u.state.slot.IsIdle →
    (call c u).state.uart = u.state.uart ∧ (call c u).state.slot = u.state.slot
  unread : ∀ read question, c = .foreign read → read.ReadsLine question →
    ¬ u.state.slot.IsIdle → ∃ t,
      call c u = record c (.foreign (.string [])) { u with state := t } ∧ t.status.code = -1
  back : c.IsExport → u.state.slot.IsIdle → (call c u).state.slot.IsIdle
  installed : ∀ rate, c = .install rate → u.state.slot ≠ .absent →
    (call c u).state.slot = u.state.slot ∧ ∃ r t, (call c u).state.uart =
      { u.state.uart with receiver.rate := r, transmitter.rate := t }

theorem lends (c : Call) {u : Session} (hrunning : u.halt = none) : Lends c u where
  refused := by
    rintro calls rfl hslot
    exact call_hold_unavailable calls hslot
  lent := by
    rintro calls line rfl hslot hreturns
    exact call_hold_returns calls hslot hreturns <|
      callAll_users (s := u.lend line) (fun c _ => call_users c) hrunning
  untouched := by
    intro hexport hslot
    rw [hexport.isSingle.call, single_state]
    exact (Run.borrows_single hexport).untouched u.state hslot
  unread := by
    rintro read question rfl hread hslot
    have hempty := Run.readInto_unavailable (Console.readBehind question) hslot
    rw [← Run.foreign_readsLine hread] at hempty
    exact ⟨_, call_foreign hempty, rfl⟩
  back := by
    intro hexport hslot
    rw [hexport.isSingle.call, single_state]
    exact (Run.borrows_single hexport).back u.state hslot
  installed := by
    rintro rate rfl hslot
    obtain ⟨reply, t, hrun, hinstalling⟩ := Run.single_install rate u.state
    rw [call_single (by rintro _ ⟨⟩) hrun]
    cases hinstalling with
    | refused r t => exact ⟨rfl, r, t, rfl⟩
    | first r t h => exact absurd h hslot
    | again r t h => exact ⟨rfl, r, t, rfl⟩

theorem Installed.isIdle_iff {u : Session} (h : Installed u) :
    u.state.slot.IsIdle ↔ true ∈ u.installs ∧ u.state.slot.users = 0 := by
  cases h with
  | no slot installs =>
    rw [slot, installs]
    simp [Slot.not_isIdle_absent]
  | yes slot again installs =>
    rw [installs]
    cases hslot : u.state.slot with
    | absent => exact absurd hslot slot
    | idle line => simp [Slot.IsIdle, Slot.users]
    | held line => simp [Slot.IsIdle, Slot.users]

/-- In a session that starts without a console, the first attempt to install one succeeds and no
other, whatever else is called. At most one user is active at a time, and it holds the console. The
console can be had by a call if it is installed and no user is active. -/
theorem console_has_one_user (s : Session) (hrunning : s.halt = none)
    (habsent : s.state.slot = .absent) (hjournal : s.journal = []) (calls : List Call) :
    ((callAll calls s).installs = [] ∨
      ∃ again, (callAll calls s).installs = true :: List.replicate again false) ∧
    ∀ users c u, Made calls s users c u → users ≤ 1 ∧
      (users = 1 ↔ ∃ line, u.state.slot = .held line) ∧
      (u.state.slot.IsIdle ↔ true ∈ u.installs ∧ users = 0) ∧ Lends c u := by
  have hstart : Installed s := .no habsent (by rw [installs, hjournal]; rfl)
  constructor
  · have hend : Installed (callAll calls s) :=
      callAll_preserves (fun c _ _ ht h => h.call ht c) hrunning hstart
    cases hend with
    | no slot installs => exact Or.inl installs
    | yes slot again installs => exact Or.inr ⟨again, installs⟩
  · intro users c u hmade
    obtain ⟨hhalt, husers⟩ := hmade.users_eq hrunning
    rw [habsent] at husers
    obtain rfl : users = u.state.slot.users := by
      rw [husers]
      exact (Nat.zero_add users).symm
    have hinstalled := hmade.installed hrunning hstart
    exact ⟨Slot.users_le _, Slot.users_eq_one_iff, hinstalled.isIdle_iff, lends c hhalt⟩

/-- Nobody is lent the console before there is one, or while somebody has it. -/
theorem nested_users_are_refused :
    let request : Call := .hold [.install 9600]
    let calls : List Call := [request, .install 9600, .hold [.install 9600, request]]
    ∃ u, Made calls {} 1 request u ∧ call request u = record request (.flag false) u ∧
      (callAll calls {}).installs = [true, false] := by
  intro request calls
  obtain ⟨-, husers⟩ := console_has_one_user {} rfl rfl rfl calls
  have hmade : Made calls {} 1 request _ :=
    .behind rfl (.behind rfl (.inside rfl (.behind rfl (.here _ _ _))))
  obtain ⟨-, -, hidle, hlends⟩ := husers _ _ _ hmade
  refine ⟨_, hmade, hlends.refused _ rfl ?_, rfl⟩
  rw [hidle]
  exact fun h => absurd h.2 (by decide)

end Session

end LineConsole.Device
