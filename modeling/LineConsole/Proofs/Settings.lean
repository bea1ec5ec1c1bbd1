import LineConsole.Proofs.Host
import LineConsole.Proofs.Numerals
import Mathlib

/-!
Settings that are read from texts. A text stands for a setting in many spellings: blanks around it
do not count, nor does the case of a name, nor do the sign and the zeros in front of an exit code.
A text that stands for no setting leaves the default and is quoted in a warning, and no setting has
to do with the text of the other.
-/
namespace LineConsole

/-! Texts without the blanks at their ends -/

namespace Blank

structure Trimmed (text word : List Char) : Prop where
  blanks : ∃ front back, text = front ++ word ++ back ∧ (∀ c ∈ front, isBlank c) ∧
    ∀ c ∈ back, isBlank c
  head : ∀ c ∈ word.head?, isBlank c = false
  last : ∀ c ∈ word.getLast?, isBlank c = false

variable {text word front rest : List Char}

theorem dropWhile_append (hfront : ∀ c ∈ front, isBlank c)
    (hrest : ∀ c ∈ rest.head?, isBlank c = false) :
    (front ++ rest).dropWhile isBlank = rest := by
  rw [List.dropWhile_append_of_pos hfront]
  cases rest with
  | nil => rfl
  | cons c rest =>
    apply List.dropWhile_cons_of_neg
    simp [hrest c rfl]

theorem head_dropWhile (cs : List Char) :
    ∀ c ∈ (cs.dropWhile isBlank).head?, isBlank c = false := by
  intro c hc
  have hnot := List.head?_dropWhile_not isBlank cs
  rw [Option.mem_def.mp hc] at hnot
  exact hnot

theorem trimmed_trimChars (text : List Char) : Trimmed text (trimChars text) := by
  let behind := text.dropWhile isBlank
  have htrim : trimChars text = behind.rdropWhile isBlank := rfl
  have hbehind : behind = trimChars text ++ behind.rtakeWhile isBlank :=
    List.rdropWhile_append_rtakeWhile.symm
  constructor
  · refine ⟨text.takeWhile isBlank, behind.rtakeWhile isBlank, ?_,
      fun _ => List.mem_takeWhile_imp, fun _ => List.mem_rtakeWhile_imp⟩
    rw [List.append_assoc, ← hbehind, List.takeWhile_append_dropWhile]
  · intro c hc
    apply head_dropWhile text c
    change c ∈ behind.head?
    rw [hbehind]
    exact List.mem_head?_append_of_mem_head? hc
  · intro c hc
    rw [htrim, List.rdropWhile, List.getLast?_reverse] at hc
    exact head_dropWhile _ c hc

theorem Trimmed.trimChars_eq (h : Trimmed text word) : trimChars text = word := by
  obtain ⟨⟨front, back, rfl, hfront, hback⟩, hhead, hlast⟩ := h
  by_cases hword : word = []
  · subst hword
    have hblank : ∀ c ∈ front ++ back, isBlank c := by
      intro c hc
      exact (List.mem_append.mp hc).elim (hfront c) (hback c)
    have hall : (front ++ back ++ []).dropWhile isBlank = [] := dropWhile_append hblank nofun
    rw [List.append_nil] at hall
    rw [trimChars, List.append_nil, hall]
    rfl
  · have hfirst : ∀ c ∈ (word ++ back).head?, isBlank c = false := by
      intro c hc
      rw [List.head?_append_of_ne_nil word hword] at hc
      exact hhead c hc
    have hfinal : ∀ c ∈ word.reverse.head?, isBlank c = false := by
      intro c hc
      rw [List.head?_reverse] at hc
      exact hlast c hc
    have hback' : ∀ c ∈ back.reverse, isBlank c := fun c hc => hback c (List.mem_reverse.mp hc)
    rw [trimChars, List.append_assoc, dropWhile_append hfront hfirst, List.reverse_append,
      dropWhile_append hback' hfinal, List.reverse_reverse]

theorem trimmed_iff : Trimmed text word ↔ word = trimChars text := by
  constructor
  · intro h
    exact h.trimChars_eq.symm
  · intro h
    exact h ▸ trimmed_trimChars text

end Blank

/-! Names in any case -/

/-- The same character, or the two cases of one ASCII letter. -/
def SameLetter (c d : Char) : Prop :=
  c = d ∨ ∃ k < 26, (c.toNat = 65 + k ∧ d.toNat = 97 + k) ∨ (c.toNat = 97 + k ∧ d.toNat = 65 + k)

theorem toNat_toLower (c : Char) :
    c.toLower.toNat = if 65 ≤ c.toNat ∧ c.toNat ≤ 90 then c.toNat + 32 else c.toNat := by
  have hupper : c.isUpper ↔ 65 ≤ c.toNat ∧ c.toNat ≤ 90 := by
    simp [Char.isUpper, UInt32.le_iff_toNat_le]
  by_cases hc : c.isUpper
  · have hvalid : (c.toNat + 32).isValidChar := by
      have := hupper.mp hc
      exact Or.inl (by omega)
    rw [if_pos (hupper.mp hc), Char.toLower_eq_of_isUpper hc, Char.toNat_ofNat, if_pos hvalid]
  · rw [if_neg (mt hupper.mpr hc), Char.toLower_eq_of_not_isUpper hc]

theorem toLower_eq_iff {c d : Char} (hd : d.isLower) : c.toLower = d ↔ SameLetter c d := by
  have hlower : 97 ≤ d.toNat ∧ d.toNat ≤ 122 := by
    simpa [Char.isLower, UInt32.le_iff_toNat_le] using hd
  rw [SameLetter, ← Char.toNat_inj, ← Char.toNat_inj, toNat_toLower]
  split
  · next hc =>
    constructor
    · intro h
      exact Or.inr ⟨c.toNat - 65, by omega, Or.inl (by omega)⟩
    · intro h
      rcases h with h | ⟨k, hk, h | h⟩ <;> omega
  · next hc =>
    constructor
    · exact Or.inl
    · intro h
      rcases h with h | ⟨k, hk, h | h⟩ <;> omega

theorem map_toLower_eq_iff {word name : List Char} (hname : ∀ d ∈ name, d.isLower) :
    word.map Char.toLower = name ↔ List.Forall₂ SameLetter word name := by
  induction name generalizing word with
  | nil => rw [List.map_eq_nil_iff, List.forall₂_nil_right_iff]
  | cons d name ih =>
    obtain ⟨hd, hname⟩ := List.forall_mem_cons.mp hname
    rw [List.forall₂_cons_right_iff, List.map_eq_cons_iff]
    constructor
    · intro h
      obtain ⟨c, rest, rfl, hc, hrest⟩ := h
      exact ⟨c, rest, (toLower_eq_iff hd).mp hc, (ih hname).mp hrest, rfl⟩
    · intro h
      obtain ⟨c, rest, hc, hrest, rfl⟩ := h
      exact ⟨c, rest, rfl, (toLower_eq_iff hd).mpr hc, (ih hname).mpr hrest⟩

namespace Host

open Blank (Trimmed trimmed_iff)

namespace DiagnosticStream

def word : DiagnosticStream → List Char
  | .stdout => ['s', 't', 'd', 'o', 'u', 't']
  | .stderr => ['s', 't', 'd', 'e', 'r', 'r']

/-- Between blanks the text is the name of the stream, in any case. -/
def Named (text : String) (stream : DiagnosticStream) : Prop :=
  ∃ name, Trimmed text.toList name ∧ List.Forall₂ SameLetter name stream.word

theorem named_iff {text : String} {stream : DiagnosticStream} :
    Named text stream ↔ (Blank.trimChars text.toList).map Char.toLower = stream.word := by
  have hlower : ∀ d ∈ stream.word, d.isLower := by
    apply List.all_eq_true.mp
    cases stream with
    | stdout => rfl
    | stderr => rfl
  rw [map_toLower_eq_iff hlower, Named]
  simp only [trimmed_iff, exists_eq_left]

theorem parse_eq_ok_iff {text : String} {stream : DiagnosticStream} :
    parse text = .ok stream ↔ Named text stream := by
  rw [named_iff, parse]
  generalize (Blank.trimChars text.toList).map Char.toLower = name
  by_cases hstdout : name = ['s', 't', 'd', 'o', 'u', 't']
  · subst hstdout
    cases stream <;> simp [word]
  · by_cases hstderr : name = ['s', 't', 'd', 'e', 'r', 'r']
    · subst hstderr
      cases stream <;> simp [word]
    · cases stream <;> simp [word, hstdout, hstderr]

end DiagnosticStream

/-! Exit codes -/

structure Digits (cs : List Char) (n : Nat) : Prop where
  nonempty : cs ≠ []
  digits : ∀ c ∈ cs, c.isDigit
  value : Nat.ofDigitChars 10 cs 0 = n

inductive Signed : List Char → Int → Prop
  | plain {cs : List Char} {n : Nat} (h : Digits cs n) : Signed cs n
  | plus {cs : List Char} {n : Nat} (h : Digits cs n) : Signed ('+' :: cs) n
  | minus {cs : List Char} {n : Nat} (h : Digits cs n) : Signed ('-' :: cs) (-n)

namespace ExitCode

/-- Between blanks the text is an integer from 1 to 255. -/
def Given (text : String) (code : Nat) : Prop :=
  ∃ number, Trimmed text.toList number ∧ Signed number code ∧ 1 ≤ code ∧ code ≤ 255

theorem digitsValue?_eq_some_iff {cs : List Char} {n m : Nat} :
    digitsValue? n cs = some m ↔ (∀ c ∈ cs, c.isDigit) ∧ Nat.ofDigitChars 10 cs n = m := by
  induction cs generalizing n with
  | nil => simp [digitsValue?]
  | cons c rest ih =>
    rw [digitsValue?, Nat.ofDigitChars_cons, List.forall_mem_cons]
    by_cases hc : c.isDigit
    · rw [if_pos (Json.isDigit_iff.mp hc), ih, Nat.mul_comm]
      simp only [hc, true_and]
      rfl
    · rw [if_neg (mt Json.isDigit_iff.mpr hc)]
      simp [hc]

theorem digits_iff {cs : List Char} {n : Nat} :
    Digits cs n ↔ cs.isEmpty = false ∧ digitsValue? 0 cs = some n := by
  rw [digitsValue?_eq_some_iff, List.isEmpty_eq_false_iff]
  constructor
  · intro h
    exact ⟨h.nonempty, h.digits, h.value⟩
  · intro h
    exact ⟨h.1, h.2.1, h.2.2⟩

theorem Signed.integer? {cs : List Char} {n : Int} (h : Signed cs n) : integer? cs = some n := by
  cases h with
  | plus h | minus h =>
    obtain ⟨hempty, hvalue⟩ := digits_iff.mp h
    simp [ExitCode.integer?, hempty, hvalue]
  | plain h =>
    obtain ⟨hempty, hvalue⟩ := digits_iff.mp h
    cases cs with
    | nil => cases hempty
    | cons c rest =>
      have hc := h.digits c List.mem_cons_self
      have hminus : c ≠ '-' := Json.Numeral.isDigit_ne hc rfl
      have hplus : c ≠ '+' := Json.Numeral.isDigit_ne hc rfl
      simp [ExitCode.integer?, hminus, hplus, hvalue]

theorem integer?_eq_some_iff {cs : List Char} {n : Int} : integer? cs = some n ↔ Signed cs n := by
  constructor
  · intro h
    cases cs with
    | nil => cases h
    | cons c rest =>
      rw [integer?] at h
      split at h
      · next hsign =>
        split at h
        · cases h
        · next hempty =>
          obtain ⟨k, hread, rfl⟩ := Option.map_eq_some_iff.mp h
          obtain ⟨m, hvalue, hcast⟩ := Option.bind_eq_some_iff.mp hread
          obtain rfl := Option.some.inj hcast
          have hdigits := digits_iff.mpr ⟨by simpa using hempty, hvalue⟩
          rcases hsign with rfl | rfl
          · exact .minus hdigits
          · exact .plus hdigits
      · obtain ⟨m, hvalue, rfl⟩ := Option.map_eq_some_iff.mp h
        exact .plain (digits_iff.mpr ⟨rfl, hvalue⟩)
  · exact Signed.integer?

theorem ofInt?_eq_some_iff {n : Int} {code : ExitCode} : ofInt? n = some code ↔ n = code.val := by
  have hpos := code.pos
  have hle := code.le
  rw [ofInt?]
  split
  · next hrange =>
    obtain ⟨val, pos, le⟩ := code
    simp only [Option.some.injEq, mk.injEq]
    omega
  · next hrange =>
    constructor
    · nofun
    · omega

theorem parse_eq_ok_iff {text : String} {code : ExitCode} :
    parse text = .ok code ↔ Given text code.val := by
  have hcode : (integer? (Blank.trimChars text.toList)).bind ofInt? = some code ↔
      Given text code.val := by
    simp only [Option.bind_eq_some_iff, integer?_eq_some_iff, ofInt?_eq_some_iff,
      exists_eq_right, Given, trimmed_iff, exists_eq_left]
    exact ⟨fun h => ⟨h, code.pos, code.le⟩, fun h => h.1⟩
  rw [← hcode, parse]
  cases (integer? (Blank.trimChars text.toList)).bind ofInt? with
  | none => simp
  | some code' => simp

end ExitCode

/-! Settings -/

/-- What is chosen for the text of a variable, and the text if it is rejected. -/
inductive Chosen {α : Type} (stands : String → α → Prop) (default : α) :
    Option String → α → List String → Prop
  | absent : Chosen stands default none default []
  | taken {text : String} {a : α} (h : stands text a) : Chosen stands default (some text) a []
  | rejected {text : String} (h : ¬ ∃ a, stands text a) :
      Chosen stands default (some text) default [text]

def SettingWarning.QuotedIn (w : SettingWarning) (text : String) : Prop :=
  ∃ behind, text = "invalid value `" ++ w.value ++ "` for " ++ w.setting.variable ++ behind

theorem SettingWarning.quotedIn_text (w : SettingWarning) :
    w.QuotedIn (Event.settingIgnored w).text := by
  obtain ⟨setting, value⟩ := w
  cases setting with
  | diagnosticStream => exact ⟨_, String.append_assoc⟩
  | exitCode => exact ⟨"", String.append_empty.symm⟩

namespace Settings

theorem choose_chosen {α : Type} {stands : String → α → Prop} (setting : Setting) (default : α)
    {parse : String → Except Error α} (hparse : ∀ {text a}, parse text = .ok a ↔ stands text a)
    (given : Option String) :
    ∃ rejected, Chosen stands default given (choose setting default parse given).1 rejected ∧
      (choose setting default parse given).2 = rejected.map fun text => ⟨setting, text⟩ := by
  cases given with
  | none => exact ⟨[], .absent, rfl⟩
  | some text =>
    rw [choose]
    cases hresult : parse text with
    | ok a => exact ⟨[], .taken (hparse.mp hresult), rfl⟩
    | error e =>
      refine ⟨[text], .rejected ?_, rfl⟩
      intro h
      obtain ⟨a, ha⟩ := h
      rw [hparse.mpr ha] at hresult
      cases hresult

/-- An exit code is known by its number. -/
theorem chosen_val {given : Option String} {code : ExitCode} {rejected : List String}
    (h : Chosen (fun text (code : ExitCode) => ExitCode.Given text code.val) .failure given code
      rejected) :
    Chosen ExitCode.Given 1 given code.val rejected := by
  cases h with
  | absent => exact .absent
  | taken h => exact .taken h
  | rejected h =>
    apply Chosen.rejected
    intro hgiven
    obtain ⟨n, hn⟩ := hgiven
    obtain ⟨number, -, -, hpos, hle⟩ := id hn
    exact h ⟨⟨n, hpos, hle⟩, hn⟩

/-- Whatever the environment is, both settings are chosen, each by its own variable: the stream that
is named there, the exit code that is given there, or else the default. Every text that is rejected
is quoted in a warning of its own, that of the stream first; these warnings are all that is logged
when the settings are loaded. -/
theorem load_chooses (env : Environment) :
    ∃ badStream badCode,
      Chosen DiagnosticStream.Named .stdout (env .diagnosticStream) (load env).1.stream badStream ∧
      Chosen ExitCode.Given 1 (env .exitCode) (load env).1.exitCode.val badCode ∧
      (load env).2 = badStream.map (⟨.diagnosticStream, ·⟩) ++ badCode.map (⟨.exitCode, ·⟩) ∧
      (1 ≤ (load env).1.exitCode.val ∧ (load env).1.exitCode.val ≤ 255) ∧
      (∀ env' : Environment, env' .diagnosticStream = env .diagnosticStream →
        (load env').1.stream = (load env).1.stream) ∧
      (∀ env' : Environment, env' .exitCode = env .exitCode →
        (load env').1.exitCode = (load env).1.exitCode) ∧
      (∀ v : View Stdout, v.state.settings = none → v.state.environment = env →
        Run.settings v = (.ok (load env).1, { v with
          state.settings := some (load env).1
          state.streams.log := v.state.streams.log ++ (load env).2.map .settingIgnored })) ∧
      ∀ w, (Event.settingIgnored w).level = .warn ∧ w.QuotedIn (Event.settingIgnored w).text := by
  obtain ⟨badStream, hstream, hstreamLog⟩ :=
    choose_chosen .diagnosticStream .stdout DiagnosticStream.parse_eq_ok_iff (env .diagnosticStream)
  obtain ⟨badCode, hcode, hcodeLog⟩ :=
    choose_chosen .exitCode .failure ExitCode.parse_eq_ok_iff (env .exitCode)
  refine ⟨badStream, badCode, hstream, chosen_val hcode, ?_, ?_, ?_, ?_, ?_, ?_⟩
  · rw [← hstreamLog, ← hcodeLog]
    rfl
  · exact ⟨(load env).1.exitCode.pos, (load env).1.exitCode.le⟩
  · intro env' h
    simp only [load, h]
  · intro env' h
    simp only [load, h]
  · intro v hfresh henv
    have hconfigured : v.state.configured = (load env).1 := by
      rw [Process.configured, hfresh, henv]
      rfl
    have hlog : Run.loadLog v.state = (load env).2.map .settingIgnored := by
      rw [Run.loadLog, hfresh, henv]
    rw [Run.settings_apply, hconfigured, hlog]
  · intro w
    exact ⟨rfl, w.quotedIn_text⟩

/-- A stream in mixed case between blanks is taken, a sign and a zero do not bring an exit code into
the range, and neither has to do with the other. -/
theorem load_chooses_around_rejected_code :
    let env : Environment := fun setting =>
      if setting = .exitCode then some " +0256" else some "\u2003StdErr\n"
    let other : Environment := fun setting => if setting = .exitCode then none else env setting
    let v : View Stdout := { state := {
      streams := { input := ⟨[], .endOfStream⟩, output := {} }, environment := env } }
    (load env).1 = { stream := .stderr } ∧
      (load other).1.stream = (load env).1.stream ∧
      (load fun _ => some " +0256").1.exitCode = (load env).1.exitCode ∧
      Run.settings v = (.ok { stream := .stderr }, { v with
        state.settings := some { stream := .stderr }
        state.streams.log := [.settingIgnored ⟨.exitCode, " +0256"⟩] }) := by
  intro env other v
  obtain ⟨_, _, -, -, -, -, hstream, hcode, hlogged, -⟩ := load_chooses env
  have hload : load env = ({ stream := .stderr }, [⟨.exitCode, " +0256"⟩]) := by decide +kernel
  have hrun := hlogged v rfl rfl
  rw [hload] at hrun
  exact ⟨by rw [hload], hstream other rfl, hcode (fun _ => some " +0256") rfl, hrun⟩

end Settings

end Host

end LineConsole
