import LineConsole.Host.Error
import LineConsole.Text.Blank

/-!
Settings of a host process: where the diagnostic of an invalid literal goes, and the code
with which the process then ends. A setting that cannot be read keeps its default, and each
depends on its own variable only.
-/
namespace LineConsole.Host

inductive DiagnosticStream
  | stdout
  | stderr
  deriving DecidableEq

namespace DiagnosticStream

def name : DiagnosticStream → String
  | .stdout => "Stdout"
  | .stderr => "Stderr"

/-- Blanks around the name and the case of its ASCII letters do not matter. -/
def parse (text : String) : Except Error DiagnosticStream :=
  let word := (Blank.trimChars text.toList).map Char.toLower
  if word = ['s', 't', 'd', 'o', 'u', 't'] then .ok .stdout
  else if word = ['s', 't', 'd', 'e', 'r', 'r'] then .ok .stderr
  else .error (.invalidSetting .diagnosticStream text)

end DiagnosticStream

/-- An exit code never reports success. -/
structure ExitCode where
  val : Nat
  pos : 0 < val := by decide
  le : val ≤ 255 := by decide
  deriving DecidableEq

namespace ExitCode

def failure : ExitCode := { val := 1 }

def digitsValue? : Nat → List Char → Option Nat
  | n, [] => some n
  | n, c :: rest =>
      if '0' ≤ c ∧ c ≤ '9' then digitsValue? (n * 10 + (c.toNat - 48)) rest else none

def integer? : List Char → Option Int
  | [] => none
  | c :: rest =>
      if c = '-' ∨ c = '+' then
        if rest.isEmpty then none
        else (digitsValue? 0 rest).map fun n => if c = '-' then -(n : Int) else n
      else (digitsValue? 0 (c :: rest)).map Int.ofNat

def ofInt? (n : Int) : Option ExitCode :=
  if h : 1 ≤ n ∧ n ≤ 255 then some ⟨n.toNat, by omega, by omega⟩ else none

def parse (text : String) : Except Error ExitCode :=
  match (integer? (Blank.trimChars text.toList)).bind ofInt? with
  | some code => .ok code
  | none => .error (.invalidSetting .exitCode text)

end ExitCode

structure Settings where
  stream : DiagnosticStream := .stdout
  exitCode : ExitCode := .failure
  deriving DecidableEq

/-- The text of each variable, where it is set and is text. -/
abbrev Environment := Setting → Option String

structure SettingWarning where
  setting : Setting
  value : String
  deriving DecidableEq

namespace Settings

/-- One setting from its variable, or its default and a warning if there is one to give. -/
def choose (setting : Setting) (default : α) (parse : String → Except Error α) :
    Option String → α × List SettingWarning
  | none => (default, [])
  | some text =>
      match parse text with
      | .ok a => (a, [])
      | .error _ => (default, [⟨setting, text⟩])

def load (env : Environment) : Settings × List SettingWarning :=
  let default : Settings := {}
  let stream := choose .diagnosticStream default.stream DiagnosticStream.parse
    (env .diagnosticStream)
  let code := choose .exitCode default.exitCode ExitCode.parse (env .exitCode)
  (⟨stream.1, code.1⟩, stream.2 ++ code.2)

end Settings

end LineConsole.Host
