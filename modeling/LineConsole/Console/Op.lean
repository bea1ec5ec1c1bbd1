import LineConsole.Console
import LineConsole.Literal

/-!
Histories of a console: its operations as data, the answer of each, and runs in which the
channel may be changed from outside between two operations.
-/
namespace LineConsole.Console

inductive Op
  | print (v : Value)
  | printInline (v : Value)
  | printValues (vs : List Value)
  | newline
  | printBytes (bytes : Bytes) (withNewline : Bool)
  | render (r : Rendering)
  | renderInline (r : Rendering)
  | readLine
  | prompt (text : Bytes)
  | input
  | inputPrompt (text : String)
  /-- A line that is to be an integer literal. -/
  | inputLiteral
  /-- Straight from the channel. -/
  | readByte
  | writeAll (bytes : Bytes)
  | flush

inductive Answer
  | done
  | bytes (bytes : Bytes)
  | text (text : String)
  | byte (byte : Option UInt8)
  | literal (result : Except LiteralError Int32)

variable {σ : Type} [Channel σ]

/-- An operation that only writes. -/
def Op.output (a : Action σ Unit) : Action (Console σ) Answer := do
  onChannel a
  return .done

def Op.run : Op → Action (Console σ) Answer
  | .print v => output (Console.print v)
  | .printInline v => output (Console.printInline v)
  | .printValues vs => output (Console.printValues vs)
  | .newline => output Console.newline
  | .printBytes bytes withNewline => output (Console.printBytes bytes withNewline)
  | .render r => output (Console.render r)
  | .renderInline r => output (Console.renderInline r)
  | .readLine => return .bytes (← Console.readLine)
  | .prompt text => return .bytes (← Console.prompt text)
  | .input => return .text (← Console.input)
  | .inputPrompt text => return .text (← Console.inputPrompt text)
  | .inputLiteral => return .literal (Literal.parse (← Console.readLine))
  | .readByte => return .byte (← onChannel Channel.readByte)
  | .writeAll bytes => output (Channel.writeAll bytes)
  | .flush => output Channel.flush

inductive Event (σ : Type)
  | op (op : Op)
  | adjust (change : σ → σ)

structure Entry (σ : Type) where
  result : Option (Except Fault Answer)
  after : Console σ

def Event.run (c : Console σ) : Event σ → Entry σ
  | .op o =>
      let (r, c) := o.run c
      ⟨some r, c⟩
  | .adjust change => ⟨none, { c with channel := change c.channel }⟩

def replay (c : Console σ) : List (Event σ) → List (Entry σ)
  | [] => []
  | e :: rest => e.run c :: replay (e.run c).after rest

end LineConsole.Console
