import LineConsole.Channel.Memory
import LineConsole.Console
import Mathlib.Data.List.Flatten

/-!
What output operations write where all output is taken. An outlet says of a channel in working
order where written bytes go and what a flush does. Every output operation then sends the bytes
of its text at once, however many pieces the text is written in.
-/
namespace LineConsole

open Fallible

/-- The states in which a channel takes all output, and what becomes of them. -/
structure Outlet (σ : Type) [Channel σ] where
  Open : σ → Prop
  put : Bytes → σ → σ
  settle : σ → σ
  open_put : ∀ bytes s, Open s → Open (put bytes s)
  writeAll : ∀ bytes s, Open s → Channel.writeAll bytes s = (.ok (), put bytes s)
  flush : ∀ s, Open s → Channel.flush s = (.ok (), settle s)
  put_nil : ∀ s, put [] s = s
  put_put : ∀ a b s, put b (put a s) = put (a ++ b) s

namespace Utf8

theorem encode_append (a b : String) : encode (a ++ b) = encode a ++ encode b := by
  simp [encode]

theorem encode_join_cons (text : String) (rest : List String) :
    encode (String.join (text :: rest)) = encode text ++ encode (String.join rest) := by
  rw [String.join_cons, encode_append]

end Utf8

open Utf8

def lineOf (text : String) : Bytes := encode text ++ [LineBuffer.newline]

theorem encode_newline (text : String) : encode (text ++ "\n") = lineOf text :=
  encode_append text "\n"

def Value.joined (vs : List Value) : String := " ".intercalate (vs.map Value.text)

theorem Value.joined_cons (v : Value) (rest : List Value) :
    joined (v :: rest) = v.text ++ String.join (rest.map fun w => " " ++ w.text) := by
  induction rest generalizing v with
  | nil => simp [joined]
  | cons w rest ih =>
    have hjoin : joined (v :: w :: rest) = v.text ++ " " ++ joined (w :: rest) := by
      simp [joined]
    rw [hjoin, ih, List.map_cons, String.join_cons, String.append_assoc, String.append_assoc]

namespace Outlet

variable {σ : Type} [Channel σ] (o : Outlet σ) {s : σ}

theorem runFrom_ofPieces (hs : o.Open s) (pieces : List String) (last : Option Fault) :
    (Rendering.ofPieces pieces).runFrom last s =
      ((true, last), o.put (encode (String.join pieces)) s) := by
  induction pieces generalizing s with
  | nil => exact congrArg (Prod.mk _) (o.put_nil s).symm
  | cons text rest ih =>
    have hrest := ih (o.open_put (encode text) s hs)
    rw [o.put_put, ← encode_join_cons] at hrest
    simp only [Rendering.ofPieces, Rendering.sequence, Rendering.runFrom,
      o.writeAll (encode text) s hs] at hrest ⊢
    exact hrest

theorem write_ofPieces (hs : o.Open s) (pieces : List String) :
    (Rendering.ofPieces pieces).write s = (.ok (), o.put (encode (String.join pieces)) s) := by
  rw [Rendering.write, o.runFrom_ofPieces hs]

theorem writeValue (hs : o.Open s) (v : Value) :
    Console.writeValue v s = (.ok (), o.put (encode v.text) s) := o.write_ofPieces hs v.pieces

theorem newline (hs : o.Open s) :
    Console.newline s = (.ok (), o.settle (o.put Console.newlineBytes s)) := by
  rw [Console.newline, bind_apply, o.writeAll _ s hs]
  exact o.flush _ (o.open_put _ s hs)

/-- The text in pieces, then the newline, then the flush. -/
theorem render_ofPieces (hs : o.Open s) (pieces : List String) :
    Console.render (.ofPieces pieces) s =
      (.ok (), o.settle (o.put (lineOf (String.join pieces)) s)) := by
  rw [Console.render, bind_apply, o.write_ofPieces hs]
  simp only [o.newline (o.open_put _ s hs), o.put_put]
  rfl

theorem print (hs : o.Open s) (v : Value) :
    Console.print v s = (.ok (), o.settle (o.put (lineOf v.text) s)) :=
  o.render_ofPieces hs v.pieces

theorem writeRest (hs : o.Open s) (vs : List Value) :
    Console.writeRest vs s =
      (.ok (), o.put (encode (String.join (vs.map fun v => " " ++ v.text))) s) := by
  induction vs generalizing s with
  | nil => exact congrArg (Prod.mk _) (o.put_nil s).symm
  | cons v rest ih =>
    have hblank : encode " " = [0x20] := rfl
    have hfirst := o.open_put [0x20] s hs
    have hsecond := o.open_put (encode v.text) _ hfirst
    rw [Console.writeRest, bind_apply, o.writeAll _ s hs]
    simp only [bind_apply, o.writeValue hfirst, ih hsecond]
    rw [List.map_cons, encode_join_cons, encode_append, hblank, o.put_put, o.put_put,
      List.append_assoc]

theorem writeValues (hs : o.Open s) (vs : List Value) :
    Console.writeValues vs s = (.ok (), o.put (encode (Value.joined vs)) s) := by
  cases vs with
  | nil => exact congrArg (Prod.mk _) (o.put_nil s).symm
  | cons v rest =>
    have hrest := o.writeRest (o.open_put (encode v.text) s hs) rest
    rw [Console.writeValues, bind_apply, o.writeValue hs]
    simp only [hrest, o.put_put]
    rw [Value.joined_cons, encode_append]

theorem printValues (hs : o.Open s) (vs : List Value) :
    Console.printValues vs s = (.ok (), o.settle (o.put (lineOf (Value.joined vs)) s)) := by
  rw [Console.printValues, bind_apply, o.writeValues hs]
  simp only [o.newline (o.open_put _ s hs), o.put_put]
  rfl

theorem printBytes (hs : o.Open s) (bytes : Bytes) :
    Console.printBytes bytes true s =
      (.ok (), o.settle (o.put (bytes ++ [LineBuffer.newline]) s)) := by
  rw [Console.printBytes, bind_apply, o.writeAll _ s hs]
  simp only [if_true, o.newline (o.open_put _ s hs), o.put_put]
  rfl

/-- A question is out before its answer is read. -/
theorem prompt {c : Console σ} (hc : o.Open c.channel) (text : Bytes) :
    Console.prompt text c = Console.readLine ⟨o.settle (o.put text c.channel), c.line⟩ := by
  have hflush := o.flush _ (o.open_put text c.channel hc)
  simp only [Console.prompt, bind_apply, Console.onChannel, on, o.writeAll text c.channel hc,
    hflush]

end Outlet

end LineConsole
