import LineConsole.Fallible
import LineConsole.Fault
import LineConsole.Text.Utf8

/-!
Byte channels. A channel is a state with three operations, each of which may fail and may
change the state when it fails. Most channels are made of two independent halves, a source
of bytes and a sink for them.
-/
namespace LineConsole

/-- What a channel, or a console over one, can be asked to do. -/
abbrev Action (σ : Type) : Type → Type := Fallible Fault σ

class Channel (σ : Type) where
  /-- The next byte, or `none` at the end of the input. -/
  readByte : Action σ (Option UInt8)
  writeAll : Bytes → Action σ Unit
  flush : Action σ Unit

class Source (ρ : Type) where
  readByte : Action ρ (Option UInt8)

class Sink (ω : Type) where
  writeAll : Bytes → Action ω Unit
  flush : Action ω Unit

structure Duplex (ρ ω : Type) where
  source : ρ
  sink : ω

namespace Duplex

def onSource (a : Action ρ α) : Action (Duplex ρ ω) α :=
  Fallible.on source (fun source d => { d with source }) a

def onSink (a : Action ω α) : Action (Duplex ρ ω) α :=
  Fallible.on sink (fun sink d => { d with sink }) a

instance [Source ρ] [Sink ω] : Channel (Duplex ρ ω) where
  readByte := onSource Source.readByte
  writeAll bytes := onSink (Sink.writeAll bytes)
  flush := onSink Sink.flush

end Duplex

end LineConsole
