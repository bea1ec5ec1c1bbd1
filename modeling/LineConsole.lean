import LineConsole.Text.Utf8
import LineConsole.Text.Blank
import LineConsole.Value.Json
import LineConsole.Json.Variant
import LineConsole.Foreign.Value
import LineConsole.LineBuffer.Op
import LineConsole.Fallible
import LineConsole.Channel.Memory
import LineConsole.Channel.Planned
import LineConsole.Channel.Script
import LineConsole.Console.Op
import LineConsole.Host.Call
import LineConsole.Demo.Program
import LineConsole.Device.Call
import LineConsole.Demo.Rounds
import LineConsole.Main
import LineConsole.Proofs.Content
import LineConsole.Proofs.Delivery
import LineConsole.Proofs.Reading
import LineConsole.Proofs.Freshness
import LineConsole.Proofs.Host
import LineConsole.Proofs.Texts
import LineConsole.Proofs.TextInput
import LineConsole.Proofs.Agreement
import LineConsole.Proofs.LineQueue
import LineConsole.Proofs.Refusal
import LineConsole.Proofs.Script
import LineConsole.Proofs.HostReading
import LineConsole.Proofs.Interfaces
import LineConsole.Proofs.Backends
import LineConsole.Proofs.DeviceReading
import LineConsole.Proofs.SerialQueue
import LineConsole.Proofs.Lending
import LineConsole.Proofs.FibonacciNumbers
import LineConsole.Proofs.Program
import LineConsole.Proofs.Rounds
import LineConsole.Proofs.Histories
import LineConsole.Proofs.Chunking
import LineConsole.Proofs.Carriers
import LineConsole.Proofs.Independence
import LineConsole.Proofs.Payload
import LineConsole.Proofs.Answers
import LineConsole.Proofs.Journal
import LineConsole.Proofs.WriteFaults
import LineConsole.Proofs.Literals
import LineConsole.Proofs.IntegerLines
import LineConsole.Proofs.Diagnostics
import LineConsole.Proofs.Floors
import LineConsole.Proofs.ValueArrays
import LineConsole.Proofs.FixedTexts
import LineConsole.Proofs.Numerals
import LineConsole.Proofs.JsonTexts
import LineConsole.Proofs.ShortestDecimals
import LineConsole.Proofs.Doubles
import LineConsole.Proofs.NearMisses
import LineConsole.Proofs.DoubleRounding
import LineConsole.Proofs.JsonFloats
import LineConsole.Proofs.Collecting
import LineConsole.Proofs.Settings
import LineConsole.Proofs.SerialRates
import LineConsole.Proofs.RememberedFaults
