/-!
What can go wrong between a console and its channel, or between a caller and a console.
-/
namespace LineConsole

inductive Fault
  | writeFailed
  | readFailed
  /-- The input ended before a single byte came. -/
  | endOfStream
  | invalidUtf8
  /-- A caller in C passed a null pointer or an unknown tag. -/
  | invalidValue
  deriving DecidableEq

namespace Fault

def all : List Fault := [.writeFailed, .readFailed, .endOfStream, .invalidUtf8, .invalidValue]

def name : Fault → String
  | .writeFailed => "WriteFailed"
  | .readFailed => "ReadFailed"
  | .endOfStream => "EndOfStream"
  | .invalidUtf8 => "InvalidUtf8"
  | .invalidValue => "InvalidValue"

def message : Fault → String
  | .writeFailed => "write to output stream failed"
  | .readFailed => "read from input stream failed"
  | .endOfStream => "end of input stream"
  | .invalidUtf8 => "input line is not valid UTF-8"
  | .invalidValue => "invalid value passed across the C boundary"

end Fault

end LineConsole
