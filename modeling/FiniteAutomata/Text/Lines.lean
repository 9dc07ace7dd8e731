/-!
Lines of text from a source of bytes that may fail. A line ends with a line feed, which is dropped
together with one carriage return before it; what follows the last line feed is a line too unless it
is empty, and keeps a carriage return at its end.
-/

namespace FiniteAutomata.Text

structure ByteSource where
  bytes : List UInt8
  /-- Why reading fails after the last byte; without a reason the input ends there. -/
  failure : Option String := none
deriving DecidableEq

namespace ByteSource

def ofString (s : String) : ByteSource := { bytes := s.toUTF8.data.toList }

/-- The source that fails after its first `n` bytes; nothing changes when it has fewer. -/
def failAfter (n : Nat) (reason : String) (source : ByteSource) : ByteSource :=
  if n ≤ source.bytes.length then { bytes := source.bytes.take n, failure := some reason } else source

end ByteSource

/-- Why a text could not be read or written to its end. -/
inductive StreamFault where
  | notUtf8
  | failed (reason : String)
deriving DecidableEq

def StreamFault.message : StreamFault → String
  | .notUtf8 => "stream did not contain valid UTF-8"
  | .failed reason => reason

/-- The lines that could be read, and the fault that ended the reading, if any. -/
structure LineStream where
  lines : List String
  stop : Option StreamFault := none
deriving DecidableEq

namespace LineStream

def decode? (bytes : List UInt8) : Option String := String.fromUTF8? bytes.toByteArray

def dropReturn (bytes : List UInt8) : List UInt8 :=
  if bytes.getLast? = some 13 then bytes.dropLast else bytes

/-- What is read from the bytes after the last line feed. A failure of the source hits this line and
is noticed before its encoding. -/
def ofRest (failure : Option String) (rest : List UInt8) : LineStream :=
  match failure with
  | some reason => { lines := [], stop := some (.failed reason) }
  | none =>
    if rest.isEmpty then { lines := [] }
    else match decode? rest with
      | some line => { lines := [line] }
      | none => { lines := [], stop := some .notUtf8 }

/-- What is read from the pieces between line feeds, of which the last one is not ended. -/
def ofPieces (failure : Option String) : List (List UInt8) → LineStream
  | [] => ofRest failure []
  | [rest] => ofRest failure rest
  | piece :: pieces =>
    match decode? (dropReturn piece) with
    | some line =>
      let following := ofPieces failure pieces
      { following with lines := line :: following.lines }
    | none => { lines := [], stop := some .notUtf8 }

def ofSource (source : ByteSource) : LineStream :=
  ofPieces source.failure (source.bytes.splitOn 10)

end LineStream

end FiniteAutomata.Text
