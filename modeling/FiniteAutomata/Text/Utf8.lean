/-!
Decoding of bytes that need not be UTF-8. Each longest beginning of a character that is not completed,
and each byte that begins no character, is read as U+FFFD.
-/

namespace FiniteAutomata.Text.Utf8

/-- The bits of a character whose last `missing` bytes are still to come, and the bounds of the first
of these bytes. -/
structure Pending where
  bits : Nat
  missing : Nat
  low : UInt8 := 0x80
  high : UInt8 := 0xBF

/-- The character that stands for bytes which are no character. -/
def replacement : Char := '\ufffd'

/-- What a byte at the start of a character completes, and what it begins. Bounds on the second byte
keep out longer forms of a character than needed, surrogates, and numbers above U+10FFFF. -/
def start (b : UInt8) : List Char × Option Pending :=
  let n := b.toNat
  if n < 0x80 then ([Char.ofNat n], none)
  else if n < 0xC2 then ([replacement], none)
  else if n < 0xE0 then ([], some { bits := n - 0xC0, missing := 1 })
  else if n = 0xE0 then ([], some { bits := 0, missing := 2, low := 0xA0 })
  else if n = 0xED then ([], some { bits := 0xD, missing := 2, high := 0x9F })
  else if n < 0xF0 then ([], some { bits := n - 0xE0, missing := 2 })
  else if n = 0xF0 then ([], some { bits := 0, missing := 3, low := 0x90 })
  else if n < 0xF4 then ([], some { bits := n - 0xF0, missing := 3 })
  else if n = 0xF4 then ([], some { bits := 4, missing := 3, high := 0x8F })
  else ([replacement], none)

def advance (pending : Option Pending) (b : UInt8) : List Char × Option Pending :=
  match pending with
  | none => start b
  | some p =>
    if p.low ≤ b ∧ b ≤ p.high then
      let bits := p.bits * 64 + (b.toNat - 0x80)
      if p.missing = 1 then ([Char.ofNat bits], none)
      else ([], some { bits, missing := p.missing - 1 })
    else
      let next := start b
      (replacement :: next.1, next.2)

def decodeFrom : Option Pending → List UInt8 → List Char
  | none, [] => []
  | some _, [] => [replacement]
  | pending, b :: bytes =>
    let next := advance pending b
    next.1 ++ decodeFrom next.2 bytes

/-- The text of bytes, with U+FFFD for those that are no character. -/
def decode (bytes : List UInt8) : String := String.ofList (decodeFrom none bytes)

end FiniteAutomata.Text.Utf8
