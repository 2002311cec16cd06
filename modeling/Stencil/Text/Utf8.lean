import Stencil.Text.Literal

/-!
# UTF-8

Bytes are decoded strictly, one at a time.  Where a character is being read, the
decoder knows how many bytes are owed and between which bounds the next one must
lie.  A fault names the bytes of the character that could not be read.
-/

namespace Stencil

inductive Utf8Reason where
  | invalidStart
  | invalidContinuation
  | unexpectedEnd
  deriving DecidableEq

/-- The first byte at fault, and the positions of the first and the last. -/
structure Utf8Fault where
  reason : Utf8Reason
  lead : UInt8
  first : Nat
  last : Nat
  deriving DecidableEq

namespace Utf8Reason

def text : Utf8Reason → String
  | invalidStart => "invalid start byte"
  | invalidContinuation => "invalid continuation byte"
  | unexpectedEnd => "unexpected end of data"

end Utf8Reason

namespace Utf8Fault

def message (f : Utf8Fault) : String :=
  let place :=
    if f.first = f.last then
      "byte 0x" ++ String.ofList (Text.hexDigits 2 f.lead.toNat) ++ " in position " ++
        toString f.first
    else "bytes in position " ++ toString f.first ++ "-" ++ toString f.last
  "'utf-8' codec can't decode " ++ place ++ ": " ++ f.reason.text

end Utf8Fault

namespace Utf8

/-- A character that is being read. -/
structure Pending where
  lead : UInt8
  first : Nat
  owed : Nat
  low : Nat
  high : Nat
  value : Nat

/-- What follows a first byte that is not ASCII.  The bounds of the second byte
leave out overlong forms, surrogates, and all beyond the last code point. -/
def pending? (b : UInt8) (first : Nat) : Option Pending :=
  let n := b.toNat
  if n < 0xC2 then none
  else if n < 0xE0 then some ⟨b, first, 1, 0x80, 0xBF, n - 0xC0⟩
  else if n = 0xE0 then some ⟨b, first, 2, 0xA0, 0xBF, 0⟩
  else if n = 0xED then some ⟨b, first, 2, 0x80, 0x9F, 0xD⟩
  else if n < 0xF0 then some ⟨b, first, 2, 0x80, 0xBF, n - 0xE0⟩
  else if n = 0xF0 then some ⟨b, first, 3, 0x90, 0xBF, 0⟩
  else if n < 0xF4 then some ⟨b, first, 3, 0x80, 0xBF, n - 0xF0⟩
  else if n = 0xF4 then some ⟨b, first, 3, 0x80, 0x8F, 4⟩
  else none

/-- Decodes the bytes from position `i` on. -/
def decodeFrom : Nat → Option Pending → List UInt8 → Except Utf8Fault (List Char)
  | _, none, [] => .ok []
  | i, some p, [] => .error ⟨.unexpectedEnd, p.lead, p.first, i - 1⟩
  | i, none, b :: rest =>
      if b.toNat < 0x80 then (Char.ofNat b.toNat :: ·) <$> decodeFrom (i + 1) none rest
      else
        match pending? b i with
        | some p => decodeFrom (i + 1) (some p) rest
        | none => .error ⟨.invalidStart, b, i, i⟩
  | i, some p, b :: rest =>
      if p.low ≤ b.toNat ∧ b.toNat ≤ p.high then
        let value := p.value * 64 + (b.toNat - 0x80)
        if p.owed = 1 then (Char.ofNat value :: ·) <$> decodeFrom (i + 1) none rest
        else
          decodeFrom (i + 1)
            (some { p with owed := p.owed - 1, low := 0x80, high := 0xBF, value := value }) rest
      else .error ⟨.invalidContinuation, p.lead, p.first, i - 1⟩

def decode (bytes : List UInt8) : Except Utf8Fault (List Char) :=
  decodeFrom 0 none bytes

end Utf8

end Stencil
