import Stencil.Text.Identifier

/-!
# The inside of string literals

The characters between the quotes of a literal are cut into pieces: runs of text
with their escapes decoded, and interpolated names, written as a dollar sign and
a name in parentheses.  Each piece knows the offsets it covers.
-/

namespace Stencil

inductive Piece where
  | text (start stop : Nat) (value : List Char)
  | interpolation (start stop : Nat) (name : List Char)
  deriving DecidableEq

/-- Why a dollar sign with a parenthesis is no interpolation. -/
inductive InterpolationFault where
  | unclosed
  | notIdentifier (name : String)
  deriving DecidableEq

/-- A fault, and the offsets of the characters that are at fault. -/
structure MalformedInterpolation where
  fault : InterpolationFault
  start : Nat
  stop : Nat
  deriving DecidableEq

namespace InterpolationFault

def reason : InterpolationFault → String
  | unclosed => "missing ')'"
  | notIdentifier name => "'" ++ name ++ "' is not an identifier"

end InterpolationFault

namespace StringBody

/-- What a backslash and a character mean; an escape without a meaning of its own
stays as it is written. -/
def decode (c : Char) : List Char :=
  match c with
  | '"' => ['"']
  | '\\' => ['\\']
  | 'n' => ['\n']
  | 't' => ['\t']
  | 'r' => ['\r']
  | '$' => ['$']
  | _ => ['\\', c]

/-- Puts text in front of pieces; it joins a text that stands first. -/
def prepend (start stop : Nat) (value : List Char) : List Piece → List Piece
  | .text _ stop' value' :: rest => .text start stop' (value ++ value') :: rest
  | pieces => .text start stop value :: pieces

/-- The pieces of a text that begins at offset `i`. -/
def pieces (i : Nat) : List Char → Except MalformedInterpolation (List Piece)
  | [] => .ok []
  | '\\' :: c :: rest =>
      (prepend i (i + 2) (decode c)) <$> pieces (i + 2) rest
  | '$' :: '(' :: rest =>
      let name := rest.takeWhile (· != ')')
      let stop := i + name.length + 3
      match _ : rest.drop name.length with
      | [] => .error ⟨.unclosed, i, i + rest.length + 2⟩
      | _ :: after =>
          if Text.isIdentifier name then
            (.interpolation i stop name :: ·) <$> pieces stop after
          else
            .error ⟨.notIdentifier (String.ofList name), i, stop⟩
  | c :: rest =>
      (prepend i (i + 1) [c]) <$> pieces (i + 1) rest
  termination_by cs => cs.length
  decreasing_by
    · simp only [List.length_cons]
      omega
    · have := congrArg List.length (by assumption : rest.drop name.length = _ :: after)
      simp only [List.length_cons, List.length_drop] at this ⊢
      omega
    · simp

end StringBody

end Stencil
