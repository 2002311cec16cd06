import Stencil.Text.Printable

/-!
# Literals

The form in which tracebacks and system messages show a text: between single
quotes, or between double quotes if it has single quotes and no double ones.
What cannot be printed is shown by its code.
-/

namespace Stencil
namespace Text

/-- The last `width` hexadecimal digits of a number. -/
def hexDigits (width n : Nat) : List Char :=
  match width with
  | 0 => []
  | width + 1 => hexDigits width (n / 16) ++ [Nat.digitChar (n % 16)]

theorem length_hexDigits (width n : Nat) : (hexDigits width n).length = width := by
  induction width generalizing n with
  | zero => rfl
  | succ width ih => rw [hexDigits, List.length_append, ih, List.length_singleton]

/-- The shortest of the three forms of code that holds the character. -/
def escapeCode (c : Char) : List Char :=
  let n := c.toNat
  if n < 0x100 then '\\' :: 'x' :: hexDigits 2 n
  else if n < 0x10000 then '\\' :: 'u' :: hexDigits 4 n
  else '\\' :: 'U' :: hexDigits 8 n

def literalChar (delimiter c : Char) : List Char :=
  if c = delimiter ∨ c = '\\' then ['\\', c]
  else
    match c with
    | '\n' => ['\\', 'n']
    | '\r' => ['\\', 'r']
    | '\t' => ['\\', 't']
    | _ => if isPrintable c then [c] else escapeCode c

def literalDelimiter (cs : List Char) : Char :=
  if cs.contains '\'' && !cs.contains '"' then '"' else '\''

def literal (text : String) : String :=
  let cs := text.toList
  let delimiter := literalDelimiter cs
  String.ofList (delimiter :: (cs.flatMap (literalChar delimiter) ++ [delimiter]))

end Text
end Stencil
