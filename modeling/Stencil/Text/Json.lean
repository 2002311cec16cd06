import Stencil.Text.Literal

/-!
# JSON text

Two forms of JSON are written: lists of strings on one line, in which characters
beyond ASCII stand for themselves, and indented documents in ASCII only.
-/

namespace Stencil
namespace Json

inductive Value where
  | null
  | number (n : Nat)
  | string (text : String)
  | array (items : List Value)
  | object (fields : List (String × Value))

/-- The escapes that every JSON string needs. -/
def escapeChar (c : Char) : List Char :=
  match c with
  | '"' => ['\\', '"']
  | '\\' => ['\\', '\\']
  | '\n' => ['\\', 'n']
  | '\r' => ['\\', 'r']
  | '\t' => ['\\', 't']
  | '\x0c' => ['\\', 'f']
  | '\x08' => ['\\', 'b']
  | _ => if c.toNat < 0x20 then '\\' :: 'u' :: Text.hexDigits 4 c.toNat else [c]

/-- The code of a character outside ASCII, as one or two units of sixteen bits. -/
def escapeUnits (c : Char) : List Char :=
  let n := c.toNat
  if n < 0x10000 then '\\' :: 'u' :: Text.hexDigits 4 n
  else
    let high := 0xD800 + (n - 0x10000) / 0x400
    let low := 0xDC00 + (n - 0x10000) % 0x400
    ('\\' :: 'u' :: Text.hexDigits 4 high) ++ ('\\' :: 'u' :: Text.hexDigits 4 low)

/-- Only the printable ASCII characters stand for themselves. -/
def escapeAscii (c : Char) : List Char :=
  if c.toNat < 0x7F then escapeChar c else escapeUnits c

def quoteWith (escape : Char → List Char) (text : String) : String :=
  String.ofList ('"' :: (text.toList.flatMap escape ++ ['"']))

/-- A string in which characters beyond ASCII stand for themselves. -/
def quote (text : String) : String :=
  quoteWith escapeChar text

def quoteAscii (text : String) : String :=
  quoteWith escapeAscii text

/-- A list of strings on one line. -/
def quoteList (items : List String) : String :=
  "[" ++ String.intercalate ", " (items.map quote) ++ "]"

/-- A line break, and the indentation of the line after it. -/
def lineBreak (depth : Nat) : String :=
  "\n" ++ String.ofList (List.replicate (2 * depth) ' ')

/-- Something between brackets, each entry on lines of its own. -/
def bracket (depth : Nat) (opening closing : String) (entries : List String) : String :=
  if entries.isEmpty then opening ++ closing
  else
    opening ++ lineBreak (depth + 1) ++
      String.intercalate ("," ++ lineBreak (depth + 1)) entries ++
      lineBreak depth ++ closing

mutual

/-- The text of a value whose line is indented by `depth` steps. -/
def Value.indented (depth : Nat) : Value → String
  | .null => "null"
  | .number n => toString n
  | .string text => quoteAscii text
  | .array items => bracket depth "[" "]" (indentedItems (depth + 1) items)
  | .object fields => bracket depth "\x7b" "\x7d" (indentedFields (depth + 1) fields)

def indentedItems (depth : Nat) : List Value → List String
  | [] => []
  | v :: rest => v.indented depth :: indentedItems depth rest

def indentedFields (depth : Nat) : List (String × Value) → List String
  | [] => []
  | (key, v) :: rest =>
      (quoteAscii key ++ ": " ++ v.indented depth) :: indentedFields depth rest

end

end Json
end Stencil
