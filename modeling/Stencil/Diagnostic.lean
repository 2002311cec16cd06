import Stencil.Span
import Stencil.Text.Blank

/-!
# Diagnostics

A diagnostic is a message about a place in a source, shown with an excerpt: the
line on which the place begins and a marker under it.  The marker covers the
place as far as it lies on that line, and is never empty.
-/

namespace Stencil

/-- A source line as shown, and where the marker under it begins and how wide it
is. -/
structure Excerpt where
  text : String
  offset : Nat
  width : Nat
  deriving DecidableEq

structure Note where
  span : Span
  message : String
  deriving DecidableEq

structure Diagnostic where
  message : String
  span : Option Span
  severity : String := "error"
  notes : List Note := []
  deriving DecidableEq

namespace Excerpt

/-- A tab is shown as four blanks. -/
def expandChar (c : Char) : List Char :=
  if c = '\t' then [' ', ' ', ' ', ' '] else [c]

def expand (cs : List Char) : List Char :=
  cs.flatMap expandChar

/-- How many columns a text takes when shown. -/
def displayWidth (cs : List Char) : Nat :=
  (expand cs).length

/-- What stands before offset `p` on its line. -/
def lineBefore (source : List Char) (p : Nat) : List Char :=
  ((source.take p).reverse.takeWhile (· != '\n')).reverse

/-- The excerpt for the stretch from `start` to `stop`, which may begin after the end of the
source, and may end before it begins, also before the source does.  Carriage returns at the
end of the line are not shown. -/
def ofStretch (source : List Char) (start : Nat) (stop : Int) : Excerpt :=
  let start := min start source.length
  let before := lineBefore source start
  let lineStart := start - before.length
  let line := (source.drop lineStart).takeWhile (· != '\n')
  let raw := Text.dropWhileEnd (· == '\r') line
  let stop := min (max stop start) (lineStart + raw.length)
  let marked := (source.drop start).take (stop - start).toNat
  ⟨String.ofList (expand raw), displayWidth before, max 1 (displayWidth marked)⟩

end Excerpt

def excerpt (source : String) (span : Span) : Excerpt :=
  Excerpt.ofStretch source.toList span.start span.stop

namespace Diagnostic

def fill (n : Nat) (c : Char) : String :=
  String.ofList (List.replicate n c)

/-- The lines that show a place; the gutter is as wide as the line number. -/
def snippet (label source : String) (span : Span) : List String :=
  let shown := excerpt source span
  let line := toString span.line
  let gutter := fill line.length ' '
  [gutter ++ "--> " ++ label ++ ":" ++ line ++ ":" ++ toString span.column,
    gutter ++ " |",
    line ++ " | " ++ shown.text,
    gutter ++ " | " ++ fill shown.offset ' ' ++ fill shown.width '^']

def lines (label source : String) (d : Diagnostic) : List String :=
  (d.severity ++ ": " ++ d.message) ::
    (match d.span with
      | none => ["  --> " ++ label]
      | some span => snippet label source span) ++
    d.notes.flatMap fun note =>
      ("note: " ++ note.message) :: snippet label source note.span

/-- Every line ends in a line feed. -/
def render (label source : String) (d : Diagnostic) : String :=
  String.join ((d.lines label source).map (· ++ "\n"))

end Diagnostic

end Stencil
