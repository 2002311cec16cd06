import Stencil.Program

/-!
# Listings

A listing shows a program one instruction a line, indented by the brackets that
are open around it, after its macros in the order of the table.
-/

namespace Stencil

namespace Instruction

/-- The opcode, and the operand if there is one. -/
def text (i : Instruction) : String :=
  if i.operand = "" then i.opcode else i.opcode ++ " " ++ i.operand

end Instruction

namespace Listing

def indent (depth : Nat) (line : String) : String :=
  String.ofList (List.replicate (2 * depth) ' ') ++ line

/-- The lines of consecutive instructions.  A closing bracket stands as far left
as the opening one; without one the depth stays at zero. -/
def lines (depth : Nat) : List Instruction → List String
  | [] => []
  | i :: rest =>
      let depth := if i.operation.closes then depth - 1 else depth
      indent depth i.text :: lines (if i.operation.opens then depth + 1 else depth) rest

/-- The line of a definition is shown if it comes from a source. -/
def placeText (m : Macro) : String :=
  match m.span with
  | some span => ", line " ++ toString span.line
  | none => ""

def macroLines (m : Macro) : List String :=
  ["  @" ++ m.name ++ " (block " ++ toString m.block ++ placeText m ++ "):",
    "    pattern:"] ++
    lines 3 m.pattern ++ ["    body:"] ++ lines 3 m.body

end Listing

namespace Program

def listingLines (p : Program) : List String :=
  ["macros (" ++ toString p.macros.size ++ "):"] ++
    p.macros.entries.flatMap Listing.macroLines ++
    ["program (" ++ toString p.instructions.length ++ " instructions):"] ++
    Listing.lines 1 p.instructions

/-- Every line ends in a line feed. -/
def listing (p : Program) : String :=
  String.join (p.listingLines.map (· ++ "\n"))

end Program

end Stencil
