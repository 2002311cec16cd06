import Stencil.Diagnostic
import Stencil.Machine.Run

/-!
# Tracebacks

A traceback shows the document and the frames that a failed run left open,
outermost first, each with the last instruction that was logged in it.
-/

namespace Stencil

structure TracebackFrame where
  name : String
  span : Option Span
  entry : Option LogEntry
  deriving DecidableEq

namespace State

variable {σ : Type}

def lastEntry? (s : State σ) (frame : FrameId) : Option LogEntry :=
  s.log.toList.reverse.find? (·.frame == frame)

/-- A frame in which nothing was logged is shown where it was opened. -/
def tracebackFrame (s : State σ) (name : String) (id : FrameId) (opened : Option Span) :
    TracebackFrame :=
  let entry := s.lastEntry? id
  ⟨name, (entry.map LogEntry.span).getD opened, entry⟩

def tracebackFrames (s : State σ) : List TracebackFrame :=
  s.tracebackFrame "<document>" .root none ::
    s.frames.reverse.map fun frame => s.tracebackFrame frame.name frame.id frame.span

end State

namespace TracebackFrame

def placeLines (label source : String) (f : TracebackFrame) : List String :=
  match f.span with
  | none => ["  <unknown location> in " ++ f.name]
  | some span =>
      let shown := Text.strip (excerpt source span).text.toList
      ("  File \"" ++ label ++ "\", line " ++ toString span.line ++ ", column " ++
          toString span.column ++ ", in " ++ f.name) ::
        if shown.isEmpty then [] else ["    " ++ String.ofList shown]

def bindingsLine (bindings : Bindings) : String :=
  "    Bindings: " ++ String.intercalate ", "
    ((Entries.byName bindings).map fun (name, value) =>
      name ++ "=" ++ Text.literal value)

def entryLines (verbose : Bool) (f : TracebackFrame) : List String :=
  match f.entry with
  | none => []
  | some entry =>
      ("    State log index: " ++ toString entry.index ++ "  State id: " ++ entry.stateId) ::
        match entry.snapshot with
        | some bindings => if verbose then [bindingsLine bindings] else []
        | none => []

def lines (label source : String) (verbose : Bool) (f : TracebackFrame) : List String :=
  f.placeLines label source ++ f.entryLines verbose

def toJson (label : String) (index : Nat) (f : TracebackFrame) : Json.Value :=
  let place :=
    match f.span with
    | none => []
    | some span =>
        [("source_location", Json.Value.object
          [("file", .string label), ("start", .number span.start), ("end", .number span.stop),
            ("line", .number span.line), ("column", .number span.column)])]
  let step :=
    match f.entry with
    | none => []
    | some entry =>
        [("state_id", Json.Value.string entry.stateId), ("step_index", .number entry.index),
          ("opcode", .string entry.instruction.opcode)] ++
          match entry.snapshot with
          | none => []
          | some bindings =>
              [("env_snapshot", Json.Value.object
                (bindings.map fun (name, value) => (name, Json.Value.string value)))]
  .object ([("frame_index", .number index), ("name", .string f.name)] ++ place ++ step)

end TracebackFrame

namespace RuntimeError

def diagnostic (e : RuntimeError) : Diagnostic where
  message := e.message
  span := e.span

def toJson (e : RuntimeError) : Json.Value :=
  .object [("type", .string e.cause.title), ("message", .string e.message),
    ("rule", .string e.cause.rule),
    ("failing_step_index", (e.stepIndex.map Json.Value.number).getD .null)]

end RuntimeError

namespace State

variable {σ : Type}

def traceback (s : State σ) (label source : String) (verbose : Bool)
    (e : RuntimeError) : String :=
  String.intercalate "\n"
    ("Traceback (most recent call last):" ::
      s.tracebackFrames.flatMap (TracebackFrame.lines label source verbose) ++
      [e.cause.title ++ ": " ++ e.message ++ " (rule: " ++ e.cause.rule ++ ")"])

def tracebackJson (s : State σ) (label : String) (e : RuntimeError) : String :=
  (Json.Value.object
    [("error", e.toJson),
      ("traceback", .array (s.tracebackFrames.zipIdx.map fun (frame, index) =>
        frame.toJson label index))]).indented 0

end State

end Stencil
