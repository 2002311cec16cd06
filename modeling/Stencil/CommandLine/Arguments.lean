import Stencil.Text.Digit

/-!
# Command line arguments

There are options that are given or not, options that take a value, and one
positional argument.  An option may be shortened as long as only one option
begins that way.  A value follows as the next argument or, after an equals sign,
in the same one.  After a double dash no argument is an option.  The double dash
itself is dropped, also where it stands for a value.

More letters in the argument of an option with a single dash, with or without an
equals sign before them, are short options of their own.

An argument with a dash in front that is no option still counts as positional if
it is a negative number or has a blank in it.
-/

namespace Stencil
namespace CommandLine

inductive Switch where
  | help
  | literalSource
  | console
  | verbose
  | tracebackJson
  deriving DecidableEq

inductive Setter where
  | variable
  | array
  | arrayFile
  | label
  | extension
  deriving DecidableEq

inductive Opt where
  | switch (s : Switch)
  | setter (s : Setter)
  deriving DecidableEq

structure Arguments where
  program : Option String := none
  switches : List Switch := []
  /-- Values in the order in which they were given; none for a dropped one. -/
  values : List (Setter × Option String) := []

/-- Why arguments end the program at once. -/
inductive Stop where
  | helpShown
  | usage
  deriving DecidableEq

namespace Opt

def names : List (String × Opt) :=
  [("-h", .switch .help), ("--help", .switch .help),
    ("-source", .switch .literalSource), ("--source", .switch .literalSource),
    ("--var", .setter .variable), ("--array", .setter .array),
    ("--array-file", .setter .arrayFile), ("--label", .setter .label),
    ("--console", .switch .console), ("--ext", .setter .extension),
    ("-verbose", .switch .verbose), ("--verbose", .switch .verbose),
    ("--traceback-json", .switch .tracebackJson)]

def ofName? (name : List Char) : Option Opt :=
  (names.find? fun (n, _) => n.toList = name).map Prod.snd

/-- The options whose names begin in a given way, one for each name. -/
def beginningWith (start : List Char) : List Opt :=
  (names.filter fun (n, _) => start.isPrefixOf n.toList).map Prod.snd

end Opt

/-- What a single argument looks like. -/
inductive Word where
  /-- The double dash before arguments that are no options. -/
  | dashes
  | plain (text : String)
  | unknown
  | opt (option : Opt)
  /-- An option with an equals sign and a value. -/
  | assigned (option : Opt) (value : String)
  /-- An option with a single dash and more letters after it. -/
  | cluster (letters : List Char)

namespace Word

/-- Digits, perhaps with a point before the last of them; a line feed at the end
does not count. -/
def isNumber (cs : List Char) : Bool :=
  let cs := if cs.getLast? = some '\n' then cs.dropLast else cs
  let whole := cs.takeWhile Text.isDecimalDigit
  match cs.drop whole.length with
  | [] => !whole.isEmpty
  | '.' :: rest => !rest.isEmpty && rest.all Text.isDecimalDigit
  | _ => false

/-- An argument that begins with a dash and is no option. -/
def ofStranger (text : List Char) : Word :=
  if isNumber text.tail ∨ ' ' ∈ text then plain (String.ofList text) else unknown

/-- An argument by the options that it can be short for; more than one is an
error. -/
def ofCandidates (text : List Char) (value : Option String) : List Opt → Except Stop Word
  | [] => .ok (ofStranger text)
  | [option] => .ok (match value with | none => opt option | some v => assigned option v)
  | _ => .error .usage

/-- The value after the first equals sign. -/
def valueOf? (text : List Char) : Option String :=
  match text.dropWhile (· != '=') with
  | [] => none
  | _ :: value => some (String.ofList value)

/-- An argument with two dashes in front that is not the name of an option. -/
def ofLong (text : List Char) : Except Stop Word :=
  let head := text.takeWhile (· != '=')
  let value := valueOf? text
  match value, Opt.ofName? head with
  | some v, some option => .ok (assigned option v)
  | _, _ => ofCandidates text value (Opt.beginningWith head)

/-- An argument with a single dash in front, and more, that is not the name of an
option.  No option with a single dash takes a value. -/
def ofShort (text : List Char) : Except Stop Word :=
  match valueOf? text, Opt.ofName? (text.takeWhile (· != '=')) with
  | some letters, some _ => .ok (cluster letters.toList)
  | _, _ =>
      match text with
      | '-' :: 'h' :: letters => .ok (cluster letters)
      | _ => ofCandidates text none (Opt.beginningWith text)

def ofArgument (argument : String) : Except Stop Word :=
  match argument.toList with
  | '-' :: c :: rest =>
      let text := '-' :: c :: rest
      match Opt.ofName? text with
      | some option => .ok (opt option)
      | none => if c = '-' then ofLong text else ofShort text
  | _ => .ok (plain argument)

/-- All arguments as words, before any of them takes effect. -/
def ofArguments : List String → Except Stop (List Word)
  | [] => .ok []
  | argument :: rest =>
      if argument = "--" then .ok (dashes :: rest.map plain)
      else do
        let word ← ofArgument argument
        let words ← ofArguments rest
        return word :: words

/-- The only short option of one letter is the one for help. -/
def clusterStop (letters : List Char) : Stop :=
  if !letters.isEmpty && letters.all (· == 'h') then .helpShown else .usage

/-- A double dash after an equals sign is dropped. -/
def givenValue (value : String) : Option String :=
  if value = "--" then none else some value

end Word

namespace Arguments

/-- The positional argument is still to come, or has had its place; `extra` says
whether there was something that has none. -/
structure Progress where
  arguments : Arguments := {}
  placed : Bool := false
  extra : Bool := false

namespace Progress

def place (program : Option String) (p : Progress) : Progress :=
  { p with arguments := { p.arguments with program := program }, placed := true }

def switchOn (s : Switch) (p : Progress) : Progress :=
  { p with arguments := { p.arguments with switches := s :: p.arguments.switches } }

def setValue (s : Setter) (value : Option String) (p : Progress) : Progress :=
  { p with arguments := { p.arguments with values := p.arguments.values ++ [(s, value)] } }

end Progress

/-- Reads words in order.  The positional argument takes a double dash before or
after it along; the one before it may also stand alone. -/
def read (p : Progress) : List Word → Except Stop Arguments
  | [] => if p.extra then .error .usage else .ok p.arguments
  | .plain text :: .dashes :: rest =>
      if p.placed then .error .usage else read (p.place (some text)) rest
  | .plain text :: rest =>
      if p.placed then read { p with extra := true } rest
      else read (p.place (some text)) rest
  | .dashes :: .plain text :: rest =>
      if p.placed then .error .usage else read (p.place (some text)) rest
  | .dashes :: rest =>
      if p.placed then .error .usage else read (p.place none) rest
  | .unknown :: rest => read { p with extra := true } rest
  | .cluster letters :: _ => .error (Word.clusterStop letters)
  | .assigned (.setter s) value :: rest => read (p.setValue s (Word.givenValue value)) rest
  | .assigned (.switch _) _ :: _ => .error .usage
  | .opt (.switch .help) :: _ => .error .helpShown
  | .opt (.switch s) :: rest => read (p.switchOn s) rest
  | .opt (.setter s) :: .plain text :: rest => read (p.setValue s text) rest
  | .opt (.setter _) :: _ => .error .usage

def parse (arguments : List String) : Except Stop Arguments := do
  read {} (← Word.ofArguments arguments)

def has (s : Switch) (a : Arguments) : Bool :=
  a.switches.contains s

/-- The values given to an option, in order. -/
def valuesOf (s : Setter) (a : Arguments) : List (Option String) :=
  a.values.filterMap fun (t, value) => if t = s then some value else none

end Arguments

end CommandLine
end Stencil
