import Stencil.Text.Blank
import Stencil.Text.Identifier
import Stencil.Token

/-!
# Lexemes

A source is cut into lexemes: stretches of characters that are either one token
or one blank between two tokens.  Nothing is lost, so the texts of the lexemes
of a source, put together, are the source.

Reading switches between two modes.  Host text runs to the next pair of opening
braces; inside a block the following lexemes occur.

| begins with                | lexeme                                             |
|----------------------------|----------------------------------------------------|
| blank, tab, return         | a blank, one character                             |
| line feed, semicolon       | end of line                                        |
| two closing braces         | end of the block                                   |
| hash sign                  | comment, up to the next line feed                  |
| bar, bracket, colon        | that symbol                                        |
| at sign, question mark     | definition or reference, with the name after it    |
| double quote               | string, up to a closing quote on the same line     |
| letter, underscore         | identifier                                         |
| anything else              | an error, one character                            |
-/

namespace Stencil

structure Lexeme where
  /-- No kind for a blank. -/
  kind : Option TokenKind
  value : String
  text : List Char

namespace Lexeme

inductive Mode where
  | host
  | script
  deriving DecidableEq

/-- A token whose value is its own text. -/
def verbatim (kind : TokenKind) (text : List Char) : Lexeme :=
  ⟨some kind, String.ofList text, text⟩

def error (message : String) (text : List Char) : Lexeme :=
  ⟨some .error, message, text⟩

/-- Host text up to the next pair of opening braces. -/
def hostRun : List Char → List Char
  | [] => []
  | '{' :: '{' :: _ => []
  | c :: rest => c :: hostRun rest

def inHost (c : Char) (rest : List Char) : Lexeme :=
  match hostRun (c :: rest) with
  | [] => verbatim .blockOpen ['{', '{']
  | text => verbatim .hostText text

/-- The inside of a string literal up to its closing quote, or up to the end of
the line where there is none.  A backslash takes the next character with it,
unless that character ends the line. -/
def stringRun : List Char → List Char
  | [] => []
  | '"' :: _ => []
  | '\n' :: _ => []
  | '\\' :: c :: rest =>
      if c = '\n' then ['\\'] else '\\' :: c :: stringRun rest
  | c :: rest => c :: stringRun rest

def ofString (rest : List Char) : Lexeme :=
  let body := stringRun rest
  match rest.drop body.length with
  | '"' :: _ => ⟨some .string, String.ofList body, '"' :: (body ++ ['"'])⟩
  | _ => error "unterminated string literal" ('"' :: body)

/-- The comment that follows a hash sign; its value is stripped. -/
def ofComment (rest : List Char) : Lexeme :=
  let body := rest.takeWhile (· != '\n')
  ⟨some .comment, String.ofList (Text.strip body), '#' :: body⟩

/-- The name that follows an at sign or a question mark. -/
def ofSigil (kind : TokenKind) (sigil : Char) (rest : List Char) : Lexeme :=
  if rest.head?.any Text.isIdentStart then
    let name := rest.takeWhile Text.isIdentPart
    ⟨some kind, String.ofList name, sigil :: name⟩
  else
    error ("expected a name after '" ++ sigil.toString ++ "'") [sigil]

def ofClosingBrace (rest : List Char) : Lexeme :=
  match rest with
  | '}' :: _ => verbatim .blockClose ['}', '}']
  | _ => error "unexpected '\x7d' (blocks close with '\x7d\x7d')" ['}']

def ofWord (c : Char) (rest : List Char) : Lexeme :=
  if Text.isIdentStart c then
    verbatim .identifier (c :: rest.takeWhile Text.isIdentPart)
  else
    error ("unexpected character '" ++ c.toString ++ "'") [c]

/-- The lexeme inside a block that begins with `c`, `rest` being what follows. -/
def inScript (c : Char) (rest : List Char) : Lexeme :=
  match c with
  | ' ' | '\t' | '\r' => ⟨none, "", [c]⟩
  | '\n' | ';' => verbatim .newline [c]
  | '}' => ofClosingBrace rest
  | '#' => ofComment rest
  | '|' => verbatim .pipe [c]
  | '[' => verbatim .leftBracket [c]
  | ']' => verbatim .rightBracket [c]
  | ':' => verbatim .colon [c]
  | '@' => ofSigil .macroDef c rest
  | '?' => ofSigil .macroRef c rest
  | '"' => ofString rest
  | _ => ofWord c rest

/-- The lexeme at the beginning of a text that is not empty. -/
def first (mode : Mode) (c : Char) (rest : List Char) : Lexeme :=
  match mode with
  | .host => inHost c rest
  | .script => inScript c rest

namespace Mode

def after (mode : Mode) (lexeme : Lexeme) : Mode :=
  match lexeme.kind with
  | some .blockOpen => .script
  | some .blockClose => .host
  | _ => mode

end Mode

/-- All lexemes of a text.  Each takes at least the first character. -/
def scan (mode : Mode) : List Char → List Lexeme
  | [] => []
  | c :: rest =>
      let lexeme := first mode c rest
      lexeme :: scan (mode.after lexeme) (rest.drop (lexeme.text.length - 1))
  termination_by cs => cs.length
  decreasing_by
    simp only [List.length_drop, List.length_cons]
    omega

/-! ## Lexemes cover the text -/

theorem hostRun_isPrefix (cs : List Char) : hostRun cs <+: cs := by
  fun_induction hostRun cs with
  | case1 => exact List.prefix_refl _
  | case2 => exact List.nil_prefix
  | case3 c rest _ ih => exact List.cons_prefix_cons.2 ⟨rfl, ih⟩

theorem stringRun_isPrefix (cs : List Char) : stringRun cs <+: cs := by
  fun_induction stringRun cs with
  | case1 => exact List.prefix_refl _
  | case2 => exact List.nil_prefix
  | case3 => exact List.nil_prefix
  | case4 => exact List.cons_prefix_cons.2 ⟨rfl, List.nil_prefix⟩
  | case5 c rest _ ih =>
      exact List.cons_prefix_cons.2 ⟨rfl, List.cons_prefix_cons.2 ⟨rfl, ih⟩⟩
  | case6 c rest _ _ _ ih => exact List.cons_prefix_cons.2 ⟨rfl, ih⟩

theorem inHost_covers (c : Char) (rest : List Char) :
    ∃ more, (inHost c rest).text = c :: more ∧ more <+: rest := by
  unfold inHost
  split
  · rename_i h
    unfold hostRun at h
    split at h
    · exact absurd (by assumption) (List.cons_ne_nil _ _)
    · rename_i heq
      cases heq
      exact ⟨['{'], rfl, List.cons_prefix_cons.2 ⟨rfl, List.nil_prefix⟩⟩
    · cases h
  · have h := hostRun_isPrefix (c :: rest)
    rename_i hne
    cases hrun : hostRun (c :: rest) with
    | nil => exact absurd hrun hne
    | cons d more =>
        rw [hrun] at h
        rcases List.cons_prefix_cons.1 h with ⟨rfl, hmore⟩
        exact ⟨more, rfl, hmore⟩

theorem ofString_covers (rest : List Char) :
    ∃ more, (ofString rest).text = '"' :: more ∧ more <+: rest := by
  have hbody := stringRun_isPrefix rest
  simp only [ofString]
  split
  · rename_i after heq
    refine ⟨stringRun rest ++ ['"'], rfl, ?_⟩
    rcases hbody with ⟨t, ht⟩
    have hdrop := congrArg (List.drop (stringRun rest).length) ht
    rw [List.drop_left, heq] at hdrop
    rw [hdrop] at ht
    exact ⟨after, by rw [List.append_assoc]; exact ht⟩
  · exact ⟨_, rfl, hbody⟩

theorem inScript_covers (c : Char) (rest : List Char) :
    ∃ more, (inScript c rest).text = c :: more ∧ more <+: rest := by
  have one : ∃ more, [c] = c :: more ∧ more <+: rest := ⟨[], rfl, List.nil_prefix⟩
  have sigil (kind : TokenKind) :
      ∃ more, (ofSigil kind c rest).text = c :: more ∧ more <+: rest := by
    unfold ofSigil
    split
    · exact ⟨_, rfl, List.takeWhile_prefix _⟩
    · exact one
  unfold inScript
  split
  · exact one
  · exact one
  · exact one
  · exact one
  · exact one
  · unfold ofClosingBrace
    split
    · exact ⟨['}'], rfl, List.cons_prefix_cons.2 ⟨rfl, List.nil_prefix⟩⟩
    · exact one
  · exact ⟨_, rfl, List.takeWhile_prefix _⟩
  · exact one
  · exact one
  · exact one
  · exact one
  · exact sigil .macroDef
  · exact sigil .macroRef
  · exact ofString_covers rest
  · unfold ofWord
    split
    · exact ⟨_, rfl, List.takeWhile_prefix _⟩
    · exact one

/-- A lexeme is a beginning of the text, and takes its first character. -/
theorem first_covers (mode : Mode) (c : Char) (rest : List Char) :
    ∃ more, (first mode c rest).text = c :: more ∧ more <+: rest := by
  cases mode with
  | host => exact inHost_covers c rest
  | script => exact inScript_covers c rest

/-- Nothing is lost. -/
theorem flatMap_text_scan (mode : Mode) (cs : List Char) :
    (scan mode cs).flatMap text = cs := by
  fun_induction scan mode cs with
  | case1 => rfl
  | case2 mode c rest lexeme ih =>
      rcases first_covers mode c rest with ⟨more, htext, t, rfl⟩
      have hlexeme : lexeme.text = c :: more := htext
      rw [List.flatMap_cons, ih, hlexeme, List.length_cons, Nat.add_sub_cancel,
        List.drop_left]
      rfl

end Lexeme

end Stencil
