import Stencil.Span

/-!
# Tokens

A token has a kind, a value and the span of source it was read from.  Streams
made by hand may hold kinds that no source produces; they are kept by name.
-/

namespace Stencil

inductive TokenKind where
  | hostText
  | blockOpen
  | blockClose
  | identifier
  | string
  | comment
  | macroDef
  | macroRef
  | pipe
  | leftBracket
  | rightBracket
  | colon
  | newline
  | error
  | endOfInput
  | other (name : String)
  deriving DecidableEq

structure Token where
  kind : TokenKind
  value : String
  span : Span
  deriving DecidableEq

namespace TokenKind

/-- What a kind is called where it is expected or found. -/
def describe : TokenKind → String
  | hostText => "host text"
  | blockOpen => "'\x7b\x7b'"
  | blockClose => "'\x7d\x7d'"
  | identifier => "identifier"
  | string => "string literal"
  | comment => "comment"
  | macroDef => "macro definition"
  | macroRef => "macro reference"
  | pipe => "'|'"
  | leftBracket => "'['"
  | rightBracket => "']'"
  | colon => "':'"
  | newline => "end of line"
  | error => "ERROR"
  | endOfInput => "end of input"
  | other name => name

end TokenKind

namespace Token

/-- Named tokens show their name, and a lexical error shows its own message. -/
def describe (token : Token) : String :=
  match token.kind with
  | .error => token.value
  | .identifier => "identifier '" ++ token.value ++ "'"
  | .macroDef => "macro definition '@" ++ token.value ++ "'"
  | .macroRef => "macro reference '?" ++ token.value ++ "'"
  | kind => kind.describe

end Token

end Stencil
