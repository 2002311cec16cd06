import Stencil.Token

/-!
# Errors of document structure

A stream of tokens that is no document is refused at one token, which is not
what could stand there, or at the opening of a block that the input ends in.
-/

namespace Stencil

/-- What could have stood in the place of a refused token. -/
inductive Expected where
  | token (kind : TokenKind)
  /-- The colon of a whole-array selection. -/
  | wholeArray
  | operand
  | operandOrArray
  | endOfStatement
  deriving DecidableEq

inductive SyntaxError where
  | unexpected (found : Token) (expected : Expected)
  | unclosedBlock (opening : Span)
  deriving DecidableEq

namespace Expected

def text : Expected → String
  | token kind => kind.describe
  | wholeArray => "':' (only whole-array selection '[:]' is supported)"
  | operand => "string literal or identifier"
  | operandOrArray => "string literal, identifier or array selection"
  | endOfStatement => "end of statement"

end Expected

namespace SyntaxError

def span : SyntaxError → Span
  | unexpected found _ => found.span
  | unclosedBlock opening => opening

def expected : SyntaxError → String
  | unexpected _ expected => expected.text
  | unclosedBlock _ => TokenKind.blockClose.describe

def found : SyntaxError → String
  | unexpected found _ => found.describe
  | unclosedBlock _ => TokenKind.endOfInput.describe

def message (e : SyntaxError) : String :=
  "expected " ++ e.expected ++ ", found " ++ e.found

end SyntaxError

end Stencil
