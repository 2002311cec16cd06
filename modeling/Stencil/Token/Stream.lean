import Stencil.Lexeme

/-!
# The tokens of a source

The tokens are the lexemes other than blanks, each with the span it covers,
followed by one token for the end of the input.  Every source has tokens: what
fits no class becomes an error token, for the reader of the stream to report.
-/

namespace Stencil

namespace Lexeme

/-- The tokens of consecutive lexemes, the first of which begins at `p`. -/
def tokens (p : Position) : List Lexeme → List Token
  | [] => [⟨.endOfInput, "", p.upTo p⟩]
  | lexeme :: rest =>
      let q := p.advanceOver lexeme.text
      match lexeme.kind with
      | none => tokens q rest
      | some kind => ⟨kind, lexeme.value, p.upTo q⟩ :: tokens q rest

end Lexeme

def tokenize (source : String) : List Token :=
  Lexeme.tokens Position.origin (Lexeme.scan .host source.toList)

end Stencil
