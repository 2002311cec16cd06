import Stencil.Document
import Stencil.Token

/-!
# The grammar of documents

The kinds of tokens that make up a document, as a grammar that does not mention
the readers:

* document: any number of host texts and blocks;
* block: an opening, any number of line ends and statements, and a closing, where
  a line end, a comment or the closing directly follows every statement;
* statement: a comment; a definition with two operands and a bar between them; or
  a source, optionally with a bar and a reference;
* source: an operand, or an identifier with a bracketed colon;
* operand: a string or an identifier.

A document is flattened back to the symbols that it was read from.  A symbol is a
token without its span, and without its value where the kind says it all.
-/

namespace Stencil

/-! ## Words of the grammar -/

namespace Grammar

inductive IsOperand : List TokenKind → Prop where
  | string : IsOperand [.string]
  | identifier : IsOperand [.identifier]

inductive IsSource : List TokenKind → Prop where
  | operand {word : List TokenKind} : IsOperand word → IsSource word
  | array : IsSource [.identifier, .leftBracket, .colon, .rightBracket]

inductive IsStatement : List TokenKind → Prop where
  | comment : IsStatement [.comment]
  | definition {pattern body : List TokenKind} :
      IsOperand pattern → IsOperand body →
        IsStatement (.macroDef :: (pattern ++ .pipe :: body))
  | plain {source : List TokenKind} : IsSource source → IsStatement source
  | piped {source : List TokenKind} :
      IsSource source → IsStatement (source ++ [.pipe, .macroRef])

/-- The kinds that may stand directly after a statement. -/
inductive Separates : TokenKind → Prop where
  | newline : Separates .newline
  | comment : Separates .comment
  | blockClose : Separates .blockClose

/-- What stands between the opening of a block and the end of its closing. -/
inductive ClosesBlock : List TokenKind → Prop where
  | close : ClosesBlock [.blockClose]
  | newline {rest : List TokenKind} : ClosesBlock rest → ClosesBlock (.newline :: rest)
  | statement {word rest : List TokenKind} {next : TokenKind} :
      IsStatement word → Separates next → ClosesBlock (next :: rest) →
        ClosesBlock (word ++ next :: rest)

inductive IsDocument : List TokenKind → Prop where
  | empty : IsDocument []
  | hostText {rest : List TokenKind} : IsDocument rest → IsDocument (.hostText :: rest)
  | block {inside rest : List TokenKind} :
      ClosesBlock inside → IsDocument rest → IsDocument (.blockOpen :: (inside ++ rest))

theorem ClosesBlock.ne_nil {word : List TokenKind} (h : ClosesBlock word) : word ≠ [] := by
  cases h with
  | close => exact List.cons_ne_nil _ _
  | newline _ => exact List.cons_ne_nil _ _
  | statement _ _ _ => exact List.append_ne_nil_of_right_ne_nil _ (List.cons_ne_nil _ _)

end Grammar

/-! ## Symbols -/

structure Symbol where
  kind : TokenKind
  value : Option String
  deriving DecidableEq

namespace TokenKind

/-- Whether tokens of this kind differ in what they say. -/
def hasContent : TokenKind → Bool
  | hostText | identifier | string | comment | macroDef | macroRef => true
  | _ => false

end TokenKind

namespace Token

def symbol (token : Token) : Symbol :=
  ⟨token.kind, if token.kind.hasContent then some token.value else none⟩

/-- The symbols of tokens, without the line ends. -/
def symbols (tokens : List Token) : List Symbol :=
  (tokens.filter (·.kind ≠ .newline)).map symbol

def kinds (tokens : List Token) : List TokenKind :=
  tokens.map kind

end Token

/-! ## Flattening -/

namespace Operand

def symbols : Operand → List Symbol
  | string _ raw => [⟨.string, some raw⟩]
  | identifier _ name => [⟨.identifier, some name⟩]

end Operand

namespace Source

def symbols : Source → List Symbol
  | operand o => o.symbols
  | array _ name =>
      [⟨.identifier, some name⟩, ⟨.leftBracket, none⟩, ⟨.colon, none⟩, ⟨.rightBracket, none⟩]

end Source

namespace Expression

def symbols : Expression → List Symbol
  | plain source => source.symbols
  | pipe source target =>
      source.symbols ++ [⟨.pipe, none⟩, ⟨.macroRef, some target.name⟩]

end Expression

namespace Statement

def symbols : Statement → List Symbol
  | comment _ text => [⟨.comment, some text⟩]
  | definition _ name pattern body =>
      ⟨.macroDef, some name⟩ :: (pattern.symbols ++ ⟨.pipe, none⟩ :: body.symbols)
  | expression e => e.symbols

end Statement

namespace Item

def symbols : Item → List Symbol
  | hostText _ text => [⟨.hostText, some text⟩]
  | block b =>
      ⟨.blockOpen, none⟩ :: (b.statements.flatMap Statement.symbols ++ [⟨.blockClose, none⟩])

end Item

namespace Document

def symbols (document : Document) : List Symbol :=
  document.items.flatMap Item.symbols

end Document

/-! ## Symbols of consecutive tokens -/

namespace Token

theorem symbols_append (first second : List Token) :
    symbols (first ++ second) = symbols first ++ symbols second := by
  rw [symbols, List.filter_append, List.map_append]
  rfl

/-- Every token but a line end leaves a symbol. -/
theorem symbols_cons_of_ne {token : Token} (tokens : List Token)
    (h : token.kind ≠ .newline) :
    symbols (token :: tokens) = token.symbol :: symbols tokens := by
  simp [symbols, h]

theorem symbols_cons_newline {token : Token} (tokens : List Token)
    (h : token.kind = .newline) :
    symbols (token :: tokens) = symbols tokens := by
  simp [symbols, h]

theorem kinds_append (first second : List Token) :
    kinds (first ++ second) = kinds first ++ kinds second :=
  List.map_append

/-- A list of tokens is split where its kinds are. -/
theorem exists_append_of_kinds_eq {tokens : List Token} {left right : List TokenKind}
    (h : kinds tokens = left ++ right) :
    ∃ first second, tokens = first ++ second ∧ kinds first = left ∧
      kinds second = right :=
  List.map_eq_append_iff.mp h

theorem exists_cons_of_kinds_eq {tokens : List Token} {kind : TokenKind}
    {right : List TokenKind} (h : kinds tokens = kind :: right) :
    ∃ token rest, tokens = token :: rest ∧ token.kind = kind ∧ kinds rest = right :=
  List.map_eq_cons_iff.mp h

end Token

end Stencil
