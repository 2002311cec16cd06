import Stencil.Document
import Stencil.Document.SyntaxError

/-!
# Reading a document from tokens

The tokens before the first end of input are read as

* document: any number of host texts and blocks;
* block: opening, any number of line ends and statements, closing;
* statement: a comment; a definition, an operand, a bar and an operand; or an
  expression.  A line end, a comment or the closing of the block follows it;
* expression: a source, and optionally a bar and a reference;
* source: an operand, or an identifier with a bracketed colon;
* operand: a string or an identifier.

Every reader takes the tokens that remain and gives those it left, or a
rejection, which holds the tokens that were not accepted together with the error
that describes the first of them.
-/

namespace Stencil

structure Rejection where
  error : SyntaxError
  rest : List Token

namespace Parse

/-- The token a reader looks at; past the last one it is the end of the input. -/
def peek (fin : Span) (tokens : List Token) : Token :=
  tokens.head?.getD ⟨.endOfInput, "", fin⟩

def refuse {α : Type} (fin : Span) (expected : Expected) (tokens : List Token) :
    Except Rejection α :=
  .error ⟨.unexpected (peek fin tokens) expected, tokens⟩

/-- One token of a given kind. -/
def expect (fin : Span) (kind : TokenKind) (expected : Expected) :
    List Token → Except Rejection (Token × List Token)
  | [] => refuse fin expected []
  | token :: rest =>
      if token.kind = kind then .ok (token, rest)
      else refuse fin expected (token :: rest)

def operand (fin : Span) (expected : Expected) :
    List Token → Except Rejection (Operand × List Token)
  | ⟨.string, raw, span⟩ :: rest => .ok (.string span raw, rest)
  | ⟨.identifier, name, span⟩ :: rest => .ok (.identifier span name, rest)
  | tokens => refuse fin expected tokens

def source (fin : Span) :
    List Token → Except Rejection (Source × List Token)
  | ⟨.identifier, name, span⟩ :: ⟨.leftBracket, _, _⟩ :: rest => do
      let (_, rest) ← expect fin .colon .wholeArray rest
      let (closing, rest) ← expect fin .rightBracket (.token .rightBracket) rest
      return (.array (span.join closing.span) name, rest)
  | tokens => do
      let (o, rest) ← operand fin .operandOrArray tokens
      return (.operand o, rest)

def expression (fin : Span) (tokens : List Token) :
    Except Rejection (Expression × List Token) := do
  let (s, rest) ← source fin tokens
  match rest with
  | ⟨.pipe, _, _⟩ :: rest => do
      let (target, rest) ← expect fin .macroRef (.token .macroRef) rest
      return (.pipe s ⟨target.span, target.value⟩, rest)
  | rest => return (.plain s, rest)

def statement (fin : Span) :
    List Token → Except Rejection (Statement × List Token)
  | ⟨.comment, text, span⟩ :: rest => .ok (.comment span text, rest)
  | ⟨.macroDef, name, span⟩ :: rest => do
      let (pattern, rest) ← operand fin .operand rest
      let (_, rest) ← expect fin .pipe (.token .pipe) rest
      let (body, rest) ← operand fin .operand rest
      return (.definition (span.join body.span) name pattern body, rest)
  | tokens => do
      let (e, rest) ← expression fin tokens
      return (.expression e, rest)

/-- Whether a statement may end before these tokens.  Nothing is taken, and the
end of the input is left for the block to report. -/
def endsStatement : List Token → Bool
  | [] => true
  | token :: _ =>
      token.kind = .newline ∨ token.kind = .comment ∨ token.kind = .blockClose

theorem expect_shorter {fin : Span} {kind : TokenKind} {expected : Expected}
    {tokens : List Token} {token : Token} {rest : List Token}
    (h : expect fin kind expected tokens = .ok (token, rest)) :
    rest.length < tokens.length := by
  cases tokens with
  | nil => simp [expect, refuse] at h
  | cons t ts =>
      simp only [expect] at h
      split at h
      · cases h
        exact Nat.lt_succ_self _
      · simp [refuse] at h

theorem operand_shorter {fin : Span} {expected : Expected} {tokens : List Token}
    {o : Operand} {rest : List Token}
    (h : operand fin expected tokens = .ok (o, rest)) :
    rest.length < tokens.length := by
  unfold operand at h
  split at h
  · cases h
    exact Nat.lt_succ_self _
  · cases h
    exact Nat.lt_succ_self _
  · simp [refuse] at h

theorem source_shorter {fin : Span} {tokens : List Token} {s : Source}
    {rest : List Token} (h : source fin tokens = .ok (s, rest)) :
    rest.length < tokens.length := by
  unfold source at h
  split at h
  · rename_i more
    cases hcolon : expect fin .colon .wholeArray more with
    | error e => simp [hcolon, bind, Except.bind] at h
    | ok colon =>
        cases hclose : expect fin .rightBracket (.token .rightBracket) colon.2 with
        | error e => simp [hcolon, hclose, bind, Except.bind] at h
        | ok closing =>
            simp only [hcolon, hclose, bind, Except.bind, pure, Except.pure,
              Except.ok.injEq, Prod.mk.injEq] at h
            have hc := expect_shorter hcolon
            have hr := expect_shorter hclose
            rw [← h.2]
            simp only [List.length_cons]
            omega
  · cases ho : operand fin .operandOrArray tokens with
    | error e => simp [ho, bind, Except.bind] at h
    | ok o =>
        simp only [ho, bind, Except.bind, pure, Except.pure, Except.ok.injEq,
          Prod.mk.injEq] at h
        rw [← h.2]
        exact operand_shorter ho

theorem expression_shorter {fin : Span} {tokens : List Token} {e : Expression}
    {rest : List Token} (h : expression fin tokens = .ok (e, rest)) :
    rest.length < tokens.length := by
  unfold expression at h
  cases hs : source fin tokens with
  | error r => simp [hs, bind, Except.bind] at h
  | ok s =>
      have hlt := source_shorter hs
      simp only [hs, bind, Except.bind] at h
      split at h
      · rename_i more heq
        cases ht : expect fin .macroRef (.token .macroRef) more with
        | error r => simp [ht] at h
        | ok target =>
            simp only [ht, pure, Except.pure, Except.ok.injEq, Prod.mk.injEq] at h
            have := expect_shorter ht
            rw [heq, List.length_cons] at hlt
            rw [← h.2]
            omega
      · simp only [pure, Except.pure, Except.ok.injEq, Prod.mk.injEq] at h
        rw [← h.2]
        exact hlt

theorem statement_shorter {fin : Span} {tokens : List Token} {s : Statement}
    {rest : List Token} (h : statement fin tokens = .ok (s, rest)) :
    rest.length < tokens.length := by
  unfold statement at h
  split at h
  · cases h
    exact Nat.lt_succ_self _
  · rename_i more
    cases hp : operand fin .operand more with
    | error r => simp [hp, bind, Except.bind] at h
    | ok pattern =>
        cases hb : expect fin .pipe (.token .pipe) pattern.2 with
        | error r => simp [hp, hb, bind, Except.bind] at h
        | ok bar =>
            cases ho : operand fin .operand bar.2 with
            | error r => simp [hp, hb, ho, bind, Except.bind] at h
            | ok body =>
                simp only [hp, hb, ho, bind, Except.bind, pure, Except.pure,
                  Except.ok.injEq, Prod.mk.injEq] at h
                have h1 := operand_shorter hp
                have h2 := expect_shorter hb
                have h3 := operand_shorter ho
                rw [← h.2]
                simp only [List.length_cons]
                omega
  · cases he : expression fin tokens with
    | error r => simp [he, bind, Except.bind] at h
    | ok e =>
        simp only [he, bind, Except.bind, pure, Except.pure, Except.ok.injEq,
          Prod.mk.injEq] at h
        rw [← h.2]
        exact expression_shorter he

/-- The statements of a block, the span of the token that closes it, and the
tokens after it. -/
def statements (fin opening : Span) :
    List Token → Except Rejection (List Statement × Span × List Token)
  | [] => .error ⟨.unclosedBlock opening, []⟩
  | ⟨.newline, _, _⟩ :: rest => statements fin opening rest
  | ⟨.blockClose, _, span⟩ :: rest => .ok ([], span, rest)
  | token :: tokens =>
      match _ : statement fin (token :: tokens) with
      | .error r => .error r
      | .ok (s, rest) =>
          if endsStatement rest then do
            let (more, closing, rest) ← statements fin opening rest
            return (s :: more, closing, rest)
          else refuse fin .endOfStatement rest
  termination_by tokens => tokens.length
  decreasing_by
    · simp
    · exact statement_shorter (by assumption)

theorem statements_shorter {fin opening : Span} {tokens : List Token}
    {ss : List Statement} {closing : Span} {rest : List Token}
    (h : statements fin opening tokens = .ok (ss, closing, rest)) :
    rest.length < tokens.length := by
  fun_induction statements fin opening tokens generalizing ss with
  | case1 => simp at h
  | case2 _ _ more ih =>
      have := ih h
      simp only [List.length_cons]
      omega
  | case3 =>
      cases h
      exact Nat.lt_succ_self _
  | case4 => simp at h
  | case5 _ _ _ _ s left hs _ ih =>
      cases hm : statements fin opening left with
      | error r => simp [hm, bind, Except.bind] at h
      | ok more =>
          simp only [hm, bind, Except.bind, pure, Except.pure, Except.ok.injEq,
            Prod.mk.injEq] at h
          have hlt := statement_shorter hs
          have := @ih more.1 (by rw [hm, ← h.2.1, ← h.2.2])
          omega
  | case6 => simp [refuse] at h

/-- The items of a document, its blocks numbered from `index`. -/
def items (fin : Span) (index : Nat) :
    List Token → Except Rejection (List Item)
  | [] => .ok []
  | ⟨.hostText, text, span⟩ :: rest => do
      let more ← items fin index rest
      return .hostText span text :: more
  | ⟨.blockOpen, _, opening⟩ :: tokens =>
      match _ : statements fin opening tokens with
      | .error r => .error r
      | .ok (ss, closing, rest) => do
          let more ← items fin (index + 1) rest
          return .block ⟨opening.join closing, index, ss⟩ :: more
  | token :: tokens => refuse fin (.token .blockOpen) (token :: tokens)
  termination_by tokens => tokens.length
  decreasing_by
    · simp
    · have := statements_shorter (by assumption)
      simp only [List.length_cons]
      omega

end Parse

namespace Document

/-- The tokens that count: those before the first end of input. -/
def significant (tokens : List Token) : List Token :=
  tokens.takeWhile (·.kind != .endOfInput)

/-- The span of the first end of input. -/
def endSpan (tokens : List Token) : Span :=
  match tokens.find? (·.kind == .endOfInput) with
  | some token => token.span
  | none => ⟨0, 0, 1, 1⟩

/-- Reads a document, or tells where the tokens stop being one. -/
def read (tokens : List Token) : Except Rejection Document := do
  let fin := endSpan tokens
  let items ← Parse.items fin 0 (significant tokens)
  return ⟨⟨0, fin.stop, 1, 1⟩, items⟩

def ofTokens (tokens : List Token) : Except SyntaxError Document :=
  (read tokens).mapError Rejection.error

end Document

end Stencil
