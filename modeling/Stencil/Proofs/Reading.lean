import Stencil.Document.OfTokens
import Stencil.Proofs.Grammar
import Stencil.Proofs.Success

/-!
# Reading exactly the grammar

Every reader takes a word of its grammar and leaves the tokens after it, and the
tree it gives flattens to the symbols of that word.  Conversely, a reader that is
given a word of its grammar takes that word, provided the tokens after it cannot
belong to a longer one.
-/

namespace Stencil
namespace Parse

open Grammar

/-- A word of the grammar `P` with the given symbols is taken from the front of
`tokens`, and `rest` is left. -/
def Takes (P : List TokenKind → Prop) (symbols : List Symbol)
    (tokens rest : List Token) : Prop :=
  ∃ word, tokens = word ++ rest ∧ P (Token.kinds word) ∧ Token.symbols word = symbols

/-! ## What the readers take -/

theorem of_expect_ok {fin : Span} {kind : TokenKind} {expected : Expected}
    {tokens : List Token} {token : Token} {rest : List Token}
    (h : expect fin kind expected tokens = .ok (token, rest)) :
    tokens = token :: rest ∧ token.kind = kind := by
  cases tokens with
  | nil => cases h
  | cons t ts =>
      simp only [expect] at h
      split at h
      · rename_i hkind
        cases h
        exact ⟨rfl, hkind⟩
      · cases h

theorem takes_operand {fin : Span} {expected : Expected} {tokens : List Token}
    {o : Operand} {rest : List Token}
    (h : operand fin expected tokens = .ok (o, rest)) :
    Takes IsOperand o.symbols tokens rest := by
  unfold operand at h
  split at h
  · cases h
    exact ⟨[⟨.string, _, _⟩], rfl, .string, rfl⟩
  · cases h
    exact ⟨[⟨.identifier, _, _⟩], rfl, .identifier, rfl⟩
  · cases h

theorem takes_source {fin : Span} {tokens : List Token} {s : Source}
    {rest : List Token} (h : source fin tokens = .ok (s, rest)) :
    Takes IsSource s.symbols tokens rest := by
  unfold source at h
  split at h
  · rename_i name span bracket bracketSpan more
    rcases ok_of_bind h with ⟨⟨colon, afterColon⟩, hcolon, hleft⟩
    rcases ok_of_bind hleft with ⟨⟨closing, afterClosing⟩, hclosing, hend⟩
    rcases of_expect_ok hcolon with ⟨rfl, hcolonKind⟩
    rcases of_expect_ok hclosing with ⟨rfl, hclosingKind⟩
    cases hend
    refine ⟨[⟨.identifier, name, span⟩, ⟨.leftBracket, bracket, bracketSpan⟩,
      colon, closing], rfl, ?_, ?_⟩
    · simp only [Token.kinds, List.map_cons, List.map_nil, hcolonKind, hclosingKind]
      exact .array
    · simp [Token.symbols, Token.symbol, Source.symbols, TokenKind.hasContent,
        hcolonKind, hclosingKind]
  · rcases ok_of_bind h with ⟨⟨o, left⟩, ho, hend⟩
    cases hend
    rcases takes_operand ho with ⟨word, htokens, hword, hsymbols⟩
    exact ⟨word, htokens, .operand hword, hsymbols⟩

theorem takes_expression {fin : Span} {tokens : List Token} {e : Expression}
    {rest : List Token} (h : expression fin tokens = .ok (e, rest)) :
    Takes IsStatement e.symbols tokens rest := by
  unfold expression at h
  rcases ok_of_bind h with ⟨⟨s, left⟩, hs, hleft⟩
  rcases takes_source hs with ⟨word, rfl, hword, hsymbols⟩
  simp only at hleft
  split at hleft
  · rename_i bar barSpan more
    rcases ok_of_bind hleft with ⟨⟨target, afterTarget⟩, htarget, hend⟩
    rcases of_expect_ok htarget with ⟨rfl, htargetKind⟩
    cases hend
    refine ⟨word ++ [⟨.pipe, bar, barSpan⟩, target], ?_, ?_, ?_⟩
    · rw [List.append_assoc]
      rfl
    · rw [Token.kinds_append]
      simp only [Token.kinds, List.map_cons, List.map_nil, htargetKind]
      exact .piped hword
    · rw [Token.symbols_append, hsymbols]
      simp [Token.symbols, Token.symbol, Expression.symbols, TokenKind.hasContent,
        htargetKind]
  · cases hleft
    exact ⟨word, rfl, .plain hword, hsymbols⟩

theorem takes_statement {fin : Span} {tokens : List Token} {s : Statement}
    {rest : List Token} (h : statement fin tokens = .ok (s, rest)) :
    Takes IsStatement s.symbols tokens rest := by
  unfold statement at h
  split at h
  · cases h
    exact ⟨[⟨.comment, _, _⟩], rfl, .comment, rfl⟩
  · rename_i name span more
    rcases ok_of_bind h with ⟨⟨pattern, afterPattern⟩, hpattern, hleft⟩
    rcases ok_of_bind hleft with ⟨⟨bar, afterBar⟩, hbar, hlast⟩
    rcases ok_of_bind hlast with ⟨⟨body, afterBody⟩, hbody, hend⟩
    rcases takes_operand hpattern with ⟨patternWord, rfl, hpatternWord, hpatternSymbols⟩
    rcases of_expect_ok hbar with ⟨rfl, hbarKind⟩
    rcases takes_operand hbody with ⟨bodyWord, rfl, hbodyWord, hbodySymbols⟩
    cases hend
    refine ⟨⟨.macroDef, name, span⟩ :: (patternWord ++ bar :: bodyWord), ?_, ?_, ?_⟩
    · simp
    · change IsStatement (.macroDef :: Token.kinds (patternWord ++ bar :: bodyWord))
      rw [Token.kinds_append]
      change IsStatement (.macroDef ::
        (Token.kinds patternWord ++ bar.kind :: Token.kinds bodyWord))
      rw [hbarKind]
      exact .definition hpatternWord hbodyWord
    · have hbarSymbol : bar.symbol = ⟨.pipe, none⟩ := by
        simp [Token.symbol, hbarKind, TokenKind.hasContent]
      rw [Token.symbols_cons_of_ne _ (by simp), Token.symbols_append,
        Token.symbols_cons_of_ne bodyWord (by simp [hbarKind]), hpatternSymbols,
        hbodySymbols, hbarSymbol]
      rfl
  · rcases ok_of_bind h with ⟨⟨e, left⟩, he, hend⟩
    cases hend
    exact takes_expression he

theorem separates_of_endsStatement {tokens : List Token}
    (h : endsStatement tokens = true) :
    tokens = [] ∨ ∃ token rest, tokens = token :: rest ∧ Separates token.kind := by
  cases tokens with
  | nil => exact Or.inl rfl
  | cons token rest =>
      simp only [endsStatement, decide_eq_true_eq] at h
      refine Or.inr ⟨token, rest, rfl, ?_⟩
      rcases h with h | h | h
      · rw [h]
        exact .newline
      · rw [h]
        exact .comment
      · rw [h]
        exact .blockClose

/-- The inside of a block, its closing included. -/
theorem takes_statements {fin opening : Span} {tokens : List Token}
    {ss : List Statement} {closing : Span} {rest : List Token}
    (h : statements fin opening tokens = .ok (ss, closing, rest)) :
    Takes ClosesBlock (ss.flatMap Statement.symbols ++ [⟨.blockClose, none⟩])
      tokens rest := by
  fun_induction statements fin opening tokens generalizing ss with
  | case1 => cases h
  | case2 value span more ih =>
      rcases ih h with ⟨word, rfl, hword, hsymbols⟩
      refine ⟨⟨.newline, value, span⟩ :: word, rfl, .newline hword, ?_⟩
      rw [Token.symbols_cons_newline word rfl]
      exact hsymbols
  | case3 value span more =>
      cases h
      exact ⟨[⟨.blockClose, value, closing⟩], rfl, .close, rfl⟩
  | case4 => cases h
  | case5 _ _ _ _ s left hs hends ih =>
      rcases ok_of_bind h with ⟨⟨more, closing', rest'⟩, hmore, hend⟩
      cases hend
      rcases takes_statement hs with ⟨word, htokens, hword, hsymbols⟩
      rcases ih hmore with ⟨inside, hleft, hinside, hinsideSymbols⟩
      refine ⟨word ++ inside, ?_, ?_, ?_⟩
      · rw [htokens, hleft, List.append_assoc]
      · rcases separates_of_endsStatement hends with hnil | ⟨next, after, hafter, hnext⟩
        · have hempty : inside = [] := (List.append_eq_nil_iff.mp (hleft.symm.trans hnil)).1
          rw [hempty] at hinside
          exact absurd rfl hinside.ne_nil
        · cases inside with
          | nil => exact absurd rfl hinside.ne_nil
          | cons token inside =>
              rw [hafter, List.cons_append] at hleft
              cases hleft
              rw [Token.kinds_append]
              exact .statement hword hnext hinside
      · rw [Token.symbols_append, hsymbols, hinsideSymbols, List.flatMap_cons,
          List.append_assoc]
  | case6 => cases h

/-- The items of a document take every token, and their blocks are numbered one
after another. -/
theorem takes_items {fin : Span} {index : Nat} {tokens : List Token}
    {is : List Item} (h : items fin index tokens = .ok is) :
    Takes IsDocument (is.flatMap Item.symbols) tokens [] := by
  fun_induction items fin index tokens generalizing is with
  | case1 =>
      cases h
      exact ⟨[], rfl, .empty, rfl⟩
  | case2 index text span rest ih =>
      rcases ok_of_bind h with ⟨more, hmore, hend⟩
      cases hend
      rcases ih hmore with ⟨word, htokens, hword, hsymbols⟩
      refine ⟨⟨.hostText, text, span⟩ :: word, ?_, .hostText hword, ?_⟩
      · rw [List.cons_append, ← htokens]
      · rw [Token.symbols_cons_of_ne word (by simp), hsymbols, List.flatMap_cons]
        rfl
  | case3 => cases h
  | case4 index value opening tokens ss closing left hss ih =>
      rcases ok_of_bind h with ⟨more, hmore, hend⟩
      cases hend
      rcases takes_statements hss with ⟨inside, htokens, hinside, hinsideSymbols⟩
      rcases ih hmore with ⟨word, hleft, hword, hsymbols⟩
      refine ⟨⟨.blockOpen, value, opening⟩ :: (inside ++ word), ?_, ?_, ?_⟩
      · rw [htokens, hleft]
        simp
      · change IsDocument (.blockOpen :: Token.kinds (inside ++ word))
        rw [Token.kinds_append]
        exact .block hinside hword
      · rw [Token.symbols_cons_of_ne _ (by simp), Token.symbols_append, hinsideSymbols,
          hsymbols, List.flatMap_cons]
        rfl
  | case5 => cases h

/-! ## Words are read

The token after a word decides where the word ends: a bracket would turn an
identifier into an array, and a bar would make a pipe of a source. -/

theorem read_operand {word : List Token} (hword : IsOperand (Token.kinds word))
    (fin : Span) (expected : Expected) (rest : List Token) :
    ∃ o, operand fin expected (word ++ rest) = .ok (o, rest) := by
  generalize hkinds : Token.kinds word = kinds at hword
  cases hword with
  | string =>
      rcases Token.exists_cons_of_kinds_eq hkinds with ⟨⟨_, raw, span⟩, left, rfl, rfl, hleft⟩
      rw [List.map_eq_nil_iff.mp hleft]
      exact ⟨.string span raw, rfl⟩
  | identifier =>
      rcases Token.exists_cons_of_kinds_eq hkinds with ⟨⟨_, name, span⟩, left, rfl, rfl, hleft⟩
      rw [List.map_eq_nil_iff.mp hleft]
      exact ⟨.identifier span name, rfl⟩

theorem expect_of_kind {fin : Span} {kind : TokenKind} {expected : Expected}
    {token : Token} (h : token.kind = kind) (rest : List Token) :
    expect fin kind expected (token :: rest) = .ok (token, rest) :=
  if_pos h

/-- An operand that no bracket follows is a source. -/
theorem source_of_operand {fin : Span} {tokens : List Token} {o : Operand} {next : Token}
    {rest : List Token}
    (h : operand fin .operandOrArray tokens = .ok (o, next :: rest))
    (hnext : next.kind ≠ .leftBracket) :
    source fin tokens = .ok (.operand o, next :: rest) := by
  unfold source
  split
  · cases h
    exact absurd rfl hnext
  · rw [h]
    rfl

theorem read_source {word : List Token} (hword : IsSource (Token.kinds word))
    (fin : Span) {next : Token} (hnext : next.kind ≠ .leftBracket) (rest : List Token) :
    ∃ s, source fin (word ++ next :: rest) = .ok (s, next :: rest) := by
  generalize hkinds : Token.kinds word = kinds at hword
  cases hword with
  | operand hoperand =>
      rw [← hkinds] at hoperand
      rcases read_operand hoperand fin .operandOrArray (next :: rest) with ⟨o, ho⟩
      exact ⟨.operand o, source_of_operand ho hnext⟩
  | array =>
      rcases Token.exists_cons_of_kinds_eq hkinds with ⟨⟨_, name, span⟩, _, rfl, rfl, hbracket⟩
      rcases Token.exists_cons_of_kinds_eq hbracket with ⟨⟨_, _, _⟩, _, rfl, rfl, hcolons⟩
      rcases Token.exists_cons_of_kinds_eq hcolons with ⟨colon, _, rfl, hcolon, hclosings⟩
      rcases Token.exists_cons_of_kinds_eq hclosings with ⟨closing, _, rfl, hclosing, hleft⟩
      rw [List.map_eq_nil_iff.mp hleft]
      refine ⟨.array (span.join closing.span) name, ?_⟩
      simp only [List.cons_append, List.nil_append, source]
      rw [expect_of_kind hcolon]
      change (expect fin .rightBracket (.token .rightBracket) (closing :: next :: rest) >>= _) = _
      rw [expect_of_kind hclosing]
      rfl

theorem ne_leftBracket_of_separates {kind : TokenKind} (h : Separates kind) :
    kind ≠ .leftBracket := by
  cases h <;> exact TokenKind.noConfusion

theorem ne_pipe_of_separates {kind : TokenKind} (h : Separates kind) : kind ≠ .pipe := by
  cases h <;> exact TokenKind.noConfusion

theorem endsStatement_of_separates {next : Token} (h : Separates next.kind)
    (rest : List Token) : endsStatement (next :: rest) = true := by
  simp only [endsStatement, decide_eq_true_eq]
  cases hkind : next.kind with
  | newline => exact Or.inl rfl
  | comment => exact Or.inr (Or.inl rfl)
  | blockClose => exact Or.inr (Or.inr rfl)
  | _ =>
      rw [hkind] at h
      cases h

theorem expression_of_source {fin : Span} {tokens : List Token} {s : Source} {next : Token}
    {rest : List Token} (h : source fin tokens = .ok (s, next :: rest))
    (hnext : next.kind ≠ .pipe) :
    expression fin tokens = .ok (.plain s, next :: rest) := by
  unfold expression
  rw [h]
  simp only [bind, Except.bind]
  split
  · rename_i heq
    cases heq
    exact absurd rfl hnext
  · rfl

theorem statement_of_expression {fin : Span} {tokens : List Token} {e : Expression}
    {rest : List Token} (h : expression fin tokens = .ok (e, rest)) :
    statement fin tokens = .ok (.expression e, rest) := by
  unfold statement
  split
  · cases h
  · cases h
  · rw [h]
    rfl

theorem read_statement {word : List Token} (hword : IsStatement (Token.kinds word))
    (fin : Span) {next : Token} (hnext : Separates next.kind) (rest : List Token) :
    ∃ s, statement fin (word ++ next :: rest) = .ok (s, next :: rest) := by
  generalize hkinds : Token.kinds word = kinds at hword
  cases hword with
  | comment =>
      rcases Token.exists_cons_of_kinds_eq hkinds with ⟨⟨_, text, span⟩, _, rfl, rfl, hleft⟩
      rw [List.map_eq_nil_iff.mp hleft]
      exact ⟨.comment span text, rfl⟩
  | definition hpattern hbody =>
      rcases Token.exists_cons_of_kinds_eq hkinds with ⟨⟨_, name, span⟩, _, rfl, rfl, hoperands⟩
      rcases Token.exists_append_of_kinds_eq hoperands with ⟨pattern, _, rfl, rfl, hbars⟩
      rcases Token.exists_cons_of_kinds_eq hbars with ⟨bar, body, rfl, hbar, rfl⟩
      rcases read_operand hpattern fin .operand (bar :: (body ++ next :: rest)) with ⟨p, hp⟩
      rcases read_operand hbody fin .operand (next :: rest) with ⟨b, hb⟩
      refine ⟨.definition (span.join b.span) name p b, ?_⟩
      simp only [List.cons_append, List.append_assoc, statement]
      rw [hp]
      change (expect fin .pipe (.token .pipe) (bar :: (body ++ next :: rest)) >>= _) = _
      rw [expect_of_kind hbar]
      change (operand fin .operand (body ++ next :: rest) >>= _) = _
      rw [hb]
      rfl
  | plain hsource =>
      rw [← hkinds] at hsource
      rcases read_source hsource fin (ne_leftBracket_of_separates hnext) rest with ⟨s, hs⟩
      exact ⟨.expression (.plain s),
        statement_of_expression (expression_of_source hs (ne_pipe_of_separates hnext))⟩
  | piped hsource =>
      rcases Token.exists_append_of_kinds_eq hkinds with ⟨sourceWord, _, rfl, rfl, hbars⟩
      rcases Token.exists_cons_of_kinds_eq hbars with ⟨⟨_, bar, barSpan⟩, _, rfl, rfl, htargets⟩
      rcases Token.exists_cons_of_kinds_eq htargets with ⟨target, _, rfl, htarget, hleft⟩
      rw [List.map_eq_nil_iff.mp hleft]
      have hbar : (⟨.pipe, bar, barSpan⟩ : Token).kind ≠ .leftBracket := by
        exact TokenKind.noConfusion
      rcases read_source hsource fin hbar (target :: next :: rest) with ⟨s, hs⟩
      refine ⟨.expression (.pipe s ⟨target.span, target.value⟩), ?_⟩
      apply statement_of_expression
      rw [List.append_assoc]
      unfold expression
      change (source fin (sourceWord ++ ⟨.pipe, bar, barSpan⟩ :: target :: next :: rest) >>= _) = _
      rw [hs]
      change (expect fin .macroRef (.token .macroRef) (target :: next :: rest) >>= _) = _
      rw [expect_of_kind htarget]
      rfl

/-- Line ends and closings begin no statement, so a block goes on with what
follows the statement at its front. -/
theorem statements_of_statement {fin opening : Span} {tokens : List Token}
    {s : Statement} {rest : List Token} (h : statement fin tokens = .ok (s, rest))
    (hends : endsStatement rest = true) :
    statements fin opening tokens = do
      let (more, closing, rest) ← statements fin opening rest
      return (s :: more, closing, rest) := by
  rw [statements.eq_def]
  split
  · cases h
  · cases h
  · cases h
  · split
    · rename_i heq
      rw [h] at heq
      cases heq
    · rename_i heq
      rw [h] at heq
      cases heq
      rw [if_pos hends]

theorem read_statements {word : List Token} (hword : ClosesBlock (Token.kinds word))
    (fin opening : Span) (rest : List Token) :
    ∃ ss closing, statements fin opening (word ++ rest) = .ok (ss, closing, rest) := by
  generalize hkinds : Token.kinds word = kinds at hword
  induction hword generalizing word with
  | close =>
      rcases Token.exists_cons_of_kinds_eq hkinds with ⟨⟨_, _, span⟩, _, rfl, rfl, hleft⟩
      rw [List.map_eq_nil_iff.mp hleft]
      refine ⟨[], span, ?_⟩
      rw [List.cons_append, List.nil_append, statements]
  | newline hinside ih =>
      rcases Token.exists_cons_of_kinds_eq hkinds with ⟨⟨_, _, _⟩, inside, rfl, rfl, hleft⟩
      rcases ih hleft with ⟨ss, closing, hss⟩
      refine ⟨ss, closing, ?_⟩
      rw [List.cons_append, statements]
      exact hss
  | statement hstatement hnext _ ih =>
      rcases Token.exists_append_of_kinds_eq hkinds with ⟨first, left, rfl, rfl, hleft⟩
      rcases ih hleft with ⟨more, closing, hmore⟩
      rcases Token.exists_cons_of_kinds_eq hleft with ⟨next, inside, rfl, rfl, _⟩
      rcases read_statement hstatement fin hnext (inside ++ rest) with ⟨s, hs⟩
      refine ⟨s :: more, closing, ?_⟩
      rw [List.append_assoc, List.cons_append,
        statements_of_statement hs (endsStatement_of_separates hnext _), ← List.cons_append,
        hmore]
      rfl

theorem read_items {word : List Token} (hword : IsDocument (Token.kinds word))
    (fin : Span) (index : Nat) : ∃ is, items fin index word = .ok is := by
  generalize hkinds : Token.kinds word = kinds at hword
  induction hword generalizing word index with
  | empty =>
      rw [List.map_eq_nil_iff.mp hkinds]
      refine ⟨[], ?_⟩
      rw [items]
  | hostText _ ih =>
      rcases Token.exists_cons_of_kinds_eq hkinds with ⟨⟨_, text, span⟩, _, rfl, rfl, hleft⟩
      rcases ih index hleft with ⟨more, hmore⟩
      refine ⟨.hostText span text :: more, ?_⟩
      rw [items, hmore]
      rfl
  | block hinside _ ih =>
      rcases Token.exists_cons_of_kinds_eq hkinds with ⟨⟨_, _, opening⟩, _, rfl, rfl, hleft⟩
      rcases Token.exists_append_of_kinds_eq hleft with ⟨inside, rest, rfl, rfl, hrest⟩
      rcases read_statements hinside fin opening rest with ⟨ss, closing, hss⟩
      rcases ih (index + 1) hrest with ⟨more, hmore⟩
      refine ⟨.block ⟨opening.join closing, index, ss⟩ :: more, ?_⟩
      rw [items]
      split
      · rename_i heq
        rw [hss] at heq
        cases heq
      · rename_i heq
        rw [hss] at heq
        cases heq
        rw [hmore]
        rfl

/-! ## Numbering -/

theorem index_of_items {fin : Span} {index : Nat} {tokens : List Token}
    {is : List Item} (h : items fin index tokens = .ok is) (span : Span) :
    (Document.mk span is).blocks.map Block.index =
      List.range' index (Document.mk span is).blocks.length := by
  fun_induction items fin index tokens generalizing is with
  | case1 =>
      cases h
      rfl
  | case2 index text hostSpan rest ih =>
      rcases ok_of_bind h with ⟨more, hmore, hend⟩
      cases hend
      have hnumbered := ih hmore
      exact hnumbered
  | case3 => cases h
  | case4 index value opening tokens ss closing left hss ih =>
      rcases ok_of_bind h with ⟨more, hmore, hend⟩
      cases hend
      have hblocks : (Document.mk span (.block ⟨opening.join closing, index, ss⟩ :: more)).blocks =
          ⟨opening.join closing, index, ss⟩ :: (Document.mk span more).blocks := rfl
      rw [hblocks, List.map_cons, ih hmore, List.length_cons, List.range'_succ]
  | case5 => cases h

end Parse

/-! ## Documents -/

namespace Document

theorem significant_append {before : List Token} {eof : Token}
    (hbefore : ∀ token ∈ before, token.kind ≠ .endOfInput)
    (heof : eof.kind = .endOfInput) (after : List Token) :
    significant (before ++ eof :: after) = before := by
  rw [significant, List.takeWhile_append_of_pos]
  · simp [heof]
  · intro token htoken
    simpa using hbefore token htoken

theorem endSpan_append {before : List Token} {eof : Token}
    (hbefore : ∀ token ∈ before, token.kind ≠ .endOfInput)
    (heof : eof.kind = .endOfInput) (after : List Token) :
    endSpan (before ++ eof :: after) = eof.span := by
  have hnone : before.find? (·.kind == .endOfInput) = none := by
    rw [List.find?_eq_none]
    intro token htoken
    simpa using hbefore token htoken
  simp [endSpan, List.find?_append, hnone, heof]

/-- Reading a document is reading its items from the tokens before the first end
of input. -/
theorem read_append {before : List Token} {eof : Token}
    (hbefore : ∀ token ∈ before, token.kind ≠ .endOfInput)
    (heof : eof.kind = .endOfInput) (after : List Token) :
    read (before ++ eof :: after) = do
      let items ← Parse.items eof.span 0 before
      return ⟨⟨0, eof.span.stop, 1, 1⟩, items⟩ := by
  rw [read, significant_append hbefore heof, endSpan_append hbefore heof]

theorem read_of_ofTokens {tokens : List Token} {document : Document}
    (h : ofTokens tokens = .ok document) : read tokens = .ok document := by
  unfold ofTokens at h
  cases hread : read tokens with
  | error r =>
      rw [hread] at h
      cases h
  | ok d =>
      rw [hread] at h
      cases h
      rfl

/-- The blocks of a document that was read are numbered from zero. -/
theorem index_of_read {tokens : List Token} {document : Document}
    (h : read tokens = .ok document) :
    document.blocks.map Block.index = List.range document.blocks.length := by
  rcases ok_of_bind h with ⟨items, hitems, hend⟩
  cases hend
  rw [List.range_eq_range']
  exact Parse.index_of_items hitems _

/-- The reader of documents accepts exactly the grammar, and what it reads is the
tokens before the first end of input, but for the line ends. -/
theorem ofTokens_exactly_grammar (before : List Token) (eof : Token) (after : List Token)
    (hbefore : ∀ token ∈ before, token.kind ≠ .endOfInput)
    (heof : eof.kind = .endOfInput) :
    ((∃ document, ofTokens (before ++ eof :: after) = .ok document) ↔
        Grammar.IsDocument (Token.kinds before)) ∧
      (∀ document, ofTokens (before ++ eof :: after) = .ok document →
        document.symbols = Token.symbols before ∧
          document.blocks.map Block.index = List.range document.blocks.length) ∧
      (¬ Grammar.IsDocument (Token.kinds before) →
        ∃ error : SyntaxError, ofTokens (before ++ eof :: after) = .error error) ∧
      (∀ others, ofTokens (before ++ eof :: others) = ofTokens (before ++ eof :: after)) := by
  have haccepted : ∀ document, ofTokens (before ++ eof :: after) = .ok document →
      Grammar.IsDocument (Token.kinds before) ∧ document.symbols = Token.symbols before := by
    intro document hdocument
    have hread := read_of_ofTokens hdocument
    rw [read_append hbefore heof] at hread
    rcases ok_of_bind hread with ⟨items, hitems, hend⟩
    cases hend
    rcases Parse.takes_items hitems with ⟨word, hword, hgrammar, hsymbols⟩
    rw [List.append_nil] at hword
    rw [hword]
    exact ⟨hgrammar, hsymbols.symm⟩
  have hiff : (∃ document, ofTokens (before ++ eof :: after) = .ok document) ↔
      Grammar.IsDocument (Token.kinds before) := by
    constructor
    · rintro ⟨document, hdocument⟩
      exact (haccepted document hdocument).1
    · intro hgrammar
      rcases Parse.read_items hgrammar eof.span 0 with ⟨items, hitems⟩
      refine ⟨⟨⟨0, eof.span.stop, 1, 1⟩, items⟩, ?_⟩
      rw [ofTokens, read_append hbefore heof, hitems]
      rfl
  refine ⟨hiff, ?_, ?_, ?_⟩
  · intro document hdocument
    exact ⟨(haccepted document hdocument).2, index_of_read (read_of_ofTokens hdocument)⟩
  · intro hgrammar
    cases hresult : ofTokens (before ++ eof :: after) with
    | error e => exact ⟨e, rfl⟩
    | ok document => exact absurd (hiff.mp ⟨document, hresult⟩) hgrammar
  · intro others
    rw [ofTokens, ofTokens, read_append hbefore heof, read_append hbefore heof]

/-- An array piped into a macro is read; the error after the end of the input is
not. -/
theorem reads_array_pipe :
    let s : Span := ⟨0, 0, 1, 1⟩
    let before : List Token :=
      [⟨.blockOpen, "", s⟩, ⟨.newline, "", s⟩, ⟨.identifier, "a", s⟩, ⟨.leftBracket, "", s⟩,
        ⟨.colon, "", s⟩, ⟨.rightBracket, "", s⟩, ⟨.pipe, "", s⟩, ⟨.macroRef, "m", s⟩,
        ⟨.blockClose, "", s⟩]
    let eof : Token := ⟨.endOfInput, "", s⟩
    (∀ token ∈ before, token.kind ≠ .endOfInput) ∧ eof.kind = .endOfInput ∧
      ∃ document, ofTokens (before ++ eof :: [⟨.error, "", s⟩]) = .ok document ∧
        document.symbols = Token.symbols before := by
  intro s before eof
  have hbefore : ∀ token ∈ before, token.kind ≠ .endOfInput := by decide
  have hinside : Grammar.ClosesBlock (Token.kinds before.tail) :=
    .newline (.statement (.piped .array) .blockClose .close)
  have hgrammar : Grammar.IsDocument (.blockOpen :: (Token.kinds before.tail ++ [])) :=
    .block hinside .empty
  rcases ofTokens_exactly_grammar before eof [⟨.error, "", s⟩] hbefore rfl with
    ⟨haccepts, hread, _, _⟩
  rcases haccepts.mpr hgrammar with ⟨document, hdocument⟩
  exact ⟨hbefore, rfl, document, hdocument, (hread document hdocument).1⟩

end Document
end Stencil
