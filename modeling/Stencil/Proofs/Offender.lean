import Stencil.Proofs.Continuing

/-!
# The first token that does not fit

Tokens are refused at the first one that no document goes on with.  What stands before
that token is the beginning of a document, and whatever begins with what stands before
it and with the token itself is refused there as well.

The error is about that token.  Only where the input ends in a block, and all of its
statements are complete, the error is about the opening of the block.
-/

namespace Stencil
namespace Grammar

/-- What was read of a word can be completed to one. -/
def Viable (P : List TokenKind → Prop) (front : List TokenKind) : Prop :=
  ∃ more, P (front ++ more)

/-- The kinds of tokens that a block may hold, its closing among them. -/
def ofBlock : List TokenKind :=
  [.identifier, .string, .comment, .macroDef, .macroRef, .pipe, .leftBracket, .rightBracket,
    .colon, .newline, .blockClose]

theorem IsOperand.subset_ofBlock {word : List TokenKind} (h : IsOperand word) :
    word ⊆ ofBlock := by
  cases h with
  | string => decide
  | identifier => decide

theorem IsSource.subset_ofBlock {word : List TokenKind} (h : IsSource word) :
    word ⊆ ofBlock := by
  cases h with
  | operand ho => exact ho.subset_ofBlock
  | array => decide

theorem IsStatement.subset_ofBlock {word : List TokenKind} (h : IsStatement word) :
    word ⊆ ofBlock := by
  cases h with
  | comment => decide
  | definition hpattern hbody =>
      exact List.cons_subset.mpr ⟨by decide, List.append_subset.mpr
        ⟨hpattern.subset_ofBlock, List.cons_subset.mpr ⟨by decide, hbody.subset_ofBlock⟩⟩⟩
  | plain hs => exact hs.subset_ofBlock
  | piped hs => exact List.append_subset.mpr ⟨hs.subset_ofBlock, by decide⟩

theorem ClosesBlock.subset_ofBlock {word : List TokenKind} (h : ClosesBlock word) :
    word ⊆ ofBlock := by
  induction h with
  | close => decide
  | newline _ ih => exact List.cons_subset.mpr ⟨by decide, ih⟩
  | statement hword _ _ ih => exact List.append_subset.mpr ⟨hword.subset_ofBlock, ih⟩

theorem IsDocument.endOfInput_notMem {word : List TokenKind} (h : IsDocument word) :
    .endOfInput ∉ word := by
  induction h with
  | empty => exact List.not_mem_nil
  | hostText _ ih => simpa using ih
  | block hinside _ ih =>
      have hnot : TokenKind.endOfInput ∉ ofBlock := by decide
      simp only [List.mem_cons, List.mem_append, not_or]
      exact ⟨nofun, fun hmem => hnot (hinside.subset_ofBlock hmem), ih⟩

theorem IsDocument.append {word other : List TokenKind} (h : IsDocument word)
    (hother : IsDocument other) : IsDocument (word ++ other) := by
  induction h with
  | empty => exact hother
  | hostText _ ih => exact .hostText ih
  | block hinside _ ih =>
      rw [List.cons_append, List.append_assoc]
      exact .block hinside ih

end Grammar

namespace Parse

open Grammar

variable {α : Type} {fin : Span} {tokens left rest : List Token} {next : Token}

/-! ## What is taken, whatever follows -/

/-- A reader takes `word` where `next` stands after it, whatever comes after that. -/
structure Settles (P : List TokenKind → Prop)
    (read : Span → List Token → Except Rejection (α × List Token)) (a : α)
    (word : List Token) (next : Token) : Prop where
  grammar : P (Token.kinds word)
  taken : ∀ fin left, read fin (word ++ next :: left) = .ok (a, next :: left)

/-- An operand is one token, which is taken whatever follows it. -/
theorem operand_settles {expected : Expected} {o : Operand}
    (h : operand fin expected tokens = .ok (o, rest)) :
    ∃ token, tokens = token :: rest ∧ IsOperand [token.kind] ∧
      ∀ fin others, operand fin expected (token :: others) = .ok (o, others) := by
  unfold operand at h
  split at h
  · cases h
    exact ⟨⟨.string, _, _⟩, rfl, .string, fun _ _ => rfl⟩
  · cases h
    exact ⟨⟨.identifier, _, _⟩, rfl, .identifier, fun _ _ => rfl⟩
  · cases h

theorem source_settles {s : Source} (h : source fin tokens = .ok (s, next :: left)) :
    ∃ word, tokens = word ++ next :: left ∧ Settles IsSource source s word next := by
  unfold source at h
  split at h
  · rename_i name span bracket bracketSpan more
    rcases ok_of_bind h with ⟨⟨colon, afterColon⟩, hcolon, hleft⟩
    rcases ok_of_bind hleft with ⟨⟨closing, afterClosing⟩, hclosing, hend⟩
    rcases of_expect_ok hcolon with ⟨rfl, hcolonKind⟩
    rcases of_expect_ok hclosing with ⟨rfl, hclosingKind⟩
    cases hend
    refine ⟨[⟨.identifier, name, span⟩, ⟨.leftBracket, bracket, bracketSpan⟩,
      colon, closing], rfl, ?_, ?_⟩
    · simp only [Token.kinds, List.map_cons, List.map_nil, hcolonKind, hclosingKind]
      exact .array
    · intro fin' others
      exact (bind_of_eq_ok (expect_of_kind hcolonKind _) _).trans
        (bind_of_eq_ok (expect_of_kind hclosingKind _) _)
  · rename_i hbracket
    rcases ok_of_bind h with ⟨⟨o, others⟩, ho, hend⟩
    cases hend
    rcases operand_settles ho with ⟨token, rfl, hword, htaken⟩
    refine ⟨[token], rfl, .operand hword, ?_⟩
    intro fin' others
    rw [List.singleton_append]
    unfold source
    split
    · -- The bracket of an array would be the token after the operand.
      rename_i heq
      cases heq
      exact (hbracket _ _ _ _ _ rfl).elim
    · exact bind_of_eq_ok (htaken fin' _) _

theorem expression_settles {e : Expression}
    (h : expression fin tokens = .ok (e, next :: left)) :
    ∃ word, tokens = word ++ next :: left ∧ Settles IsStatement expression e word next := by
  rcases ok_of_bind h with ⟨⟨s, rest⟩, hs, hrest⟩
  dsimp only at hrest
  split at hrest
  · rename_i bar barSpan more
    rcases source_settles hs with ⟨word, rfl, hsource⟩
    rcases ok_of_bind hrest with ⟨⟨target, afterTarget⟩, htarget, hend⟩
    rcases of_expect_ok htarget with ⟨rfl, htargetKind⟩
    cases hend
    refine ⟨word ++ [⟨.pipe, bar, barSpan⟩, target], ?_, ?_, ?_⟩
    · rw [List.append_assoc]
      rfl
    · rw [Token.kinds_append]
      simp only [Token.kinds, List.map_cons, List.map_nil, htargetKind]
      exact .piped hsource.grammar
    · intro fin' others
      rw [List.append_assoc]
      exact (bind_of_eq_ok (hsource.taken fin' _) _).trans
        (bind_of_eq_ok (expect_of_kind htargetKind _) _)
  · rename_i hpipe
    cases hrest
    rcases source_settles hs with ⟨word, rfl, hsource⟩
    refine ⟨word, rfl, .plain hsource.grammar, ?_⟩
    intro fin' others
    refine (bind_of_eq_ok (hsource.taken fin' others) _).trans ?_
    dsimp only
    split
    · rename_i heq
      cases heq
      exact (hpipe _ _ _ rfl).elim
    · rfl

theorem statement_settles {s : Statement}
    (h : statement fin tokens = .ok (s, next :: left)) :
    ∃ word, tokens = word ++ next :: left ∧ Settles IsStatement statement s word next := by
  unfold statement at h
  split at h
  · cases h
    exact ⟨[⟨.comment, _, _⟩], rfl, .comment, fun _ _ => rfl⟩
  · rename_i name span more
    rcases ok_of_bind h with ⟨⟨pattern, afterPattern⟩, hpattern, hrest⟩
    rcases ok_of_bind hrest with ⟨⟨bar, afterBar⟩, hbar, hlast⟩
    rcases ok_of_bind hlast with ⟨⟨body, afterBody⟩, hbody, hend⟩
    rcases operand_settles hpattern with ⟨first, rfl, hfirst, hpatternTaken⟩
    rcases of_expect_ok hbar with ⟨rfl, hbarKind⟩
    rcases operand_settles hbody with ⟨second, rfl, hsecond, hbodyTaken⟩
    cases hend
    refine ⟨[⟨.macroDef, name, span⟩, first, bar, second], rfl, ?_, ?_⟩
    · simp only [Token.kinds, List.map_cons, List.map_nil, hbarKind]
      exact .definition hfirst hsecond
    · intro fin' others
      exact (bind_of_eq_ok (hpatternTaken fin' _) _).trans
        ((bind_of_eq_ok (expect_of_kind hbarKind _) _).trans
          (bind_of_eq_ok (hbodyTaken fin' _) _))
  · rcases ok_of_bind h with ⟨⟨e, rest⟩, he, hend⟩
    cases hend
    rcases expression_settles he with ⟨word, rfl, hexpression⟩
    exact ⟨word, rfl, hexpression.grammar, fun fin' others =>
      statement_of_expression (hexpression.taken fin' others)⟩

/-! ## What is refused, whatever follows -/

/-- The tokens that are refused in the place of the first one of some tokens: that one,
or, where there is none, the closing of a block. -/
inductive Offends : List Token → Token → Prop where
  | first (token : Token) (others : List Token) : Offends (token :: others) token
  | closing {token : Token} (h : token.kind = .blockClose) : Offends [] token

/-- Reading stopped after `word`, which a word of the grammar `P` begins with, and it
stops there with the same error for every token that offends. -/
structure Stops (P : List TokenKind → Prop) (read : Span → List Token → Except Rejection α)
    (fin : Span) (word : List Token) (expected : Expected) (r : Rejection) : Prop where
  error : r.error = .unexpected (peek fin r.rest) expected
  viable : Viable P (Token.kinds word)
  refused : ∀ {token}, Offends r.rest token → ∀ fin left,
    read fin (word ++ token :: left) = .error ⟨.unexpected token expected, token :: left⟩

/-- Reading some tokens stopped somewhere. -/
def Stopped (P : List TokenKind → Prop) (read : Span → List Token → Except Rejection α)
    (fin : Span) (tokens : List Token) (r : Rejection) : Prop :=
  ∃ word expected, tokens = word ++ r.rest ∧ Stops P read fin word expected r

/-- What stops one reader stops another one that first takes `front`, and reads on with it. -/
theorem Stopped.within {β : Type} {P P' : List TokenKind → Prop}
    {read : Span → List Token → Except Rejection α}
    {read' : Span → List Token → Except Rejection β} (front : List Token)
    (hword : ∀ word, P word → P' (Token.kinds front ++ word))
    (hread : ∀ fin tokens r, read fin tokens = .error r → read' fin (front ++ tokens) = .error r)
    {r : Rejection} (h : Stopped P read fin tokens r) :
    Stopped P' read' fin (front ++ tokens) r := by
  rcases h with ⟨word, expected, rfl, hstops⟩
  rcases hstops.viable with ⟨more, hmore⟩
  refine ⟨front ++ word, expected, (List.append_assoc _ _ _).symm, hstops.error, ⟨more, ?_⟩, ?_⟩
  · rw [Token.kinds_append, List.append_assoc]
    exact hword _ hmore
  · intro token hoffends fin' others
    rw [List.append_assoc]
    exact hread _ _ _ (hstops.refused hoffends fin' others)

theorem expect_refuses {kind : TokenKind} {expected : Expected} {r : Rejection}
    (h : expect fin kind expected tokens = .error r) (hkind : kind ≠ .blockClose) :
    r = ⟨.unexpected (peek fin tokens) expected, tokens⟩ ∧
      ∀ {token}, Offends tokens token → ∀ fin left,
        expect fin kind expected (token :: left) =
          .error ⟨.unexpected token expected, token :: left⟩ := by
  cases tokens with
  | nil =>
      cases h
      refine ⟨rfl, ?_⟩
      intro token hoffends fin' left
      cases hoffends with
      | closing hclose => exact if_neg (hclose ▸ hkind.symm)
  | cons first others =>
      simp only [expect] at h
      split at h
      · cases h
      · rename_i hfirst
        cases h
        refine ⟨rfl, ?_⟩
        rintro token ⟨⟩ fin' left
        exact if_neg hfirst

theorem operand_refuses {expected : Expected} {r : Rejection}
    (h : operand fin expected tokens = .error r) :
    r = ⟨.unexpected (peek fin tokens) expected, tokens⟩ ∧
      ∀ {token}, Offends tokens token → ∀ fin left,
        operand fin expected (token :: left) =
          .error ⟨.unexpected token expected, token :: left⟩ := by
  unfold operand at h
  split at h
  · cases h
  · cases h
  · rename_i hstring hidentifier
    cases h
    refine ⟨rfl, ?_⟩
    rintro token hoffends fin' left
    unfold operand
    split
    · rename_i heq
      cases heq
      cases hoffends with
      | first => exact (hstring _ _ _ rfl).elim
      | closing hclose => cases hclose
    · rename_i heq
      cases heq
      cases hoffends with
      | first => exact (hidentifier _ _ _ rfl).elim
      | closing hclose => cases hclose
    · rfl

theorem source_stops {r : Rejection} (h : source fin tokens = .error r) :
    Stopped IsSource source fin tokens r := by
  unfold source at h
  split at h
  · rename_i name span bracket bracketSpan more
    rcases error_of_bind h with hcolon | ⟨⟨colon, afterColon⟩, hcolon, hrest⟩
    · rcases expect_refuses hcolon nofun with ⟨rfl, hrefused⟩
      refine ⟨[⟨.identifier, name, span⟩, ⟨.leftBracket, bracket, bracketSpan⟩], _, rfl, rfl,
        ⟨[.colon, .rightBracket], .array⟩, ?_⟩
      intro token hoffends fin' others
      exact bind_of_eq_error (hrefused hoffends fin' others) _
    · rcases error_of_bind hrest with hclosing | ⟨_, _, hend⟩
      · rcases of_expect_ok hcolon with ⟨rfl, hcolonKind⟩
        rcases expect_refuses hclosing nofun with ⟨rfl, hrefused⟩
        refine ⟨[⟨.identifier, name, span⟩, ⟨.leftBracket, bracket, bracketSpan⟩, colon], _,
          rfl, rfl, ⟨[.rightBracket], ?_⟩, ?_⟩
        · simp only [Token.kinds, List.map_cons, List.map_nil, hcolonKind]
          exact .array
        · intro token hoffends fin' others
          exact (bind_of_eq_ok (expect_of_kind hcolonKind _) _).trans
            (bind_of_eq_error (hrefused hoffends fin' others) _)
      · cases hend
  · rcases error_of_bind h with ho | ⟨_, _, hend⟩
    · rcases operand_refuses ho with ⟨rfl, hrefused⟩
      refine ⟨[], _, rfl, rfl, ⟨[.identifier], .operand .identifier⟩, ?_⟩
      intro token hoffends fin' others
      have hoperand := hrefused hoffends fin' others
      rw [List.nil_append]
      unfold source
      split
      · rename_i heq
        cases heq
        cases hoperand
      · exact bind_of_eq_error hoperand _
    · cases hend

theorem expression_stops {r : Rejection} (h : expression fin tokens = .error r) :
    Stopped IsStatement expression fin tokens r := by
  rcases error_of_bind h with hs | ⟨⟨s, rest⟩, hs, hrest⟩
  · exact (source_stops hs).within [] (fun _ => .plain) fun _ _ _ hread =>
      bind_of_eq_error hread _
  · dsimp only at hrest
    split at hrest
    · rename_i bar barSpan more
      rcases source_settles hs with ⟨word, rfl, hsource⟩
      rcases error_of_bind hrest with htarget | ⟨_, _, hend⟩
      · rcases expect_refuses htarget nofun with ⟨rfl, hrefused⟩
        refine ⟨word ++ [⟨.pipe, bar, barSpan⟩], _, by simp, rfl, ⟨[.macroRef], ?_⟩, ?_⟩
        · rw [Token.kinds_append, List.append_assoc]
          exact .piped hsource.grammar
        · intro token hoffends fin' others
          rw [List.append_assoc]
          exact (bind_of_eq_ok (hsource.taken fin' _) _).trans
            (bind_of_eq_error (hrefused hoffends fin' others) _)
      · cases hend
    · cases hrest

/-- With what offends in its place, a list of tokens begins as it did before, unless it
was empty. -/
theorem Offends.begins {word : List Token} {token first : Token}
    (hoffends : Offends rest token) (h : word ++ rest = first :: tokens) (left : List Token) :
    ∃ others, word ++ token :: left = first :: others := by
  cases word with
  | cons head word =>
      cases h
      exact ⟨_, rfl⟩
  | nil =>
      cases hoffends with
      | first =>
          cases h
          exact ⟨left, rfl⟩
      | closing => cases h

theorem Offends.reverts {word : List Token} {token first : Token}
    (hoffends : Offends rest token) (h : word ++ token :: left = first :: tokens)
    (hkind : first.kind ≠ .blockClose) : ∃ others, word ++ rest = first :: others := by
  cases word with
  | cons head word =>
      cases h
      exact ⟨_, rfl⟩
  | nil =>
      cases h
      cases hoffends with
      | first _ others => exact ⟨others, rfl⟩
      | closing hclose => exact absurd hclose hkind

theorem statement_stops {r : Rejection} (h : statement fin tokens = .error r) :
    Stopped IsStatement statement fin tokens r := by
  unfold statement at h
  split at h
  · cases h
  · rename_i name span more
    have hviable : ∀ {pattern : TokenKind}, IsOperand [pattern] →
        IsStatement [.macroDef, pattern, .pipe, .identifier] :=
      fun hpattern => .definition hpattern .identifier
    rcases error_of_bind h with hpattern | ⟨⟨pattern, afterPattern⟩, hpattern, hrest⟩
    · rcases operand_refuses hpattern with ⟨rfl, hrefused⟩
      refine ⟨[⟨.macroDef, name, span⟩], _, rfl, rfl,
        ⟨[.identifier, .pipe, .identifier], hviable .identifier⟩, ?_⟩
      intro token hoffends fin' others
      exact bind_of_eq_error (hrefused hoffends fin' others) _
    · rcases operand_settles hpattern with ⟨first, rfl, hfirst, hpatternTaken⟩
      rcases error_of_bind hrest with hbar | ⟨⟨bar, afterBar⟩, hbar, hlast⟩
      · rcases expect_refuses hbar nofun with ⟨rfl, hrefused⟩
        refine ⟨[⟨.macroDef, name, span⟩, first], _, rfl, rfl,
          ⟨[.pipe, .identifier], hviable hfirst⟩, ?_⟩
        intro token hoffends fin' others
        exact (bind_of_eq_ok (hpatternTaken fin' _) _).trans
          (bind_of_eq_error (hrefused hoffends fin' others) _)
      · rcases of_expect_ok hbar with ⟨rfl, hbarKind⟩
        rcases error_of_bind hlast with hbody | ⟨_, _, hend⟩
        · rcases operand_refuses hbody with ⟨rfl, hrefused⟩
          refine ⟨[⟨.macroDef, name, span⟩, first, bar], _, rfl, rfl,
            ⟨[.identifier], ?_⟩, ?_⟩
          · simp only [Token.kinds, List.map_cons, List.map_nil, hbarKind]
            exact hviable hfirst
          · intro token hoffends fin' others
            exact (bind_of_eq_ok (hpatternTaken fin' _) _).trans
              ((bind_of_eq_ok (expect_of_kind hbarKind _) _).trans
                (bind_of_eq_error (hrefused hoffends fin' others) _))
        · cases hend
  · rename_i hcomment hdefinition
    rcases error_of_bind h with he | ⟨_, _, hend⟩
    · rcases expression_stops he with ⟨word, expected, rfl, hstops⟩
      refine ⟨word, expected, rfl, hstops.error, hstops.viable, ?_⟩
      intro token hoffends fin' others
      have hexpression := hstops.refused hoffends fin' others
      unfold statement
      split
      · rename_i heq
        have hkind : TokenKind.comment ≠ .blockClose := by decide
        rcases hoffends.reverts heq hkind with ⟨left, hleft⟩
        exact (hcomment _ _ _ hleft).elim
      · rename_i heq
        have hkind : TokenKind.macroDef ≠ .blockClose := by decide
        rcases hoffends.reverts heq hkind with ⟨left, hleft⟩
        exact (hdefinition _ _ _ hleft).elim
      · exact bind_of_eq_error hexpression _
    · cases hend

/-! ## Blocks -/

/-- A block goes on to the end of the tokens, and its statements are complete: it could
be closed there. -/
def Open (tokens : List Token) : Prop :=
  ClosesBlock (Token.kinds tokens ++ [.blockClose])

theorem Open.after {word : List Token} (hword : IsStatement (Token.kinds word))
    (hends : endsStatement rest = true) (hopen : Open rest) : Open (word ++ rest) := by
  rw [Open, Token.kinds_append, List.append_assoc]
  rcases separates_of_endsStatement hends with rfl | ⟨next, others, rfl, hnext⟩
  · exact .statement hword .blockClose hopen
  · exact .statement hword hnext hopen

/-- What may stand after a statement begins the rest of a block. -/
theorem statements_of_separates (h : Separates next.kind) (fin opening : Span) :
    ∃ result, statements fin opening [next, ⟨.blockClose, "", fin⟩] = .ok result := by
  let closing : Token := ⟨.blockClose, "", fin⟩
  rcases next with ⟨kind, value, span⟩
  cases h with
  | newline =>
      have hword : ClosesBlock (Token.kinds [⟨.newline, value, span⟩, closing]) := .newline .close
      rcases read_statements hword fin opening [] with ⟨ss, last, hss⟩
      exact ⟨_, hss⟩
  | comment =>
      have hword : ClosesBlock (Token.kinds [⟨.comment, value, span⟩, closing]) :=
        .statement .comment .blockClose .close
      rcases read_statements hword fin opening [] with ⟨ss, last, hss⟩
      exact ⟨_, hss⟩
  | blockClose =>
      have hword : ClosesBlock (Token.kinds [⟨.blockClose, value, span⟩]) := .close
      rcases read_statements hword fin opening [closing] with ⟨ss, last, hss⟩
      exact ⟨_, hss⟩

theorem statements_stops {opening : Span} {r : Rejection}
    (h : statements fin opening tokens = .error r) :
    (r = ⟨.unclosedBlock opening, []⟩ ∧ Open tokens) ∨
      Stopped ClosesBlock (fun fin => statements fin opening) fin tokens r := by
  fun_induction statements fin opening tokens with
  | case1 =>
      cases h
      exact .inl ⟨rfl, .close⟩
  | case2 value span rest ih =>
      rcases ih h with ⟨hr, hopen⟩ | hstopped
      · exact .inl ⟨hr, .newline hopen⟩
      · right
        refine hstopped.within [⟨.newline, value, span⟩] (fun _ => .newline) ?_
        intro fin' others r' hread
        rw [List.singleton_append, statements]
        exact hread
  | case3 => cases h
  | case4 token tokens hnewline hclose r hs =>
      cases h
      rcases statement_stops hs with ⟨word, expected, htokens, hstops⟩
      rcases hstops.viable with ⟨more, hmore⟩
      refine .inr ⟨word, expected, htokens, hstops.error, ⟨more ++ [.blockClose], ?_⟩, ?_⟩
      · rw [← List.append_assoc]
        exact .statement hmore .blockClose .close
      · intro token' hoffends fin' others
        have hstatement := hstops.refused hoffends fin' others
        rcases hoffends.begins htokens.symm others with ⟨tail, htail⟩
        rw [htail] at hstatement ⊢
        rw [statements_of_ne _ _ _ (kind_ne_of_ne hnewline) (kind_ne_of_ne hclose)]
        exact bind_of_eq_error hstatement _
  | case5 token tokens hnewline hclose s rest hs hends ih =>
      rcases error_of_bind h with hrest | ⟨_, _, hend⟩
      · rcases ih hrest with ⟨hr, hopen⟩ | ⟨inner, expected, hinner, hstops⟩
        · rcases takes_statement hs with ⟨word, htokens, hword, _⟩
          rw [htokens]
          exact .inl ⟨hr, hopen.after hword hends⟩
        · right
          rcases separates_of_endsStatement hends with rfl | ⟨next, left, rfl, hnext⟩
          · -- Nothing is left to be refused.
            rw [statements] at hrest
            cases hrest
            cases hstops.error
          · rcases statement_settles hs with ⟨word, htokens, hsettles⟩
            rcases hstops.viable with ⟨more, hmore⟩
            cases inner with
            | nil =>
                rcases statements_of_separates hnext fin opening with ⟨result, hresult⟩
                have hfirst : Offends r.rest next :=
                  (show next :: left = r.rest from hinner) ▸ .first next left
                have hrefused := hstops.refused hfirst fin [⟨.blockClose, "", fin⟩]
                rw [List.nil_append, hresult] at hrefused
                cases hrefused
            | cons first inner =>
                cases hinner
                refine ⟨word ++ next :: inner, expected, ?_, hstops.error, ⟨more, ?_⟩, ?_⟩
                · rw [htokens, List.append_assoc]
                  rfl
                · rw [Token.kinds_append, List.append_assoc]
                  exact .statement hsettles.grammar hnext hmore
                · intro token' hoffends fin' others
                  have htaken := hsettles.taken fin' (inner ++ token' :: others)
                  rw [List.append_assoc]
                  exact (statements_of_statement htaken hends).trans
                    (bind_of_eq_error (hstops.refused hoffends fin' others) _)
      · cases hend
  | case6 token tokens hnewline hclose s rest hs hends =>
      cases rest with
      | nil => exact absurd rfl hends
      | cons next left =>
          cases h
          rcases statement_settles hs with ⟨word, htokens, hsettles⟩
          refine .inr ⟨word, .endOfStatement, htokens, rfl,
            ⟨[.blockClose], .statement hsettles.grammar .blockClose .close⟩, ?_⟩
          intro token' hoffends fin' others
          rcases hoffends.begins htokens.symm others with ⟨tail, htail⟩
          cases hoffends with
          | first =>
              have htaken := hsettles.taken fin' others
              rw [htail] at htaken ⊢
              rw [statements_of_ne _ _ _ (kind_ne_of_ne hnewline) (kind_ne_of_ne hclose)]
              refine (bind_of_eq_ok htaken _).trans ?_
              exact if_neg hends

/-! ## Documents -/

/-- The block that `opening` opens is not closed, and is complete but for that. -/
def Unclosed (tokens : List Token) (opening : Token) : Prop :=
  ∃ before inside, tokens = before ++ opening :: inside ∧ opening.kind = .blockOpen ∧
    IsDocument (Token.kinds before) ∧ Open inside

theorem items_stops {index : Nat} {r : Rejection} (h : items fin index tokens = .error r) :
    (∃ opening, Unclosed tokens opening ∧ r = ⟨.unclosedBlock opening.span, []⟩) ∨
      Stopped IsDocument (fun fin => items fin index) fin tokens r := by
  fun_induction items fin index tokens with
  | case1 => cases h
  | case2 index text span rest ih =>
      rcases error_of_bind h with hrest | ⟨_, _, hend⟩
      · rcases ih hrest with ⟨opening, hunclosed, hr⟩ | hstopped
        · rcases hunclosed with ⟨before, inside, rfl, hkind, hbefore, hopen⟩
          exact .inl ⟨opening, ⟨⟨.hostText, text, span⟩ :: before, inside, rfl, hkind,
            .hostText hbefore, hopen⟩, hr⟩
        · right
          refine hstopped.within [⟨.hostText, text, span⟩] (fun _ => .hostText) ?_
          intro fin' others r' hread
          rw [List.singleton_append, items]
          exact bind_of_eq_error hread _
      · cases hend
  | case3 index value opening tokens r' hss =>
      cases h
      rcases statements_stops hss with ⟨hr, hopen⟩ | hstopped
      · exact .inl ⟨⟨.blockOpen, value, opening⟩, ⟨[], tokens, rfl, rfl, .empty, hopen⟩, hr⟩
      · right
        refine hstopped.within [⟨.blockOpen, value, opening⟩] ?_ ?_
        · intro inside hinside
          have hblock := IsDocument.block hinside .empty
          rwa [List.append_nil] at hblock
        · intro fin' others r hread
          rw [List.singleton_append, items_of_block]
          exact bind_of_eq_error hread _
  | case4 index value opening tokens ss closing rest hss ih =>
      rcases takes_statements hss with ⟨inside, rfl, hinside, _⟩
      rcases error_of_bind h with hrest | ⟨_, _, hend⟩
      · rcases ih hrest with ⟨last, hunclosed, hr⟩ | hstopped
        · rcases hunclosed with ⟨before, others, rfl, hkind, hbefore, hopen⟩
          refine .inl ⟨last, ⟨⟨.blockOpen, value, opening⟩ :: (inside ++ before), others, ?_,
            hkind, ?_, hopen⟩, hr⟩
          · rw [List.cons_append, List.append_assoc]
          · change IsDocument (.blockOpen :: Token.kinds (inside ++ before))
            rw [Token.kinds_append]
            exact .block hinside hbefore
        · right
          refine hstopped.within (⟨.blockOpen, value, opening⟩ :: inside)
            (fun _ => .block hinside) ?_
          intro fin' others r hread
          rcases read_statements hinside fin' opening others with ⟨ss', closing', hss'⟩
          rw [List.cons_append, items_of_block]
          exact (bind_of_eq_ok hss' _).trans (bind_of_eq_error hread _)
      · cases hend
  | case5 index token tokens hhost hopen =>
      cases h
      refine .inr ⟨[], .token .blockOpen, rfl, rfl, ⟨[], .empty⟩, ?_⟩
      intro token' hoffends fin' others
      cases hoffends with
      | first => exact items_of_ne _ _ _ (kind_ne_of_ne hhost) (kind_ne_of_ne hopen)

/-- Closing the block that is not closed makes a document. -/
theorem Unclosed.closed {opening : Token} (h : Unclosed tokens opening) :
    IsDocument (Token.kinds tokens ++ [.blockClose]) := by
  rcases h with ⟨before, inside, rfl, hkind, hbefore, hopen⟩
  have hblock := hbefore.append (.block hopen .empty)
  rw [List.append_nil] at hblock
  rw [Token.kinds_append, List.append_assoc]
  change IsDocument (Token.kinds before ++ opening.kind :: (Token.kinds inside ++ [.blockClose]))
  rwa [hkind]

theorem Open.ne_blockOpen (h : Open tokens) : ∀ token ∈ tokens, token.kind ≠ .blockOpen := by
  intro token htoken hkind
  have hmem : TokenKind.blockOpen ∈ Token.kinds tokens ++ [.blockClose] :=
    List.mem_append_left _ (hkind ▸ List.mem_map_of_mem htoken)
  exact absurd (h.subset_ofBlock hmem) (by decide)

/-- Only the last opening can be the one that is not closed. -/
theorem Unclosed.unique {opening other : Token} (h : Unclosed tokens opening)
    (hother : Unclosed tokens other) : other = opening := by
  rcases h with ⟨before, inside, rfl, hkind, _, hopen⟩
  rcases hother with ⟨before', inside', htokens, hkind', _, hopen'⟩
  rcases List.append_eq_append_iff.mp htokens with ⟨between, _, hrest⟩ | ⟨between, _, hrest⟩
  · cases between with
    | nil =>
        cases hrest
        rfl
    | cons first between =>
        rcases List.cons.inj hrest with ⟨_, rfl⟩
        exact absurd hkind' (hopen.ne_blockOpen other (by simp))
  · cases between with
    | nil =>
        cases hrest
        rfl
    | cons first between =>
        rcases List.cons.inj hrest with ⟨_, rfl⟩
        exact absurd hkind (hopen'.ne_blockOpen opening (by simp))

end Parse

/-! ## Rejections -/

namespace Rejection

/-- The index of the token that was looked at when the tokens were refused. -/
def index (r : Rejection) (tokens : List Token) : Nat :=
  (Document.significant tokens).length - r.rest.length

end Rejection

namespace Document

open Grammar Parse

theorem exists_of_ofTokens_error {tokens : List Token} {error : SyntaxError}
    (h : ofTokens tokens = .error error) :
    ∃ r, read tokens = .error r ∧ r.error = error := by
  rw [ofTokens] at h
  cases hread : read tokens with
  | error r =>
      rw [hread] at h
      cases h
      exact ⟨r, rfl, rfl⟩
  | ok document =>
      rw [hread] at h
      cases h

/-- Tokens that hold an end of input consist of what stands before the first one, that
one, and what is never read. -/
theorem eq_significant_append {tokens : List Token}
    (h : ∃ token ∈ tokens, token.kind = .endOfInput) :
    ∃ eof after, tokens = significant tokens ++ eof :: after ∧ eof.kind = .endOfInput ∧
      ∀ token ∈ significant tokens, token.kind ≠ .endOfInput := by
  induction tokens with
  | nil =>
      rcases h with ⟨token, htoken, _⟩
      cases htoken
  | cons first tokens ih =>
      by_cases hfirst : first.kind = .endOfInput
      · exact ⟨first, tokens, by simp [significant, hfirst], hfirst, by simp [significant, hfirst]⟩
      · rcases h with ⟨token, htoken, hkind⟩
        rcases List.mem_cons.mp htoken with rfl | htoken
        · exact absurd hkind hfirst
        · rcases ih ⟨token, htoken, hkind⟩ with ⟨eof, after, htokens, heof, hbefore⟩
          have hcons : significant (first :: tokens) = first :: significant tokens := by
            simp [significant, hfirst]
          rw [hcons]
          refine ⟨eof, after, congrArg (first :: ·) htokens, heof, ?_⟩
          exact List.forall_mem_cons.mpr ⟨hfirst, hbefore⟩

/-- The front of a document can be completed to one, with an end of input. -/
theorem completes_of_viable {front : List Token} (h : Viable IsDocument (Token.kinds front)) :
    ∃ suffix document, suffix.getLast?.map Token.kind = some .endOfInput ∧
      ofTokens (front ++ suffix) = .ok document := by
  rcases h with ⟨more, hmore⟩
  let token (kind : TokenKind) : Token := ⟨kind, "", default⟩
  have hkinds : Token.kinds (front ++ more.map token) = Token.kinds front ++ more := by
    rw [Token.kinds_append, Token.kinds, Token.kinds, List.map_map]
    exact congrArg _ (List.map_id more)
  have hends : ∀ t ∈ front ++ more.map token, t.kind ≠ .endOfInput := by
    intro t ht hkind
    apply hmore.endOfInput_notMem
    rw [← hkinds, ← hkind]
    exact List.mem_map_of_mem ht
  have hword : IsDocument (Token.kinds (front ++ more.map token)) := hkinds ▸ hmore
  rcases read_items hword default 0 with ⟨is, his⟩
  have hread : ∃ document, ofTokens (front ++ more.map token ++ [token .endOfInput]) =
      .ok document := by
    rw [ofTokens, read_append hends rfl [], show (token .endOfInput).span = default from rfl, his]
    exact ⟨_, rfl⟩
  rcases hread with ⟨document, hdocument⟩
  rw [List.append_assoc] at hdocument
  exact ⟨_, document, by simp [token], hdocument⟩

/-- What begins with the front and the refused token is refused. -/
theorem ofTokens_ne_ok_of_stops {fin : Span} {front : List Token} {expected : Expected}
    {r : Rejection} (hfront : ∀ token ∈ front, token.kind ≠ .endOfInput)
    (h : Stops IsDocument (fun fin => Parse.items fin 0) fin front expected r) {offender : Token}
    (hoffends : Offends r.rest offender) (hkind : offender.kind ≠ .endOfInput)
    (others : List Token) (document : Document) :
    ofTokens (front ++ offender :: others) ≠ .ok document := by
  intro hok
  have hread := read_of_ofTokens hok
  have hsignificant : significant (front ++ offender :: others) =
      front ++ offender :: significant others := by
    rw [significant, List.takeWhile_append_of_pos (by simpa using hfront),
      List.takeWhile_cons_of_pos (by simpa using hkind)]
    rfl
  rw [read, hsignificant] at hread
  rcases ok_of_bind hread with ⟨is, his, _⟩
  rw [h.refused hoffends] at his
  cases his

/-- What an error is about, when `offender` is the first token that does not fit. -/
inductive Concerns (front : List Token) (offender : Token) : SyntaxError → Prop where
  | offender {found : Token} (expected : Expected) (hspan : found.span = offender.span)
      (hdescribe : found.describe = offender.describe)
      (h : offender.kind = .endOfInput → ∀ opening, ¬Unclosed front opening) :
      Concerns front offender (.unexpected found expected)
  | opening {opening : Token} (hkind : offender.kind = .endOfInput)
      (h : Unclosed front opening) : Concerns front offender (.unclosedBlock opening.span)

/-- The first offending token, and what stands before it. -/
structure Offence (tokens : List Token) (r : Rejection) (front : List Token) (offender : Token) :
    Prop where
  split : ∃ rest, tokens = front ++ offender :: rest
  length : front.length = r.index tokens
  viable : Viable IsDocument (Token.kinds front)
  refused : ∀ others document, ofTokens (front ++ offender :: others) ≠ .ok document
  concerns : Concerns front offender r.error

theorem not_unclosed_of_stops {fin : Span} {front : List Token} {expected : Expected}
    {r : Rejection} (h : Stops IsDocument (fun fin => Parse.items fin 0) fin front expected r)
    (hrest : r.rest = []) (opening : Token) : ¬Unclosed front opening := by
  intro hunclosed
  let closing : Token := ⟨.blockClose, "", fin⟩
  have hword : IsDocument (Token.kinds (front ++ [closing])) := by
    rw [Token.kinds_append]
    exact hunclosed.closed
  rcases read_items hword fin 0 with ⟨is, his⟩
  have hclosing : Offends r.rest closing := hrest ▸ .closing rfl
  rw [h.refused hclosing] at his
  cases his

/-- The end of the input ends all reading. -/
theorem ofTokens_ne_ok_of_items {before : List Token} {eof : Token}
    (hbefore : ∀ token ∈ before, token.kind ≠ .endOfInput) (heof : eof.kind = .endOfInput)
    {r : Rejection} (h : Parse.items eof.span 0 before = .error r) (others : List Token)
    (document : Document) : ofTokens (before ++ eof :: others) ≠ .ok document := by
  intro hok
  have hread := read_of_ofTokens hok
  rw [read_append hbefore heof, h] at hread
  cases hread

theorem offence_of_items {before : List Token} {eof : Token}
    (hbefore : ∀ token ∈ before, token.kind ≠ .endOfInput) (heof : eof.kind = .endOfInput)
    (after : List Token) {r : Rejection} (h : Parse.items eof.span 0 before = .error r) :
    ∃ front offender, Offence (before ++ eof :: after) r front offender := by
  have hindex : r.index (before ++ eof :: after) = before.length - r.rest.length := by
    rw [Rejection.index, significant_append hbefore heof]
  rcases items_stops h with ⟨opening, hunclosed, rfl⟩ | ⟨word, expected, rfl, hstops⟩
  · exact ⟨before, eof, ⟨after, rfl⟩, hindex.symm, ⟨[.blockClose], hunclosed.closed⟩,
      ofTokens_ne_ok_of_items hbefore heof h, .opening heof hunclosed⟩
  · rw [List.length_append, Nat.add_sub_cancel] at hindex
    rcases r with ⟨error, rest⟩
    have herror : error = .unexpected (peek eof.span rest) expected := hstops.error
    subst herror
    cases rest with
    | nil =>
        rw [List.append_nil] at hbefore h ⊢
        refine ⟨word, eof, ⟨after, rfl⟩, ?_, hstops.viable,
          ofTokens_ne_ok_of_items hbefore heof h, ?_⟩
        · rw [List.append_nil] at hindex
          exact hindex.symm
        · refine .offender expected rfl ?_ fun _ => not_unclosed_of_stops hstops rfl
          simp [peek, Token.describe, heof]
    | cons offender rest =>
        have hkind : offender.kind ≠ .endOfInput := hbefore offender (by simp)
        refine ⟨word, offender, ⟨rest ++ eof :: after, by simp⟩, hindex.symm, hstops.viable,
          ofTokens_ne_ok_of_stops (fun token htoken => hbefore token (by simp [htoken])) hstops
            (.first offender rest) hkind, ?_⟩
        exact .offender expected rfl rfl fun h => absurd h hkind

/-- Tokens that are refused are refused at the first one that no document goes on with:
what stands before it can be completed, and nothing that begins with it as well is read.
The error is about that token, unless the input ends there in a block whose statements
are complete; the error is about the opening of the block then. -/
theorem refused_at_first_offender (tokens : List Token)
    (heof : ∃ token ∈ tokens, token.kind = .endOfInput) (error : SyntaxError)
    (h : ofTokens tokens = .error error) :
    ∃ r offender, read tokens = .error r ∧ r.error = error ∧
      tokens[r.index tokens]? = some offender ∧
      (∃ suffix document, suffix.getLast?.map Token.kind = some .endOfInput ∧
        ofTokens (tokens.take (r.index tokens) ++ suffix) = .ok document) ∧
      (∀ others document,
        ofTokens (tokens.take (r.index tokens + 1) ++ others) ≠ .ok document) ∧
      (∀ opening, offender.kind = .endOfInput →
        Unclosed (tokens.take (r.index tokens)) opening →
          error.span = opening.span ∧ error.expected = "'\x7d\x7d'" ∧
            error.found = "end of input") ∧
      ((offender.kind = .endOfInput →
          ∀ opening, ¬Unclosed (tokens.take (r.index tokens)) opening) →
        error.span = offender.span ∧ error.found = offender.describe ∧
          (offender.kind = .error → error.found = offender.value)) := by
  rcases exists_of_ofTokens_error h with ⟨r, hread, rfl⟩
  have hoffence : ∃ front offender, Offence tokens r front offender := by
    rcases eq_significant_append heof with ⟨eof, after, htokens, hkind, hbefore⟩
    generalize significant tokens = before at htokens hbefore
    subst htokens
    rw [read_append hbefore hkind] at hread
    rcases error_of_bind hread with hitems | ⟨_, _, hend⟩
    · exact offence_of_items hbefore hkind after hitems
    · cases hend
  rcases hoffence with ⟨front, offender, hoffence⟩
  rcases hoffence.split with ⟨rest, hsplit⟩
  have htake : tokens.take (r.index tokens) = front := by
    rw [← hoffence.length, hsplit, List.take_left]
  have hnext : tokens.take (r.index tokens + 1) = front ++ [offender] := by
    rw [← hoffence.length, hsplit, List.take_length_add_append]
    rfl
  have hget : tokens[r.index tokens]? = some offender := by
    rw [← hoffence.length, hsplit]
    simp
  refine ⟨r, offender, hread, rfl, hget, ?_, ?_, ?_, ?_⟩
  · rw [htake]
    exact completes_of_viable hoffence.viable
  · intro others document
    rw [hnext, List.append_assoc]
    exact hoffence.refused others document
  · intro opening hkind hunclosed
    rw [htake] at hunclosed
    have hconcerns := hoffence.concerns
    generalize r.error = error at hconcerns
    cases hconcerns with
    | offender expected hspan hdescribe hnone => exact absurd hunclosed (hnone hkind opening)
    | opening _ hopening =>
        rw [hopening.unique hunclosed]
        exact ⟨rfl, rfl, rfl⟩
  · intro hnone
    rw [htake] at hnone
    have hconcerns := hoffence.concerns
    generalize r.error = error at hconcerns
    cases hconcerns with
    | offender expected hspan hdescribe _ =>
        refine ⟨hspan, hdescribe, ?_⟩
        intro hkind
        refine hdescribe.trans ?_
        rw [Token.describe, hkind]
    | opening hkind hopening => exact absurd hopening (hnone hkind _)

/-- An array takes no name between its brackets: the name is refused, and not the bracket
before it. -/
theorem refuses_name_in_brackets :
    let place : Nat → Span := fun i => ⟨i, i + 1, 1, i + 1⟩
    let tokens : List Token :=
      [⟨.blockOpen, "", place 0⟩, ⟨.identifier, "a", place 1⟩, ⟨.leftBracket, "", place 2⟩,
        ⟨.identifier, "b", place 3⟩, ⟨.blockClose, "", place 4⟩, ⟨.endOfInput, "", place 5⟩]
    let error : SyntaxError := .unexpected ⟨.identifier, "b", place 3⟩ .wholeArray
    (∃ token ∈ tokens, token.kind = .endOfInput) ∧ ofTokens tokens = .error error ∧
      error.span = place 3 ∧ error.found = "identifier 'b'" ∧
      (∃ suffix document, suffix.getLast?.map Token.kind = some .endOfInput ∧
        ofTokens (tokens.take 3 ++ suffix) = .ok document) ∧
      ∀ others document, ofTokens (tokens.take 4 ++ others) ≠ .ok document := by
  intro place tokens error
  have heof : ∃ token ∈ tokens, token.kind = .endOfInput := ⟨_, List.mem_of_getLast? rfl, rfl⟩
  have herror : ofTokens tokens = .error error := by decide +kernel
  have hindices : (read tokens).mapError (·.index tokens) = .error 3 := by decide +kernel
  rcases refused_at_first_offender tokens heof error herror with
    ⟨r, offender, hread, _, _, hcompletes, hrefused, _, _⟩
  rw [hread] at hindices
  have hindex : r.index tokens = 3 := Except.error.inj hindices
  rw [hindex] at hcompletes hrefused
  exact ⟨heof, herror, rfl, by decide, hcompletes, hrefused⟩

end Document
end Stencil
