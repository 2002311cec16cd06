import Stencil.Proofs.Likeness
import Stencil.Proofs.Reading

/-!
# Reading alike

Alike tokens are read alike: every reader gives alike trees and leaves alike tokens, or
refuses alike tokens for the same reason.
-/

namespace Stencil

variable (L : Likeness)

/-- What is left of a reader's tokens does not matter where it refuses them. -/
def Rejection.Alike (r r' : Rejection) : Prop :=
  r.error.Alike L r'.error

namespace Parse

/-- What a reader gives, and the tokens it leaves. -/
def GivesAlike {α α' : Type} (R : α → α' → Prop) (x : α × List Token) (x' : α' × List Token) :
    Prop :=
  R x.1 x'.1 ∧ List.Forall₂ (Token.Alike L) x.2 x'.2

variable {L} {fin fin' : Span} {tokens tokens' : List Token}

theorem peek_alike (hfin : L.span fin fin') (h : List.Forall₂ (Token.Alike L) tokens tokens') :
    (peek fin tokens).Alike L (peek fin' tokens') := by
  cases h with
  | nil => exact .same .endOfInput "" (by simp) hfin
  | cons htoken _ => exact htoken

theorem refuse_alike {α α' : Type} {R : α → α' → Prop} (hfin : L.span fin fin')
    (expected : Expected) (h : List.Forall₂ (Token.Alike L) tokens tokens') :
    Both (Rejection.Alike L) R (refuse fin expected tokens) (refuse fin' expected tokens') :=
  .error (.unexpected expected (peek_alike hfin h))

theorem expect_alike (hfin : L.span fin fin') (kind : TokenKind) (expected : Expected)
    (h : List.Forall₂ (Token.Alike L) tokens tokens') :
    Both (Rejection.Alike L) (GivesAlike L fun t t' => t.Alike L t' ∧ t.kind = kind)
      (expect fin kind expected tokens) (expect fin' kind expected tokens') := by
  cases h with
  | nil => exact refuse_alike hfin expected .nil
  | @cons token token' rest rest' htoken hrest =>
      rw [expect, expect, ← htoken.kind]
      split
      · rename_i hkind
        exact .ok ⟨⟨htoken, hkind⟩, hrest⟩
      · exact refuse_alike hfin expected (.cons htoken hrest)

theorem operand_alike (hfin : L.span fin fin') (expected : Expected)
    (h : List.Forall₂ (Token.Alike L) tokens tokens') :
    Both (Rejection.Alike L) (GivesAlike L (Operand.Alike L)) (operand fin expected tokens)
      (operand fin' expected tokens') := by
  cases h with
  | nil => exact refuse_alike hfin expected .nil
  | cons htoken hrest =>
      have hrefused := refuse_alike (R := GivesAlike L (Operand.Alike L)) hfin expected
        (.cons htoken hrest)
      cases htoken with
      | hostText htext hspan => exact hrefused
      | same kind value hkind hspan =>
          cases kind with
          | string => exact .ok ⟨.string value hspan, hrest⟩
          | identifier => exact .ok ⟨.identifier value hspan, hrest⟩
          | _ => exact hrefused

theorem source_alike (hfin : L.span fin fin')
    (h : List.Forall₂ (Token.Alike L) tokens tokens') :
    Both (Rejection.Alike L) (GivesAlike L (Source.Alike L)) (source fin tokens)
      (source fin' tokens') := by
  rw [source.eq_def, source.eq_def]
  split
  · cases h with
    | cons hfirst hothers =>
        cases hfirst with
        | same _ _ _ hspan =>
            cases hothers with
            | cons hsecond hrest =>
                cases hsecond
                apply (expect_alike hfin .colon .wholeArray hrest).bind
                rintro ⟨colon, rest⟩ ⟨colon', rest'⟩ ⟨_, hrest⟩
                apply (expect_alike hfin .rightBracket (.token .rightBracket) hrest).bind
                rintro ⟨closing, rest⟩ ⟨closing', rest'⟩ ⟨⟨hclosing, _⟩, hrest⟩
                exact .ok ⟨.array _ (L.span_join hspan hclosing.span), hrest⟩
  · rename_i hne
    split
    · cases h with
      | cons hfirst hothers =>
          cases hfirst
          cases hothers with
          | cons hsecond _ =>
              cases hsecond
              exact (hne _ _ _ _ _ rfl).elim
    · apply (operand_alike hfin .operandOrArray h).bind
      rintro ⟨o, rest⟩ ⟨o', rest'⟩ ⟨ho, hrest⟩
      exact .ok ⟨.operand ho, hrest⟩

theorem expression_alike (hfin : L.span fin fin')
    (h : List.Forall₂ (Token.Alike L) tokens tokens') :
    Both (Rejection.Alike L) (GivesAlike L (Expression.Alike L)) (expression fin tokens)
      (expression fin' tokens') := by
  apply (source_alike hfin h).bind
  rintro ⟨s, rest⟩ ⟨s', rest'⟩ ⟨hs, hrest⟩
  dsimp only at hs hrest ⊢
  split
  · cases hrest with
    | cons hbar hothers =>
        cases hbar
        apply (expect_alike hfin .macroRef (.token .macroRef) hothers).bind
        rintro ⟨target, rest⟩ ⟨target', rest'⟩ ⟨⟨htarget, hkind⟩, hrest⟩
        have hne : target.kind ≠ .hostText := by
          rw [hkind]
          exact TokenKind.noConfusion
        have href : MacroRef.Alike L ⟨target.span, target.value⟩ ⟨target'.span, target'.value⟩ := by
          rw [htarget.value hne]
          exact .named _ htarget.span
        exact .ok ⟨.pipe hs href, hrest⟩
  · rename_i hne
    split
    · cases hrest with
      | cons hbar _ =>
          cases hbar
          exact (hne _ _ _ rfl).elim
    · exact .ok ⟨.plain hs, hrest⟩

theorem statement_alike (hfin : L.span fin fin')
    (h : List.Forall₂ (Token.Alike L) tokens tokens') :
    Both (Rejection.Alike L) (GivesAlike L (Statement.Alike L)) (statement fin tokens)
      (statement fin' tokens') := by
  rw [statement.eq_def, statement.eq_def]
  split
  · cases h with
    | cons hcomment hrest =>
        cases hcomment with
        | same _ _ _ hspan => exact .ok ⟨.comment _ hspan, hrest⟩
  · cases h with
    | cons hdefinition hothers =>
        cases hdefinition with
        | same _ _ _ hspan =>
            apply (operand_alike hfin .operand hothers).bind
            rintro ⟨pattern, rest⟩ ⟨pattern', rest'⟩ ⟨hpattern, hrest⟩
            apply (expect_alike hfin .pipe (.token .pipe) hrest).bind
            rintro ⟨bar, rest⟩ ⟨bar', rest'⟩ ⟨_, hrest⟩
            apply (operand_alike hfin .operand hrest).bind
            rintro ⟨body, rest⟩ ⟨body', rest'⟩ ⟨hbody, hrest⟩
            exact .ok ⟨.definition _ (L.span_join hspan hbody.span) hpattern hbody, hrest⟩
  · rename_i hcomment hdefinition
    split
    · cases h with
      | cons hfirst _ =>
          cases hfirst
          exact (hcomment _ _ _ rfl).elim
    · cases h with
      | cons hfirst _ =>
          cases hfirst
          exact (hdefinition _ _ _ rfl).elim
    · apply (expression_alike hfin h).bind
      rintro ⟨e, rest⟩ ⟨e', rest'⟩ ⟨he, hrest⟩
      exact .ok ⟨.expression he, hrest⟩

theorem endsStatement_alike (h : List.Forall₂ (Token.Alike L) tokens tokens') :
    endsStatement tokens = endsStatement tokens' := by
  cases h with
  | nil => rfl
  | cons htoken _ => simp only [endsStatement, htoken.kind]

/-- A token that is neither a line end nor a closing begins a statement. -/
theorem statements_of_ne (fin opening : Span) {token : Token} (tokens : List Token)
    (hnewline : token.kind ≠ .newline) (hclose : token.kind ≠ .blockClose) :
    statements fin opening (token :: tokens) =
      statement fin (token :: tokens) >>= fun (s, rest) =>
        if endsStatement rest then
          statements fin opening rest >>= fun (more, closing, rest) =>
            pure (s :: more, closing, rest)
        else refuse fin .endOfStatement rest := by
  rw [statements.eq_def]
  split
  · rename_i heq
    cases heq
  · rename_i heq
    cases heq
    exact absurd rfl hnewline
  · rename_i heq
    cases heq
    exact absurd rfl hclose
  · rename_i heq
    cases heq
    split
    · rename_i hs
      rw [hs]
      rfl
    · rename_i hs
      rw [hs]
      rfl

theorem kind_ne_of_ne {token : Token} {kind : TokenKind}
    (h : ∀ value span, token = ⟨kind, value, span⟩ → False) : token.kind ≠ kind := by
  intro hkind
  subst hkind
  exact h token.value token.span rfl

theorem statements_of_alike {token : Token} {tokens tokens' : List Token}
    (h : List.Forall₂ (Token.Alike L) (token :: tokens) tokens')
    (hnewline : ∀ value span, token = ⟨.newline, value, span⟩ → False)
    (hclose : ∀ value span, token = ⟨.blockClose, value, span⟩ → False) (fin opening : Span) :
    statements fin opening tokens' =
      statement fin tokens' >>= fun (s, rest) =>
        if endsStatement rest then
          statements fin opening rest >>= fun (more, closing, rest) =>
            pure (s :: more, closing, rest)
        else refuse fin .endOfStatement rest := by
  cases h with
  | cons htoken hrest =>
      apply statements_of_ne
      · rw [← htoken.kind]
        exact kind_ne_of_ne hnewline
      · rw [← htoken.kind]
        exact kind_ne_of_ne hclose

/-- What is read of a block: its statements, the span of its closing, and the tokens
left. -/
structure BlocksAlike (L : Likeness) (x x' : List Statement × Span × List Token) : Prop where
  statements : List.Forall₂ (Statement.Alike L) x.1 x'.1
  closing : L.span x.2.1 x'.2.1
  rest : List.Forall₂ (Token.Alike L) x.2.2 x'.2.2

theorem statements_alike {opening opening' : Span} (hfin : L.span fin fin')
    (hopening : L.span opening opening') (h : List.Forall₂ (Token.Alike L) tokens tokens') :
    Both (Rejection.Alike L) (BlocksAlike L) (statements fin opening tokens)
      (statements fin' opening' tokens') := by
  fun_induction statements fin opening tokens generalizing tokens' with
  | case1 =>
      cases h
      rw [statements]
      exact .error (.unclosedBlock hopening)
  | case2 value span rest ih =>
      cases h with
      | cons hnewline hrest =>
          cases hnewline
          rw [statements]
          exact ih hrest
  | case3 value span rest =>
      cases h with
      | cons hclose hrest =>
          cases hclose with
          | same _ _ _ hspan =>
              rw [statements]
              exact .ok ⟨.nil, hspan, hrest⟩
  | case4 token tokens hnewline hclose r hs =>
      have hread := statement_alike hfin h
      have hblock := statements_of_alike h hnewline hclose fin' opening'
      rw [hs] at hread
      rcases hread.of_error with ⟨r', hr', hr⟩
      rw [hblock, hr']
      exact .error hr
  | case5 token tokens hnewline hclose s left hs hends ih =>
      have hread := statement_alike hfin h
      have hblock := statements_of_alike h hnewline hclose fin' opening'
      rw [hs] at hread
      rcases hread.of_ok with ⟨⟨s', left'⟩, hs', hstatement, hleft⟩
      rw [hblock, hs']
      change Both _ _ _ (if endsStatement left' then _ else _)
      rw [if_pos (endsStatement_alike hleft ▸ hends)]
      apply (ih hleft).bind
      rintro ⟨more, closing, rest⟩ ⟨more', closing', rest'⟩ ⟨hmore, hclosing, hrest⟩
      exact .ok ⟨.cons hstatement hmore, hclosing, hrest⟩
  | case6 token tokens hnewline hclose s left hs hends =>
      have hread := statement_alike hfin h
      have hblock := statements_of_alike h hnewline hclose fin' opening'
      rw [hs] at hread
      rcases hread.of_ok with ⟨⟨s', left'⟩, hs', hstatement, hleft⟩
      rw [hblock, hs']
      change Both _ _ _ (if endsStatement left' then _ else _)
      rw [if_neg (endsStatement_alike hleft ▸ hends)]
      exact refuse_alike hfin .endOfStatement hleft

theorem items_of_block {fin : Span} {index : Nat} {value : String} {opening : Span}
    {tokens : List Token} :
    items fin index (⟨.blockOpen, value, opening⟩ :: tokens) =
      statements fin opening tokens >>= fun (ss, closing, rest) =>
        items fin (index + 1) rest >>= fun more =>
          pure (.block ⟨opening.join closing, index, ss⟩ :: more) := by
  rw [items]
  split
  · rename_i hss
    rw [hss]
    rfl
  · rename_i hss
    rw [hss]
    rfl

theorem items_of_ne (fin : Span) (index : Nat) {token : Token} (tokens : List Token)
    (hhost : token.kind ≠ .hostText) (hopen : token.kind ≠ .blockOpen) :
    items fin index (token :: tokens) = refuse fin (.token .blockOpen) (token :: tokens) := by
  rw [items.eq_def]
  split
  · rename_i heq
    cases heq
  · rename_i heq
    cases heq
    exact absurd rfl hhost
  · rename_i heq
    cases heq
    exact absurd rfl hopen
  · rename_i heq
    cases heq
    rfl

theorem items_alike {index index' : Nat} (hfin : L.span fin fin') (hindex : L.block index index')
    (h : List.Forall₂ (Token.Alike L) tokens tokens') :
    Both (Rejection.Alike L) (List.Forall₂ (Item.Alike L)) (items fin index tokens)
      (items fin' index' tokens') := by
  fun_induction items fin index tokens generalizing tokens' index' with
  | case1 index =>
      cases h
      rw [items]
      exact .ok .nil
  | case2 index text span rest ih =>
      cases h with
      | cons htoken hrest =>
          cases htoken with
          | same _ _ hkind hspan => exact absurd rfl hkind
          | hostText htext hspan =>
              rw [items]
              apply (ih hindex hrest).bind
              intro more more' hmore
              exact .ok (.cons (.hostText htext hspan) hmore)
  | case3 index value opening tokens r hss =>
      cases h with
      | cons htoken hrest =>
          cases htoken with
          | same _ _ _ hopening =>
              have hread := statements_alike hfin hopening hrest
              rw [hss] at hread
              rcases hread.of_error with ⟨r', hr', hr⟩
              rw [items_of_block, hr']
              exact .error hr
  | case4 index value opening tokens ss closing left hss ih =>
      cases h with
      | cons htoken hrest =>
          cases htoken with
          | same _ _ _ hopening =>
              have hread := statements_alike hfin hopening hrest
              rw [hss] at hread
              rcases hread.of_ok with ⟨⟨ss', closing', left'⟩, hss', hstatements, hclosing, hleft⟩
              rw [items_of_block, hss']
              apply (ih (L.block_succ hindex) hleft).bind
              intro more more' hmore
              exact .ok (.cons (.block ⟨L.span_join hopening hclosing, hindex, hstatements⟩) hmore)
  | case5 index token tokens hhost hopen =>
      cases h with
      | cons htoken hrest =>
          rw [items_of_ne]
          · exact refuse_alike hfin _ (.cons htoken hrest)
          · rw [← htoken.kind]
            exact kind_ne_of_ne hhost
          · rw [← htoken.kind]
            exact kind_ne_of_ne hopen

end Parse

namespace Document

variable {L : Likeness} {tokens tokens' : List Token}

theorem significant_alike (h : List.Forall₂ (Token.Alike L) tokens tokens') :
    List.Forall₂ (Token.Alike L) (significant tokens) (significant tokens') := by
  induction h with
  | nil => exact .nil
  | cons htoken _ ih =>
      rw [significant, significant, List.takeWhile_cons, List.takeWhile_cons, ← htoken.kind]
      split
      · exact .cons htoken ih
      · exact .nil

theorem ofTokens_alike (hfin : L.span (endSpan tokens) (endSpan tokens')) (hzero : L.block 0 0)
    (h : List.Forall₂ (Token.Alike L) tokens tokens') :
    Both (SyntaxError.Alike L) (fun d d' => List.Forall₂ (Item.Alike L) d.items d'.items)
      (ofTokens tokens) (ofTokens tokens') := by
  have hitems := Parse.items_alike hfin hzero (significant_alike h)
  rw [ofTokens, ofTokens, read, read]
  generalize Parse.items (endSpan tokens) 0 (significant tokens) = read at hitems
  generalize Parse.items (endSpan tokens') 0 (significant tokens') = read' at hitems
  cases hitems with
  | ok hitems => exact .ok hitems
  | error hrejected => exact .error hrejected

end Document

end Stencil
