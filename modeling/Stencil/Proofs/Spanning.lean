import Stencil.Proofs.Reading

/-!
# The spans of documents

Every span in a document runs from the beginning of one token to the end of the
same or a later one, and every operand is one token.  A rejection names the span of
a token, or of the end of the input.
-/

namespace Stencil

/-! ## The parts of a document -/

namespace Source

def operands : Source → List Operand
  | operand o => [o]
  | array _ _ => []

end Source

namespace Expression

def source : Expression → Source
  | plain source => source
  | pipe source _ => source

/-- The spans of an expression and of its parts. -/
def spans : Expression → List Span
  | plain source => [source.span]
  | pipe source target => [source.span.join target.span, source.span, target.span]

end Expression

namespace Statement

def spans : Statement → List Span
  | comment span _ => [span]
  | definition span _ pattern body => [span, pattern.span, body.span]
  | expression e => e.span :: e.spans

def operands : Statement → List Operand
  | comment _ _ => []
  | definition _ _ pattern body => [pattern, body]
  | expression e => e.source.operands

end Statement

namespace Item

def spans : Item → List Span
  | hostText span _ => [span]
  | block b => b.span :: b.statements.flatMap Statement.spans

def operands : Item → List Operand
  | hostText _ _ => []
  | block b => b.statements.flatMap Statement.operands

end Item

namespace Document

/-- The spans of all nodes. -/
def spans (document : Document) : List Span :=
  document.span :: document.items.flatMap Item.spans

def operands (document : Document) : List Operand :=
  document.items.flatMap Item.operands

end Document

/-! ## Spans over tokens -/

namespace Token

/-- The span begins with a token and ends with the same or a later one. -/
def Spanned (tokens : List Token) (s : Span) : Prop :=
  ∃ first rest last, (first :: rest).Sublist tokens ∧ last ∈ first :: rest ∧
    s = first.span.join last.span

variable {tokens others : List Token} {s s' : Span}

theorem spanned_of_mem {token : Token} (h : token ∈ tokens) : Spanned tokens token.span :=
  ⟨token, [], token, List.singleton_sublist.mpr h, List.mem_cons_self, rfl⟩

theorem Spanned.mono (h : Spanned tokens s) (hsublist : tokens.Sublist others) :
    Spanned others s := by
  rcases h with ⟨first, rest, last, hrest, hlast, hs⟩
  exact ⟨first, rest, last, hrest.trans hsublist, hlast, hs⟩

theorem Spanned.left (h : Spanned tokens s) (others : List Token) :
    Spanned (tokens ++ others) s :=
  h.mono (List.sublist_append_left _ _)

theorem Spanned.right (h : Spanned others s) (tokens : List Token) :
    Spanned (tokens ++ others) s :=
  h.mono (List.sublist_append_right _ _)

theorem Spanned.join (h : Spanned tokens s) (h' : Spanned others s') :
    Spanned (tokens ++ others) (s.join s') := by
  rcases h with ⟨first, rest, last, hrest, _, rfl⟩
  rcases h' with ⟨first', rest', last', hrest', hlast', rfl⟩
  refine ⟨first, rest ++ first' :: rest', last', hrest.append hrest', ?_, rfl⟩
  exact List.mem_cons_of_mem _ (List.mem_append_right _ hlast')

/-- The operand is one of the tokens. -/
def Holds (tokens : List Token) : Operand → Prop
  | .string span raw => ⟨.string, raw, span⟩ ∈ tokens
  | .identifier span name => ⟨.identifier, name, span⟩ ∈ tokens

theorem Holds.mono {o : Operand} (h : Holds tokens o) (hsubset : tokens ⊆ others) :
    Holds others o := by
  cases o with
  | string span raw => exact hsubset h
  | identifier span name => exact hsubset h

theorem Holds.spanned {o : Operand} (h : Holds tokens o) : Spanned tokens o.span := by
  cases o with
  | string span raw => exact spanned_of_mem h
  | identifier span name => exact spanned_of_mem h

end Token

/-! ## What the readers give -/

namespace Parse

open Token

/-- The tokens of a word ground the parts of what was read from them. -/
def Grounded (spans : List Span) (operands : List Operand) (word : List Token) : Prop :=
  (∀ s ∈ spans, Spanned word s) ∧ ∀ o ∈ operands, Holds word o

/-- The tokens before `rest` are such a word. -/
def Grounds (spans : List Span) (operands : List Operand) (tokens rest : List Token) : Prop :=
  ∃ word, tokens = word ++ rest ∧ Grounded spans operands word

variable {fin opening : Span} {expected : Expected} {tokens between rest word word' : List Token}
  {spans spans' : List Span} {operands operands' : List Operand}

theorem Grounded.append (h : Grounded spans operands word)
    (h' : Grounded spans' operands' word') :
    Grounded (spans ++ spans') (operands ++ operands') (word ++ word') := by
  constructor
  · intro s hs
    rcases List.mem_append.mp hs with hs | hs
    · exact (h.1 s hs).left word'
    · exact (h'.1 s hs).right word
  · intro o ho
    rcases List.mem_append.mp ho with ho | ho
    · exact (h.2 o ho).mono (List.subset_append_left _ _)
    · exact (h'.2 o ho).mono (List.subset_append_right _ _)

theorem grounds_cons (token : Token) (rest : List Token) :
    Grounds [token.span] [] (token :: rest) rest := by
  refine ⟨[token], rfl, ?_, by simp⟩
  intro s hs
  rw [List.mem_singleton.mp hs]
  exact spanned_of_mem List.mem_cons_self

theorem Grounds.subset (h : Grounds spans operands tokens rest) (hspans : spans' ⊆ spans)
    (hoperands : operands' ⊆ operands) : Grounds spans' operands' tokens rest := by
  rcases h with ⟨word, htokens, hs, ho⟩
  exact ⟨word, htokens, fun s hmem => hs s (hspans hmem), fun o hmem => ho o (hoperands hmem)⟩

theorem Grounds.append (h : Grounds spans operands tokens between)
    (h' : Grounds spans' operands' between rest) :
    Grounds (spans ++ spans') (operands ++ operands') tokens rest := by
  rcases h with ⟨word, rfl, hword⟩
  rcases h' with ⟨word', rfl, hword'⟩
  exact ⟨word ++ word', (List.append_assoc _ _ _).symm, hword.append hword'⟩

/-- One result after another, and a span from a part of the first to a part of the
second. -/
theorem Grounds.join (h : Grounds spans operands tokens between)
    (h' : Grounds spans' operands' between rest) {s t : Span} (hs : s ∈ spans)
    (ht : t ∈ spans') :
    Grounds (s.join t :: (spans ++ spans')) (operands ++ operands') tokens rest := by
  rcases h with ⟨word, rfl, hword⟩
  rcases h' with ⟨word', rfl, hword'⟩
  have hparts := hword.append hword'
  refine ⟨word ++ word', (List.append_assoc _ _ _).symm, ?_, hparts.2⟩
  intro u hu
  rcases List.mem_cons.mp hu with rfl | hu
  · exact (hword.1 s hs).join (hword'.1 t ht)
  · exact hparts.1 u hu

theorem grounds_expect {kind : TokenKind} {token : Token}
    (h : expect fin kind expected tokens = .ok (token, rest)) :
    Grounds [token.span] [] tokens rest := by
  rcases of_expect_ok h with ⟨rfl, _⟩
  exact grounds_cons token rest

theorem grounds_operand {o : Operand} (h : operand fin expected tokens = .ok (o, rest)) :
    Grounds [o.span] [o] tokens rest := by
  have one {token : Token} {o : Operand} (ho : Holds [token] o) :
      Grounds [o.span] [o] (token :: rest) rest :=
    ⟨[token], rfl, by simpa using ho.spanned, by simpa using ho⟩
  unfold operand at h
  split at h
  · cases h
    exact one (o := .string _ _) List.mem_cons_self
  · cases h
    exact one (o := .identifier _ _) List.mem_cons_self
  · cases h

theorem grounds_source {s : Source} (h : source fin tokens = .ok (s, rest)) :
    Grounds [s.span] s.operands tokens rest := by
  unfold source at h
  split at h
  · rename_i name span bracket bracketSpan more
    rcases ok_of_bind h with ⟨⟨colon, afterColon⟩, hcolon, hleft⟩
    rcases ok_of_bind hleft with ⟨⟨closing, afterClosing⟩, hclosing, hend⟩
    cases hend
    have hname := (grounds_cons ⟨.identifier, name, span⟩
      (⟨.leftBracket, bracket, bracketSpan⟩ :: more)).append (grounds_cons _ more)
    have hbrackets := (grounds_expect hcolon).append (grounds_expect hclosing)
    exact (hname.join (t := closing.span) hbrackets List.mem_cons_self (by simp)).subset
      (by simp [Source.span]) (List.nil_subset _)
  · rcases ok_of_bind h with ⟨⟨o, left⟩, ho, hend⟩
    cases hend
    exact grounds_operand ho

theorem grounds_expression {e : Expression} (h : expression fin tokens = .ok (e, rest)) :
    Grounds e.spans e.source.operands tokens rest := by
  unfold expression at h
  rcases ok_of_bind h with ⟨⟨s, left⟩, hs, hleft⟩
  have hsource := grounds_source hs
  simp only at hleft
  split at hleft
  · rename_i bar barSpan more
    rcases ok_of_bind hleft with ⟨⟨target, afterTarget⟩, htarget, hend⟩
    cases hend
    have htail := (grounds_cons ⟨.pipe, bar, barSpan⟩ more).append (grounds_expect htarget)
    exact (hsource.join (t := target.span) htail List.mem_cons_self (by simp)).subset
      (by simp [Expression.spans]) (by simp [Expression.source])
  · cases hleft
    exact hsource

theorem grounds_statement {s : Statement} (h : statement fin tokens = .ok (s, rest)) :
    Grounds s.spans s.operands tokens rest := by
  unfold statement at h
  split at h
  · cases h
    exact grounds_cons _ _
  · rename_i name span more
    rcases ok_of_bind h with ⟨⟨pattern, afterPattern⟩, hpattern, hleft⟩
    rcases ok_of_bind hleft with ⟨⟨bar, afterBar⟩, hbar, hlast⟩
    rcases ok_of_bind hlast with ⟨⟨body, afterBody⟩, hbody, hend⟩
    cases hend
    have hhead := (grounds_cons ⟨.macroDef, name, span⟩ more).append (grounds_operand hpattern)
    have htail := (grounds_expect hbar).append (grounds_operand hbody)
    exact (hhead.join (t := body.span) htail List.mem_cons_self (by simp)).subset
      (by simp [Statement.spans]) (by simp [Statement.operands])
  · rcases ok_of_bind h with ⟨⟨e, left⟩, he, hend⟩
    cases hend
    refine (grounds_expression he).subset ?_ (List.Subset.refl _)
    cases e <;> simp [Statement.spans, Expression.spans, Expression.span]

/-- The inside of a block, with the token that closes it. -/
theorem grounds_statements {ss : List Statement} {closing : Span}
    (h : statements fin opening tokens = .ok (ss, closing, rest)) :
    Grounds (closing :: ss.flatMap Statement.spans) (ss.flatMap Statement.operands)
      tokens rest := by
  fun_induction statements fin opening tokens generalizing ss with
  | case1 => cases h
  | case2 value span more ih =>
      have hnewline := grounds_cons ⟨.newline, value, span⟩ more
      exact (hnewline.append (ih h)).subset (List.subset_append_right _ _)
        (List.Subset.refl _)
  | case3 value span more =>
      cases h
      exact grounds_cons _ _
  | case4 => cases h
  | case5 _ _ _ _ s left hs _ ih =>
      rcases ok_of_bind h with ⟨⟨more, closing', rest'⟩, hmore, hend⟩
      cases hend
      refine ((grounds_statement hs).append (ih hmore)).subset ?_ (by simp)
      intro t ht
      simp only [List.flatMap_cons, List.mem_cons, List.mem_append] at ht ⊢
      tauto
  | case6 => cases h

theorem grounds_items {index : Nat} {is : List Item} (h : items fin index tokens = .ok is) :
    Grounds (is.flatMap Item.spans) (is.flatMap Item.operands) tokens [] := by
  fun_induction items fin index tokens generalizing is with
  | case1 =>
      cases h
      exact ⟨[], rfl, by simp, by simp⟩
  | case2 index text span rest ih =>
      rcases ok_of_bind h with ⟨more, hmore, hend⟩
      cases hend
      exact (grounds_cons ⟨.hostText, text, span⟩ rest).append (ih hmore)
  | case3 => cases h
  | case4 index value opening tokens ss closing left hss ih =>
      rcases ok_of_bind h with ⟨more, hmore, hend⟩
      cases hend
      have hblock := (grounds_cons ⟨.blockOpen, value, opening⟩ tokens).join
        (grounds_statements hss) List.mem_cons_self List.mem_cons_self
      refine (hblock.append (ih hmore)).subset ?_ (by simp [Item.operands])
      intro t ht
      simp only [List.flatMap_cons, Item.spans, List.mem_cons, List.mem_append] at ht ⊢
      tauto
  | case5 => cases h

/-! ## What the readers refuse -/

/-- The error is reported at one of the tokens, or at the end of the input. -/
def Blames (fin : Span) (tokens : List Token) (r : Rejection) : Prop :=
  r.error.span = fin ∨ ∃ t ∈ tokens, r.error.span = t.span

variable {r : Rejection}

theorem Blames.after (h : Blames fin rest r) (hgrounds : Grounds spans operands tokens rest) :
    Blames fin tokens r := by
  rcases hgrounds with ⟨word, rfl, _⟩
  rcases h with h | ⟨t, ht, h⟩
  · exact .inl h
  · exact .inr ⟨t, List.mem_append_right _ ht, h⟩

theorem blames_refuse {α : Type} (h : (refuse fin expected tokens : Except _ α) = .error r) :
    Blames fin tokens r := by
  cases h
  cases tokens with
  | nil => exact .inl rfl
  | cons token rest => exact .inr ⟨token, List.mem_cons_self, rfl⟩

theorem blames_expect {kind : TokenKind} (h : expect fin kind expected tokens = .error r) :
    Blames fin tokens r := by
  cases tokens with
  | nil => exact blames_refuse h
  | cons token rest =>
      simp only [expect] at h
      split at h
      · cases h
      · exact blames_refuse h

theorem blames_operand (h : operand fin expected tokens = .error r) :
    Blames fin tokens r := by
  unfold operand at h
  split at h
  · cases h
  · cases h
  · exact blames_refuse h

theorem blames_source (h : source fin tokens = .error r) : Blames fin tokens r := by
  unfold source at h
  split at h
  · rename_i name span bracket bracketSpan more
    have hname := (grounds_cons ⟨.identifier, name, span⟩
      (⟨.leftBracket, bracket, bracketSpan⟩ :: more)).append (grounds_cons _ more)
    rcases error_of_bind h with hcolon | ⟨⟨colon, afterColon⟩, hcolon, hleft⟩
    · exact (blames_expect hcolon).after hname
    · rcases error_of_bind hleft with hclosing | ⟨⟨closing, afterClosing⟩, _, hend⟩
      · exact (blames_expect hclosing).after (hname.append (grounds_expect hcolon))
      · cases hend
  · rcases error_of_bind h with ho | ⟨⟨o, left⟩, _, hend⟩
    · exact blames_operand ho
    · cases hend

theorem blames_expression (h : expression fin tokens = .error r) : Blames fin tokens r := by
  unfold expression at h
  rcases error_of_bind h with hs | ⟨⟨s, left⟩, hs, hleft⟩
  · exact blames_source hs
  · have hsource := grounds_source hs
    simp only at hleft
    split at hleft
    · rename_i bar barSpan more
      rcases error_of_bind hleft with htarget | ⟨⟨target, afterTarget⟩, _, hend⟩
      · exact (blames_expect htarget).after (hsource.append (grounds_cons _ more))
      · cases hend
    · cases hleft

theorem blames_statement (h : statement fin tokens = .error r) : Blames fin tokens r := by
  unfold statement at h
  split at h
  · cases h
  · rename_i name span more
    have hname := grounds_cons ⟨.macroDef, name, span⟩ more
    rcases error_of_bind h with hpattern | ⟨⟨pattern, afterPattern⟩, hpattern, hleft⟩
    · exact (blames_operand hpattern).after hname
    · have hhead := hname.append (grounds_operand hpattern)
      rcases error_of_bind hleft with hbar | ⟨⟨bar, afterBar⟩, hbar, hlast⟩
      · exact (blames_expect hbar).after hhead
      · rcases error_of_bind hlast with hbody | ⟨⟨body, afterBody⟩, _, hend⟩
        · exact (blames_operand hbody).after (hhead.append (grounds_expect hbar))
        · cases hend
  · rcases error_of_bind h with he | ⟨⟨e, left⟩, _, hend⟩
    · exact blames_expression he
    · cases hend

/-- A block that is not closed is reported where it opens. -/
theorem blames_statements (h : statements fin opening tokens = .error r) :
    r.error.span = opening ∨ Blames fin tokens r := by
  fun_induction statements fin opening tokens with
  | case1 =>
      cases h
      exact .inl rfl
  | case2 value span more ih =>
      rcases ih h with hopening | hblames
      · exact .inl hopening
      · exact .inr (hblames.after (grounds_cons _ more))
  | case3 => cases h
  | case4 _ _ _ _ e hs =>
      cases h
      exact .inr (blames_statement hs)
  | case5 _ _ _ _ s left hs _ ih =>
      rcases error_of_bind h with hmore | ⟨more, _, hend⟩
      · rcases ih hmore with hopening | hblames
        · exact .inl hopening
        · exact .inr (hblames.after (grounds_statement hs))
      · cases hend
  | case6 _ _ _ _ s left hs _ => exact .inr ((blames_refuse h).after (grounds_statement hs))

theorem blames_items {index : Nat} (h : items fin index tokens = .error r) :
    Blames fin tokens r := by
  fun_induction items fin index tokens with
  | case1 => cases h
  | case2 index text span rest ih =>
      rcases error_of_bind h with hmore | ⟨more, _, hend⟩
      · exact (ih hmore).after (grounds_cons _ rest)
      · cases hend
  | case3 index value opening tokens e hss =>
      cases h
      rcases blames_statements hss with hopening | hblames
      · exact .inr ⟨⟨.blockOpen, value, opening⟩, List.mem_cons_self, hopening⟩
      · exact hblames.after (grounds_cons _ tokens)
  | case4 index value opening tokens ss closing left hss ih =>
      have hblock := (grounds_cons ⟨.blockOpen, value, opening⟩ tokens).append
        (grounds_statements hss)
      rcases error_of_bind h with hmore | ⟨more, _, hend⟩
      · exact (ih hmore).after hblock
      · cases hend
  | case5 => exact blames_refuse h

end Parse

/-! ## Documents -/

namespace Document

open Token

variable {tokens : List Token}

theorem significant_sublist (tokens : List Token) : (significant tokens).Sublist tokens :=
  List.takeWhile_sublist _

/-- The document itself begins with the source and ends with its tokens. -/
theorem grounded_of_read {document : Document} (h : read tokens = .ok document) :
    document.span = ⟨0, (endSpan tokens).stop, 1, 1⟩ ∧
      (∀ s ∈ document.items.flatMap Item.spans, Spanned tokens s) ∧
      ∀ o ∈ document.operands, Holds tokens o := by
  rcases ok_of_bind h with ⟨items, hitems, hend⟩
  cases hend
  rcases Parse.grounds_items hitems with ⟨word, hword, hspans, hoperands⟩
  have hsublist : word.Sublist tokens := by
    have hsignificant := significant_sublist tokens
    rwa [hword, List.append_nil] at hsignificant
  refine ⟨rfl, ?_, ?_⟩
  · intro s hs
    exact (hspans s hs).mono hsublist
  · intro o ho
    exact (hoperands o ho).mono hsublist.subset

theorem blamed_of_ofTokens {e : SyntaxError} (h : ofTokens tokens = .error e) :
    e.span = endSpan tokens ∨ ∃ t ∈ tokens, e.span = t.span := by
  unfold ofTokens at h
  cases hread : read tokens with
  | ok document =>
      rw [hread] at h
      cases h
  | error r =>
      rw [hread] at h
      cases h
      rcases error_of_bind hread with hitems | ⟨items, _, hend⟩
      · rcases Parse.blames_items hitems with hfin | ⟨t, ht, hspan⟩
        · exact .inl hfin
        · exact .inr ⟨t, (significant_sublist tokens).subset ht, hspan⟩
      · cases hend

end Document
end Stencil
