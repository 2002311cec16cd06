import Stencil.Proofs.Placement

/-!
# How a document is laid out

A document consists of parts: its host texts, and the statements of its blocks.  Each part
is read from tokens of its own, the parts one after another, and its span runs from the
first of these tokens to the last.  So the parts stand in the source in the order of the
document, apart from each other, and everything in a part stands inside its span.
-/

namespace Stencil

/-! ## Parts -/

inductive Part where
  | hostText (span : Span) (text : String)
  /-- A statement, and the block that it stands in. -/
  | statement (b : Block) (s : Statement)

namespace Part

def span : Part → Span
  | hostText span _ => span
  | statement _ s => s.span

/-- The spans of a part and of everything in it. -/
def spans : Part → List Span
  | hostText span _ => [span]
  | statement _ s => s.spans

end Part

namespace Item

def parts : Item → List Part
  | hostText span text => [.hostText span text]
  | block b => b.statements.map (.statement b)

end Item

namespace Document

def parts (document : Document) : List Part :=
  document.items.flatMap Item.parts

theorem mem_parts {document : Document} {b : Block} {s : Statement} :
    Part.statement b s ∈ document.parts ↔ b ∈ document.blocks ∧ s ∈ b.statements := by
  constructor
  · intro h
    rcases List.mem_flatMap.mp h with ⟨item, hitem, hpart⟩
    cases item with
    | hostText span text => cases List.mem_singleton.mp hpart
    | block b' =>
        rcases List.mem_map.mp hpart with ⟨s', hs', heq⟩
        cases heq
        exact ⟨List.mem_filterMap.mpr ⟨_, hitem, rfl⟩, hs'⟩
  · rintro ⟨hb, hs⟩
    exact List.mem_flatMap.mpr ⟨_, mem_items_of_mem_blocks hb, List.mem_map.mpr ⟨s, hs, rfl⟩⟩

end Document

/-! ## Spans inside of spans -/

namespace Span

def Inside (inner outer : Span) : Prop :=
  outer.start ≤ inner.start ∧ inner.stop ≤ outer.stop

theorem Inside.refl (s : Span) : s.Inside s :=
  ⟨Nat.le_refl _, Nat.le_refl _⟩

theorem Inside.trans {first second third : Span} (h : first.Inside second)
    (h' : second.Inside third) : first.Inside third :=
  ⟨Nat.le_trans h'.1 h.1, Nat.le_trans h.2 h'.2⟩

end Span

namespace Token

/-- The span runs from the first of the tokens to the last. -/
def Extent (word : List Token) (s : Span) : Prop :=
  ∃ first last, word.head? = some first ∧ word.getLast? = some last ∧
    s = first.span.join last.span

/-- No token ends before it begins, and each ends before the next begins. -/
structure Apart (tokens : List Token) : Prop where
  forward : ∀ t ∈ tokens, t.span.start ≤ t.span.stop
  pairwise : tokens.Pairwise fun first second => first.span.stop ≤ second.span.start

variable {word word' tokens : List Token} {s s' : Span}

theorem Apart.sublist (h : Apart tokens) (hsublist : word.Sublist tokens) : Apart word :=
  ⟨fun t ht => h.forward t (hsublist.subset ht), h.pairwise.sublist hsublist⟩

theorem extent_singleton (token : Token) : Extent [token] token.span :=
  ⟨token, token, rfl, rfl, rfl⟩

/-- From the first token of one word to the last of another. -/
theorem Extent.join (h : Extent word s) (mid : List Token) (h' : Extent word' s') :
    Extent (word ++ mid ++ word') (s.join s') := by
  rcases h with ⟨first, last, hfirst, _, rfl⟩
  rcases h' with ⟨first', last', _, hlast', rfl⟩
  refine ⟨first, last', ?_, ?_, rfl⟩
  · rw [List.append_assoc, List.head?_append, hfirst]
    rfl
  · rw [List.getLast?_append, hlast']
    rfl

theorem Extent.encloses (h : Extent word s) (hapart : Apart word) (hs' : Spanned word s') :
    s'.Inside s := by
  rcases h with ⟨first, last, hfirst, hlast, rfl⟩
  rcases hs' with ⟨begins, rest, ends, hsublist, hends, rfl⟩
  have hbegins := hsublist.subset List.mem_cons_self
  constructor
  · change first.span.start ≤ begins.span.start
    rcases List.head?_eq_some_iff.mp hfirst with ⟨later, rfl⟩
    rcases List.mem_cons.mp hbegins with rfl | hlater
    · exact Nat.le_refl _
    · exact Nat.le_trans (hapart.forward first List.mem_cons_self)
        ((List.pairwise_cons.mp hapart.pairwise).1 begins hlater)
  · change ends.span.stop ≤ last.span.stop
    rcases List.getLast?_eq_some_iff.mp hlast with ⟨earlier, rfl⟩
    have hmem := hsublist.subset hends
    rcases List.mem_append.mp hmem with hearlier | heq
    · have hle := (List.pairwise_append.mp hapart.pairwise).2.2 ends hearlier last
        List.mem_cons_self
      have hforward := hapart.forward last (List.mem_append_right _ List.mem_cons_self)
      exact Nat.le_trans hle hforward
    · exact Nat.le_of_eq (congrArg (fun t => t.span.stop) (List.mem_singleton.mp heq))

theorem apart_tokenize (source : String) : Apart (tokenize source) := by
  rcases tiles_tokenize source with ⟨tokens, htokens, htiles⟩
  rw [htokens]
  constructor
  · intro t ht
    rcases List.mem_append.mp ht with ht | ht
    · have hbounds := htiles.bounds t ht
      omega
    · rw [List.mem_singleton.mp ht]
      exact Nat.le_refl _
  · refine List.pairwise_append.mpr ⟨htiles.pairwise, List.pairwise_singleton _ _, ?_⟩
    intro first hfirst eof heof
    rw [List.mem_singleton.mp heof]
    have hbounds := htiles.bounds first hfirst
    simp only [Position.upTo, Position.advanceOver_offset]
    omega

end Token

/-! ## The tokens of a part -/

/-- The part is read from these tokens. -/
structure Part.Laid (part : Part) (word : List Token) : Prop where
  extent : Token.Extent word part.span
  spans : ∀ s ∈ part.spans, Token.Spanned word s

/-- The parts are read from tokens of their own, one part after another. -/
def Part.Lie (parts : List Part) (tokens : List Token) : Prop :=
  ∃ words, words.flatten.Sublist tokens ∧ List.Forall₂ Part.Laid parts words

namespace Part

variable {part : Part} {parts parts' : List Part} {tokens tokens' : List Token}

theorem Lie.append (h : Lie parts tokens) (h' : Lie parts' tokens') :
    Lie (parts ++ parts') (tokens ++ tokens') := by
  rcases h with ⟨words, hsublist, hlaid⟩
  rcases h' with ⟨words', hsublist', hlaid'⟩
  refine ⟨words ++ words', ?_, List.rel_append hlaid hlaid'⟩
  rw [List.flatten_append]
  exact hsublist.append hsublist'

theorem Lie.mono (h : Lie parts tokens) (hsublist : tokens.Sublist tokens') :
    Lie parts tokens' := by
  rcases h with ⟨words, hwords, hlaid⟩
  exact ⟨words, hwords.trans hsublist, hlaid⟩

theorem lie_nil (tokens : List Token) : Lie [] tokens :=
  ⟨[], List.nil_sublist tokens, .nil⟩

theorem Laid.lie {word : List Token} (h : part.Laid word) : Lie [part] word :=
  ⟨[word], by rw [List.flatten_singleton], .cons h .nil⟩

/-- What is in a part is inside of it, and parts do not overlap. -/
theorem Lie.inside (h : Lie parts tokens) (hapart : Token.Apart tokens) :
    (∀ part ∈ parts, ∀ s ∈ part.spans, s.Inside part.span) ∧
      parts.Pairwise fun first second => first.span.stop ≤ second.span.start := by
  rcases h with ⟨words, hsublist, hlaid⟩
  replace hapart := hapart.sublist hsublist
  clear hsublist
  induction hlaid with
  | nil => simp
  | @cons part word parts words hpart hparts ih =>
      rw [List.flatten_cons] at hapart
      have hword := hapart.sublist (List.sublist_append_left _ _)
      rcases ih (hapart.sublist (List.sublist_append_right _ _)) with ⟨hinside, hpairwise⟩
      constructor
      · intro other hother s hs
        rcases List.mem_cons.mp hother with rfl | hother
        · exact hpart.extent.encloses hword (hpart.spans s hs)
        · exact hinside other hother s hs
      · refine List.pairwise_cons.mpr ⟨?_, hpairwise⟩
        intro other hother
        rcases exists_of_mem_of_forall₂ hparts.flip hother with ⟨word', hword', hlaid'⟩
        rcases hpart.extent with ⟨_, last, _, hlast, hspan⟩
        rcases hlaid'.extent with ⟨first', _, hfirst', _, hspan'⟩
        rw [hspan, hspan']
        apply (List.pairwise_append.mp hapart.pairwise).2.2
        · exact List.mem_of_getLast? hlast
        · exact List.mem_flatten.mpr ⟨word', hword', List.mem_of_mem_head? hfirst'⟩

end Part

namespace Parse

open Token

variable {fin opening : Span} {expected : Expected} {tokens rest : List Token}

/-- What was read has the extent of the tokens before `rest`. -/
def Extends (s : Span) (tokens rest : List Token) : Prop :=
  ∃ word, tokens = word ++ rest ∧ Extent word s

theorem extends_operand {o : Operand} (h : operand fin expected tokens = .ok (o, rest)) :
    Extends o.span tokens rest := by
  unfold operand at h
  split at h
  · cases h
    exact ⟨[_], rfl, extent_singleton _⟩
  · cases h
    exact ⟨[_], rfl, extent_singleton _⟩
  · cases h

theorem extends_source {s : Source} (h : source fin tokens = .ok (s, rest)) :
    Extends s.span tokens rest := by
  unfold source at h
  split at h
  · rename_i name span bracket bracketSpan more
    rcases ok_of_bind h with ⟨⟨colon, afterColon⟩, hcolon, hleft⟩
    rcases ok_of_bind hleft with ⟨⟨closing, afterClosing⟩, hclosing, hend⟩
    cases hend
    rcases of_expect_ok hcolon with ⟨rfl, _⟩
    rcases of_expect_ok hclosing with ⟨rfl, _⟩
    exact ⟨_, rfl, (extent_singleton ⟨.identifier, name, span⟩).join
      [⟨.leftBracket, bracket, bracketSpan⟩, colon] (extent_singleton closing)⟩
  · rcases ok_of_bind h with ⟨⟨o, left⟩, ho, hend⟩
    cases hend
    exact extends_operand ho

theorem extends_expression {e : Expression} (h : expression fin tokens = .ok (e, rest)) :
    Extends e.span tokens rest := by
  unfold expression at h
  rcases ok_of_bind h with ⟨⟨s, left⟩, hs, hleft⟩
  rcases extends_source hs with ⟨word, rfl, hword⟩
  simp only at hleft
  split at hleft
  · rename_i bar barSpan more
    rcases ok_of_bind hleft with ⟨⟨target, afterTarget⟩, htarget, hend⟩
    cases hend
    rcases of_expect_ok htarget with ⟨rfl, _⟩
    refine ⟨_, ?_, hword.join [⟨.pipe, bar, barSpan⟩] (extent_singleton target)⟩
    simp
  · cases hleft
    exact ⟨word, rfl, hword⟩

theorem extends_statement {s : Statement} (h : statement fin tokens = .ok (s, rest)) :
    Extends s.span tokens rest := by
  unfold statement at h
  split at h
  · cases h
    exact ⟨[_], rfl, extent_singleton _⟩
  · rename_i name span more
    rcases ok_of_bind h with ⟨⟨pattern, afterPattern⟩, hpattern, hleft⟩
    rcases ok_of_bind hleft with ⟨⟨bar, afterBar⟩, hbar, hlast⟩
    rcases ok_of_bind hlast with ⟨⟨body, afterBody⟩, hbody, hend⟩
    cases hend
    rcases extends_operand hpattern with ⟨word, rfl, _⟩
    rcases of_expect_ok hbar with ⟨rfl, _⟩
    rcases extends_operand hbody with ⟨word', rfl, hword'⟩
    refine ⟨_, ?_, (extent_singleton ⟨.macroDef, name, span⟩).join (word ++ [bar]) hword'⟩
    simp
  · rcases ok_of_bind h with ⟨⟨e, left⟩, he, hend⟩
    cases hend
    exact extends_expression he

theorem laid_statement {s : Statement} (h : statement fin tokens = .ok (s, rest)) (b : Block) :
    ∃ word, tokens = word ++ rest ∧ (Part.statement b s).Laid word := by
  rcases extends_statement h with ⟨word, htokens, hextent⟩
  rcases grounds_statement h with ⟨word', htokens', hspans, _⟩
  rw [← List.append_cancel_right (htokens.symm.trans htokens')] at hspans
  exact ⟨word, htokens, hextent, hspans⟩

theorem lie_statements {ss : List Statement} {closing : Span}
    (h : statements fin opening tokens = .ok (ss, closing, rest)) (b : Block) :
    ∃ word, tokens = word ++ rest ∧ Part.Lie (ss.map (.statement b)) word := by
  fun_induction statements fin opening tokens generalizing ss with
  | case1 => cases h
  | case2 value span more ih =>
      rcases ih h with ⟨word, rfl, hlie⟩
      exact ⟨_ :: word, rfl, hlie.mono (List.sublist_cons_self _ word)⟩
  | case3 value span more =>
      cases h
      exact ⟨[_], rfl, Part.lie_nil _⟩
  | case4 => cases h
  | case5 _ _ _ _ s left hs _ ih =>
      rcases ok_of_bind h with ⟨⟨more, closing', rest'⟩, hmore, hend⟩
      cases hend
      rcases laid_statement hs b with ⟨word, htokens, hlaid⟩
      rcases ih hmore with ⟨word', rfl, hlie⟩
      exact ⟨word ++ word', by rw [htokens, List.append_assoc], hlaid.lie.append hlie⟩
  | case6 => cases h

theorem lie_items {index : Nat} {is : List Item} (h : items fin index tokens = .ok is) :
    Part.Lie (is.flatMap Item.parts) tokens := by
  fun_induction items fin index tokens generalizing is with
  | case1 =>
      cases h
      exact Part.lie_nil _
  | case2 index text span rest ih =>
      rcases ok_of_bind h with ⟨more, hmore, hend⟩
      cases hend
      have hlaid : (Part.hostText span text).Laid [⟨.hostText, text, span⟩] := by
        refine ⟨extent_singleton _, fun s hs => ?_⟩
        rw [List.mem_singleton.mp hs]
        exact spanned_of_mem List.mem_cons_self
      exact hlaid.lie.append (ih hmore)
  | case3 => cases h
  | case4 index value opening tokens ss closing left hss ih =>
      rcases ok_of_bind h with ⟨more, hmore, hend⟩
      cases hend
      rcases lie_statements hss ⟨opening.join closing, index, ss⟩ with ⟨word, rfl, hlie⟩
      exact (hlie.append (ih hmore)).mono (List.sublist_cons_self _ _)
  | case5 => cases h

end Parse

namespace Document

/-- The parts of a document that was read from a source hold all that is in them, and they
stand in the order of the document. -/
theorem parts_inside {source : String} {document : Document}
    (h : ofTokens (tokenize source) = .ok document) :
    (∀ part ∈ document.parts, ∀ s ∈ part.spans, s.Inside part.span) ∧
      document.parts.Pairwise fun first second => first.span.stop ≤ second.span.start := by
  rcases ok_of_bind (read_of_ofTokens h) with ⟨items, hitems, hend⟩
  cases hend
  have hlie := (Parse.lie_items hitems).mono (significant_sublist (tokenize source))
  exact hlie.inside (Token.apart_tokenize source)

end Document
end Stencil
