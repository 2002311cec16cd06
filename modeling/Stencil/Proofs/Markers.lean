import Stencil.Proofs.Excerpts
import Stencil.Proofs.LexicalGrammar
import Stencil.Proofs.Offender

/-!
# Where markers stand

The carriage returns at the end of a line are not shown, but they are counted where the
marker is placed.  So a marker leaves the shown line if and only if its place is behind
such carriage returns.  Of the tokens only line ends and the end of the input stand there.
-/

namespace Stencil

/-! ## Places behind carriage returns -/

/-- A carriage return stands before the place, and nothing but carriage returns after it on
its line. -/
def BehindReturns (source : List Char) (p : Nat) : Prop :=
  (source.take p).getLast? = some '\r' ∧
    ∀ c ∈ (source.drop p).takeWhile (· != '\n'), c = '\r'

variable {source front before behind rest : List Char} {p start : Nat}

theorem LineAround.behindReturns_iff (h : LineAround source p front before behind rest) :
    BehindReturns source p ↔ before.getLast? = some '\r' ∧ ∀ c ∈ behind, c = '\r' := by
  have hbehind : '\n' ∉ behind := fun hmem => h.unbroken (List.mem_append_right _ hmem)
  have hlast : (front ++ before).getLast? = some '\r' ↔ before.getLast? = some '\r' := by
    rw [List.getLast?_append]
    cases hbefore : before.getLast? with
    | some c => rfl
    | none =>
        rcases h.opens with rfl | hopens
        · rfl
        · rw [hopens]
          decide
  rw [BehindReturns, h.take_place, h.drop_place, takeWhile_line hbehind h.closes, hlast]

theorem not_behindReturns_of_mem {c : Char} (hc : c ∈ (source.drop p).takeWhile (· != '\n'))
    (hreturn : c ≠ '\r') : ¬BehindReturns source p :=
  fun h => hreturn (h.2 c hc)

theorem not_behindReturns_of_drop {c : Char} {after : List Char} (h : source.drop p = c :: after)
    (hline : c ≠ '\n') (hreturn : c ≠ '\r') : ¬BehindReturns source p := by
  apply not_behindReturns_of_mem (c := c) _ hreturn
  have hpass : (c != '\n') = true := bne_iff_ne.mpr hline
  rw [h, List.takeWhile_cons_of_pos (p := (· != '\n')) hpass]
  exact List.mem_cons_self

namespace Excerpt

/-- The marker lies under the line that is shown, or directly after its last character. -/
def Fits (e : Excerpt) : Prop :=
  e.offset + e.width ≤ e.text.toList.length + 1

instance (e : Excerpt) : Decidable e.Fits :=
  inferInstanceAs (Decidable (_ ≤ _))

theorem displayWidth_append (cs ds : List Char) :
    displayWidth (cs ++ ds) = displayWidth cs + displayWidth ds := by
  rw [displayWidth, expand_append, List.length_append, displayWidth, displayWidth]

section Line

variable {raw returns : List Char}

/-- A place behind the carriage returns is one after the end of what is shown. -/
theorem length_lt_iff (hline : before ++ behind = raw ++ returns)
    (hreturns : ∀ c ∈ returns, c = '\r') (hraw : raw.getLast? ≠ some '\r') :
    raw.length < before.length ↔ before.getLast? = some '\r' ∧ ∀ c ∈ behind, c = '\r' := by
  rcases List.append_eq_append_iff.mp hline with ⟨shown, rfl, rfl⟩ | ⟨hidden, rfl, rfl⟩
  · have hlength : ¬(before ++ shown).length < before.length := by simp
    refine iff_of_false hlength ?_
    rintro ⟨hbefore, hbehind⟩
    rcases List.eq_nil_or_concat shown with rfl | ⟨others, c, rfl⟩
    · rw [List.append_nil] at hraw
      exact hraw hbefore
    · have hc : c = '\r' := hbehind c (by simp)
      subst hc
      exact hraw (by simp)
  · rcases List.eq_nil_or_concat hidden with rfl | ⟨others, c, rfl⟩
    · rw [List.append_nil]
      exact iff_of_false (Nat.lt_irrefl _) fun h => hraw h.1
    · have hc : c = '\r' := hreturns c (by simp)
      subst hc
      refine iff_of_true (by simp) ⟨by simp, ?_⟩
      exact fun c hc => hreturns c (List.mem_append_right _ hc)

/-- What is marked on the shown line is no wider than what is shown there. -/
theorem displayWidth_take_le (hline : before ++ behind = raw ++ returns) (rest : List Char)
    {n : Nat} (hn : before.length + n ≤ raw.length) :
    displayWidth before + displayWidth ((behind ++ rest).take n) ≤ displayWidth raw := by
  rcases exists_shown hline rest hn with ⟨shown, rfl, _, hmarked⟩
  have hsplit := displayWidth_append (shown.take n) (shown.drop n)
  rw [List.take_append_drop] at hsplit
  rw [hmarked, displayWidth_append, hsplit]
  omega

theorem displayWidth_lt (hline : before ++ behind = raw ++ returns)
    (hlt : raw.length < before.length) : displayWidth raw < displayWidth before := by
  rcases exists_shown hline.symm [] (n := 1) hlt with ⟨hidden, rfl, hne, _⟩
  have hpos := displayWidth_pos (List.ne_nil_of_length_pos hne)
  rw [displayWidth_append]
  omega

end Line

/-- The marker of a stretch that begins in a source fits unless the stretch begins behind
carriage returns. -/
theorem fits_ofStretch_iff (hstart : start ≤ source.length) (stop : Int) :
    (ofStretch source start stop).Fits ↔ ¬BehindReturns source start := by
  rcases exists_lineAround (Nat.min_le_right start source.length) with
    ⟨front, before, behind, rest, h⟩
  rcases Text.exists_of_dropWhileEnd (· == '\r') (before ++ behind) with
    ⟨returns, hline, hreturns, hlast⟩
  have hshown := ofStretch_eq h stop
  rw [Nat.min_eq_left hstart] at h hshown
  have hplace := h.place
  generalize Text.dropWhileEnd (· == '\r') (before ++ behind) = raw at hline hlast hshown
  have hplaced : raw.length < before.length ↔ BehindReturns source start :=
    (length_lt_iff hline (fun c hc => beq_iff_eq.mp (hreturns c hc))
      fun hend => absurd (hlast '\r' hend) (by decide)).trans h.behindReturns_iff.symm
  rw [← hplaced, Nat.not_lt, hshown, Fits, String.toList_ofList]
  change displayWidth before + max 1 _ ≤ displayWidth raw + 1 ↔ _
  constructor
  · intro hfits
    by_contra hlt
    have hbeyond := displayWidth_lt hline (Nat.lt_of_not_le hlt)
    omega
  · intro hle
    -- one column is marked even where the stretch has nothing of the line
    have hnone := displayWidth_take_le hline rest (n := 0) hle
    generalize hn : (min (max (stop : Int) start) (front.length + raw.length) - start).toNat = n
    have hmarked := displayWidth_take_le hline rest (n := n) (by omega)
    omega

end Excerpt

/-! ## Tokens -/

namespace Token

variable {left after : List Token} {token : Token}

theorem Exact.eq_ended (h : Exact source left token after) (hhost : ¬InBlock left) :
    token.span.start = ended left := by
  rcases h.gap with ⟨blanks, _, hstart, _, hblanks⟩
  have hnil : blanks = [] := Decidable.not_not.mp fun hne => hhost (hblanks hne)
  rw [hstart, hnil]
  rfl

/-- Inside of a block a token begins with a character that is no blank, and a line end is
the only token that begins with the end of a line. -/
theorem Exact.not_behindReturns (h : Exact source left token after) (hblock : InBlock left)
    (hline : token.kind ≠ .newline) (hend : token.kind ≠ .endOfInput) :
    ¬BehindReturns source token.span.start := by
  have hne : source.drop token.span.start ≠ [] := fun hnil => hend (h.endOfInput.1.mpr hnil)
  rcases h.script hblock hne with ⟨htaken, hblank⟩
  generalize hdrop : source.drop token.span.start = cs at hne htaken hblank
  cases cs with
  | nil => exact absurd rfl hne
  | cons c rest =>
      apply not_behindReturns_of_drop hdrop
      · rintro rfl
        have hword : OfClass .newline ['\n'] := .newline (.inl rfl)
        have hstands : ['\n'] <+: '\n' :: rest := ⟨rest, rfl⟩
        generalize token.kind = kind at htaken hline
        cases htaken with
        | word _ _ hlongest => exact hline (hlongest _ _ hword hstands).1.symm
        | error hnone _ => exact hnone _ _ hword hstands
      · rintro rfl
        exact hblank '\r' (by simp) rfl

/-- Only the end of a block stands before host text. -/
theorem blockClose_of_hostText (h : Exact source left token after)
    (hkind : token.kind = .hostText) {last : Token} {others : List Token}
    (hlast : Exact source others last (token :: after)) (hleft : left = others ++ [last]) :
    last.kind = .blockClose := by
  have hhost := (h.hostText hkind).1
  rw [hleft, inBlock_concat, not_or, not_and_not_right] at hhost
  rcases hhost with ⟨hopen, hclose⟩
  by_cases hblock : InBlock others
  · exact hclose hblock
  · rcases hlast.host hblock with htext | hopens | hend
    · rcases (hlast.hostText htext).2.2.2 with ⟨next, more, hnext, hkinds⟩
      cases hnext
      rw [hkind] at hkinds
      simp at hkinds
    · exact absurd hopens hopen
    · exact absurd (hlast.endOfInput.2.mp hend) (List.cons_ne_nil _ _)

/-- The character before the place where a token ends is its last one. -/
theorem getLast?_take_stop {s : Span} (h : s.start ≤ s.stop) (htext : s.text source ≠ []) :
    (source.take s.stop).getLast? = (s.text source).getLast? := by
  have hstop : s.stop = s.start + (s.stop - s.start) := by omega
  rw [hstop, List.take_add]
  change (_ ++ s.text source).getLast? = _
  rw [List.getLast?_append_of_ne_nil _ htext]

end Token

theorem tokenize_exact {source : String} {left after : List Token} {token : Token}
    (h : tokenize source = left ++ token :: after) :
    Token.Exact source.toList left token after :=
  (Token.lexed_scan .host Position.origin source.toList).exact
    (Token.reached_origin source.toList) h

theorem Token.text_of_blockClose {source : String} {token : Token} (h : token ∈ tokenize source)
    (hkind : token.kind = .blockClose) : token.span.text source.toList = ['}', '}'] := by
  have hspelled := tokenize_spelled source token h (by rw [hkind]; decide)
  rw [hkind] at hspelled
  generalize token.value = value, token.span.text source.toList = text at hspelled
  cases hspelled
  rfl

theorem not_behindReturns_of_hostText {source : String} {left after : List Token} {token : Token}
    (h : tokenize source = left ++ token :: after) (hkind : token.kind = .hostText) :
    ¬BehindReturns source.toList token.span.start := by
  have htoken := tokenize_exact h
  rintro ⟨hreturn, _⟩
  rw [htoken.eq_ended (htoken.hostText hkind).1] at hreturn
  rcases List.eq_nil_or_concat left with rfl | ⟨others, last, hleft⟩
  · cases hreturn
  · rw [List.concat_eq_append] at hleft
    have hsplit : tokenize source = others ++ last :: token :: after := by
      rw [h, hleft, List.append_assoc]
      rfl
    have hlast := tokenize_exact hsplit
    have hclose := Token.blockClose_of_hostText htoken hkind hlast hleft
    have hmem : last ∈ tokenize source := by
      rw [hsplit]
      simp
    have hbraces := Token.text_of_blockClose hmem hclose
    have hbefore := Token.getLast?_take_stop hlast.bounds.1 (by rw [hbraces]; simp)
    rw [hleft, Token.ended_concat, hbefore, hbraces] at hreturn
    cases hreturn

/-- Only line ends and the end of the input stand behind carriage returns. -/
theorem tokenize_not_behindReturns (source : String) :
    ∀ t ∈ tokenize source, t.kind ≠ .newline → t.kind ≠ .endOfInput →
      ¬BehindReturns source.toList t.span.start := by
  intro t ht hline hend
  rcases List.append_of_mem ht with ⟨left, after, htokens⟩
  have htoken := tokenize_exact htokens
  by_cases hblock : Token.InBlock left
  · exact htoken.not_behindReturns hblock hline hend
  · rcases htoken.host hblock with htext | hopen | heof
    · exact not_behindReturns_of_hostText htokens htext
    · have hbraces : Token.opening <+: source.toList.drop t.span.start := by
        rw [← (htoken.blockOpen hopen).2.1]
        exact List.take_prefix _ _
      rcases hbraces with ⟨rest, hdrop⟩
      exact not_behindReturns_of_drop hdrop.symm (by decide) (by decide)
    · exact absurd heof hend

/-! ## The parts of a document -/

theorem Grammar.IsStatement.newline_notMem {word : List TokenKind}
    (h : Grammar.IsStatement word) : .newline ∉ word := by
  have hsource {word : List TokenKind} (h : Grammar.IsSource word) : .newline ∉ word := by
    cases h with
    | operand ho => cases ho <;> decide
    | array => decide
  cases h with
  | comment => decide
  | definition hpattern hbody => cases hpattern <;> cases hbody <;> decide
  | plain hs => exact hsource hs
  | piped hs => simp [hsource hs]

namespace Parse

open Token Grammar

variable {fin opening closing : Span} {tokens others rest : List Token} {s : Span}

/-- The span begins with one of the tokens that is not a line end. -/
def Begins (tokens : List Token) (s : Span) : Prop :=
  ∃ token ∈ tokens, token.kind ≠ .newline ∧ s.start = token.span.start

theorem Begins.mono (h : Begins tokens s) (hsubset : tokens ⊆ others) : Begins others s := by
  rcases h with ⟨token, htoken, hkind, hs⟩
  exact ⟨token, hsubset htoken, hkind, hs⟩

theorem Begins.of_head {token : Token} (hkind : token.kind ≠ .newline)
    (hs : s.start = token.span.start) : Begins (token :: rest) s :=
  ⟨token, List.mem_cons_self, hkind, hs⟩

theorem begins_of_statement {statement : Statement}
    (h : Parse.statement fin tokens = .ok (statement, rest)) :
    ∀ s ∈ statement.spans, Begins tokens s := by
  rcases grounds_statement h with ⟨word, rfl, hspans, _⟩
  rcases takes_statement h with ⟨word', hword', hgrammar, _⟩
  cases List.append_cancel_right hword'
  intro s hs
  rcases hspans s hs with ⟨first, more, last, hsublist, _, rfl⟩
  have hfirst : first ∈ word := hsublist.subset List.mem_cons_self
  refine ⟨first, List.mem_append_left _ hfirst, fun hkind => ?_, rfl⟩
  exact hgrammar.newline_notMem (hkind ▸ List.mem_map_of_mem hfirst)

theorem Grounds.rest_subset {spans : List Span} {operands : List Operand}
    (h : Grounds spans operands tokens rest) : rest ⊆ tokens := by
  rcases h with ⟨word, rfl, _⟩
  exact List.subset_append_right _ _

theorem begins_of_statements {ss : List Statement}
    (h : statements fin opening tokens = .ok (ss, closing, rest)) :
    ∀ s ∈ ss.flatMap Statement.spans, Begins tokens s := by
  fun_induction statements fin opening tokens generalizing ss with
  | case1 => cases h
  | case2 value span more ih =>
      intro s hs
      exact (ih h s hs).mono (List.subset_cons_self _ _)
  | case3 value span more =>
      cases h
      simp
  | case4 => cases h
  | case5 _ _ _ _ statement left hstatement _ ih =>
      rcases ok_of_bind h with ⟨⟨more, closing', rest'⟩, hmore, hend⟩
      cases hend
      rw [List.flatMap_cons, List.forall_mem_append]
      constructor
      · exact begins_of_statement hstatement
      · intro s hs
        exact (ih hmore s hs).mono (grounds_statement hstatement).rest_subset
  | case6 => cases h

theorem begins_of_items {index : Nat} {is : List Item}
    (h : items fin index tokens = .ok is) : ∀ s ∈ is.flatMap Item.spans, Begins tokens s := by
  fun_induction items fin index tokens generalizing is with
  | case1 =>
      cases h
      simp
  | case2 index text span more ih =>
      rcases ok_of_bind h with ⟨items, hitems, hend⟩
      cases hend
      rw [List.flatMap_cons, Item.spans, List.singleton_append, List.forall_mem_cons]
      constructor
      · exact .of_head (by simp) rfl
      · intro s hs
        exact (ih hitems s hs).mono (List.subset_cons_self _ _)
  | case3 => cases h
  | case4 index value opening more ss closing left hss ih =>
      rcases ok_of_bind h with ⟨items, hitems, hend⟩
      cases hend
      have hleft := (grounds_statements hss).rest_subset
      rw [List.flatMap_cons, Item.spans, List.cons_append, List.forall_mem_cons,
        List.forall_mem_append]
      refine ⟨.of_head (by simp) rfl, ?_, ?_⟩
      · intro s hs
        exact (begins_of_statements hss s hs).mono (List.subset_cons_self _ _)
      · intro s hs
        exact (ih hitems s hs).mono (List.subset_cons_of_subset _ hleft)
  | case5 => cases h

end Parse

/-- Between the quotes of a string, and at the last one, no place is behind carriage returns. -/
theorem Span.not_behindReturns_slice {s : Span} {body : List Char} (hs : s.Within source)
    (htext : s.text source = '"' :: (body ++ ['"'])) (hline : '\n' ∉ body) {i : Nat}
    (hi : i ≤ body.length) : ¬BehindReturns source (s.start + (i + 1)) := by
  rcases Span.append_of_text hs htext with ⟨front, after, hsource, hstart⟩
  have hdrop : source.drop (s.start + (i + 1)) = body.drop i ++ '"' :: after := by
    rw [hsource, ← hstart, List.drop_length_add_append, List.cons_append, List.drop_succ_cons,
      List.append_assoc, List.drop_append_of_le_length hi]
    rfl
  apply not_behindReturns_of_mem (c := '"') _ (by decide)
  have hpass : ∀ c ∈ body.drop i, (c != '\n') = true := fun c hc =>
    bne_iff_ne.mpr (ne_of_mem_of_not_mem (List.mem_of_mem_drop hc) hline)
  rw [hdrop, List.takeWhile_append_of_pos hpass, List.takeWhile_cons_of_pos (by decide)]
  simp

namespace Document

variable {source : String} {document : Document}

theorem ne_endOfInput_of_mem_significant {tokens : List Token} {token : Token}
    (h : token ∈ significant tokens) : token.kind ≠ .endOfInput := by
  simpa [significant] using List.mem_takeWhile_imp h

/-- No part of a document begins behind carriage returns, and no part of a string in it. -/
theorem located_not_behindReturns (h : ofTokens (tokenize source) = .ok document) :
    document.Located fun s => ¬BehindReturns source.toList s.start := by
  rcases ok_of_bind (read_of_ofTokens h) with ⟨items, hitems, hend⟩
  rcases grounded_of_read (read_of_ofTokens h) with ⟨hspan, _, hoperands⟩
  constructor
  · intro s hs
    rcases List.mem_cons.mp hs with rfl | hs
    · rw [hspan]
      rintro ⟨hreturn, _⟩
      cases hreturn
    · cases hend
      rcases Parse.begins_of_items hitems s hs with ⟨token, htoken, hline, hstart⟩
      rw [hstart]
      exact tokenize_not_behindReturns source token
        ((significant_sublist _).subset htoken) hline (ne_endOfInput_of_mem_significant htoken)
  · intro o ho
    have hholds := hoperands o ho
    have hwritten := Operand.written_of_holds hholds
    cases hwritten with
    | string hwithin htext hline =>
        refine .string (tokenize_not_behindReturns source _ hholds nofun nofun) ?_
        intro start stop hle hstop
        exact Span.not_behindReturns_slice hwithin htext hline (Nat.le_trans hle hstop)
    | identifier _ _ =>
        exact .identifier (tokenize_not_behindReturns source _ hholds nofun nofun)

/-- A rejection is about the opening of a block, or it names what was found. -/
theorem found_of_ofTokens {tokens : List Token} {error : SyntaxError}
    (h : ofTokens tokens = .error error) :
    (∃ opening ∈ tokens, opening.kind = .blockOpen ∧ error = .unclosedBlock opening.span) ∨
      ∃ found expected, error = .unexpected found expected ∧
        (found ∈ tokens ∨ found.kind = .endOfInput) := by
  rcases exists_of_ofTokens_error h with ⟨r, hread, rfl⟩
  rcases error_of_bind hread with hitems | ⟨_, _, hend⟩
  · rcases Parse.items_stops hitems with
      ⟨opening, ⟨before, inside, htokens, hkind, _, _⟩, rfl⟩ |
      ⟨word, expected, htokens, hstops⟩
    · left
      refine ⟨opening, (significant_sublist tokens).subset ?_, hkind, rfl⟩
      rw [htokens]
      simp
    · right
      refine ⟨_, expected, hstops.error, ?_⟩
      generalize r.rest = rest at htokens
      cases rest with
      | nil => exact .inr rfl
      | cons found rest =>
          left
          apply (significant_sublist tokens).subset
          rw [htokens]
          exact List.mem_append_right _ List.mem_cons_self
  · cases hend

end Document

/-! ## Sources -/

/-- The error is about the end of a line, or of the input, behind carriage returns. -/
def CompileError.AtReturns (source : List Char) (e : CompileError) : Prop :=
  ∃ found expected, e = .structural (.unexpected found expected) ∧
    (found.kind = .newline ∨ found.kind = .endOfInput) ∧ BehindReturns source found.span.start

namespace Program

variable {source : String}

theorem behindReturns_iff_of_ofTokens_error {error : SyntaxError}
    (h : Document.ofTokens (tokenize source) = .error error) :
    BehindReturns source.toList error.span.start ↔
      (CompileError.structural error).AtReturns source.toList := by
  rcases Document.found_of_ofTokens h with
    ⟨opening, hopening, hkind, rfl⟩ | ⟨found, expected, rfl, hfound⟩
  · have hnot := tokenize_not_behindReturns source opening hopening (by rw [hkind]; decide)
      (by rw [hkind]; decide)
    refine iff_of_false hnot ?_
    rintro ⟨_, _, heq, _⟩
    cases heq
  · constructor
    · intro hbehind
      refine ⟨found, expected, rfl, ?_, hbehind⟩
      by_contra hkinds
      rcases not_or.mp hkinds with ⟨hline, hend⟩
      rcases hfound with hmem | hlast
      · exact tokenize_not_behindReturns source found hmem hline hend hbehind
      · exact hend hlast
    · rintro ⟨_, _, heq, _, hbehind⟩
      cases heq
      exact hbehind

/-- No other error has a place behind carriage returns, nor has a note. -/
theorem behindReturns_iff_of_compile_error {e : CompileError} (h : compile source = .error e) :
    ∀ s ∈ e.spans, BehindReturns source.toList s.start ↔ e.AtReturns source.toList := by
  unfold compile ofTokens at h
  split at h
  · rename_i error herror
    cases h
    intro s hs
    rw [List.mem_singleton.mp hs]
    exact behindReturns_iff_of_ofTokens_error herror
  · rename_i document hdocument
    split at h
    · rename_i error herror
      cases h
      intro s hs
      have hlocated := Document.located_not_behindReturns hdocument
      refine iff_of_false (Document.located_of_lower_error hlocated herror s hs) ?_
      rintro ⟨_, _, heq, _⟩
      cases heq
    · cases h

theorem not_behindReturns_of_run_error {p : Program} (h : compile source = .ok p) {σ : Type}
    {c : Setting σ} {world : σ}
    (hhooks : ∀ point e, ¬c.registry.Throws c.machine point (.runtime e)) {e : RuntimeError}
    (he : (p.run c world).error = some e) {s : Span} (hs : e.span = some s) :
    ¬BehindReturns source.toList s.start := by
  have hlocated := located_of_compile (fun document => Document.located_not_behindReturns) h
  rcases span_of_run_error hhooks he with hnone | ⟨i, hi, hspan⟩
  · cases hs.symm.trans hnone
  · rcases hlocated.contains hi with ⟨s', hs', hnot⟩
    cases hs'.symm.trans (hspan.trans hs)
    exact hnot

end Program

namespace Excerpt

open Program (compile)

theorem fits_iff_of_yielded {source : String} {s : Span} (h : Span.Yielded source s) :
    (excerpt source s).Fits ↔ ¬BehindReturns source.toList s.start :=
  fits_ofStretch_iff (Nat.le_trans h.within.ordered h.within.bounded) s.stop

/-- The markers of a rejection and of its notes lie under the lines that are shown for them,
or directly after their last characters, unless the rejection is about the end of a line or of
the input behind carriage returns.  Those of errors at run time always do, unless a hook makes
up an error of its own. -/
theorem markers_fit (source : String) :
    (∀ e, compile source = .error e → ∀ s ∈ e.spans,
      ((excerpt source s).Fits ↔ ¬e.AtReturns source.toList)) ∧
    ∀ p, compile source = .ok p → ∀ (σ : Type) (c : Setting σ) (world : σ),
      (∀ point e, ¬c.registry.Throws c.machine point (.runtime e)) →
        ∀ e, (p.run c world).error = some e →
          ∀ s, e.span = some s → (excerpt source s).Fits := by
  constructor
  · intro e he s hs
    rw [fits_iff_of_yielded (.rejection he hs),
      Program.behindReturns_iff_of_compile_error he s hs]
  · intro p hp σ c world hhooks e he s hs
    rw [fits_iff_of_yielded (.failure hp hhooks he hs)]
    exact Program.not_behindReturns_of_run_error hp hhooks he hs

/-- A name that is undefined on a line that ends in carriage returns, and an operand that is
missing where such a line ends. -/
theorem markers_fit_of_returns :
    let c : Setting Unit := ⟨"m", ⟨[], []⟩, Registry.empty, Sink.accepting, false⟩
    let source := "a\r\n\x7b\x7b x\r\r\n\x7d\x7d"
    let missing := "\x7b\x7b @m\r\n\x7d\x7d"
    (∃ p e s, compile source = .ok p ∧ (p.run c ()).error = some e ∧ e.span = some s ∧
      (excerpt source s).Fits) ∧
    ∃ e, compile missing = .error e ∧ e.AtReturns missing.toList := by
  intro c source missing
  constructor
  · have hfails : (compile source).map (fun p => (p.run c ()).error.bind RuntimeError.span) =
        .ok (some ⟨6, 7, 2, 4⟩) := by
      decide +kernel
    have hhooks : ∀ point e, ¬c.registry.Throws c.machine point (.runtime e) := by
      intro point e
      cases point <;> simp [Registry.Throws, c, Registry.empty]
    rcases ok_of_map hfails with ⟨p, hp, hspan⟩
    rcases Option.bind_eq_some_iff.mp hspan with ⟨e, he, hs⟩
    exact ⟨p, e, _, hp, he, hs, (markers_fit source).2 p hp Unit c () hhooks e he _ hs⟩
  · have hrefuses : (compile missing).mapError CompileError.span = .error ⟨6, 7, 1, 7⟩ := by
      decide +kernel
    have hbeyond : ¬(excerpt missing ⟨6, 7, 1, 7⟩).Fits := by decide +kernel
    cases hcompile : compile missing with
    | ok p =>
        rw [hcompile] at hrefuses
        cases hrefuses
    | error e =>
        rw [hcompile] at hrefuses
        have hspan : e.span = ⟨6, 7, 1, 7⟩ := Except.error.inj hrefuses
        have hiff := (markers_fit missing).1 e hcompile e.span List.mem_cons_self
        rw [hspan] at hiff
        exact ⟨e, rfl, Classical.not_not.mp fun hnot => hbeyond (hiff.mpr hnot)⟩

/-- A carriage return stands between a bar and the end of its line: there is a free column
between what is shown and the marker. -/
theorem marker_behind_return :
    let source := "\x7b\x7b \"a\" |\r\n\x7d\x7d"
    ∃ e, compile source = .error e ∧
      excerpt source e.span = ⟨"\x7b\x7b \"a\" |", 9, 1⟩ ∧ ¬(excerpt source e.span).Fits := by
  intro source
  have hrefuses : (compile source).mapError (fun e => excerpt source e.span) =
      .error ⟨"\x7b\x7b \"a\" |", 9, 1⟩ := by
    decide +kernel
  cases hcompile : compile source with
  | ok p =>
      rw [hcompile] at hrefuses
      cases hrefuses
  | error e =>
      rw [hcompile] at hrefuses
      have hshown : excerpt source e.span = ⟨"\x7b\x7b \"a\" |", 9, 1⟩ :=
        Except.error.inj hrefuses
      refine ⟨e, rfl, hshown, ?_⟩
      rw [hshown]
      decide

end Excerpt

end Stencil
