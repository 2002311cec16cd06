import Stencil.Proofs.Spelling
import Stencil.Token.Stream

/-!
# Tokens tile their source

From left to right, the tokens of a source and the blanks between them are
stretches of it that follow one another.  No stretch but the end of the input is
empty, blanks stand inside of blocks only, and the value of a token is read off the
stretch that the token covers.  A source can therefore be put together again from
what its tokens cover and from the blanks that were skipped.
-/

namespace Stencil

namespace Span

/-- The stretch of a source that a span covers. -/
def text (source : List Char) (s : Span) : List Char :=
  (source.drop s.start).take (s.stop - s.start)

def covers (s : Span) (i : Nat) : Bool :=
  s.start ≤ i && i < s.stop

theorem text_append (before middle after : List Char) (line column : Nat) :
    (Span.mk before.length (before.length + middle.length) line column).text
      (before ++ (middle ++ after)) = middle := by
  rw [text, List.drop_left, Nat.add_sub_cancel_left, List.take_left]

end Span

/-! ## Blocks -/

namespace Token

/-- Some block among the tokens is opened and not closed. -/
def InBlock (tokens : List Token) : Prop :=
  ∃ before opening after, tokens = before ++ opening :: after ∧ opening.kind = .blockOpen ∧
    ∀ token ∈ after, token.kind ≠ .blockClose

theorem not_inBlock_nil : ¬InBlock [] := by
  rintro ⟨before, opening, after, h, _⟩
  exact List.append_ne_nil_of_right_ne_nil before (List.cons_ne_nil opening after) h.symm

theorem inBlock_concat (tokens : List Token) (token : Token) :
    InBlock (tokens ++ [token]) ↔
      token.kind = .blockOpen ∨ InBlock tokens ∧ token.kind ≠ .blockClose := by
  constructor
  · rintro ⟨before, opening, after, htokens, hopening, hafter⟩
    rcases List.eq_nil_or_concat after with rfl | ⟨after, last, rfl⟩
    · rcases List.append_inj' htokens rfl with ⟨_, hlast⟩
      cases hlast
      exact .inl hopening
    · rw [List.concat_eq_append, ← List.cons_append, ← List.append_assoc] at htokens
      rcases List.append_inj' htokens rfl with ⟨rfl, hlast⟩
      cases hlast
      right
      constructor
      · exact ⟨before, opening, after, rfl, hopening, fun t ht => hafter t (by simp [ht])⟩
      · exact hafter token (by simp)
  · rintro (hopen | ⟨⟨before, opening, after, rfl, hopening, hafter⟩, hclose⟩)
    · exact ⟨tokens, token, [], rfl, hopen, by simp⟩
    · refine ⟨before, opening, after ++ [token], by simp, hopening, ?_⟩
      intro t ht
      rcases List.mem_append.mp ht with ht | ht
      · exact hafter t ht
      · rw [List.mem_singleton.mp ht]
        exact hclose

end Token

/-! ## Tilings -/

namespace Token

open Lexeme

/-- From the position `p` on, tokens and blanks make up a text, and each token has
the span of what spells it. -/
inductive Tiles : Mode → Position → List Char → List Token → Prop where
  | done (mode : Mode) (p : Position) : Tiles mode p [] []
  | blank {p : Position} {c : Char} {rest : List Char} {tokens : List Token}
      (hblank : c ∈ [' ', '\t', '\r']) (htail : Tiles .script (p.advance c) rest tokens) :
      Tiles .script p (c :: rest) tokens
  | token {mode : Mode} {p : Position} {text rest : List Char} {token : Token}
      {tokens : List Token} (hne : text ≠ [])
      (hspan : token.span = p.upTo (p.advanceOver text))
      (hspelled : Spelled token.kind token.value text)
      (hmode : mode = .host ↔ OfHost token.kind)
      (htail : Tiles (mode.next token.kind) (p.advanceOver text) rest tokens) :
      Tiles mode p (text ++ rest) (token :: tokens)

end Token

namespace Lexeme

open Token

/-- Either a lexeme is skipped, or it becomes a token. -/
theorem blank_or_spells_first (mode : Mode) (c : Char) (rest : List Char) :
    (mode = .script ∧ (first mode c rest).kind = none ∧ (first mode c rest).text = [c] ∧
        c ∈ [' ', '\t', '\r']) ∨
      ∃ kind, (mode = .host ↔ OfHost kind) ∧ (first mode c rest).Spells kind := by
  cases mode with
  | host =>
      rcases spells_inHost c rest with ⟨kind, hkind, hspells⟩
      exact .inr ⟨kind, by simp [hkind], hspells⟩
  | script =>
      rcases blank_or_spells_inScript c rest with hblank | ⟨kind, hkind, hspells⟩
      · exact .inl ⟨rfl, hblank⟩
      · exact .inr ⟨kind, by simp [hkind], hspells⟩

theorem tiles_scan (mode : Mode) (p : Position) (cs : List Char) :
    ∃ ts, tokens p (scan mode cs) =
        ts ++ [⟨.endOfInput, "", (p.advanceOver cs).upTo (p.advanceOver cs)⟩] ∧
      Tiles mode p cs ts := by
  fun_induction scan mode cs generalizing p with
  | case1 mode => exact ⟨[], rfl, .done mode p⟩
  | case2 mode c rest lexeme ih =>
      rcases first_covers mode c rest with ⟨more, htext, after, rfl⟩
      have hlexeme : lexeme.text = c :: more := htext
      have hdrop : (more ++ after).drop (lexeme.text.length - 1) = after := by
        rw [hlexeme, List.length_cons, Nat.add_sub_cancel, List.drop_left]
      rw [hdrop] at ih ⊢
      have hend : p.advanceOver (c :: (more ++ after)) =
          (p.advanceOver lexeme.text).advanceOver after := by
        rw [hlexeme, ← Position.advanceOver_append, List.cons_append]
      rcases ih (p.advanceOver lexeme.text) with ⟨ts, hts, htiles⟩
      rw [hend]
      rcases blank_or_spells_first mode c (more ++ after) with
        ⟨rfl, hkind, hone, hblank⟩ | ⟨kind, hmode, hspells⟩
      · have hmore : more = [] := (List.cons.inj (htext.symm.trans hone)).2
        subst hmore
        have hnone : lexeme.kind = none := hkind
        have hafter : Mode.after .script lexeme = .script := by
          rw [Mode.after, hnone]
        rw [hlexeme, hafter] at htiles
        refine ⟨ts, ?_, .blank hblank htiles⟩
        rw [tokens, hnone]
        exact hts
      · have hkind : lexeme.kind = some kind := hspells.1
        rw [Mode.after_of_spells hspells] at htiles
        refine ⟨⟨kind, lexeme.value, p.upTo (p.advanceOver lexeme.text)⟩ :: ts, ?_, ?_⟩
        · rw [tokens, hkind]
          exact congrArg (List.cons _) hts
        · have hall : c :: (more ++ after) = lexeme.text ++ after := by
            rw [hlexeme, List.cons_append]
          rw [hall]
          refine .token ?_ rfl hspells.2 hmode htiles
          rw [hlexeme]
          exact List.cons_ne_nil c more

end Lexeme

/-! ## What a tiling covers -/

namespace Lexeme.Mode

theorem next_eq_script_iff (mode : Mode) (kind : TokenKind) :
    mode.next kind = .script ↔ kind = .blockOpen ∨ mode = .script ∧ kind ≠ .blockClose := by
  cases kind <;> simp [next]

theorem eq_script_iff (mode : Mode) : mode = .script ↔ ¬mode = .host := by
  cases mode <;> simp

end Lexeme.Mode

namespace Token

open Lexeme

variable {mode : Mode} {p : Position} {cs : List Char} {tokens before : List Token}

theorem Tiles.bounds (h : Tiles mode p cs tokens) :
    ∀ t ∈ tokens, p.offset ≤ t.span.start ∧ t.span.start < t.span.stop ∧
      t.span.stop ≤ p.offset + cs.length := by
  induction h with
  | done mode p => simp
  | blank _ _ ih =>
      intro t ht
      have hbounds := ih t ht
      rw [Position.advance_offset] at hbounds
      rw [List.length_cons]
      omega
  | @token mode p text rest token tokens hne hspan _ _ _ ih =>
      have hlength := List.length_pos_iff.mpr hne
      have hoffset := Position.advanceOver_offset p text
      intro t ht
      rw [List.length_append]
      rcases List.mem_cons.mp ht with rfl | ht
      · simp only [hspan, Position.upTo]
        omega
      · have hbounds := ih t ht
        omega

theorem Tiles.pairwise (h : Tiles mode p cs tokens) :
    tokens.Pairwise fun first second => first.span.stop ≤ second.span.start := by
  induction h with
  | done mode p => exact .nil
  | blank _ _ ih => exact ih
  | token _ hspan _ _ htail ih =>
      refine List.pairwise_cons.mpr ⟨?_, ih⟩
      intro t ht
      rw [hspan]
      exact (htail.bounds t ht).1

/-- Every token spells what it covers in the whole source. -/
theorem Tiles.spelled (h : Tiles mode p cs tokens) {source : List Char} (consumed : List Char)
    (hsource : source = consumed ++ cs) (hp : p.offset = consumed.length) :
    ∀ t ∈ tokens, Spelled t.kind t.value (t.span.text source) := by
  induction h generalizing consumed with
  | done mode p => simp
  | @blank p c rest tokens _ _ ih =>
      apply ih (consumed ++ [c])
      · rw [hsource, List.append_assoc]
        rfl
      · rw [Position.advance_offset, hp, List.length_append]
        rfl
  | @token mode p text rest token tokens _ hspan hspelled _ _ ih =>
      have hoffset := Position.advanceOver_offset p text
      rw [hp] at hoffset
      intro t ht
      rcases List.mem_cons.mp ht with rfl | ht
      · have htext : t.span.text source = text := by
          rw [hspan, Position.upTo, hp, hoffset, hsource, Span.text_append]
        rw [htext]
        exact hspelled
      · apply ih (consumed ++ text) _ _ t ht
        · rw [hsource, List.append_assoc]
        · rw [hoffset, List.length_append]

/-- Tokens that are read outside of blocks stand outside, the others inside. -/
theorem Tiles.inBlock_iff (h : Tiles mode p cs tokens)
    (hmode : mode = .script ↔ InBlock before) {left right : List Token} {t : Token}
    (htokens : tokens = left ++ t :: right) : InBlock (before ++ left) ↔ ¬OfHost t.kind := by
  induction h generalizing before left with
  | done mode p => simp at htokens
  | blank _ _ ih => exact ih hmode htokens
  | @token mode _ _ _ token _ _ _ _ hkind _ ih =>
      cases left with
      | nil =>
          cases htokens
          rw [List.append_nil, ← hmode, Mode.eq_script_iff, hkind]
      | cons first left =>
          cases htokens
          have hnext : mode.next token.kind = .script ↔ InBlock (before ++ [token]) := by
            rw [Mode.next_eq_script_iff, inBlock_concat, hmode]
          have htail := ih hnext rfl
          rwa [List.append_assoc] at htail

/-- Where no token covers a character, it is a blank inside of a block. -/
theorem Tiles.covered_or_blank (h : Tiles mode p cs tokens)
    (hmode : mode = .script ↔ InBlock before) (hbefore : ∀ t ∈ before, t.span.stop ≤ p.offset)
    {i : Nat} {c : Char} (hc : cs[i]? = some c) :
    (∃ t ∈ tokens, t.span.covers (p.offset + i)) ∨
      c ∈ [' ', '\t', '\r'] ∧ ∃ left right, before ++ tokens = left ++ right ∧
        (∀ t ∈ left, t.span.stop ≤ p.offset + i) ∧
        (∀ t ∈ right, p.offset + i < t.span.start) ∧ InBlock left := by
  induction h generalizing before i with
  | done mode p => simp at hc
  | @blank p d rest tokens hblank htail ih =>
      cases i with
      | zero =>
          rw [List.getElem?_cons_zero] at hc
          cases hc
          refine .inr ⟨hblank, before, tokens, rfl, hbefore, ?_, hmode.mp rfl⟩
          intro t ht
          have hbounds := htail.bounds t ht
          rw [Position.advance_offset] at hbounds
          omega
      | succ i =>
          rw [List.getElem?_cons_succ] at hc
          have hstep : (p.advance d).offset + i = p.offset + (i + 1) := by
            rw [Position.advance_offset]
            omega
          rw [← hstep]
          apply ih hmode _ hc
          intro t ht
          have hstop := hbefore t ht
          rw [Position.advance_offset]
          omega
  | @token mode p text rest token tokens _ hspan _ _ htail ih =>
      have hoffset := Position.advanceOver_offset p text
      by_cases hi : i < text.length
      · refine .inl ⟨token, List.mem_cons_self, ?_⟩
        simp only [Span.covers, hspan, Position.upTo, Bool.and_eq_true, decide_eq_true_eq]
        omega
      · rw [List.getElem?_append_right (by omega)] at hc
        have hnext : mode.next token.kind = .script ↔ InBlock (before ++ [token]) := by
          rw [Mode.next_eq_script_iff, inBlock_concat, hmode]
        have hstops : ∀ t ∈ before ++ [token], t.span.stop ≤ (p.advanceOver text).offset := by
          intro t ht
          rcases List.mem_append.mp ht with ht | ht
          · have hstop := hbefore t ht
            omega
          · rw [List.mem_singleton.mp ht, hspan]
            exact Nat.le_refl _
        have hstep : (p.advanceOver text).offset + (i - text.length) = p.offset + i := by
          omega
        have hrest := ih hnext hstops hc
        rw [hstep, List.append_assoc] at hrest
        rcases hrest with ⟨t, ht, hcovers⟩ | hblank
        · exact .inl ⟨t, List.mem_cons_of_mem _ ht, hcovers⟩
        · exact .inr hblank

/-! ## Putting a source together -/

/-- The characters of a text that no token covers, the first character of the text
having offset `i`. -/
def skipped (tokens : List Token) (i : Nat) (cs : List Char) : List Char :=
  ((cs.zipIdx i).filter fun (_, j) => !tokens.any (·.span.covers j)).map Prod.fst

/-- Stretches at their offsets, from offset `i` on, with the places between them
filled up from `blanks`. -/
def weave (i : Nat) : List (Nat × List Char) → List Char → List Char
  | [], blanks => blanks
  | (start, text) :: rest, blanks =>
      blanks.take (start - i) ++ text ++
        weave (start + text.length) rest (blanks.drop (start - i))

theorem skipped_cons_of_uncovered {i : Nat} {c : Char}
    (h : ∀ t ∈ tokens, t.span.covers i = false) :
    skipped tokens i (c :: cs) = c :: skipped tokens (i + 1) cs := by
  have hany : tokens.any (·.span.covers i) = false := by
    rw [List.any_eq_false]
    simpa using h
  simp [skipped, hany]

/-- A token takes its own text out of what is skipped, and nothing after it. -/
theorem skipped_append_of_covered {token : Token} {i : Nat} {text rest : List Char}
    (hstart : token.span.start = i) (hstop : token.span.stop = i + text.length) :
    skipped (token :: tokens) i (text ++ rest) = skipped tokens (i + text.length) rest := by
  have htext : ∀ pair ∈ text.zipIdx i,
      (!(token :: tokens).any (·.span.covers pair.2)) = false := by
    rintro ⟨c, j⟩ hpair
    have hge := List.le_snd_of_mem_zipIdx hpair
    have hlt := List.snd_lt_add_of_mem_zipIdx hpair
    simp only [List.any_cons, Span.covers, hstart, hstop]
    simp [hge, hlt]
  have hrest : ∀ pair ∈ rest.zipIdx (i + text.length),
      (!(token :: tokens).any (·.span.covers pair.2)) =
        !tokens.any (·.span.covers pair.2) := by
    rintro ⟨c, j⟩ hpair
    have hge : i + text.length ≤ j := List.le_snd_of_mem_zipIdx hpair
    have hout : token.span.covers j = false := by
      simp only [Span.covers, hstart, hstop, Bool.and_eq_false_iff, decide_eq_false_iff_not]
      omega
    simp [hout]
  rw [skipped, List.zipIdx_append, List.filter_append, List.filter_congr htext,
    List.filter_congr hrest]
  simp [skipped]

theorem weave_cons_blank {i : Nat} {c : Char} {pieces : List (Nat × List Char)}
    (h : ∀ piece ∈ pieces, i < piece.1) (blanks : List Char) :
    weave i pieces (c :: blanks) = c :: weave (i + 1) pieces blanks := by
  cases pieces with
  | nil => rfl
  | cons piece pieces =>
      rcases piece with ⟨start, text⟩
      have hlt : i < start := h _ List.mem_cons_self
      have hsub : start - i = (start - (i + 1)) + 1 := by omega
      rw [weave, weave, hsub, List.take_succ_cons, List.drop_succ_cons]
      rfl

/-- What the tokens cover and what was skipped, woven together, is the text. -/
theorem Tiles.weave_skipped (h : Tiles mode p cs tokens) {source : List Char} (consumed : List Char)
    (hsource : source = consumed ++ cs) (hp : p.offset = consumed.length) :
    weave p.offset (tokens.map fun t => (t.span.start, t.span.text source))
      (skipped tokens p.offset cs) = cs := by
  induction h generalizing consumed with
  | done mode p => rfl
  | @blank p c rest tokens _ htail ih =>
      have hstart : ∀ t ∈ tokens, p.offset < t.span.start := by
        intro t ht
        have hbounds := htail.bounds t ht
        rw [Position.advance_offset] at hbounds
        omega
      have huncovered : ∀ t ∈ tokens, t.span.covers p.offset = false := by
        intro t ht
        have hlt := hstart t ht
        simp only [Span.covers, Bool.and_eq_false_iff, decide_eq_false_iff_not]
        omega
      have hrest : weave (p.offset + 1) (tokens.map fun t => (t.span.start, t.span.text source))
          (skipped tokens (p.offset + 1) rest) = rest := by
        rw [← Position.advance_offset p c]
        apply ih (consumed ++ [c])
        · rw [hsource, List.append_assoc]
          rfl
        · rw [Position.advance_offset, hp, List.length_append]
          rfl
      rw [skipped_cons_of_uncovered huncovered, weave_cons_blank, hrest]
      simpa using hstart
  | @token mode p text rest token tokens _ hspan _ _ _ ih =>
      have hoffset := Position.advanceOver_offset p text
      have hstart : token.span.start = p.offset := by
        rw [hspan]
        rfl
      have hstop : token.span.stop = p.offset + text.length := by
        rw [hspan, ← hoffset]
        rfl
      have htext : token.span.text source = text := by
        rw [hspan, Position.upTo, hoffset, hp, hsource, Span.text_append]
      have hrest : weave (p.offset + text.length)
          (tokens.map fun t => (t.span.start, t.span.text source))
          (skipped tokens (p.offset + text.length) rest) = rest := by
        rw [← hoffset]
        apply ih (consumed ++ text)
        · rw [hsource, List.append_assoc]
        · rw [hoffset, hp, List.length_append]
      rw [skipped_append_of_covered hstart hstop, List.map_cons, weave, hstart, htext,
        Nat.sub_self, List.take_zero, List.drop_zero, List.nil_append, hrest]

end Token

/-! ## Sources -/

theorem tiles_tokenize (source : String) :
    ∃ tokens, tokenize source = tokens ++ [⟨.endOfInput, "",
        (Position.origin.advanceOver source.toList).upTo
          (Position.origin.advanceOver source.toList)⟩] ∧
      Token.Tiles .host Position.origin source.toList tokens :=
  Lexeme.tiles_scan .host Position.origin source.toList

/-- Every source has tokens.  They stand in the order of the source and do not
overlap; only the last one, for the end of the input, is empty.  A character that
none of them covers is a blank inside of a block, and host text stands outside of
blocks only.  Every token spells what it covers, which leaves no choice of its
value.  What the tokens cover and what is skipped make up the source. -/
theorem tokenize_lossless (source : String) :
    ∃ tokens eof, tokenize source = tokens ++ [eof] ∧
      (eof.kind = .endOfInput ∧ eof.value = "" ∧ eof.span.start = source.toList.length ∧
        eof.span.stop = source.toList.length) ∧
      (∀ t ∈ tokens, t.kind ≠ .endOfInput ∧ t.span.start < t.span.stop ∧
        t.span.stop ≤ source.toList.length) ∧
      tokens.Pairwise (fun first second => first.span.stop ≤ second.span.start) ∧
      (∀ i c, source.toList[i]? = some c →
        (∃ t ∈ tokens, t.span.covers i) ∨
          c ∈ [' ', '\t', '\r'] ∧ ∃ left right, tokens = left ++ right ∧
            (∀ t ∈ left, t.span.stop ≤ i) ∧ (∀ t ∈ right, i < t.span.start) ∧
            Token.InBlock left) ∧
      (∀ left t right, tokens = left ++ t :: right →
        (Token.InBlock left ↔ t.kind ≠ .hostText ∧ t.kind ≠ .blockOpen)) ∧
      (∀ t ∈ tokens, Token.Spelled t.kind t.value (t.span.text source.toList) ∧
        ∀ value, Token.Spelled t.kind value (t.span.text source.toList) → value = t.value) ∧
      Token.weave 0 (tokens.map fun t => (t.span.start, t.span.text source.toList))
        (Token.skipped tokens 0 source.toList) = source.toList := by
  rcases tiles_tokenize source with ⟨tokens, htokens, htiles⟩
  have hend : (Position.origin.advanceOver source.toList).offset = source.toList.length := by
    rw [Position.advanceOver_offset]
    exact Nat.zero_add _
  have hmode : Lexeme.Mode.host = .script ↔ Token.InBlock [] := by
    simp [Token.not_inBlock_nil]
  have hspelled := htiles.spelled [] rfl rfl
  refine ⟨tokens, _, htokens, ⟨rfl, rfl, hend, hend⟩, ?_, htiles.pairwise, ?_, ?_, ?_, ?_⟩
  · intro t ht
    rcases htiles.bounds t ht with ⟨_, hlt, hle⟩
    refine ⟨?_, hlt, ?_⟩
    · intro hkind
      have hno := hspelled t ht
      rw [hkind] at hno
      cases hno
    · rwa [Position.origin, Nat.zero_add] at hle
  · intro i c hc
    have hcovered := htiles.covered_or_blank hmode (by simp) hc
    rwa [Position.origin, Nat.zero_add, List.nil_append] at hcovered
  · intro left t right hsplit
    have hiff := htiles.inBlock_iff hmode hsplit
    rwa [List.nil_append, Token.OfHost, not_or] at hiff
  · intro t ht
    exact ⟨hspelled t ht, fun value hvalue => (hspelled t ht).value_unique hvalue⟩
  · exact htiles.weave_skipped [] rfl rfl

end Stencil
