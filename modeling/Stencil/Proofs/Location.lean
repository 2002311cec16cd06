import Stencil.Proofs.Tiling

/-!
# Where spans lie

A span lies in a source if it is a stretch of it, and if its line and its column
are those of its first character, counted from the beginning of the source and of
the line.  The spans of tokens do.  So do joins of spans in order, and slices of a
span on one line, whose columns are computed and not counted.
-/

namespace Stencil

namespace Span

/-- The span is a stretch of the source, and its line and column say where the
stretch begins. -/
structure Within (source : List Char) (s : Span) : Prop where
  ordered : s.start ≤ s.stop
  bounded : s.stop ≤ source.length
  line : s.line = 1 + (source.take s.start).count '\n'
  column : s.column = 1 + ((source.take s.start).reverse.takeWhile (· != '\n')).length

end Span

namespace Position

/-- Counting character by character gives the line ends before a place, and the
distance to the last of them. -/
theorem advanceOver_origin (cs : List Char) :
    origin.advanceOver cs =
      ⟨cs.length, 1 + cs.count '\n', 1 + (cs.reverse.takeWhile (· != '\n')).length⟩ := by
  -- the last character counts, so the induction is on the reversed text
  suffices h : ∀ rs : List Char, origin.advanceOver rs.reverse =
      ⟨rs.length, 1 + rs.count '\n', 1 + (rs.takeWhile (· != '\n')).length⟩ by
    have hcs := h cs.reverse
    rwa [List.reverse_reverse, List.length_reverse, List.count_reverse] at hcs
  intro rs
  induction rs with
  | nil => rfl
  | cons c rs ih =>
      rw [List.reverse_cons, advanceOver_append, ih]
      change advance _ c = _
      by_cases hc : c = '\n'
      · subst hc
        simp [advance, Nat.add_assoc]
      · have hcount : (c :: rs).count '\n' = rs.count '\n' :=
          List.count_cons_of_ne hc
        simp [advance, hc, hcount, Nat.add_assoc]

/-- The span of a stretch of a source. -/
theorem upTo_within (before middle after : List Char) :
    ((origin.advanceOver before).upTo (origin.advanceOver (before ++ middle))).Within
      (before ++ (middle ++ after)) := by
  rw [advanceOver_origin, advanceOver_origin, upTo]
  constructor
  · simp
  · simp
  · rw [List.take_left]
  · rw [List.take_left]

end Position

namespace Span

variable {source : List Char} {s first last : Span}

theorem join_within (hfirst : first.Within source) (hlast : last.Within source)
    (horder : first.start ≤ last.stop) : (first.join last).Within source where
  ordered := horder
  bounded := hlast.bounded
  line := hfirst.line
  column := hfirst.column

/-- The two parts of a source around a span. -/
theorem append_of_text {body : List Char} (hs : s.Within source)
    (htext : s.text source = body) :
    ∃ before after, source = before ++ (body ++ after) ∧ before.length = s.start := by
  refine ⟨source.take s.start, (source.drop s.start).drop (s.stop - s.start), ?_, ?_⟩
  · rw [← htext, text, List.take_append_drop, List.take_append_drop]
  · rw [List.length_take]
    have hordered := hs.ordered
    have hbounded := hs.bounded
    omega

section Slice

variable {quote : Char} {body : List Char}

theorem text_slice (hs : s.Within source) (htext : s.text source = quote :: (body ++ [quote]))
    {start stop : Nat} (hstop : stop ≤ body.length) :
    (s.slice (start + 1) (stop + 1)).text source = (body.drop start).take (stop - start) := by
  rcases append_of_text hs htext with ⟨before, after, rfl, hstart⟩
  have hsub : s.start + (stop + 1) - (s.start + (start + 1)) = stop - start := by omega
  rw [text, slice, hsub, ← hstart, List.drop_length_add_append, List.cons_append,
    List.append_assoc, List.drop_succ_cons]
  by_cases h : start ≤ body.length
  · rw [List.drop_append_of_le_length h, List.take_append_of_le_length]
    rw [List.length_drop]
    omega
  · have hzero : stop - start = 0 := by omega
    rw [hzero, List.take_zero, List.take_zero]

/-- A slice between two quotes on one line: its column is right because no line
ends before it. -/
theorem slice_within (hs : s.Within source) (htext : s.text source = quote :: (body ++ [quote]))
    (hquote : quote ≠ '\n') (hbody : '\n' ∉ body) {start stop : Nat} (hle : start ≤ stop)
    (hstop : stop ≤ body.length) : (s.slice (start + 1) (stop + 1)).Within source := by
  rcases append_of_text hs htext with ⟨before, after, rfl, hstart⟩
  have htake : (before ++ (quote :: (body ++ [quote]) ++ after)).take (s.start + (start + 1)) =
      before ++ quote :: body.take start := by
    rw [← hstart, List.take_length_add_append, List.cons_append, List.append_assoc,
      List.take_succ_cons, List.take_append_of_le_length (Nat.le_trans hle hstop)]
  have hbefore : (before ++ (quote :: (body ++ [quote]) ++ after)).take s.start = before := by
    rw [← hstart, List.take_left]
  have hline := hs.line
  have hcolumn := hs.column
  rw [hbefore] at hline hcolumn
  have hnone : '\n' ∉ quote :: body.take start := by
    simp only [List.mem_cons, not_or]
    exact ⟨Ne.symm hquote, fun h => hbody (List.mem_of_mem_take h)⟩
  constructor
  · simp only [slice]
    omega
  · simp only [slice, ← hstart, List.length_append, List.length_cons]
    omega
  · rw [slice, htake, List.count_append, List.count_eq_zero_of_not_mem hnone, hline]
    rfl
  · have hpass : ∀ c ∈ (quote :: body.take start).reverse, (c != '\n') = true := by
      intro c hc
      rw [bne_iff_ne]
      rintro rfl
      exact hnone (List.mem_reverse.mp hc)
    rw [slice, htake, List.reverse_append, List.takeWhile_append_of_pos hpass,
      List.length_append, List.length_reverse, List.length_cons, List.length_take, hcolumn]
    simp only
    omega

end Slice

end Span

/-! ## Tokens -/

namespace Token

theorem Tiles.within {mode : Lexeme.Mode} {p : Position} {cs : List Char}
    {tokens : List Token} (h : Tiles mode p cs tokens) {source : List Char}
    (consumed : List Char) (hsource : source = consumed ++ cs)
    (hp : p = Position.origin.advanceOver consumed) :
    ∀ t ∈ tokens, t.span.Within source := by
  induction h generalizing consumed with
  | done mode p => simp
  | @blank p c rest tokens _ _ ih =>
      apply ih (consumed ++ [c])
      · rw [hsource, List.append_assoc]
        rfl
      · rw [Position.advanceOver_append, ← hp]
        rfl
  | @token mode p text rest token tokens _ hspan _ _ _ ih =>
      have hnext : p.advanceOver text = Position.origin.advanceOver (consumed ++ text) := by
        rw [Position.advanceOver_append, hp]
      intro t ht
      rcases List.mem_cons.mp ht with rfl | ht
      · rw [hspan, hnext, hp, hsource]
        exact Position.upTo_within consumed text rest
      · apply ih (consumed ++ text) _ hnext t ht
        rw [hsource, List.append_assoc]

end Token

theorem tokenize_within (source : String) :
    ∀ t ∈ tokenize source, t.span.Within source.toList := by
  rcases tiles_tokenize source with ⟨tokens, htokens, htiles⟩
  rw [htokens]
  intro t ht
  rcases List.mem_append.mp ht with ht | ht
  · exact htiles.within [] rfl rfl t ht
  · rw [List.mem_singleton.mp ht]
    have hend := Position.upTo_within source.toList [] []
    rw [List.append_nil, List.append_nil] at hend
    exact hend

/-- A later token ends after an earlier one has begun. -/
theorem tokenize_ordered (source : String) :
    (tokenize source).Pairwise fun first second => first.span.start ≤ second.span.stop := by
  rcases tiles_tokenize source with ⟨tokens, htokens, htiles⟩
  rw [htokens]
  refine List.pairwise_append.mpr ⟨?_, List.pairwise_singleton _ _, ?_⟩
  · refine htiles.pairwise.imp_of_mem ?_
    intro first second hfirst hsecond hle
    have hbefore := htiles.bounds first hfirst
    have hafter := htiles.bounds second hsecond
    omega
  · intro first hfirst eof heof
    rw [List.mem_singleton.mp heof]
    have hbounds := htiles.bounds first hfirst
    simp only [Position.upTo, Position.advanceOver_offset]
    omega

/-- The string tokens of a source stand between quotes on one line. -/
theorem tokenize_spelled (source : String) :
    ∀ t ∈ tokenize source, t.kind ≠ .endOfInput →
      Token.Spelled t.kind t.value (t.span.text source.toList) := by
  rcases tiles_tokenize source with ⟨tokens, htokens, htiles⟩
  rw [htokens]
  intro t ht hkind
  rcases List.mem_append.mp ht with ht | ht
  · exact htiles.spelled [] rfl rfl t ht
  · rw [List.mem_singleton.mp ht] at hkind
    exact absurd rfl hkind

end Stencil
