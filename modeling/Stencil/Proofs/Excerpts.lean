import Mathlib.Data.List.TakeWhile
import Stencil.Proofs.Yields

/-!
# What an excerpt shows

An excerpt shows the line around a place, with its tabs expanded and without the carriage
returns at its end, and marks what the stretch from there on has of it.  The line is the one
that the span of the place counts.
-/

namespace Stencil

/-! ## Lines -/

/-- A place on a line of a source: what stands before the line, on the line before and
behind the place, and after the line. -/
structure LineAround (source : List Char) (p : Nat) (front before behind rest : List Char) :
    Prop where
  split : source = front ++ (before ++ behind ++ rest)
  place : front.length + before.length = p
  unbroken : '\n' ∉ before ++ behind
  opens : front = [] ∨ front.getLast? = some '\n'
  closes : rest = [] ∨ rest.head? = some '\n'

theorem takeWhile_line {line rest : List Char} (hline : '\n' ∉ line)
    (hrest : rest = [] ∨ rest.head? = some '\n') :
    (line ++ rest).takeWhile (· != '\n') = line := by
  have hpass : ∀ c ∈ line, (c != '\n') = true := fun c hc =>
    bne_iff_ne.mpr (ne_of_mem_of_not_mem hc hline)
  have hstop : rest.takeWhile (· != '\n') = [] := by
    rcases hrest with rfl | hhead
    · rfl
    · cases rest with
      | nil => cases hhead
      | cons c rest =>
          cases hhead
          rfl
  rw [List.takeWhile_append_of_pos hpass, hstop, List.append_nil]

theorem head?_dropWhile_line (cs : List Char) :
    cs.dropWhile (· != '\n') = [] ∨ (cs.dropWhile (· != '\n')).head? = some '\n' := by
  cases hrest : cs.dropWhile (· != '\n') with
  | nil => exact .inl rfl
  | cons c rest =>
      have hc : (c != '\n') = false := by
        have hhead := List.head?_dropWhile_not (· != '\n') cs
        rwa [hrest] at hhead
      rw [bne_eq_false_iff_eq.mp hc]
      exact .inr rfl

theorem exists_lineAround {source : List Char} {p : Nat} (hp : p ≤ source.length) :
    ∃ front before behind rest, LineAround source p front before behind rest := by
  have htake := List.takeWhile_append_dropWhile (p := (· != '\n')) (l := (source.take p).reverse)
  have hdrop := List.takeWhile_append_dropWhile (p := (· != '\n')) (l := source.drop p)
  have hopens := head?_dropWhile_line (source.take p).reverse
  have hbefore := Lexeme.notMem_takeWhile_ne '\n' (source.take p).reverse
  generalize (source.take p).reverse.takeWhile (· != '\n') = before at htake hbefore
  generalize (source.take p).reverse.dropWhile (· != '\n') = front at htake hopens
  have hcut : source.take p = front.reverse ++ before.reverse := by
    rw [← List.reverse_append, htake, List.reverse_reverse]
  refine ⟨front.reverse, before.reverse, (source.drop p).takeWhile (· != '\n'), _, ?_, ?_, ?_,
    ?_, head?_dropWhile_line (source.drop p)⟩
  · rw [List.append_assoc, hdrop, ← List.append_assoc, ← hcut, List.take_append_drop]
  · rw [← List.length_append, ← hcut, List.length_take, Nat.min_eq_left hp]
  · rw [List.mem_append, List.mem_reverse, not_or]
    exact ⟨hbefore, Lexeme.notMem_takeWhile_ne _ _⟩
  · rcases hopens with rfl | hhead
    · exact .inl rfl
    · exact .inr (List.getLast?_reverse.trans hhead)

namespace LineAround

variable {source front before behind rest : List Char} {p : Nat}

theorem take_place (h : LineAround source p front before behind rest) :
    source.take p = front ++ before := by
  rw [h.split, ← h.place, ← List.append_assoc, ← List.append_assoc, List.append_assoc _ behind,
    List.take_left' List.length_append]

theorem drop_place (h : LineAround source p front before behind rest) :
    source.drop p = behind ++ rest := by
  rw [h.split, ← h.place, ← List.append_assoc, ← List.append_assoc, List.append_assoc _ behind,
    List.drop_left' List.length_append]

theorem lineBefore_eq (h : LineAround source p front before behind rest) :
    Excerpt.lineBefore source p = before := by
  have hbefore : '\n' ∉ before.reverse := fun hmem =>
    h.unbroken (List.mem_append_left _ (List.mem_reverse.mp hmem))
  have hopens : front.reverse = [] ∨ front.reverse.head? = some '\n' := by
    rcases h.opens with rfl | hlast
    · exact .inl rfl
    · exact .inr (List.head?_reverse.trans hlast)
  rw [Excerpt.lineBefore, h.take_place, List.reverse_append, takeWhile_line hbefore hopens,
    List.reverse_reverse]

theorem line_eq (h : LineAround source p front before behind rest) :
    (source.drop front.length).takeWhile (· != '\n') = before ++ behind := by
  rw [h.split, List.drop_left, takeWhile_line h.unbroken h.closes]

end LineAround

theorem length_splitOn_lines (cs : List Char) :
    (cs.splitOn '\n').length = cs.count '\n' + 1 := by
  induction cs with
  | nil => rfl
  | cons c cs ih =>
      rw [List.splitOn_cons_eq_if_modifyHead, List.count_cons]
      split
      · rw [List.length_cons, ih]
      · rw [List.length_modifyHead, ih]

/-- Among the lines of a source a line has the number of the line ends before it. -/
theorem LineAround.getElem?_splitOn {source front before behind rest : List Char} {p : Nat}
    (h : LineAround source p front before behind rest) :
    (source.splitOn '\n')[front.count '\n']? = some (before ++ behind) := by
  have hfirst : ((before ++ behind ++ rest).splitOn '\n')[0]? = some (before ++ behind) := by
    rcases h.closes with rfl | hhead
    · rw [List.append_nil, List.splitOn_eq_singleton h.unbroken]
      rfl
    · rcases List.head?_eq_some_iff.mp hhead with ⟨after, rfl⟩
      rw [List.splitOn_append_cons_self_of_not_mem h.unbroken]
      rfl
  rw [h.split]
  rcases h.opens with rfl | hlast
  · exact hfirst
  · rcases List.getLast?_eq_some_iff.mp hlast with ⟨lines, rfl⟩
    have hcount : (lines ++ ['\n']).count '\n' = (lines.splitOn '\n').length := by
      rw [List.count_append, length_splitOn_lines]
      rfl
    rw [List.append_assoc, List.singleton_append, List.splitOn_append_cons_self,
      List.getElem?_append_right (Nat.le_of_eq hcount.symm), hcount, Nat.sub_self, hfirst]

/-! ## Excerpts -/

theorem Text.exists_of_dropWhileEnd (p : Char → Bool) (cs : List Char) :
    ∃ dropped, cs = dropWhileEnd p cs ++ dropped ∧ (∀ c ∈ dropped, p c = true) ∧
      ∀ c, (dropWhileEnd p cs).getLast? = some c → p c = false := by
  refine ⟨(cs.reverse.takeWhile p).reverse, ?_, fun c hc => ?_, fun c hc => ?_⟩
  · rw [dropWhileEnd, ← List.reverse_append, List.takeWhile_append_dropWhile,
      List.reverse_reverse]
  · exact List.mem_takeWhile_imp (List.mem_reverse.mp hc)
  · have hhead := List.head?_dropWhile_not p cs.reverse
    rw [dropWhileEnd, List.getLast?_reverse] at hc
    rwa [hc] at hhead

namespace Excerpt

theorem expand_append (cs ds : List Char) : expand (cs ++ ds) = expand cs ++ expand ds :=
  List.flatMap_append

theorem displayWidth_pos {cs : List Char} (h : cs ≠ []) : 1 ≤ displayWidth cs := by
  cases cs with
  | nil => exact absurd rfl h
  | cons c cs =>
      rw [displayWidth, expand, List.flatMap_cons, List.length_append, expandChar]
      split
      · exact Nat.le_add_right_of_le (by decide)
      · exact Nat.le_add_right 1 _

theorem not_mem_expand {cs : List Char} (h : '\n' ∉ cs) : '\n' ∉ expand cs := by
  intro hmem
  rcases List.mem_flatMap.mp hmem with ⟨c, hc, hshown⟩
  rw [expandChar] at hshown
  split at hshown
  · simp at hshown
  · rw [List.mem_singleton.mp hshown] at h
    exact h hc

variable {source front before behind rest : List Char} {start : Nat}

/-- The excerpt, given the line. -/
theorem ofStretch_eq (h : LineAround source (min start source.length) front before behind rest)
    (stop : Int) :
    let raw := Text.dropWhileEnd (· == '\r') (before ++ behind)
    let p : Nat := min start source.length
    ofStretch source start stop =
      ⟨String.ofList (expand raw), displayWidth before, max 1 (displayWidth
        ((behind ++ rest).take (min (max stop p) (front.length + raw.length) - p).toNat))⟩ := by
  intro raw p
  have hstart : p - before.length = front.length := by
    have hplace : front.length + before.length = p := h.place
    omega
  simp only [ofStretch, h.lineBefore_eq, hstart, h.line_eq, h.drop_place, raw, p]

/-- A place on the line as shown, and a stretch that begins there and ends on it. -/
theorem exists_shown {raw returns : List Char} (hline : before ++ behind = raw ++ returns)
    (rest : List Char) {n : Nat} (hn : before.length + n ≤ raw.length) :
    ∃ shown, raw = before ++ shown ∧ n ≤ shown.length ∧
      (behind ++ rest).take n = shown.take n := by
  have hprefix : before <+: raw :=
    List.prefix_of_prefix_length_le ⟨behind, hline⟩ ⟨returns, rfl⟩ (Nat.le_of_add_right_le hn)
  rcases hprefix with ⟨shown, rfl⟩
  rw [List.append_assoc, List.append_cancel_left_eq] at hline
  rw [List.length_append] at hn
  have hshown : n ≤ shown.length := Nat.le_of_add_le_add_left hn
  refine ⟨shown, rfl, hshown, ?_⟩
  rw [hline, List.append_assoc, List.take_append_of_le_length hshown]

/-- What is marked, where the marked stretch reaches beyond its beginning on what is shown. -/
theorem marked_of_lt {raw returns : List Char} (hline : before ++ behind = raw ++ returns)
    {n : Nat} (hpos : 0 < n) (hn : before.length + n ≤ raw.length) :
    ((expand raw).drop (displayWidth before)).take
        (max 1 (displayWidth ((behind ++ rest).take n))) =
      expand ((behind ++ rest).take n) := by
  rcases exists_shown hline rest hn with ⟨shown, rfl, hshown, hmarked⟩
  have hne : shown.take n ≠ [] := by
    intro hnil
    have hlength := congrArg List.length hnil
    rw [List.length_take, Nat.min_eq_left hshown, List.length_nil] at hlength
    omega
  rw [hmarked, Nat.max_eq_right (displayWidth_pos hne), expand_append, displayWidth,
    displayWidth, List.drop_left]
  calc (expand shown).take (expand (shown.take n)).length
      = (expand (shown.take n) ++ expand (shown.drop n)).take (expand (shown.take n)).length := by
        rw [← expand_append, List.take_append_drop]
    _ = expand (shown.take n) := List.take_left

/-- The excerpt shows `raw`, which begins at `lineStart`, and marks what the stretch from `p`
to `stop` has of it, or else a single column. -/
structure Marks (source : List Char) (p : Nat) (stop : Int) (lineStart : Nat)
    (raw : List Char) (e : Excerpt) : Prop where
  text : e.text.toList = expand raw
  unbroken : '\n' ∉ e.text.toList
  visible : 1 ≤ e.width
  marked : p < min stop (lineStart + raw.length) →
    (e.text.toList.drop e.offset).take e.width =
      expand ((source.drop p).take (min stop (lineStart + raw.length) - p).toNat)
  single : min stop (lineStart + raw.length) ≤ p → e.width = 1

theorem marks_ofStretch
    (h : LineAround source (min start source.length) front before behind rest) (stop : Int)
    {raw returns : List Char} (hraw : Text.dropWhileEnd (· == '\r') (before ++ behind) = raw)
    (hline : before ++ behind = raw ++ returns) :
    (ofStretch source start stop).Marks source (min start source.length) stop front.length
      raw := by
  have hshown := ofStretch_eq h stop
  rw [hraw] at hshown
  have hplace := h.place
  have hdrop := h.drop_place
  have hunbroken : '\n' ∉ raw := fun hmem => h.unbroken (hline ▸ List.mem_append_left _ hmem)
  generalize min start source.length = p at hshown hplace hdrop ⊢
  rw [hshown]
  refine ⟨String.toList_ofList, ?_, Nat.le_max_left _ _, fun hlt => ?_, fun hle => ?_⟩
  · rw [String.toList_ofList]
    exact not_mem_expand hunbroken
  · have hmax : max stop (p : Int) = stop := by omega
    rw [String.toList_ofList, hmax, hdrop]
    exact marked_of_lt hline (by omega) (by omega)
  · have hnone : (min (max stop (p : Int)) (front.length + raw.length) - p).toNat = 0 := by
      omega
    rw [hnone]
    rfl

/-- For a stretch of a source that begins anywhere, also after its end, and ends anywhere: the
line around its beginning is shown, without carriage returns at its end, and of what is
shown there is marked exactly what the stretch has of it, or else a single column.  If the
source yields a span with this beginning, the span counts the same line. -/
theorem marks_line (source : String) (start : Nat) (stop : Int) :
    ∃ front before behind rest raw returns,
      LineAround source.toList (min start source.toList.length) front before behind rest ∧
      before ++ behind = raw ++ returns ∧ (∀ c ∈ returns, c = '\r') ∧
      raw.getLast? ≠ some '\r' ∧
      (ofStretch source.toList start stop).Marks source.toList
        (min start source.toList.length) stop front.length raw ∧
      ∀ s, Span.Yielded source s → s.start = start → ∃ n, s.line = n + 1 ∧
        (source.toList.splitOn '\n')[n]? = some (raw ++ returns) := by
  rcases exists_lineAround (Nat.min_le_right start source.toList.length) with
    ⟨front, before, behind, rest, h⟩
  rcases Text.exists_of_dropWhileEnd (· == '\r') (before ++ behind) with
    ⟨returns, hline, hreturns, hlast⟩
  refine ⟨front, before, behind, rest, _, returns, h, hline, fun c hc => ?_, fun hreturn => ?_,
    marks_ofStretch h stop rfl hline, fun s hs hstart => ?_⟩
  · simpa using hreturns c hc
  · simpa using hlast '\r' hreturn
  · have hwithin := hs.within
    have hbound : start ≤ source.toList.length := by
      rw [← hstart]
      exact Nat.le_trans hwithin.ordered hwithin.bounded
    have hnone : before.count '\n' = 0 :=
      List.count_eq_zero.mpr fun hmem => h.unbroken (List.mem_append_left _ hmem)
    have htake := h.take_place
    rw [Nat.min_eq_left hbound] at htake
    have hcount : s.line = front.count '\n' + 1 := by
      rw [hwithin.line, hstart, htake, List.count_append, hnone]
      omega
    refine ⟨front.count '\n', hcount, ?_⟩
    rw [← hline]
    exact h.getElem?_splitOn

/-- A name behind tabs, on a line that ends in carriage returns. -/
theorem marks_line_of_tabs :
    let source := "a\n\t\x7b\x7b \"b\"\tc\r\r\n"
    let s : Span := ⟨10, 11, 2, 9⟩
    Span.Yielded source s ∧
      excerpt source s = ⟨"    \x7b\x7b \"b\"    c", 14, 1⟩ ∧
      ∃ front raw returns, (excerpt source s).Marks source.toList 10 11 front raw ∧
        (source.toList.splitOn '\n')[1]? = some (raw ++ returns) := by
  intro source s
  have hyielded : Span.Yielded source s :=
    .token (t := ⟨.identifier, "c", s⟩) (by decide +kernel)
  rcases marks_line source 10 11 with
    ⟨front, before, behind, rest, raw, returns, _, _, _, _, hmarks, hcounts⟩
  have hplace : min 10 source.toList.length = 10 := by decide
  rw [hplace] at hmarks
  rcases hcounts s hyielded rfl with ⟨n, hn, hcounted⟩
  cases hn
  exact ⟨hyielded, by decide +kernel, front.length, raw, returns, hmarks, hcounted⟩

end Excerpt

end Stencil
