import Stencil.Proofs.RunsAlike
import Stencil.Proofs.Scanning
import Stencil.Proofs.Showing

/-!
# Line ends

A source in which every line feed is given a return before it has the same tokens, the
host texts apart, which are given the same returns.  Inside of a block a return is a
blank, and where it is taken into a comment or an unfinished string it leaves the value
as it is.
-/

namespace Stencil

namespace Text

/-- Every line feed with a return before it. -/
def withReturns : List Char → List Char
  | [] => []
  | c :: cs => if c = '\n' then '\r' :: '\n' :: withReturns cs else c :: withReturns cs

theorem withReturns_newline (cs : List Char) :
    withReturns ('\n' :: cs) = '\r' :: '\n' :: withReturns cs := by
  rw [withReturns, if_pos rfl]

theorem withReturns_cons {c : Char} (h : c ≠ '\n') (cs : List Char) :
    withReturns (c :: cs) = c :: withReturns cs := by
  rw [withReturns, if_neg h]

theorem withReturns_append (cs ds : List Char) :
    withReturns (cs ++ ds) = withReturns cs ++ withReturns ds := by
  induction cs with
  | nil => rfl
  | cons c cs ih =>
      rw [List.cons_append, withReturns, withReturns, ih]
      split
      · rfl
      · rfl

theorem withReturns_of_notMem {cs : List Char} (h : '\n' ∉ cs) : withReturns cs = cs := by
  induction cs with
  | nil => rfl
  | cons c cs ih =>
      rw [List.mem_cons, not_or] at h
      rw [withReturns_cons (Ne.symm h.1), ih h.2]

theorem withReturns_eq_nil {cs : List Char} : withReturns cs = [] ↔ cs = [] := by
  cases cs with
  | nil => simp [withReturns]
  | cons c cs =>
      rw [withReturns]
      split
      · simp
      · simp

/-- A text with a return before every line feed. -/
def returned (text : String) : String :=
  String.ofList (withReturns text.toList)

theorem returned_eq_empty (text : String) : text = "" ↔ returned text = "" := by
  rw [returned, String.ofList_eq_empty_iff, withReturns_eq_nil, String.toList_eq_nil_iff]

/-- What stands before the first line feed is left as it is. -/
theorem withReturns_drop {cs before : List Char} (hbefore : before <+: cs)
    (h : '\n' ∉ before) :
    (withReturns cs).drop before.length = withReturns (cs.drop before.length) := by
  rcases hbefore with ⟨after, rfl⟩
  rw [withReturns_append, withReturns_of_notMem h, List.drop_left, List.drop_left]

theorem takeWhile_withReturns {p : Char → Bool} (hreturn : p '\r' = false)
    (hnewline : p '\n' = false) (cs : List Char) :
    (withReturns cs).takeWhile p = cs.takeWhile p := by
  induction cs with
  | nil => rfl
  | cons c cs ih =>
      by_cases hc : c = '\n'
      · subst hc
        rw [withReturns_newline, List.takeWhile_cons_of_neg (by simp [hreturn]),
          List.takeWhile_cons_of_neg (by simp [hnewline])]
      · rw [withReturns_cons hc, List.takeWhile_cons, List.takeWhile_cons, ih]

/-- A return at the end is stripped off. -/
theorem strip_append_return (cs : List Char) : strip (cs ++ ['\r']) = strip cs := by
  rw [strip, strip, List.dropWhile_append]
  split
  · rename_i hblank
    rw [List.isEmpty_iff.mp hblank]
    rfl
  · rw [dropWhileEnd, dropWhileEnd, List.reverse_append, List.reverse_singleton,
      List.singleton_append, List.dropWhile_cons_of_pos (by decide)]

end Text

namespace Lexeme

open Text (withReturns withReturns_newline withReturns_cons withReturns_append
  withReturns_of_notMem withReturns_drop takeWhile_withReturns strip_append_return)

/-! ## Host text -/

theorem hostRun_withReturns (cs : List Char) :
    hostRun (withReturns cs) = withReturns (hostRun cs) := by
  fun_induction hostRun cs with
  | case1 => rfl
  | case2 rest =>
      rw [withReturns_cons (by decide), withReturns_cons (by decide), hostRun_open]
      rfl
  | case3 c rest hne ih =>
      by_cases hc : c = '\n'
      · subst hc
        rw [withReturns_newline, withReturns_newline, hostRun_cons (by simp),
          hostRun_cons (by simp), ih]
      · rw [withReturns_cons hc, withReturns_cons hc, hostRun_cons, ih]
        rintro ⟨rfl, hhead⟩
        cases rest with
        | nil => cases hhead
        | cons d rest =>
            rw [withReturns] at hhead
            split at hhead
            · cases hhead
            · cases hhead
              exact hne rest rfl rfl

theorem drop_hostRun_withReturns (cs : List Char) :
    (withReturns cs).drop (hostRun (withReturns cs)).length =
      withReturns (cs.drop (hostRun cs).length) := by
  rcases hostRun_isPrefix cs with ⟨rest, hrest⟩
  have hall : withReturns cs = hostRun (withReturns cs) ++ withReturns rest := by
    rw [hostRun_withReturns, ← withReturns_append, hrest]
  have hleft : cs.drop (hostRun cs).length = rest := by
    have hdrop := congrArg (List.drop (hostRun cs).length) hrest
    rwa [List.drop_left, eq_comm] at hdrop
  have hdrop := congrArg (List.drop (hostRun (withReturns cs)).length) hall
  rw [hdrop, List.drop_left, hleft]

/-! ## Inside of blocks -/

/-- What is read in place of a lexeme once there are returns: it has the kind and the
value of the lexeme, and leaves what that leaves, unless it has taken in the first return
of what is left. -/
structure Returned (rest : List Char) (l l' : Lexeme) : Prop where
  kind : l'.kind = l.kind
  value : l'.value = l.value
  left : withReturns (rest.drop (l.text.length - 1)) =
      (withReturns rest).drop (l'.text.length - 1) ∨
    l.kind ≠ some .blockClose ∧ withReturns (rest.drop (l.text.length - 1)) =
      '\r' :: (withReturns rest).drop (l'.text.length - 1)

theorem Returned.same {rest : List Char} {kind : Option TokenKind} {value : String} {c : Char}
    {more : List Char} (hmore : more <+: rest) (h : '\n' ∉ more) :
    Returned rest ⟨kind, value, c :: more⟩ ⟨kind, value, c :: more⟩ :=
  ⟨rfl, rfl, .inl (withReturns_drop hmore h).symm⟩

/-- A string that ends with its line takes the return in. -/
theorem stringRun_withReturns (cs : List Char) :
    stringRun (withReturns cs) = stringRun cs ++
      (if (cs.drop (stringRun cs).length).head? = some '\n' then ['\r'] else []) := by
  fun_induction stringRun cs with
  | case1 => rfl
  | case2 rest =>
      rw [withReturns_cons (by decide), stringRun]
      rfl
  | case3 rest =>
      rw [withReturns_newline, stringRun, stringRun]
      · rfl
      · decide
      · decide
      · intro c more hc
        exact absurd hc (by decide)
  | case4 rest =>
      rw [withReturns_cons (by decide), withReturns_newline, stringRun, if_neg (by decide),
        stringRun]
      rfl
  | case5 c rest hc ih =>
      rw [withReturns_cons (by decide), withReturns_cons hc, stringRun, if_neg hc, ih]
      rfl
  | case6 c rest hquote hnewline hescape ih =>
      rw [withReturns_cons hnewline, stringRun, ih]
      · rfl
      · exact hquote
      · exact hnewline
      · intro d more hc hmore
        cases rest with
        | nil => cases hmore
        | cons d' rest => exact hescape d' rest hc rfl

theorem takeLine_withReturns (cs : List Char) :
    (withReturns cs).takeWhile (· != '\n') = cs.takeWhile (· != '\n') ++
      (if (cs.drop (cs.takeWhile (· != '\n')).length).head? = some '\n' then ['\r'] else []) := by
  induction cs with
  | nil => rfl
  | cons c cs ih =>
      by_cases hc : c = '\n'
      · subst hc
        rfl
      · have hpass : ∀ more : List Char, (c :: more).takeWhile (· != '\n') =
            c :: more.takeWhile (· != '\n') :=
          fun more => List.takeWhile_cons_of_pos (by simp [hc])
        rw [withReturns_cons hc, hpass, hpass, ih]
        rfl

/-- A lexeme that ends with its line. -/
theorem Returned.line {rest body : List Char} {kind : Option TokenKind} {value : String} {c : Char}
    (hkind : kind ≠ some .blockClose) (hbody : body <+: rest) (h : '\n' ∉ body)
    (hline : (rest.drop body.length).head? = some '\n') :
    Returned rest ⟨kind, value, c :: body⟩ ⟨kind, value, c :: (body ++ ['\r'])⟩ := by
  rcases hbody with ⟨left, rfl⟩
  rw [List.drop_left] at hline
  rcases List.head?_eq_some_iff.mp hline with ⟨more, rfl⟩
  have hall : withReturns (body ++ '\n' :: more) = body ++ ['\r'] ++ '\n' :: withReturns more := by
    rw [withReturns_append, withReturns_of_notMem h, withReturns_newline, List.append_assoc]
    rfl
  refine ⟨rfl, rfl, .inr ⟨hkind, ?_⟩⟩
  rw [hall, List.length_cons, List.length_cons, Nat.add_sub_cancel, Nat.add_sub_cancel,
    List.drop_left, List.drop_left, withReturns_newline]

theorem returned_ofComment (rest : List Char) :
    Returned rest (ofComment rest) (ofComment (withReturns rest)) := by
  have hbody := List.takeWhile_prefix (l := rest) (· != '\n')
  have hnewline := notMem_takeWhile_ne '\n' rest
  rw [ofComment, ofComment, takeLine_withReturns]
  by_cases hline : (rest.drop (rest.takeWhile (· != '\n')).length).head? = some '\n'
  · rw [if_pos hline, strip_append_return]
    exact .line (by simp) hbody hnewline hline
  · rw [if_neg hline, List.append_nil]
    exact .same hbody hnewline

theorem ofString_of_unclosed {rest : List Char}
    (h : (rest.drop (stringRun rest).length).head? ≠ some '"') :
    ofString rest = error "unterminated string literal" ('"' :: stringRun rest) := by
  rw [ofString]
  split
  · rename_i after hafter
    rw [hafter] at h
    exact absurd rfl h
  · rfl

theorem ofString_of_closed {rest : List Char}
    (h : (rest.drop (stringRun rest).length).head? = some '"') :
    ofString rest =
      ⟨some .string, String.ofList (stringRun rest), '"' :: (stringRun rest ++ ['"'])⟩ := by
  rcases List.head?_eq_some_iff.mp h with ⟨after, hafter⟩
  simp only [ofString, hafter]

theorem returned_ofString (rest : List Char) :
    Returned rest (ofString rest) (ofString (withReturns rest)) := by
  have hbody := stringRun_isPrefix rest
  have hnewline := newline_notMem_stringRun rest
  have hdrop := withReturns_drop hbody hnewline
  have hrun := stringRun_withReturns rest
  by_cases hline : (rest.drop (stringRun rest).length).head? = some '\n'
  · rcases List.head?_eq_some_iff.mp hline with ⟨more, hmore⟩
    rw [if_pos hline] at hrun
    rw [hmore, withReturns_newline] at hdrop
    have hleft : (withReturns rest).drop (stringRun (withReturns rest)).length =
        '\n' :: withReturns more := by
      rw [hrun, List.length_append, ← List.drop_drop, hdrop]
      rfl
    rw [ofString_of_unclosed (by rw [hline]; simp), ofString_of_unclosed (by rw [hleft]; simp),
      hrun]
    exact .line (by simp) hbody hnewline hline
  · rw [if_neg hline, List.append_nil] at hrun
    by_cases hquote : (rest.drop (stringRun rest).length).head? = some '"'
    · rcases List.head?_eq_some_iff.mp hquote with ⟨after, hafter⟩
      rw [hafter, withReturns_cons (by decide)] at hdrop
      rcases ofString_covers rest with ⟨more, htext, hmore⟩
      rw [ofString_of_closed hquote] at htext
      cases htext
      rw [ofString_of_closed hquote, ofString_of_closed (by rw [hrun, hdrop]; rfl), hrun]
      exact .same hmore (by simp [hnewline])
    · have hquote' : ((withReturns rest).drop (stringRun (withReturns rest)).length).head? ≠
          some '"' := by
        rw [hrun, hdrop]
        cases hleft : rest.drop (stringRun rest).length with
        | nil => simp [withReturns]
        | cons d left =>
            rw [hleft] at hline hquote
            have hd : d ≠ '\n' := fun h => hline (by rw [h]; rfl)
            rw [withReturns_cons hd]
            exact hquote
      rw [ofString_of_unclosed hquote, ofString_of_unclosed hquote', hrun]
      exact .same hbody hnewline

theorem head?_withReturns_any {p : Char → Bool} (hreturn : p '\r' = false)
    (hnewline : p '\n' = false) (cs : List Char) :
    (withReturns cs).head?.any p = cs.head?.any p := by
  cases cs with
  | nil => rfl
  | cons c cs =>
      by_cases hc : c = '\n'
      · subst hc
        rw [withReturns_newline, List.head?_cons, List.head?_cons, Option.any_some,
          Option.any_some, hreturn, hnewline]
      · rw [withReturns_cons hc]
        rfl

theorem newline_notMem_name (cs : List Char) : '\n' ∉ cs.takeWhile Text.isIdentPart := by
  intro h
  have hpart := List.all_eq_true.mp List.all_takeWhile _ h
  exact absurd hpart (by decide)

theorem ofClosingBrace_of_ne {rest : List Char} (h : rest.head? ≠ some '}') :
    ofClosingBrace rest = error "unexpected '\x7d' (blocks close with '\x7d\x7d')" ['}'] := by
  rw [ofClosingBrace]
  rintro more rfl
  exact h rfl

theorem returned_ofClosingBrace (rest : List Char) :
    Returned rest (ofClosingBrace rest) (ofClosingBrace (withReturns rest)) := by
  by_cases hclose : rest.head? = some '}'
  · rcases List.head?_eq_some_iff.mp hclose with ⟨more, rfl⟩
    rw [withReturns_cons (by decide)]
    exact .same (List.cons_prefix_cons.mpr ⟨rfl, List.nil_prefix⟩) (by decide)
  · have hopen : (withReturns rest).head? ≠ some '}' := by
      have hany := head?_withReturns_any (p := (· == '}')) (by decide) (by decide) rest
      intro h
      rw [h] at hany
      cases rest with
      | nil => cases hany
      | cons d more =>
          have hd : d = '}' := by simpa using hany.symm
          exact hclose (by rw [hd]; rfl)
    rw [ofClosingBrace_of_ne hclose, ofClosingBrace_of_ne hopen]
    exact .same List.nil_prefix List.not_mem_nil

/-- In a block, what begins with another character than a line feed. -/
theorem returned_inScript (c : Char) (rest : List Char) :
    Returned rest (inScript c rest) (inScript c (withReturns rest)) := by
  have hname : (withReturns rest).takeWhile Text.isIdentPart = rest.takeWhile Text.isIdentPart :=
    takeWhile_withReturns (by decide) (by decide) rest
  have hnewline := newline_notMem_name rest
  have hprefix := List.takeWhile_prefix (l := rest) Text.isIdentPart
  apply inScript_both (P := Returned rest)
  · intro kind value
    exact .same List.nil_prefix List.not_mem_nil
  · exact returned_ofClosingBrace rest
  · exact returned_ofComment rest
  · intro kind _
    rw [ofSigil, ofSigil, head?_withReturns_any (by decide) (by decide), hname]
    split
    · exact .same hprefix hnewline
    · exact .same List.nil_prefix List.not_mem_nil
  · exact returned_ofString rest
  · rw [ofWord, ofWord, hname]
    split
    · exact .same hprefix hnewline
    · exact .same List.nil_prefix List.not_mem_nil

/-! ## Readings -/

/-- What a lexeme is read as, blanks apart. -/
def reading? (lexeme : Lexeme) : Option (TokenKind × String) :=
  lexeme.kind.map (·, lexeme.value)

/-- A reading with returns, which are put into host text only. -/
def returnedReading : TokenKind × String → TokenKind × String
  | (.hostText, text) => (.hostText, Text.returned text)
  | reading => reading

theorem returnedReading_of_ne {reading : TokenKind × String} (h : reading.1 ≠ .hostText) :
    returnedReading reading = reading := by
  rw [returnedReading]
  rintro text rfl
  exact h rfl

/-- Inside of blocks there is no host text. -/
theorem map_reading?_inScript (c : Char) (rest : List Char) :
    (reading? (inScript c rest)).toList.map returnedReading =
      (reading? (inScript c rest)).toList := by
  rcases blank_or_spells_first .script c rest with ⟨_, hkind, _⟩ | ⟨kind, hmode, hspells⟩
  · rw [reading?, show (inScript c rest).kind = none from hkind]
    rfl
  · have hne : kind ≠ .hostText := by
      rintro rfl
      cases hmode.mpr (.inl rfl)
    rw [reading?, show (inScript c rest).kind = some kind from hspells.1]
    exact congrArg (fun reading => [reading]) (returnedReading_of_ne hne)

theorem readings_cons (lexeme : Lexeme) (lexemes : List Lexeme) :
    (lexeme :: lexemes).filterMap reading? =
      (reading? lexeme).toList ++ lexemes.filterMap reading? := by
  rw [List.filterMap_cons]
  cases reading? lexeme with
  | none => rfl
  | some reading => rfl

/-- Inside of blocks a return is skipped. -/
theorem readings_return (cs : List Char) :
    (scan .script ('\r' :: cs)).filterMap reading? = (scan .script cs).filterMap reading? := by
  rw [scan_script, readings_cons]
  rfl

theorem readings_returned {rest : List Char} {l l' : Lexeme} (h : Returned rest l l') :
    (reading? l').toList ++ (scan (Mode.script.after l')
        ((withReturns rest).drop (l'.text.length - 1))).filterMap reading? =
      (reading? l).toList ++ (scan (Mode.script.after l)
        (withReturns (rest.drop (l.text.length - 1)))).filterMap reading? := by
  have hmode : Mode.script.after l' = Mode.script.after l := by
    rw [Mode.after, Mode.after, h.kind]
  rw [hmode, reading?, reading?, h.kind, h.value]
  rcases h.left with hleft | ⟨hkind, hleft⟩
  · rw [hleft]
  · have hscript : Mode.script.after l = .script := by
      cases hafter : Mode.script.after l with
      | script => rfl
      | host => exact absurd (Mode.eq_blockClose_of_after hafter) hkind
    rw [hscript, hleft, readings_return]

/-- Returns before line feeds are read in host text only. -/
theorem readings_scan_withReturns (mode : Mode) (cs : List Char) :
    (scan mode (withReturns cs)).filterMap reading? =
      ((scan mode cs).filterMap reading?).map returnedReading := by
  fun_induction scan mode cs with
  | case1 mode =>
      rw [withReturns, scan_nil]
      rfl
  | case2 mode c rest lexeme ih =>
      rw [readings_cons, List.map_append, ← ih]
      cases mode with
      | script =>
          rw [show (reading? lexeme).toList.map returnedReading = (reading? lexeme).toList from
            map_reading?_inScript c rest]
          by_cases hc : c = '\n'
          · subst hc
            rw [withReturns_newline, readings_return, scan_script, readings_cons]
            rfl
          · rw [withReturns_cons hc, scan_script, readings_cons]
            exact readings_returned (returned_inScript c rest)
      | host =>
          cases hrun : hostRun (c :: rest) with
          | nil =>
              rcases eq_open_of_hostRun hrun with ⟨more, heq⟩
              cases heq
              have hlexeme : lexeme = verbatim .blockOpen ['{', '{'] := by
                change inHost '{' ('{' :: more) = _
                rw [inHost, hrun]
              rw [hlexeme, withReturns_cons (by decide), withReturns_cons (by decide), scan_open]
              rfl
          | cons d text =>
              have hlexeme : lexeme = verbatim .hostText (d :: text) := by
                change inHost c rest = _
                rw [inHost, hrun]
              have hne : withReturns (d :: text) ≠ [] := by
                simp [Text.withReturns_eq_nil]
              rw [hlexeme, scan_host, drop_hostRun_withReturns, hostRun_withReturns, hrun, ofHost,
                if_neg hne, List.singleton_append, readings_cons]
              simp only [reading?, verbatim, returnedReading, Text.returned, Option.map_some,
                Option.toList_some, List.map_cons, List.map_nil, String.toList_ofList]
              rfl

theorem map_reading_tokens (p : Position) (lexemes : List Lexeme) :
    (tokens p lexemes).map (fun t => (t.kind, t.value)) =
      lexemes.filterMap reading? ++ [(.endOfInput, "")] := by
  induction lexemes generalizing p with
  | nil => rfl
  | cons lexeme lexemes ih =>
      rw [tokens, readings_cons, reading?]
      cases lexeme.kind with
      | none => exact ih _
      | some kind => exact congrArg (List.cons (kind, lexeme.value)) (ih _)

end Lexeme

namespace Text

/-- The first text with a return before some of its line feeds. -/
inductive SomeReturns : List Char → List Char → Prop where
  | nil : SomeReturns [] []
  | keep (c : Char) {cs ds : List Char} (h : SomeReturns cs ds) :
      SomeReturns (c :: cs) (c :: ds)
  | put {cs ds : List Char} (h : SomeReturns cs ds) :
      SomeReturns ('\n' :: cs) ('\r' :: '\n' :: ds)

theorem SomeReturns.refl (cs : List Char) : SomeReturns cs cs := by
  induction cs with
  | nil => exact .nil
  | cons c cs ih => exact .keep c ih

theorem SomeReturns.append {cs ds cs' ds' : List Char} (h : SomeReturns cs ds)
    (h' : SomeReturns cs' ds') : SomeReturns (cs ++ cs') (ds ++ ds') := by
  induction h with
  | nil => exact h'
  | keep c _ ih => exact .keep c ih
  | put _ ih => exact .put ih

theorem someReturns_withReturns (cs : List Char) : SomeReturns cs (withReturns cs) := by
  induction cs with
  | nil => exact .nil
  | cons c cs ih =>
      rw [withReturns]
      split
      · rename_i hc
        rw [hc]
        exact .put ih
      · exact .keep c ih

end Text

/-! ## Tokens and programs -/

theorem tokenize_returned (source : String) :
    (tokenize (Text.returned source)).map (fun t => (t.kind, t.value)) =
      (tokenize source).map fun t => Lexeme.returnedReading (t.kind, t.value) := by
  have hreadings : (tokenize (Text.returned source)).map (fun t => (t.kind, t.value)) =
      ((tokenize source).map fun t => (t.kind, t.value)).map Lexeme.returnedReading := by
    rw [tokenize, tokenize, Lexeme.map_reading_tokens, Lexeme.map_reading_tokens, Text.returned,
      String.toList_ofList, Lexeme.readings_scan_withReturns, List.map_append]
    rfl
  rw [hreadings, List.map_map]
  rfl

/-- Programs that differ in their spans, and in the literals of the host texts of a
source, which have returns before their line feeds. -/
def Likeness.lineEnds (source : String) : Likeness where
  span _ _ := True
  text s x y := ⟨.hostText, x, s⟩ ∈ tokenize source ∧ y = Text.returned x
  block i i' := i = i'
  span_join _ _ := trivial
  span_slice _ _ _ := trivial
  text_empty := by
    rintro s x y ⟨_, rfl⟩
    exact Text.returned_eq_empty x
  block_succ h := congrArg Nat.succ h
  block_inj := by
    rintro i i' j j' rfl rfl
    rfl

theorem Token.alike_of_returned {source : String} {t t' : Token} (ht : t ∈ tokenize source)
    (h : Lexeme.returnedReading (t.kind, t.value) = (t'.kind, t'.value)) :
    t.Alike (.lineEnds source) t' := by
  rcases t with ⟨kind, value, span⟩
  rcases t' with ⟨kind', value', span'⟩
  by_cases hkind : kind = .hostText
  · subst hkind
    cases h
    exact .hostText ⟨ht, rfl⟩ trivial
  · rw [Lexeme.returnedReading_of_ne hkind] at h
    cases h
    exact .same kind value hkind trivial

theorem tokens_alike_returned (source : String) :
    List.Forall₂ (Token.Alike (.lineEnds source)) (tokenize source)
      (tokenize (Text.returned source)) := by
  have hreadings : List.Forall₂ (fun t t' : Token =>
      Lexeme.returnedReading (t.kind, t.value) = (t'.kind, t'.value))
      (tokenize source) (tokenize (Text.returned source)) := by
    rw [← List.forall₂_map_right_iff (f := fun t : Token => (t.kind, t.value)),
      tokenize_returned, List.forall₂_map_right_iff]
    exact List.forall₂_same.mpr fun _ _ => rfl
  apply ((List.forall₂_and_left _ _).mpr ⟨fun t ht => ht, hreadings⟩).imp
  rintro t t' ⟨ht, h⟩
  exact Token.alike_of_returned ht h

theorem Program.compile_alike_returned (source : String) :
    Both (CompileError.Alike (.lineEnds source)) (Program.Alike (.lineEnds source))
      (compile source) (compile (Text.returned source)) :=
  ofTokens_alike trivial rfl (tokens_alike_returned source)

/-! ## Runs -/

def Exchange.lineEnds (source : String) : Exchange (.lineEnds source) where
  rel x y := Text.SomeReturns x.toList y.toList
  refl x := .refl x.toList
  append h h' := by
    rw [String.toList_append, String.toList_append]
    exact h.append h'
  text := by
    rintro s x y ⟨_, rfl⟩
    rw [Text.returned, String.toList_ofList]
    exact Text.someReturns_withReturns x.toList
  block := Iff.rfl

/-- Two runs executed the same opcodes and came to the same end, and what the second
wrote may have returns before line feeds of the first. -/
structure Outcome.SameCourse {σ : Type} (o o' : Outcome σ) : Prop where
  opcodes : o'.state.log.toList.map (·.instruction.opcode) =
    o.state.log.toList.map (·.instruction.opcode)
  error : o'.error.map (fun e => (e.cause, e.stepIndex)) =
    o.error.map fun e => (e.cause, e.stepIndex)
  output : Text.SomeReturns o.output.toList o'.output.toList

namespace Program

theorem sameCourse_returned {σ : Type} {c : Setting σ} (hc : c.Plain) {source : String}
    {p p' : Program} (hcompile : compile source = .ok p) (h : p.Alike (.lineEnds source) p')
    (world : σ) : (p.run c world).SameCourse (p'.run c world) := by
  have hrun : (p.run c world).Alike (Exchange.lineEnds source) (p'.run c world) :=
    run_alike hc h world
  constructor
  · have hopcodes : List.Forall₂ Eq
        ((p'.run c world).state.log.toList.map (·.instruction.opcode))
        ((p.run c world).state.log.toList.map (·.instruction.opcode)) :=
      List.rel_map (fun _ _ hentry => hentry.instruction.opcode.symm) hrun.state.log.flip
    rwa [List.forall₂_eq_eq_eq] at hopcodes
  · have hundefined := fun e => undefined_of_error hc world (e := e) hcompile
    have herror := hrun.error
    generalize (p.run c world).error = error at hundefined herror
    generalize (p'.run c world).error = error' at herror
    cases herror with
    | none => rfl
    | some he =>
        rcases hundefined _ rfl with ⟨u, hu⟩
        rw [Option.map_some, Option.map_some, he.cause.eq_of_undefined hu, he.stepIndex]
  · exact Exchange.join (Exchange.lineEnds source) hrun.state.written

/-- Returns before line feeds make no difference but in host text.  The tokens are the
same, in kind and in value, with the same returns in the values of host texts.  A source
is compiled with them if it is without them, and is refused for the same reason if it is
not; the programs differ in their spans and in the literals of host texts.  Without hooks
their runs execute the same opcodes and come to the same end. -/
theorem line_ends_invariant (source : String) :
    (tokenize (Text.returned source)).map (fun t => (t.kind, t.value)) =
        (tokenize source).map (fun t =>
          (t.kind, if t.kind = .hostText then Text.returned t.value else t.value)) ∧
      Both (fun e e' => e.Alike (.lineEnds source) e' ∧ e'.message = e.message)
        (fun p p' => p.Alike (.lineEnds source) p' ∧ ∀ (σ : Type) (c : Setting σ), c.Plain →
          ∀ world, (p.run c world).SameCourse (p'.run c world))
        (compile source) (compile (Text.returned source)) := by
  constructor
  · rw [tokenize_returned]
    apply List.map_congr_left
    intro t _
    split
    · rename_i hkind
      rw [hkind, Lexeme.returnedReading]
    · rename_i hkind
      exact Lexeme.returnedReading_of_ne hkind
  · have hcompile := compile_alike_returned source
    generalize hfirst : compile source = result at hcompile
    generalize compile (Text.returned source) = result' at hcompile
    cases hcompile with
    | error he => exact .error ⟨he, he.message.symm⟩
    | ok hp => exact .ok ⟨hp, fun σ c hc world => sameCourse_returned hc hfirst hp world⟩

/-- With returns in host text, in a comment, after a statement and after a definition. -/
theorem run_with_returns :
    let c : Setting Unit :=
      ⟨"m", ⟨[("x", "v\n")], []⟩, Registry.empty, Sink.accepting, false⟩
    let source := "a\n\x7b\x7b # note\n x | ?m\n@m \"$(_item_)\" | \"<$(_)>\"\n\x7d\x7d\n"
    c.Plain ∧ ∃ p p', compile source = .ok p ∧ compile (Text.returned source) = .ok p' ∧
      p ≠ p' ∧ (p.run c ()).SameCourse (p'.run c ()) := by
  intro c source
  have hc : c.Plain := ⟨rfl, fun _ _ => rfl⟩
  have hboth := (line_ends_invariant source).2
  have hdiffers : compile source ≠ compile (Text.returned source) := by decide +kernel
  rcases exists_of_isOk (x := compile source) (by decide +kernel) with ⟨p, hp⟩
  rw [hp] at hboth hdiffers
  rcases hboth.of_ok with ⟨p', hp', _, hruns⟩
  refine ⟨hc, p, p', hp, hp', ?_, hruns Unit c hc ()⟩
  rintro rfl
  exact hdiffers hp'.symm

end Program

end Stencil
