import Stencil.Proofs.Tiling

/-!
# Scanning a text piece by piece

A lexeme that leaves something over was ended by what it leaves, so nothing that is
added to the text after that changes it.  Host text alone goes on into what is added.
-/

namespace Stencil
namespace Lexeme

/-! ## Host text -/

/-- Host text as a lexeme, if there is any. -/
def ofHost (text : List Char) : List Lexeme :=
  if text = [] then [] else [verbatim .hostText text]

/-- Two braces, the first of which ends one text and the second begins the other. -/
def OpensBetween (text after : List Char) : Prop :=
  text.getLast? = some '{' ∧ after.head? = some '{'

theorem hostRun_open (rest : List Char) : hostRun ('{' :: '{' :: rest) = [] := by
  rw [hostRun]

theorem eq_open_of_hostRun {c : Char} {rest : List Char} (h : hostRun (c :: rest) = []) :
    ∃ more, c :: rest = '{' :: '{' :: more := by
  rw [hostRun.eq_def] at h
  split at h
  · rename_i heq
    cases heq
  · rename_i heq
    exact ⟨_, heq⟩
  · cases h

theorem hostRun_cons {c : Char} {rest : List Char} (h : ¬(c = '{' ∧ rest.head? = some '{')) :
    hostRun (c :: rest) = c :: hostRun rest := by
  rw [hostRun]
  rintro more rfl rfl
  exact h ⟨rfl, rfl⟩

/-- Host text goes on into what is added to it. -/
theorem hostRun_append {text : List Char} (htext : hostRun text = text) {after : List Char}
    (h : ¬OpensBetween text after) : hostRun (text ++ after) = text ++ hostRun after := by
  fun_induction hostRun text with
  | case1 => rfl
  | case2 rest => cases htext
  | case3 c rest hne ih =>
      have hrest : hostRun rest = rest := (List.cons.inj htext).2
      have hends : ¬(c = '{' ∧ (rest ++ after).head? = some '{') := by
        rintro ⟨rfl, hhead⟩
        cases rest with
        | nil => exact h ⟨rfl, hhead⟩
        | cons d rest =>
            cases hhead
            exact hne _ rfl rfl
      have hbetween : ¬OpensBetween rest after := by
        rintro ⟨hlast, hfirst⟩
        cases rest with
        | nil => cases hlast
        | cons d rest => exact h ⟨by rw [List.getLast?_cons_cons]; exact hlast, hfirst⟩
      rw [List.cons_append, hostRun_cons hends, ih hrest hbetween]
      rfl

/-! ## Scanning host text -/

theorem scan_nil (mode : Mode) : scan mode [] = [] := by
  rw [scan]

theorem scan_open (rest : List Char) :
    scan .host ('{' :: '{' :: rest) = verbatim .blockOpen ['{', '{'] :: scan .script rest := by
  rw [scan]
  have hfirst : first .host '{' ('{' :: rest) = verbatim .blockOpen ['{', '{'] := by
    rw [first, inHost, hostRun_open]
  rw [hfirst]
  rfl

/-- What is scanned outside of blocks begins with the host text there is. -/
theorem scan_host (cs : List Char) :
    scan .host cs = ofHost (hostRun cs) ++ scan .host (cs.drop (hostRun cs).length) := by
  cases hrun : hostRun cs with
  | nil => rfl
  | cons d text =>
      cases cs with
      | nil => cases hrun
      | cons c rest =>
          have hfirst : first .host c rest = verbatim .hostText (d :: text) := by
            rw [first, inHost, hrun]
          rw [scan, hfirst]
          rfl

/-! ## Scanning blocks -/

theorem scan_script (c : Char) (rest : List Char) :
    scan .script (c :: rest) =
      inScript c rest :: scan (Mode.script.after (inScript c rest))
        (rest.drop ((inScript c rest).text.length - 1)) := by
  rw [scan]
  rfl

/-- Two lexemes that begin with the same character are read by the same rule. -/
theorem inScript_both {P : Lexeme → Lexeme → Prop} (c : Char) (rest rest' : List Char)
    (hone : ∀ kind value, P ⟨kind, value, [c]⟩ ⟨kind, value, [c]⟩)
    (hbrace : P (ofClosingBrace rest) (ofClosingBrace rest'))
    (hcomment : P (ofComment rest) (ofComment rest'))
    (hsigil : ∀ kind, kind = .macroDef ∨ kind = .macroRef →
      P (ofSigil kind c rest) (ofSigil kind c rest'))
    (hstring : P (ofString rest) (ofString rest'))
    (hword : P (ofWord c rest) (ofWord c rest')) : P (inScript c rest) (inScript c rest') := by
  unfold inScript
  split
  · exact hone _ _
  · exact hone _ _
  · exact hone _ _
  · exact hone _ _
  · exact hone _ _
  · exact hbrace
  · exact hcomment
  · exact hone _ _
  · exact hone _ _
  · exact hone _ _
  · exact hone _ _
  · exact hsigil _ (.inl rfl)
  · exact hsigil _ (.inr rfl)
  · exact hstring
  · exact hword

/-! ## Adding to a text -/

/-- The lexeme leaves some of the text after its first character, or it needs nothing
after itself. -/
def Ended (lexeme : Lexeme) (rest : List Char) : Prop :=
  rest.drop (lexeme.text.length - 1) ≠ [] ∨ lexeme.kind = some .blockClose

theorem takeWhile_of_append {p : Char → Bool} {cs : List Char}
    (h : cs.drop (cs.takeWhile p).length ≠ []) (after : List Char) :
    (cs ++ after).takeWhile p = cs.takeWhile p := by
  rw [List.takeWhile_append, if_neg]
  intro hlength
  rw [hlength, List.drop_length] at h
  exact h rfl

theorem stringRun_append {cs : List Char} (h : cs.drop (stringRun cs).length ≠ [])
    (after : List Char) : stringRun (cs ++ after) = stringRun cs := by
  fun_induction stringRun cs with
  | case1 => exact absurd rfl h
  | case2 rest => rw [List.cons_append, stringRun]
  | case3 rest => rw [List.cons_append, stringRun]
  | case4 rest => rw [List.cons_append, List.cons_append, stringRun, if_pos rfl]
  | case5 c rest hc ih =>
      rw [List.cons_append, List.cons_append, stringRun, if_neg hc, ih h]
  | case6 c rest hquote hnewline hescape ih =>
      rw [List.cons_append, stringRun, ih h]
      · exact hquote
      · exact hnewline
      · intro d more hc hmore
        cases rest with
        | nil => exact h rfl
        | cons d' rest => exact hescape d' rest hc rfl

theorem Ended.leaves {lexeme : Lexeme} {rest : List Char} (h : Ended lexeme rest)
    (hkind : lexeme.kind ≠ some .blockClose) : rest.drop (lexeme.text.length - 1) ≠ [] := by
  rcases h with h | h
  · exact h
  · exact absurd h hkind

theorem ofClosingBrace_append {rest : List Char} (h : Ended (ofClosingBrace rest) rest)
    (after : List Char) : ofClosingBrace (rest ++ after) = ofClosingBrace rest := by
  cases rest with
  | nil => exact absurd List.drop_nil (h.leaves nofun)
  | cons d rest =>
      by_cases hd : d = '}'
      · subst hd
        rfl
      · simp [ofClosingBrace, hd]

theorem ofComment_append {rest : List Char} (h : Ended (ofComment rest) rest)
    (after : List Char) : ofComment (rest ++ after) = ofComment rest := by
  have hleaves : rest.drop (rest.takeWhile (· != '\n')).length ≠ [] := h.leaves nofun
  rw [ofComment, ofComment, takeWhile_of_append hleaves]

theorem ofSigil_append {kind : TokenKind} (hkind : kind ≠ .blockClose) {sigil : Char}
    {rest : List Char} (h : Ended (ofSigil kind sigil rest) rest) (after : List Char) :
    ofSigil kind sigil (rest ++ after) = ofSigil kind sigil rest := by
  cases hstart : rest.head?.any Text.isIdentStart with
  | true =>
      have hleaves : rest.drop (rest.takeWhile Text.isIdentPart).length ≠ [] := by
        rw [ofSigil, if_pos hstart] at h
        exact h.leaves fun heq => hkind (Option.some.inj heq)
      cases rest with
      | nil => exact absurd List.drop_nil hleaves
      | cons d rest =>
          have hstart' : (d :: rest ++ after).head?.any Text.isIdentStart = true := hstart
          rw [ofSigil, ofSigil, if_pos hstart, if_pos hstart', takeWhile_of_append hleaves]
  | false =>
      have hno : ¬rest.head?.any Text.isIdentStart = true := by
        rw [hstart]
        exact Bool.false_ne_true
      cases rest with
      | nil =>
          rw [ofSigil, if_neg hno] at h
          exact absurd List.drop_nil (h.leaves nofun)
      | cons d rest =>
          have hno' : ¬(d :: rest ++ after).head?.any Text.isIdentStart = true := hno
          rw [ofSigil, ofSigil, if_neg hno, if_neg hno']

theorem kind_ofString_ne (rest : List Char) : (ofString rest).kind ≠ some .blockClose := by
  rw [ofString]
  split
  · intro h
    cases h
  · intro h
    cases h

/-- A string goes on to its quote or to the end of its line, whichever is there. -/
theorem ofString_append {rest : List Char} (h : Ended (ofString rest) rest)
    (after : List Char) : ofString (rest ++ after) = ofString rest := by
  have hleaves := h.leaves (kind_ofString_ne rest)
  have hdrop : rest.drop (stringRun rest).length ≠ [] := by
    rw [ofString] at hleaves
    split at hleaves
    · rename_i tail htail
      rw [htail]
      exact List.cons_ne_nil _ _
    · exact hleaves
  have hlength := (stringRun_isPrefix rest).length_le
  rw [ofString, ofString, stringRun_append hdrop, List.drop_append_of_le_length hlength]
  cases hleft : rest.drop (stringRun rest).length with
  | nil => exact absurd hleft hdrop
  | cons d left =>
      rw [List.cons_append]
      by_cases hd : d = '"'
      · subst hd
        rfl
      · simp [hd]

theorem ofWord_append {c : Char} {rest : List Char} (h : Ended (ofWord c rest) rest)
    (after : List Char) : ofWord c (rest ++ after) = ofWord c rest := by
  rw [ofWord] at h
  rw [ofWord, ofWord]
  split
  · rename_i hstart
    rw [if_pos hstart] at h
    have hleaves : rest.drop (rest.takeWhile Text.isIdentPart).length ≠ [] := h.leaves nofun
    rw [takeWhile_of_append hleaves]
  · rfl

/-- Nothing that is added changes a lexeme that was ended. -/
theorem inScript_append {c : Char} {rest : List Char} (h : Ended (inScript c rest) rest)
    (after : List Char) : inScript c (rest ++ after) = inScript c rest := by
  revert h
  apply inScript_both (P := fun l l' => Ended l rest → l' = l)
  · intro kind value _
    rfl
  · intro h
    exact ofClosingBrace_append h after
  · intro h
    exact ofComment_append h after
  · intro kind hkind h
    have hne : kind ≠ .blockClose := by
      rcases hkind with rfl | rfl
      · decide
      · decide
    exact ofSigil_append hne h after
  · intro h
    exact ofString_append h after
  · intro h
    exact ofWord_append h after

theorem hostRun_of_append {cs : List Char} (h : cs.drop (hostRun cs).length ≠ [])
    (after : List Char) : hostRun (cs ++ after) = hostRun cs := by
  fun_induction hostRun cs with
  | case1 => exact absurd rfl h
  | case2 rest => rw [List.cons_append, List.cons_append, hostRun_open]
  | case3 c rest hne ih =>
      rw [List.cons_append, hostRun_cons, ih h]
      rintro ⟨rfl, hhead⟩
      cases rest with
      | nil => exact h rfl
      | cons d rest =>
          cases hhead
          exact hne _ rfl rfl

theorem first_append {mode : Mode} {c : Char} {rest : List Char}
    (h : Ended (first mode c rest) rest) (after : List Char) :
    first mode c (rest ++ after) = first mode c rest := by
  cases mode with
  | script => exact inScript_append h after
  | host =>
      change inHost c (rest ++ after) = inHost c rest
      have h' : Ended (inHost c rest) rest := h
      rw [inHost] at h' ⊢
      rw [inHost]
      cases hrun : hostRun (c :: rest) with
      | nil =>
          rcases eq_open_of_hostRun hrun with ⟨more, heq⟩
          cases heq
          rw [← List.cons_append, List.cons_append, List.cons_append, hostRun_open]
      | cons d text =>
          rw [hrun] at h'
          rcases h' with hdrop | hkind
          · have hdrop' : (c :: rest).drop (hostRun (c :: rest)).length ≠ [] := by
              rw [hrun]
              exact hdrop
            rw [← List.cons_append, hostRun_of_append hdrop', hrun]
          · cases hkind

/-! ## The end of a text -/

/-- The mode after some lexemes. -/
def Mode.afterAll (mode : Mode) (lexemes : List Lexeme) : Mode :=
  lexemes.foldl Mode.after mode

theorem length_first_le (mode : Mode) (c : Char) (rest : List Char) :
    (first mode c rest).text.length - 1 ≤ rest.length := by
  rcases first_covers mode c rest with ⟨more, htext, hmore⟩
  rw [htext, List.length_cons, Nat.add_sub_cancel]
  exact hmore.length_le

/-- A lexeme that was ended is scanned as it is whatever follows. -/
theorem scan_cons_append {mode : Mode} {c : Char} {rest : List Char}
    (h : Ended (first mode c rest) rest) (after : List Char) :
    scan mode (c :: rest ++ after) =
      first mode c rest :: scan (mode.after (first mode c rest))
        (rest.drop ((first mode c rest).text.length - 1) ++ after) := by
  rw [List.cons_append, scan, first_append h,
    List.drop_append_of_le_length (length_first_le mode c rest)]

theorem Mode.eq_blockClose_of_after {lexeme : Lexeme} (h : Mode.script.after lexeme = .host) :
    lexeme.kind = some .blockClose := by
  rw [Mode.after] at h
  split at h
  · cases h
  · rename_i hkind
    exact hkind
  · cases h

/-- Host text that is the last lexeme is all there is. -/
theorem hostRun_of_last {c : Char} {rest : List Char}
    (hleft : rest.drop ((inHost c rest).text.length - 1) = [])
    (hmode : Mode.host.after (inHost c rest) = .host) : hostRun (c :: rest) = c :: rest := by
  cases hrun : hostRun (c :: rest) with
  | nil =>
      rw [inHost, hrun] at hmode
      cases hmode
  | cons d text =>
      rw [inHost, hrun] at hleft
      have hlength : (c :: rest).length ≤ (hostRun (c :: rest)).length := by
        rw [hrun, List.length_cons, List.length_cons]
        exact Nat.succ_le_succ (List.drop_eq_nil_iff.mp hleft)
      rw [← hrun]
      exact (hostRun_isPrefix (c :: rest)).eq_of_length_le hlength

/-- A text after which no block is open ends in host text, perhaps none, and before that
it is scanned as it is whatever follows. -/
theorem scan_append {mode : Mode} {cs : List Char}
    (hmode : mode.afterAll (scan mode cs) = .host) (after : List Char) :
    ∃ front text, scan mode cs = front ++ ofHost text ∧ hostRun text = text ∧
      text <:+ cs ∧ scan mode (cs ++ after) = front ++ scan .host (text ++ after) := by
  fun_induction scan mode cs with
  | case1 mode =>
      have hhost : mode = .host := hmode
      subst hhost
      exact ⟨[], [], rfl, rfl, List.suffix_rfl, rfl⟩
  | case2 mode c rest lexeme ih =>
      by_cases hleft : rest.drop (lexeme.text.length - 1) = []
      · rw [hleft, scan_nil] at hmode ⊢
        cases mode with
        | script =>
            have hended : Ended (first .script c rest) rest :=
              .inr (Mode.eq_blockClose_of_after hmode)
            refine ⟨[lexeme], [], rfl, rfl, List.nil_suffix, ?_⟩
            rw [scan_cons_append hended, show first .script c rest = lexeme from rfl, hleft,
              show Mode.script.after lexeme = .host from hmode]
            rfl
        | host =>
            have hall : hostRun (c :: rest) = c :: rest := hostRun_of_last hleft hmode
            have hlexeme : lexeme = verbatim .hostText (c :: rest) := by
              change inHost c rest = _
              rw [inHost, hall]
            refine ⟨[], c :: rest, ?_, hall, List.suffix_rfl, rfl⟩
            rw [hlexeme]
            rfl
      · rcases ih hmode with ⟨front, text, hscan, htext, hsuffix, hafter⟩
        refine ⟨lexeme :: front, text, ?_, htext, ?_, ?_⟩
        · rw [hscan, List.cons_append]
        · exact (hsuffix.trans (List.drop_suffix _ _)).trans (List.suffix_cons _ _)
        · rw [scan_cons_append (.inl hleft), show first mode c rest = lexeme from rfl, hafter,
            List.cons_append]

end Lexeme
end Stencil
