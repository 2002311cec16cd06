import Stencil.Proofs.Scanning

/-!
# The lexical grammar

Inside of a block the words of a text fall into classes, and no two classes have words
that begin with the same character.  A token is the longest word that stands where the
token begins; if no word stands there, it is an error.  Outside of blocks everything up
to the next pair of opening braces is host text.
-/

namespace Stencil
namespace Token

open Lexeme

/-! ## Classes of words -/

/-- The inside of a string literal: a backslash stands with the character after it, and
quotes stand after a backslash only. -/
inductive Units : List Char → Prop where
  | nil : Units []
  | plain {c : Char} {rest : List Char} (hquote : c ≠ '"') (hescape : c ≠ '\\')
      (hline : c ≠ '\n') (htail : Units rest) : Units (c :: rest)
  | escape {c : Char} {rest : List Char} (hline : c ≠ '\n') (htail : Units rest) :
      Units ('\\' :: c :: rest)

inductive OfClass : TokenKind → List Char → Prop where
  | blockClose : OfClass .blockClose ['}', '}']
  | newline {c : Char} (h : c = '\n' ∨ c = ';') : OfClass .newline [c]
  | comment {body : List Char} (h : '\n' ∉ body) : OfClass .comment ('#' :: body)
  | identifier {name : List Char} (h : Text.isIdentifier name = true) :
      OfClass .identifier name
  | macroDef {name : List Char} (h : Text.isIdentifier name = true) :
      OfClass .macroDef ('@' :: name)
  | macroRef {name : List Char} (h : Text.isIdentifier name = true) :
      OfClass .macroRef ('?' :: name)
  | string {body : List Char} (h : Units body) : OfClass .string ('"' :: (body ++ ['"']))
  | pipe : OfClass .pipe ['|']
  | leftBracket : OfClass .leftBracket ['[']
  | rightBracket : OfClass .rightBracket [']']
  | colon : OfClass .colon [':']

/-- How far an error reaches where no word stands. -/
inductive Stray : List Char → List Char → Prop where
  | quote (rest : List Char) : Stray ('"' :: rest) ('"' :: rest.takeWhile (· != '\n'))
  | single {c : Char} (hquote : c ≠ '"') (rest : List Char) : Stray (c :: rest) [c]

/-- What is taken from the front of a text: the longest word, all words being of one
class, or else what is in error. -/
inductive Taken (cs : List Char) : TokenKind → List Char → Prop where
  | word {kind : TokenKind} {text : List Char} (h : OfClass kind text) (hstands : text <+: cs)
      (hlongest : ∀ other word, OfClass other word → word <+: cs →
        other = kind ∧ word.length ≤ text.length) : Taken cs kind text
  | error {text : List Char} (hnone : ∀ kind word, OfClass kind word → ¬word <+: cs)
      (hstray : Stray cs text) : Taken cs .error text

/-- The class of the words that begin with a character. -/
def classOf : Char → TokenKind
  | '\n' | ';' => .newline
  | '}' => .blockClose
  | '#' => .comment
  | '|' => .pipe
  | '[' => .leftBracket
  | ']' => .rightBracket
  | ':' => .colon
  | '@' => .macroDef
  | '?' => .macroRef
  | '"' => .string
  | _ => .identifier

variable {c : Char} {rest word : List Char} {kind : TokenKind}

theorem classOf_isIdentStart (h : Text.isIdentStart c = true) : classOf c = .identifier := by
  unfold classOf
  split
  case h_12 => rfl
  all_goals exact absurd h (by decide)

theorem OfClass.eq_classOf (h : OfClass kind word) (hstands : word <+: c :: rest) :
    kind = classOf c ∧ ∃ more, word = c :: more ∧ more <+: rest := by
  have hcons {d : Char} {more : List Char} (hd : kind = classOf d)
      (hmore : d :: more <+: c :: rest) :
      kind = classOf c ∧ ∃ more', d :: more = c :: more' ∧ more' <+: rest := by
    rcases List.cons_prefix_cons.mp hmore with ⟨rfl, htail⟩
    exact ⟨hd, more, rfl, htail⟩
  cases h with
  | newline h =>
      rcases h with rfl | rfl
      · exact hcons rfl hstands
      · exact hcons rfl hstands
  | identifier h =>
      cases word with
      | nil => cases h
      | cons d name =>
          rw [Text.isIdentifier, Bool.and_eq_true] at h
          exact hcons (classOf_isIdentStart h.1).symm hstands
  | _ => exact hcons rfl hstands

/-- A word of the class of the first character is taken if no longer one stands there. -/
theorem Taken.of_class {text : List Char} (h : OfClass (classOf c) text)
    (hstands : text <+: c :: rest)
    (hlongest : ∀ more, OfClass (classOf c) (c :: more) → more <+: rest →
      (c :: more).length ≤ text.length) : Taken (c :: rest) (classOf c) text := by
  refine .word h hstands ?_
  intro other word hword hwordStands
  rcases hword.eq_classOf hwordStands with ⟨rfl, more, rfl, hmore⟩
  exact ⟨rfl, hlongest more hword hmore⟩

theorem Taken.of_none {text : List Char}
    (hnone : ∀ more, OfClass (classOf c) (c :: more) → ¬more <+: rest)
    (hstray : Stray (c :: rest) text) : Taken (c :: rest) .error text := by
  refine .error ?_ hstray
  intro kind word hword hstands
  rcases hword.eq_classOf hstands with ⟨rfl, more, rfl, hmore⟩
  exact hnone more hword hmore

/-! ## Words of one character -/

/-- A class whose words are single characters. -/
theorem Taken.single (h : OfClass (classOf c) [c])
    (hone : ∀ word, OfClass (classOf c) word → word.length ≤ 1) (rest : List Char) :
    Taken (c :: rest) (classOf c) [c] :=
  .of_class h (List.cons_prefix_cons.mpr ⟨rfl, List.nil_prefix⟩) fun _ hword _ => hone _ hword

/-! ## Words of characters of one kind -/

theorem length_le_takeWhile {p : Char → Bool} {text cs : List Char} (hall : ∀ c ∈ text, p c)
    (hstands : text <+: cs) : text.length ≤ (cs.takeWhile p).length := by
  rcases hstands with ⟨after, rfl⟩
  rw [List.takeWhile_append_of_pos hall, List.length_append]
  exact Nat.le_add_right _ _

theorem taken_ofComment (rest : List Char) :
    Taken ('#' :: rest) .comment (ofComment rest).text := by
  refine Taken.of_class (c := '#') ?_ ?_ ?_
  · exact .comment (notMem_takeWhile_ne _ rest)
  · exact List.cons_prefix_cons.mpr ⟨rfl, List.takeWhile_prefix _⟩
  · intro more hmore hstands
    cases hmore with
    | comment hbody =>
        apply Nat.succ_le_succ
        apply length_le_takeWhile _ hstands
        intro d hd
        exact bne_iff_ne.mpr (ne_of_mem_of_not_mem hd hbody)

/-- A name after a sigil, or none. -/
theorem taken_ofSigil {sigil : Char} (hquote : sigil ≠ '"')
    (hclass : ∀ name, OfClass (classOf sigil) (sigil :: name) ↔ Text.isIdentifier name = true)
    (rest : List Char) : ∃ kind, (ofSigil (classOf sigil) sigil rest).kind = some kind ∧
      Taken (sigil :: rest) kind (ofSigil (classOf sigil) sigil rest).text := by
  unfold ofSigil
  split
  · rename_i hstart
    refine ⟨classOf sigil, rfl, Taken.of_class ?_ ?_ ?_⟩
    · rw [hclass]
      cases rest with
      | nil => cases hstart
      | cons d rest =>
          rw [List.takeWhile_cons_of_pos (Text.isIdentPart_of_isIdentStart hstart)]
          exact isIdentifier_cons_takeWhile hstart rest
    · exact List.cons_prefix_cons.mpr ⟨rfl, List.takeWhile_prefix _⟩
    · intro name hname hstands
      apply Nat.succ_le_succ
      exact length_le_takeWhile (Text.isIdentPart_of_isIdentifier ((hclass name).mp hname)) hstands
  · rename_i hstart
    refine ⟨.error, rfl, .of_none ?_ (.single hquote rest)⟩
    intro name hname hstands
    rw [hclass] at hname
    cases name with
    | nil => cases hname
    | cons d name =>
        rcases hstands with ⟨after, rfl⟩
        rw [Text.isIdentifier, Bool.and_eq_true] at hname
        exact hstart hname.1

theorem taken_ofWord (hquote : c ≠ '"') (hclass : classOf c = .identifier) (rest : List Char) :
    ∃ kind, (ofWord c rest).kind = some kind ∧ Taken (c :: rest) kind (ofWord c rest).text := by
  unfold ofWord
  split
  · rename_i hstart
    refine ⟨.identifier, rfl, ?_⟩
    rw [← hclass]
    refine .of_class ?_ ?_ ?_
    · rw [hclass]
      exact .identifier (isIdentifier_cons_takeWhile hstart rest)
    · exact List.cons_prefix_cons.mpr ⟨rfl, List.takeWhile_prefix _⟩
    · intro more hmore hstands
      rw [hclass] at hmore
      cases hmore with
      | identifier hname =>
          apply Nat.succ_le_succ
          apply length_le_takeWhile _ hstands
          exact (List.forall_mem_cons.mp (Text.isIdentPart_of_isIdentifier hname)).2
  · rename_i hstart
    refine ⟨.error, rfl, .of_none ?_ (.single hquote rest)⟩
    intro more hmore _
    rw [hclass] at hmore
    cases hmore with
    | identifier hname =>
        rw [Text.isIdentifier, Bool.and_eq_true] at hname
        exact hstart hname.1

theorem taken_ofClosingBrace (rest : List Char) :
    ∃ kind, (ofClosingBrace rest).kind = some kind ∧
      Taken ('}' :: rest) kind (ofClosingBrace rest).text := by
  unfold ofClosingBrace
  split
  · rename_i after
    refine ⟨.blockClose, rfl, Taken.of_class (c := '}') .blockClose ⟨after, rfl⟩ ?_⟩
    intro more hmore _
    cases hmore with
    | blockClose => exact Nat.le_refl 2
  · rename_i hnone
    refine ⟨.error, rfl, .of_none ?_ (.single (by decide) rest)⟩
    intro more hmore hstands
    cases hmore with
    | blockClose =>
        rcases hstands with ⟨after, rfl⟩
        exact hnone after rfl

/-! ## Strings -/

theorem stringRun_of_units {body : List Char} (h : Units body) (after : List Char) :
    stringRun (body ++ '"' :: after) = body := by
  induction h with
  | nil => rw [List.nil_append, stringRun]
  | @plain c rest hquote hescape hline _ ih =>
      rw [List.cons_append, stringRun, ih]
      · exact hquote
      · exact hline
      · intro d more hc _
        exact hescape hc
  | @escape c rest hline _ ih =>
      rw [List.cons_append, List.cons_append, stringRun, if_neg hline, ih]

/-- What stands before a closing quote. -/
theorem units_stringRun {cs after : List Char}
    (h : cs.drop (stringRun cs).length = '"' :: after) : Units (stringRun cs) := by
  fun_induction stringRun cs with
  | case1 => exact .nil
  | case2 => exact .nil
  | case3 => exact .nil
  | case4 rest => cases h
  | case5 c rest hline ih => exact .escape hline (ih h)
  | case6 c rest hquote hline hescape ih =>
      by_cases hc : c = '\\'
      · cases rest with
        | nil => cases h
        | cons d rest => exact (hescape d rest hc rfl).elim
      · exact .plain hquote hc hline (ih h)

theorem append_of_drop {cs after : List Char} (h : cs.drop (stringRun cs).length = '"' :: after) :
    cs = stringRun cs ++ '"' :: after := by
  rcases stringRun_isPrefix cs with ⟨tail, htail⟩
  have hdrop := congrArg (List.drop (stringRun cs).length) htail
  rw [List.drop_left, h] at hdrop
  rw [hdrop] at htail
  exact htail.symm

/-- A string without a closing quote reaches to the end of its line. -/
theorem stringRun_of_unclosed {cs : List Char}
    (h : ∀ after, cs.drop (stringRun cs).length ≠ '"' :: after) :
    stringRun cs = cs.takeWhile (· != '\n') := by
  fun_induction stringRun cs with
  | case1 => rfl
  | case2 rest => exact absurd rfl (h rest)
  | case3 rest => rfl
  | case4 rest => rfl
  | case5 c rest hline ih =>
      have hpos : (c != '\n') = true := bne_iff_ne.mpr hline
      rw [List.takeWhile_cons_of_pos (by decide),
        List.takeWhile_cons_of_pos (p := (· != '\n')) hpos, ← ih h]
  | case6 c rest hquote hline hescape ih =>
      have hpos : (c != '\n') = true := bne_iff_ne.mpr hline
      rw [List.takeWhile_cons_of_pos (p := (· != '\n')) hpos, ← ih h]

theorem taken_ofString (rest : List Char) :
    ∃ kind, (ofString rest).kind = some kind ∧ Taken ('"' :: rest) kind (ofString rest).text := by
  simp only [ofString]
  split
  · rename_i after hdrop
    have hrest := append_of_drop hdrop
    refine ⟨.string, rfl, Taken.of_class (c := '"') (.string (units_stringRun hdrop)) ?_ ?_⟩
    · refine List.cons_prefix_cons.mpr ⟨rfl, after, ?_⟩
      rw [List.append_assoc]
      exact hrest.symm
    · intro more hmore hstands
      cases hmore with
      | @string body hbody =>
          rcases hstands with ⟨after', rfl⟩
          apply Nat.le_of_eq
          rw [List.append_assoc, List.singleton_append, stringRun_of_units hbody]
  · rename_i hnone
    have hunclosed : ∀ after, rest.drop (stringRun rest).length ≠ '"' :: after := hnone
    refine ⟨.error, rfl, Taken.of_none ?_ ?_⟩
    · intro more hmore hstands
      cases hmore with
      | @string body hbody =>
          rcases hstands with ⟨after, rfl⟩
          apply hunclosed after
          rw [List.append_assoc, List.singleton_append, stringRun_of_units hbody, List.drop_left]
    · rw [stringRun_of_unclosed hunclosed]
      exact .quote rest

/-! ## Inside of blocks -/

/-- The lexeme inside of a block is a blank, or takes what the grammar says. -/
theorem taken_inScript (hblank : c ∉ [' ', '\t', '\r']) (rest : List Char) :
    ∃ kind, (inScript c rest).kind = some kind ∧ Taken (c :: rest) kind (inScript c rest).text := by
  have hsingle {c : Char} {value : String} (h : OfClass (classOf c) [c])
      (hone : ∀ word, OfClass (classOf c) word → word.length ≤ 1) :
      ∃ kind, (⟨some (classOf c), value, [c]⟩ : Lexeme).kind = some kind ∧
        Taken (c :: rest) kind [c] :=
    ⟨_, rfl, .single h hone rest⟩
  unfold inScript
  split
  · exact absurd (by simp) hblank
  · exact absurd (by simp) hblank
  · exact absurd (by simp) hblank
  · refine hsingle (c := '\n') (.newline (.inl rfl)) ?_
    rintro _ ⟨⟩
    exact Nat.le_refl 1
  · refine hsingle (c := ';') (.newline (.inr rfl)) ?_
    rintro _ ⟨⟩
    exact Nat.le_refl 1
  · exact taken_ofClosingBrace rest
  · exact ⟨.comment, rfl, taken_ofComment rest⟩
  · refine hsingle (c := '|') .pipe ?_
    rintro _ ⟨⟩
    exact Nat.le_refl 1
  · refine hsingle (c := '[') .leftBracket ?_
    rintro _ ⟨⟩
    exact Nat.le_refl 1
  · refine hsingle (c := ']') .rightBracket ?_
    rintro _ ⟨⟩
    exact Nat.le_refl 1
  · refine hsingle (c := ':') .colon ?_
    rintro _ ⟨⟩
    exact Nat.le_refl 1
  · exact taken_ofSigil (by decide) (fun name => ⟨fun h => by cases h; assumption, .macroDef⟩) rest
  · exact taken_ofSigil (by decide) (fun name => ⟨fun h => by cases h; assumption, .macroRef⟩) rest
  · exact taken_ofString rest
  · have hclass : classOf c = .identifier := by
      rw [classOf] <;> assumption
    have hquote : c ≠ '"' := by assumption
    exact taken_ofWord hquote hclass rest

/-! ## Outside of blocks -/

/-- What opens a block. -/
def opening : List Char :=
  ['{', '{']

variable {cs : List Char}

theorem not_opening_of_hostRun {i : Nat} (h : i < (hostRun cs).length) :
    ¬opening <+: cs.drop i := by
  fun_induction hostRun cs generalizing i with
  | case1 => exact absurd h (Nat.not_lt_zero i)
  | case2 => exact absurd h (Nat.not_lt_zero i)
  | case3 c rest hopen ih =>
      cases i with
      | zero =>
          rintro ⟨after, hafter⟩
          cases hafter
          exact hopen after rfl rfl
      | succ i => exact ih (Nat.lt_of_succ_lt_succ h)

theorem not_opening_infix_hostRun (cs : List Char) : ¬opening <:+: hostRun cs := by
  rintro ⟨front, back, h⟩
  have hlength := congrArg List.length h
  rw [List.length_append, List.length_append, opening, List.length_cons] at hlength
  have hlt : front.length < (hostRun cs).length := by
    omega
  apply not_opening_of_hostRun hlt
  rcases hostRun_isPrefix cs with ⟨after, hafter⟩
  rw [← hafter, ← h, List.append_assoc, List.append_assoc, List.drop_left]
  exact List.prefix_append _ _

/-- Host text goes on to the end or to an opening. -/
theorem opening_of_hostRun (h : cs = hostRun cs ++ rest) : rest = [] ∨ opening <+: rest := by
  fun_induction hostRun cs with
  | case1 => exact .inl h.symm
  | case2 more =>
      rw [List.nil_append] at h
      rw [← h]
      exact .inr ⟨more, rfl⟩
  | case3 c cs _ ih => exact ih (List.cons.inj h).2

/-! ## Tokens by the grammar -/

/-- What a token takes from the front of a text. -/
inductive Takes : Mode → List Char → TokenKind → List Char → Prop where
  | blockOpen (rest : List Char) : Takes .host (opening ++ rest) .blockOpen opening
  | hostText {cs : List Char} (hne : hostRun cs ≠ []) : Takes .host cs .hostText (hostRun cs)
  | script {c : Char} {rest text : List Char} {kind : TokenKind}
      (hblank : c ∉ [' ', '\t', '\r']) (h : Taken (c :: rest) kind text) :
      Takes .script (c :: rest) kind text

/-- From the position `p` on, a text has the tokens that the grammar gives it. -/
inductive Lexed : Mode → Position → List Char → List Token → Prop where
  | done {mode : Mode} {p : Position} {token : Token} (hkind : token.kind = .endOfInput)
      (hspan : token.span = p.upTo p) : Lexed mode p [] [token]
  | blank {p : Position} {c : Char} {rest : List Char} {tokens : List Token}
      (hblank : c ∈ [' ', '\t', '\r']) (htail : Lexed .script (p.advance c) rest tokens) :
      Lexed .script p (c :: rest) tokens
  | token {mode : Mode} {p : Position} {cs text rest : List Char} {token : Token}
      {tokens : List Token} (htakes : Takes mode cs token.kind text) (hcs : cs = text ++ rest)
      (hspan : token.span = p.upTo (p.advanceOver text))
      (htail : Lexed (mode.next token.kind) (p.advanceOver text) rest tokens) :
      Lexed mode p cs (token :: tokens)

variable {mode : Mode} {p : Position} {tokens before : List Token} {token : Token}

/-- Either a lexeme is skipped, or it takes what the grammar says. -/
theorem blank_or_takes_first (mode : Mode) (c : Char) (rest : List Char) :
    (mode = .script ∧ (first mode c rest).kind = none ∧ (first mode c rest).text = [c] ∧
        c ∈ [' ', '\t', '\r']) ∨
      ∃ kind, (first mode c rest).kind = some kind ∧
        Takes mode (c :: rest) kind (first mode c rest).text := by
  cases mode with
  | host =>
      right
      rw [first, inHost]
      split
      · rename_i hrun
        rcases eq_open_of_hostRun hrun with ⟨more, heq⟩
        rw [heq]
        exact ⟨.blockOpen, rfl, .blockOpen more⟩
      · rename_i hne
        exact ⟨.hostText, rfl, .hostText hne⟩
  | script =>
      by_cases hblank : c ∈ [' ', '\t', '\r']
      · have hcases : c = ' ' ∨ c = '\t' ∨ c = '\r' := by
          simpa using hblank
        left
        rcases hcases with rfl | rfl | rfl
        · exact ⟨rfl, rfl, rfl, hblank⟩
        · exact ⟨rfl, rfl, rfl, hblank⟩
        · exact ⟨rfl, rfl, rfl, hblank⟩
      · rcases taken_inScript hblank rest with ⟨kind, hkind, htaken⟩
        exact .inr ⟨kind, hkind, .script hblank htaken⟩

theorem lexed_scan (mode : Mode) (p : Position) (cs : List Char) :
    Lexed mode p cs (Lexeme.tokens p (scan mode cs)) := by
  fun_induction scan mode cs generalizing p with
  | case1 mode => exact .done rfl rfl
  | case2 mode c rest lexeme ih =>
      rcases first_covers mode c rest with ⟨more, htext, after, rfl⟩
      have hlexeme : lexeme.text = c :: more := htext
      have hdrop : (more ++ after).drop (lexeme.text.length - 1) = after := by
        rw [hlexeme, List.length_cons, Nat.add_sub_cancel, List.drop_left]
      rw [hdrop] at ih ⊢
      have htail := ih (p.advanceOver lexeme.text)
      rcases blank_or_takes_first mode c (more ++ after) with
        ⟨rfl, hkind, hone, hblank⟩ | ⟨kind, hkind, htakes⟩
      · have hmore : more = [] := (List.cons.inj (htext.symm.trans hone)).2
        subst hmore
        have hnone : lexeme.kind = none := hkind
        have hafter : Mode.after .script lexeme = .script := by
          rw [Mode.after, hnone]
        rw [hafter, hlexeme] at htail
        rw [Lexeme.tokens, hnone, hafter, hlexeme]
        exact .blank hblank htail
      · have hsome : lexeme.kind = some kind := hkind
        rw [Mode.after_of_kind hsome] at htail
        rw [Lexeme.tokens, hsome, Mode.after_of_kind hsome]
        have hcs : c :: (more ++ after) = lexeme.text ++ after := by
          rw [hlexeme, List.cons_append]
        exact .token htakes hcs rfl htail

/-! ## Every token of a source -/

/-- Where the last of some tokens ends. -/
def ended (tokens : List Token) : Nat :=
  (tokens.getLast?.map (·.span.stop)).getD 0

/-- Where the last block among some tokens ends. -/
def closed (tokens : List Token) : Nat :=
  ended (tokens.filter (·.kind = .blockClose))

/-- A token of a source follows the grammar where it stands, after some tokens and
before others. -/
structure Exact (source : List Char) (before : List Token) (token : Token)
    (after : List Token) : Prop where
  /-- Only blanks are skipped, and those in blocks only. -/
  gap : ∃ blanks, source.drop (ended before) = blanks ++ source.drop token.span.start ∧
    token.span.start = ended before + blanks.length ∧
    (∀ c ∈ blanks, c ∈ [' ', '\t', '\r']) ∧ (blanks ≠ [] → InBlock before)
  bounds : token.span.start ≤ token.span.stop ∧ token.span.stop ≤ source.length
  endOfInput : (token.kind = .endOfInput ↔ source.drop token.span.start = []) ∧
    (token.kind = .endOfInput ↔ after = [])
  host : ¬InBlock before →
    token.kind = .hostText ∨ token.kind = .blockOpen ∨ token.kind = .endOfInput
  hostText : token.kind = .hostText → ¬InBlock before ∧ token.span.text source ≠ [] ∧
    ¬opening <:+: token.span.text source ∧
    ∃ next more, after = next :: more ∧ (next.kind = .blockOpen ∨ next.kind = .endOfInput)
  /-- A block is opened at the leftmost opening after the block before it. -/
  blockOpen : token.kind = .blockOpen → ¬InBlock before ∧
    token.span.text source = opening ∧ closed before ≤ token.span.start ∧
    ∀ i, closed before ≤ i → opening <+: source.drop i → token.span.start ≤ i
  /-- Inside of a block all blanks are skipped, and the longest word is taken. -/
  script : InBlock before → source.drop token.span.start ≠ [] →
    Taken (source.drop token.span.start) token.kind (token.span.text source) ∧
    ∀ c ∈ [' ', '\t', '\r'], (source.drop token.span.start).head? ≠ some c
  error : token.kind = .error ↔ InBlock before ∧ source.drop token.span.start ≠ [] ∧
    ∀ kind word, OfClass kind word → ¬word <+: source.drop token.span.start

/-- What is known of a source after some of its tokens and blanks, with a text left to be
read. -/
structure Reached (source : List Char) (before : List Token) (mode : Mode) (p : Position)
    (cs : List Char) : Prop where
  text : ∃ consumed, source = consumed ++ cs ∧ p.offset = consumed.length
  gap : ∃ blanks, source.drop (ended before) = blanks ++ cs ∧
    p.offset = ended before + blanks.length ∧
    (∀ c ∈ blanks, c ∈ [' ', '\t', '\r']) ∧ (blanks ≠ [] → InBlock before)
  inBlock : mode = .script ↔ InBlock before
  closed : closed before ≤ p.offset
  leftmost : mode = .host → ∀ i, Token.closed before ≤ i → i < p.offset →
    ¬opening <+: source.drop i

variable {source text : List Char}

theorem Reached.left (h : Reached source before mode p cs) : source.drop p.offset = cs := by
  rcases h.text with ⟨consumed, rfl, hoffset⟩
  rw [hoffset, List.drop_left]

theorem Reached.length (h : Reached source before mode p cs) :
    source.length = p.offset + cs.length := by
  rcases h.text with ⟨consumed, rfl, hoffset⟩
  rw [hoffset, List.length_append]

theorem reached_origin (source : List Char) : Reached source [] .host Position.origin source where
  text := ⟨[], rfl, rfl⟩
  gap := ⟨[], rfl, rfl, by simp, by simp⟩
  inBlock := by simp [not_inBlock_nil]
  closed := Nat.le_refl 0
  leftmost := fun _ i _ hi => absurd hi (Nat.not_lt_zero i)

theorem Reached.blank (h : Reached source before .script p (c :: rest))
    (hblank : c ∈ [' ', '\t', '\r']) : Reached source before .script (p.advance c) rest where
  text := by
    rcases h.text with ⟨consumed, rfl, hoffset⟩
    refine ⟨consumed ++ [c], by simp, ?_⟩
    rw [Position.advance_offset, hoffset, List.length_append]
    rfl
  gap := by
    rcases h.gap with ⟨blanks, hdrop, hoffset, hblanks, _⟩
    refine ⟨blanks ++ [c], ?_, ?_, ?_, fun _ => h.inBlock.mp rfl⟩
    · rw [hdrop, List.append_assoc]
      rfl
    · rw [Position.advance_offset, hoffset, List.length_append]
      rfl
    · intro d hd
      rcases List.mem_append.mp hd with hd | hd
      · exact hblanks d hd
      · rw [List.mem_singleton.mp hd]
        exact hblank
  inBlock := h.inBlock
  closed := by
    rw [Position.advance_offset]
    exact Nat.le_succ_of_le h.closed
  leftmost := nofun

theorem ended_concat (tokens : List Token) (token : Token) :
    ended (tokens ++ [token]) = token.span.stop := by
  rw [ended, List.getLast?_concat]
  rfl

theorem closed_concat_of_eq (h : token.kind = .blockClose) :
    closed (before ++ [token]) = token.span.stop := by
  rw [closed, List.filter_append, List.filter_cons_of_pos (by simpa using h), List.filter_nil,
    ended_concat]

theorem closed_concat_of_ne (h : token.kind ≠ .blockClose) :
    closed (before ++ [token]) = closed before := by
  rw [closed, List.filter_append, List.filter_cons_of_neg (by simpa using h), List.filter_nil,
    List.append_nil, closed]

/-- Outside of blocks no opening is passed over. -/
theorem Reached.leftmost_after (h : Reached source before mode p cs)
    (htakes : Takes mode cs token.kind text) (hmode : mode.next token.kind = .host)
    (hclose : token.kind ≠ .blockClose) {i : Nat} (hclosed : Token.closed before ≤ i)
    (hi : i < p.offset + text.length) : ¬opening <+: source.drop i := by
  generalize hkind : token.kind = kind at htakes hmode hclose
  cases htakes with
  | blockOpen rest => cases hmode
  | hostText hne =>
      rcases Nat.lt_or_ge i p.offset with hlt | hge
      · exact h.leftmost rfl i hclosed hlt
      · have hdrop : source.drop i = cs.drop (i - p.offset) := by
          rw [← h.left, List.drop_drop, Nat.add_sub_cancel' hge]
        rw [hdrop]
        exact not_opening_of_hostRun (by omega)
  | script hblank htaken =>
      have hnext := (Mode.next_eq_script_iff .script kind).mpr (.inr ⟨rfl, hclose⟩)
      rw [hnext] at hmode
      cases hmode

theorem Reached.step (h : Reached source before mode p cs)
    (htakes : Takes mode cs token.kind text) (hcs : cs = text ++ rest)
    (hspan : token.span = p.upTo (p.advanceOver text)) :
    Reached source (before ++ [token]) (mode.next token.kind) (p.advanceOver text) rest := by
  have hoffset := Position.advanceOver_offset p text
  have hstop : token.span.stop = (p.advanceOver text).offset := by
    rw [hspan]
    rfl
  have htext : ∃ consumed, source = consumed ++ rest ∧
      (p.advanceOver text).offset = consumed.length := by
    rcases h.text with ⟨consumed, hsource, hconsumed⟩
    refine ⟨consumed ++ text, ?_, ?_⟩
    · rw [hsource, hcs, List.append_assoc]
    · rw [hoffset, hconsumed, List.length_append]
  refine ⟨htext, ⟨[], ?_, ?_, by simp, by simp⟩, ?_, ?_, ?_⟩
  · rcases htext with ⟨consumed, rfl, hconsumed⟩
    rw [ended_concat, hstop, hconsumed, List.drop_left]
    rfl
  · rw [ended_concat, hstop]
    rfl
  · rw [Mode.next_eq_script_iff, inBlock_concat, h.inBlock]
  · by_cases hclose : token.kind = .blockClose
    · apply Nat.le_of_eq
      rw [closed_concat_of_eq hclose, hstop]
    · rw [closed_concat_of_ne hclose, hoffset]
      exact Nat.le_add_right_of_le h.closed
  · intro hmode i hclosed hi
    by_cases hclose : token.kind = .blockClose
    · rw [closed_concat_of_eq hclose, hstop] at hclosed
      exact absurd hi (Nat.not_lt.mpr hclosed)
    · rw [closed_concat_of_ne hclose] at hclosed
      rw [hoffset] at hi
      exact h.leftmost_after htakes hmode hclose hclosed hi

/-! ## Tokens where they stand -/

theorem OfClass.kind_notMem (h : OfClass kind word) :
    kind ∉ [.hostText, .blockOpen, .endOfInput, .error] := by
  cases h <;> decide

theorem OfClass.ne_nil (h : OfClass kind word) : word ≠ [] := by
  rintro rfl
  cases h with
  | identifier h => cases h

theorem Taken.kind_notMem (h : Taken cs kind text) :
    kind ∉ [.hostText, .blockOpen, .endOfInput] := by
  cases h with
  | word hword _ _ =>
      have hnot := hword.kind_notMem
      simp only [List.mem_cons, List.not_mem_nil, or_false, not_or] at hnot ⊢
      exact ⟨hnot.1, hnot.2.1, hnot.2.2.1⟩
  | error _ _ => decide

theorem Takes.kind_ne (h : Takes mode cs kind text) : kind ≠ .endOfInput := by
  cases h with
  | blockOpen rest => decide
  | hostText hne => decide
  | script _ htaken =>
      rintro rfl
      exact htaken.kind_notMem (by decide)

theorem Takes.host_inv (h : Takes .host cs kind text) : kind = .hostText ∨ kind = .blockOpen := by
  cases h with
  | blockOpen rest => exact .inr rfl
  | hostText hne => exact .inl rfl

theorem Takes.hostText_inv (h : Takes mode cs .hostText text) :
    mode = .host ∧ text = hostRun cs ∧ hostRun cs ≠ [] := by
  cases h with
  | hostText hne => exact ⟨rfl, rfl, hne⟩
  | script _ htaken => exact absurd (by decide) htaken.kind_notMem

theorem Takes.blockOpen_inv (h : Takes mode cs .blockOpen text) :
    mode = .host ∧ text = opening := by
  cases h with
  | blockOpen rest => exact ⟨rfl, rfl⟩
  | script _ htaken => exact absurd (by decide) htaken.kind_notMem

theorem Takes.script_inv (h : Takes .script cs kind text) :
    Taken cs kind text ∧ ∀ c ∈ [' ', '\t', '\r'], cs.head? ≠ some c := by
  cases h with
  | script hblank htaken =>
      refine ⟨htaken, ?_⟩
      rintro d hd ⟨⟩
      exact hblank hd

theorem Taken.error_iff (h : Taken cs kind text) :
    kind = .error ↔ ∀ other word, OfClass other word → ¬word <+: cs := by
  cases h with
  | word hword hstands _ =>
      refine iff_of_false ?_ fun hnone => hnone _ _ hword hstands
      rintro rfl
      exact hword.kind_notMem (by decide)
  | error hnone _ => exact iff_of_true rfl hnone

theorem Stray.ne_nil (h : Stray cs text) : text ≠ [] := by
  cases h with
  | quote rest => exact List.cons_ne_nil _ _
  | single _ _ => exact List.cons_ne_nil _ _

theorem Takes.ne_nil (h : Takes mode cs kind text) : text ≠ [] := by
  cases h with
  | blockOpen rest => exact List.cons_ne_nil _ _
  | hostText hne => exact hne
  | script _ htaken =>
      cases htaken with
      | word hword _ _ => exact hword.ne_nil
      | error _ hstray => exact hstray.ne_nil

theorem Lexed.ne_nil (h : Lexed mode p cs tokens) : tokens ≠ [] := by
  induction h with
  | done _ _ => exact List.cons_ne_nil _ _
  | blank _ _ ih => exact ih
  | token _ _ _ _ _ => exact List.cons_ne_nil _ _

/-- After host text a block is opened, or the input ends. -/
theorem Lexed.after_hostText (h : Lexed .host p rest tokens) (hcs : cs = hostRun cs ++ rest) :
    ∃ next more, tokens = next :: more ∧ (next.kind = .blockOpen ∨ next.kind = .endOfInput) := by
  cases h with
  | done hkind _ => exact ⟨_, _, rfl, .inr hkind⟩
  | @token _ _ _ text _ next more htakes hrest _ _ =>
      refine ⟨next, more, rfl, .inl ?_⟩
      rcases htakes.host_inv with hkind | hkind
      · rw [hkind] at htakes
        rcases htakes.hostText_inv with ⟨_, _, hne⟩
        rcases opening_of_hostRun hcs with rfl | ⟨after, rfl⟩
        · exact absurd rfl hne
        · exact absurd (hostRun_open after) hne
      · exact hkind

theorem Reached.exact_end (h : Reached source before mode p []) (hkind : token.kind = .endOfInput)
    (hspan : token.span = p.upTo p) : Exact source before token [] := by
  have hstart : token.span.start = p.offset := by
    rw [hspan]
    rfl
  have hstop : token.span.stop = p.offset := by
    rw [hspan]
    rfl
  have hlength : source.length = p.offset := h.length
  constructor
  case gap =>
    rw [hstart, h.left]
    exact h.gap
  case bounds =>
    rw [hstart, hstop, hlength]
    exact ⟨Nat.le_refl _, Nat.le_refl _⟩
  case endOfInput =>
    rw [hstart, h.left]
    exact ⟨iff_of_true hkind rfl, iff_of_true hkind rfl⟩
  case host => exact fun _ => .inr (.inr hkind)
  case hostText =>
    rw [hkind]
    exact nofun
  case blockOpen =>
    rw [hkind]
    exact nofun
  case script =>
    rw [hstart, h.left]
    exact fun _ hnil => absurd rfl hnil
  case error =>
    rw [hstart, h.left, hkind]
    exact iff_of_false nofun fun hstray => hstray.2.1 rfl

theorem Reached.exact_token (h : Reached source before mode p cs)
    (htakes : Takes mode cs token.kind text) (hcs : cs = text ++ rest)
    (hspan : token.span = p.upTo (p.advanceOver text))
    (htail : Lexed (mode.next token.kind) (p.advanceOver text) rest tokens) :
    Exact source before token tokens := by
  have hstart : token.span.start = p.offset := by
    rw [hspan]
    rfl
  have hstop : token.span.stop = p.offset + text.length := by
    rw [hspan, ← Position.advanceOver_offset]
    rfl
  have htext : token.span.text source = text := by
    rw [Span.text, hstart, hstop, h.left, Nat.add_sub_cancel_left, hcs, List.take_left]
  have hne : cs ≠ [] := by
    rw [hcs]
    exact List.append_ne_nil_of_left_ne_nil htakes.ne_nil _
  have hhost : ¬InBlock before ↔ mode = .host := by
    rw [← h.inBlock, Mode.eq_script_iff, Classical.not_not]
  constructor
  case gap =>
    rw [hstart, h.left]
    exact h.gap
  case bounds =>
    rw [hstart, hstop, h.length, hcs, List.length_append]
    omega
  case endOfInput =>
    rw [hstart, h.left]
    exact ⟨iff_of_false htakes.kind_ne hne, iff_of_false htakes.kind_ne htail.ne_nil⟩
  case host =>
    intro hblock
    rw [hhost.mp hblock] at htakes
    rcases htakes.host_inv with hkind | hkind
    · exact .inl hkind
    · exact .inr (.inl hkind)
  case hostText =>
    intro hkind
    rw [hkind] at htakes htail
    rcases htakes.hostText_inv with ⟨rfl, rfl, hrun⟩
    rw [htext]
    exact ⟨hhost.mpr rfl, hrun, not_opening_infix_hostRun cs, htail.after_hostText hcs⟩
  case blockOpen =>
    intro hkind
    rw [hkind] at htakes
    rcases htakes.blockOpen_inv with ⟨rfl, hopening⟩
    rw [htext, hstart]
    refine ⟨hhost.mpr rfl, hopening, h.closed, ?_⟩
    intro i hi hopens
    exact Nat.le_of_not_lt fun hlt => h.leftmost rfl i hi hlt hopens
  case script =>
    intro hblock
    rw [h.inBlock.mpr hblock] at htakes
    rw [hstart, h.left, htext]
    exact fun _ => htakes.script_inv
  case error =>
    rw [hstart, h.left]
    by_cases hblock : InBlock before
    · rw [h.inBlock.mpr hblock] at htakes
      rw [htakes.script_inv.1.error_iff]
      exact ⟨fun hnone => ⟨hblock, hne, hnone⟩, fun hstray => hstray.2.2⟩
    · rw [hhost.mp hblock] at htakes
      refine iff_of_false ?_ fun hstray => hblock hstray.1
      rcases htakes.host_inv with hkind | hkind
      · rw [hkind]
        decide
      · rw [hkind]
        decide

/-- Each token follows the grammar where it stands. -/
theorem Lexed.exact (h : Lexed mode p cs tokens) (hreached : Reached source before mode p cs)
    {left right : List Token} (htokens : tokens = left ++ token :: right) :
    Exact source (before ++ left) token right := by
  induction h generalizing before left with
  | done hkind hspan =>
      cases left with
      | nil =>
          cases htokens
          rw [List.append_nil]
          exact hreached.exact_end hkind hspan
      | cons first left =>
          rw [List.cons_append] at htokens
          exact absurd (List.cons.inj htokens).2.symm
            (List.append_ne_nil_of_right_ne_nil left (List.cons_ne_nil _ _))
  | blank hblank _ ih => exact ih (hreached.blank hblank) htokens
  | @token _ _ _ _ _ first _ htakes hcs hspan htail ih =>
      cases left with
      | nil =>
          cases htokens
          rw [List.append_nil]
          exact hreached.exact_token htakes hcs hspan htail
      | cons first left =>
          cases htokens
          have hexact := ih (hreached.step htakes hcs hspan) rfl
          rwa [List.append_assoc] at hexact

end Token

/-! ## Sources -/

/-- Tokens follow the grammar, the last one standing at the end of the input. -/
def Token.FollowGrammar (source : List Char) (tokens : List Token) : Prop :=
  tokens ≠ [] ∧ ∀ before token after, tokens = before ++ token :: after →
    Token.Exact source before token after

theorem tokenize_follows_grammar (source : String) :
    Token.FollowGrammar source.toList (tokenize source) := by
  have hlexed := Token.lexed_scan .host Position.origin source.toList
  refine ⟨hlexed.ne_nil, ?_⟩
  intro before token after htokens
  exact hlexed.exact (Token.reached_origin source.toList) htokens

end Stencil
