import Stencil.Lexeme
import Stencil.Token

/-!
# How tokens are written

For every kind of token, the texts that are read as such a token, and the value
that it has for each of them.  A lexeme is a token written in its way, or a blank
inside of a block.
-/

namespace Stencil

namespace Token

/-- How a token of a kind and with a value is written. -/
inductive Spelled : TokenKind → String → List Char → Prop where
  | hostText (text : List Char) : Spelled .hostText (String.ofList text) text
  | blockOpen : Spelled .blockOpen "\x7b\x7b" ['{', '{']
  | blockClose : Spelled .blockClose "\x7d\x7d" ['}', '}']
  | newline {c : Char} (h : c = '\n' ∨ c = ';') : Spelled .newline (String.ofList [c]) [c]
  | pipe : Spelled .pipe "|" ['|']
  | leftBracket : Spelled .leftBracket "[" ['[']
  | rightBracket : Spelled .rightBracket "]" [']']
  | colon : Spelled .colon ":" [':']
  | identifier {name : List Char} (h : Text.isIdentifier name = true) :
      Spelled .identifier (String.ofList name) name
  | macroDef {name : List Char} (h : Text.isIdentifier name = true) :
      Spelled .macroDef (String.ofList name) ('@' :: name)
  | macroRef {name : List Char} (h : Text.isIdentifier name = true) :
      Spelled .macroRef (String.ofList name) ('?' :: name)
  | string {body : List Char} (h : '\n' ∉ body) :
      Spelled .string (String.ofList body) ('"' :: (body ++ ['"']))
  | comment {body : List Char} (h : '\n' ∉ body) :
      Spelled .comment (String.ofList (Text.strip body)) ('#' :: body)
  | unterminated {body : List Char} (h : '\n' ∉ body) :
      Spelled .error "unterminated string literal" ('"' :: body)
  | nameless {sigil : Char} (h : sigil = '@' ∨ sigil = '?') :
      Spelled .error ("expected a name after '" ++ sigil.toString ++ "'") [sigil]
  | loneBrace : Spelled .error "unexpected '\x7d' (blocks close with '\x7d\x7d')" ['}']
  | stray {c : Char} (h : c ∉ ['"', '@', '?', '}']) :
      Spelled .error ("unexpected character '" ++ c.toString ++ "'") [c]

/-- What is written leaves no choice of the value. -/
theorem Spelled.value_unique {kind : TokenKind} {value other : String} {text : List Char}
    (h : Spelled kind value text) (h' : Spelled kind other text) : other = value := by
  cases h with
  | string _ =>
      generalize htext : '"' :: (_ ++ ['"']) = text at h'
      cases h' with
      | string _ =>
          rw [List.append_cancel_right (List.cons.inj htext).2]
  | unterminated _ =>
      cases h' with
      | unterminated _ => rfl
      | nameless h => simp at h
      | stray h => simp at h
  | nameless h =>
      cases h' with
      | unterminated _ => simp at h
      | nameless _ => rfl
      | loneBrace => simp at h
      | stray h' => rcases h with rfl | rfl <;> simp at h'
  | loneBrace =>
      cases h' with
      | nameless h => simp at h
      | loneBrace => rfl
      | stray h => simp at h
  | stray h =>
      cases h' with
      | unterminated _ => simp at h
      | nameless h' => rcases h' with rfl | rfl <;> simp at h
      | loneBrace => simp at h
      | stray _ => rfl
  | _ =>
      cases h'
      rfl

theorem Spelled.string_inv {raw : String} {text : List Char}
    (h : Spelled .string raw text) :
    '\n' ∉ raw.toList ∧ text = '"' :: (raw.toList ++ ['"']) := by
  generalize hkind : TokenKind.string = kind at h
  cases h with
  | string hbody => exact ⟨by rwa [String.toList_ofList], by rw [String.toList_ofList]⟩
  | _ => cases hkind

theorem Spelled.identifier_inv {name : String} {text : List Char}
    (h : Spelled .identifier name text) : text = name.toList := by
  generalize hkind : TokenKind.identifier = kind at h
  cases h with
  | identifier _ => rw [String.toList_ofList]
  | _ => cases hkind

/-- The kinds of the tokens that are read outside of blocks. -/
def OfHost (kind : TokenKind) : Prop :=
  kind = .hostText ∨ kind = .blockOpen

end Token

namespace Lexeme

open Token

/-! ## What lexemes spell -/

theorem newline_notMem_stringRun (cs : List Char) : '\n' ∉ stringRun cs := by
  fun_induction stringRun cs with
  | case1 => exact List.not_mem_nil
  | case2 => exact List.not_mem_nil
  | case3 => exact List.not_mem_nil
  | case4 => simp
  | case5 c rest hc ih => simp [ih, Ne.symm hc]
  | case6 c rest _ hc _ ih => simp [ih, Ne.symm hc]

theorem notMem_takeWhile_ne (c : Char) (cs : List Char) : c ∉ cs.takeWhile (· != c) := by
  intro h
  have hne := List.all_eq_true.mp List.all_takeWhile _ h
  simp at hne

theorem isIdentifier_cons_takeWhile {c : Char} (h : Text.isIdentStart c = true)
    (rest : List Char) :
    Text.isIdentifier (c :: rest.takeWhile Text.isIdentPart) = true := by
  rw [Text.isIdentifier, h, Bool.true_and]
  exact List.all_takeWhile

/-- A lexeme that is a token spells it. -/
def Spells (lexeme : Lexeme) (kind : TokenKind) : Prop :=
  lexeme.kind = some kind ∧ Spelled kind lexeme.value lexeme.text

theorem spells_ofString (rest : List Char) :
    (ofString rest).Spells .string ∨ (ofString rest).Spells .error := by
  have hbody := newline_notMem_stringRun rest
  simp only [ofString]
  split
  · exact .inl ⟨rfl, .string hbody⟩
  · exact .inr ⟨rfl, .unterminated hbody⟩

theorem spells_ofClosingBrace (rest : List Char) :
    (ofClosingBrace rest).Spells .blockClose ∨ (ofClosingBrace rest).Spells .error := by
  unfold ofClosingBrace
  split
  · exact .inl ⟨rfl, .blockClose⟩
  · exact .inr ⟨rfl, .loneBrace⟩

/-- What follows a sigil is a name only if it begins like one. -/
theorem spells_ofSigil {kind : TokenKind} {sigil : Char} (rest : List Char)
    (hsigil : sigil = '@' ∨ sigil = '?')
    (hname : ∀ name, Text.isIdentifier name = true →
      Spelled kind (String.ofList name) (sigil :: name)) :
    (ofSigil kind sigil rest).Spells kind ∨ (ofSigil kind sigil rest).Spells .error := by
  unfold ofSigil
  split
  · rename_i hstart
    left
    refine ⟨rfl, hname _ ?_⟩
    cases rest with
    | nil => simp at hstart
    | cons c rest =>
        rw [List.takeWhile_cons_of_pos (Text.isIdentPart_of_isIdentStart hstart)]
        exact isIdentifier_cons_takeWhile hstart rest
  · exact .inr ⟨rfl, .nameless hsigil⟩

theorem spells_ofWord {c : Char} (rest : List Char) (hc : c ∉ ['"', '@', '?', '}']) :
    (ofWord c rest).Spells .identifier ∨ (ofWord c rest).Spells .error := by
  unfold ofWord
  split
  · rename_i hstart
    exact .inl ⟨rfl, .identifier (isIdentifier_cons_takeWhile hstart rest)⟩
  · exact .inr ⟨rfl, .stray hc⟩

theorem spells_inHost (c : Char) (rest : List Char) :
    ∃ kind, OfHost kind ∧ (inHost c rest).Spells kind := by
  unfold inHost
  split
  · exact ⟨.blockOpen, .inr rfl, rfl, .blockOpen⟩
  · exact ⟨.hostText, .inl rfl, rfl, .hostText _⟩

/-- Inside a block a lexeme is a blank, or a token that is not read outside. -/
theorem blank_or_spells_inScript (c : Char) (rest : List Char) :
    ((inScript c rest).kind = none ∧ (inScript c rest).text = [c] ∧ c ∈ [' ', '\t', '\r']) ∨
      ∃ kind, ¬OfHost kind ∧ (inScript c rest).Spells kind := by
  have either {first second : TokenKind} {lexeme : Lexeme} (hfirst : ¬OfHost first)
      (hsecond : ¬OfHost second) (h : lexeme.Spells first ∨ lexeme.Spells second) :
      ∃ kind, ¬OfHost kind ∧ lexeme.Spells kind := by
    rcases h with h | h
    · exact ⟨first, hfirst, h⟩
    · exact ⟨second, hsecond, h⟩
  have herror : ¬OfHost .error := by simp [OfHost]
  unfold inScript
  split
  · exact .inl ⟨rfl, rfl, by simp⟩
  · exact .inl ⟨rfl, rfl, by simp⟩
  · exact .inl ⟨rfl, rfl, by simp⟩
  · exact .inr ⟨.newline, by simp [OfHost], rfl, .newline (.inl rfl)⟩
  · exact .inr ⟨.newline, by simp [OfHost], rfl, .newline (.inr rfl)⟩
  · exact .inr (either (by simp [OfHost]) herror (spells_ofClosingBrace rest))
  · exact .inr ⟨.comment, by simp [OfHost], rfl, .comment (notMem_takeWhile_ne _ rest)⟩
  · exact .inr ⟨.pipe, by simp [OfHost], rfl, .pipe⟩
  · exact .inr ⟨.leftBracket, by simp [OfHost], rfl, .leftBracket⟩
  · exact .inr ⟨.rightBracket, by simp [OfHost], rfl, .rightBracket⟩
  · exact .inr ⟨.colon, by simp [OfHost], rfl, .colon⟩
  · exact .inr (either (by simp [OfHost]) herror
      (spells_ofSigil rest (.inl rfl) fun _ => .macroDef))
  · exact .inr (either (by simp [OfHost]) herror
      (spells_ofSigil rest (.inr rfl) fun _ => .macroRef))
  · exact .inr (either (by simp [OfHost]) herror (spells_ofString rest))
  · have hc : c ∉ ['"', '@', '?', '}'] := by
      simp only [List.mem_cons, List.not_mem_nil, or_false, not_or]
      exact ⟨by assumption, by assumption, by assumption, by assumption⟩
    exact .inr (either (by simp [OfHost]) herror (spells_ofWord rest hc))

namespace Mode

/-- The mode after a token. -/
def next (mode : Mode) : TokenKind → Mode
  | .blockOpen => .script
  | .blockClose => .host
  | _ => mode

theorem after_of_kind {lexeme : Lexeme} {kind : TokenKind} (h : lexeme.kind = some kind)
    (mode : Mode) : mode.after lexeme = mode.next kind := by
  rw [after, h]
  cases kind with
  | _ => rfl

theorem after_of_spells {mode : Mode} {lexeme : Lexeme} {kind : TokenKind}
    (h : lexeme.Spells kind) : mode.after lexeme = mode.next kind :=
  after_of_kind h.1 mode

end Mode

end Lexeme

end Stencil
