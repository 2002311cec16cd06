import Stencil.Proofs.Concatenation
import Stencil.Proofs.LineEnds
import Stencil.Rendering

/-!
# Quoted texts are string literals

A text that is quoted as in listings is a string literal of the language: alone in a
block it is read as one token, and renders to the text.  Only what the language takes for
an interpolation does not come back as it was.
-/

namespace Stencil

/-! ## Quoted characters -/

namespace Text

/-- What stands between the quotes. -/
def escaped (cs : List Char) : List Char :=
  cs.flatMap quoteChar

theorem toList_quote (text : String) :
    (quote text).toList = '"' :: (escaped text.toList ++ ['"']) := by
  rw [quote, String.toList_ofList, escaped]

/-- A character is quoted by a letter after a backslash that decodes to it, or stands for
itself. -/
inductive Quotes (c : Char) : List Char → Prop where
  | escape {letter : Char} (hblank : letter ∉ ['\n', '\t', '\r'])
      (hdecode : StringBody.decode letter = [c]) : Quotes c ['\\', letter]
  | plain (hquote : c ≠ '"') (hbackslash : c ≠ '\\') (hblank : c ∉ ['\n', '\t', '\r']) :
      Quotes c [c]

theorem quotes_quoteChar (c : Char) : Quotes c (quoteChar c) := by
  unfold quoteChar
  split
  · exact .escape (by decide) rfl
  · exact .escape (by decide) rfl
  · exact .escape (by decide) rfl
  · exact .escape (by decide) rfl
  · exact .escape (by decide) rfl
  · rename_i hquote hbackslash hnewline htab hreturn
    exact .plain hquote hbackslash (by simpa using ⟨hnewline, htab, hreturn⟩)

/-- Where a quoted character ends can be told from its beginning. -/
theorem quoteChar_append_inj {c d : Char} {cs ds : List Char}
    (h : quoteChar c ++ cs = quoteChar d ++ ds) : c = d ∧ cs = ds := by
  have hc := quotes_quoteChar c
  have hd := quotes_quoteChar d
  generalize quoteChar c = xs at h hc
  generalize quoteChar d = ys at h hd
  cases hc with
  | escape _ hdecode =>
      cases hd with
      | escape _ hdecode' =>
          rcases List.cons.inj (List.cons.inj h).2 with ⟨rfl, hrest⟩
          exact ⟨List.singleton_inj.mp (hdecode.symm.trans hdecode'), hrest⟩
      | plain _ hbackslash _ => exact absurd (List.cons.inj h).1.symm hbackslash
  | plain _ hbackslash _ =>
      cases hd with
      | escape _ _ => exact absurd (List.cons.inj h).1 hbackslash
      | plain _ _ _ => exact List.cons.inj h

theorem quoteChar_ne_nil (c : Char) : quoteChar c ≠ [] := by
  have h := quotes_quoteChar c
  generalize quoteChar c = xs at h
  cases h with
  | escape _ _ => exact List.cons_ne_nil _ _
  | plain _ _ _ => exact List.cons_ne_nil _ _

theorem escaped_injective : Function.Injective escaped := by
  intro cs
  induction cs with
  | nil =>
      intro ds h
      cases ds with
      | nil => rfl
      | cons d ds => exact absurd (List.append_eq_nil_iff.mp h.symm).1 (quoteChar_ne_nil d)
  | cons c cs ih =>
      intro ds h
      cases ds with
      | nil => exact absurd (List.append_eq_nil_iff.mp h).1 (quoteChar_ne_nil c)
      | cons d ds =>
          rcases quoteChar_append_inj h with ⟨rfl, hrest⟩
          rw [ih hrest]

theorem quote_injective : Function.Injective quote := by
  intro text text' h
  have hchars := congrArg String.toList h
  rw [toList_quote, toList_quote] at hchars
  have hescaped := List.append_cancel_right (List.cons.inj hchars).2
  exact String.toList_inj.mp (escaped_injective hescaped)

theorem notMem_blanks_of_mem_escaped {cs : List Char} {d : Char} (h : d ∈ escaped cs) :
    d ∉ ['\n', '\t', '\r'] := by
  rcases List.mem_flatMap.mp h with ⟨c, _, hd⟩
  have hquotes := quotes_quoteChar c
  generalize quoteChar c = xs at hd hquotes
  cases hquotes with
  | escape hblank _ =>
      rcases List.mem_cons.mp hd with rfl | hd
      · decide
      · rwa [List.mem_singleton.mp hd]
  | plain _ _ hblank => rwa [List.mem_singleton.mp hd]

/-- A quoted text stands on one line, in which every blank is a plain one. -/
theorem notMem_blanks_of_mem_quote {text : String} {d : Char} (h : d ∈ (quote text).toList) :
    d ∉ ['\n', '\t', '\r'] := by
  rw [toList_quote] at h
  rcases List.mem_cons.mp h with rfl | h
  · decide
  · rcases List.mem_append.mp h with h | h
    · exact notMem_blanks_of_mem_escaped h
    · rw [List.mem_singleton.mp h]
      decide

end Text

/-! ## Reading them back -/

namespace Lexeme

open Text

/-- The scanner finds the end of a quoted text. -/
theorem stringRun_escaped (cs rest : List Char) :
    stringRun (escaped cs ++ '"' :: rest) = escaped cs := by
  induction cs with
  | nil => rw [escaped, List.flatMap_nil, List.nil_append, stringRun]
  | cons c cs ih =>
      have hquotes := quotes_quoteChar c
      rw [escaped, List.flatMap_cons, List.append_assoc]
      generalize quoteChar c = xs at hquotes
      cases hquotes with
      | escape hblank _ =>
          have hline : ¬_ = '\n' := fun hline => hblank (hline ▸ List.mem_cons_self)
          rw [List.cons_append, List.cons_append, List.nil_append, stringRun, if_neg hline]
          exact congrArg (fun run => '\\' :: _ :: run) ih
      | plain hquote hbackslash hblank =>
          have hline : ¬c = '\n' := fun hline => hblank (hline ▸ List.mem_cons_self)
          rw [List.cons_append, List.nil_append, stringRun]
          · exact congrArg _ ih
          · exact hquote
          · exact hline
          · exact fun _ _ h => absurd h hbackslash

theorem ofString_escaped (cs rest : List Char) :
    ofString (escaped cs ++ '"' :: rest) =
      ⟨some .string, String.ofList (escaped cs), '"' :: (escaped cs ++ ['"'])⟩ := by
  have hrun := stringRun_escaped cs rest
  rw [ofString_of_closed, hrun]
  rw [hrun, List.drop_left]
  rfl

end Lexeme

namespace StringBody

open Text

theorem exists_cons_of_escaped {cs rest : List Char} (h : escaped cs = '(' :: rest) :
    ∃ ds, cs = '(' :: ds := by
  cases cs with
  | nil => cases h
  | cons c cs =>
      have hquotes := quotes_quoteChar c
      rw [escaped, List.flatMap_cons] at h
      generalize quoteChar c = xs at h hquotes
      cases hquotes with
      | escape _ _ => exact absurd (List.cons.inj h).1 (by decide)
      | plain _ _ _ => exact ⟨cs, by rw [(List.cons.inj h).1]⟩

/-- The pieces of a text without interpolations that is quoted: the text, if there is any. -/
def alone (i stop : Nat) (cs : List Char) : List Piece :=
  if cs = [] then [] else [.text i stop cs]

theorem prepend_alone (i j : Nat) {stop : Nat} {c : Char} {cs : List Char}
    (hstop : j + (escaped cs).length = stop) :
    prepend i j [c] (alone j (j + (escaped cs).length) cs) = alone i stop (c :: cs) := by
  cases cs with
  | nil =>
      cases hstop
      rfl
  | cons d ds =>
      rw [hstop]
      rfl

/-- What is quoted is decoded again, unless it has an interpolation. -/
theorem pieces_escaped (i : Nat) {cs : List Char} (h : ¬['$', '('] <:+: cs) :
    pieces i (escaped cs) = .ok (alone i (i + (escaped cs).length) cs) := by
  induction cs generalizing i with
  | nil =>
      rw [escaped, List.flatMap_nil, pieces]
      rfl
  | cons c cs ih =>
      have hrest : ¬['$', '('] <:+: cs :=
        fun hwithin => h (hwithin.trans (List.suffix_cons c cs).isInfix)
      have hquotes := quotes_quoteChar c
      have hcons : escaped (c :: cs) = quoteChar c ++ escaped cs := List.flatMap_cons
      rw [hcons]
      generalize quoteChar c = xs at hquotes
      cases hquotes with
      | @escape letter _ hdecode =>
          rw [List.cons_append, List.cons_append, List.nil_append, pieces, ih (i + 2) hrest,
            hdecode]
          refine congrArg Except.ok (prepend_alone i (i + 2) ?_)
          simp only [List.length_cons]
          omega
      | plain _ hbackslash _ =>
          rw [List.cons_append, List.nil_append, pieces, ih (i + 1) hrest]
          · refine congrArg Except.ok (prepend_alone i (i + 1) ?_)
            simp only [List.length_cons]
            omega
          · exact fun _ _ hc => absurd hc hbackslash
          · rintro rest rfl hopens
            rcases exists_cons_of_escaped hopens with ⟨ds, rfl⟩
            exact h ⟨[], ds, rfl⟩

end StringBody

/-! ## A block that holds a quoted text -/

namespace Text

/-- A block with nothing but a quoted text. -/
def showing (text : String) : String :=
  "\x7b\x7b" ++ quote text ++ "\x7d\x7d"

theorem scan_quoted (cs : List Char) :
    Lexeme.scan .script ('"' :: (escaped cs ++ '"' :: ['}', '}'])) =
      [⟨some .string, String.ofList (escaped cs), '"' :: (escaped cs ++ ['"'])⟩,
        Lexeme.verbatim .blockClose ['}', '}']] := by
  have hliteral : Lexeme.inScript '"' (escaped cs ++ '"' :: ['}', '}']) =
      ⟨some .string, String.ofList (escaped cs), '"' :: (escaped cs ++ ['"'])⟩ :=
    Lexeme.ofString_escaped cs ['}', '}']
  have hleft : (escaped cs ++ '"' :: ['}', '}']).drop
      (('"' :: (escaped cs ++ ['"'])).length - 1) = ['}', '}'] := by
    have hsplit : escaped cs ++ '"' :: ['}', '}'] = (escaped cs ++ ['"']) ++ ['}', '}'] :=
      List.append_cons _ _ _
    rw [hsplit]
    exact List.drop_left
  have hclosing : Lexeme.scan .script ['}', '}'] = [Lexeme.verbatim .blockClose ['}', '}']] := by
    rw [Lexeme.scan_script]
    exact congrArg _ (Lexeme.scan_nil _)
  rw [Lexeme.scan_script, hliteral, hleft]
  exact congrArg _ hclosing

theorem tokenize_showing (text : String) : ∃ opening literal closing fin : Span,
    tokenize (showing text) =
      [⟨.blockOpen, "\x7b\x7b", opening⟩,
        ⟨.string, String.ofList (escaped text.toList), literal⟩,
        ⟨.blockClose, "\x7d\x7d", closing⟩, ⟨.endOfInput, "", fin⟩] := by
  have hsource : (showing text).toList =
      '{' :: '{' :: '"' :: (escaped text.toList ++ '"' :: ['}', '}']) := by
    simp [showing, toList_quote]
  rw [tokenize, hsource, Lexeme.scan_open, scan_quoted]
  exact ⟨_, _, _, _, rfl⟩

end Text

namespace Document

/-- The document of a block with nothing but a string literal. -/
theorem ofTokens_literal (raw : String) (opening literal closing fin : Span) :
    ofTokens
      [⟨.blockOpen, "\x7b\x7b", opening⟩, ⟨.string, raw, literal⟩,
        ⟨.blockClose, "\x7d\x7d", closing⟩, ⟨.endOfInput, "", fin⟩] =
      .ok ⟨⟨0, fin.stop, 1, 1⟩, [.block ⟨opening.join closing, 0,
        [.expression (.plain (.operand (.string literal raw)))]⟩]⟩ := by
  have hstatement : Parse.statement fin
      [⟨.string, raw, literal⟩, ⟨.blockClose, "\x7d\x7d", closing⟩] =
      .ok (.expression (.plain (.operand (.string literal raw))),
        [⟨.blockClose, "\x7d\x7d", closing⟩]) := rfl
  have hitems : Parse.items fin 0
      [⟨.blockOpen, "\x7b\x7b", opening⟩, ⟨.string, raw, literal⟩,
        ⟨.blockClose, "\x7d\x7d", closing⟩] =
      .ok [.block ⟨opening.join closing, 0,
        [.expression (.plain (.operand (.string literal raw)))]⟩] := by
    rw [Parse.items_of_block, Parse.statements_of_statement hstatement rfl, Parse.statements]
    change Parse.items fin 1 [] >>= _ = _
    rw [Parse.items]
    rfl
  change ((Parse.items fin 0 [⟨.blockOpen, "\x7b\x7b", opening⟩, ⟨.string, raw, literal⟩,
    ⟨.blockClose, "\x7d\x7d", closing⟩] >>= _ : Except Rejection Document).mapError _) = _
  rw [hitems]
  rfl

theorem lower_literal {raw : String} {literal : Span} {is : List Instruction}
    (h : (Operand.string literal raw).lower = .ok is) (outer span : Span) :
    (Document.mk span [.block ⟨outer, 0,
      [.expression (.plain (.operand (.string literal raw)))]⟩]).lower = .ok ⟨is, .empty⟩ := by
  have hcode : [Statement.expression (.plain (.operand (.string literal raw)))].mapM
      (Statement.lower 0) = .ok [is] := by
    rw [List.mapM_cons, List.mapM_nil, Statement.lower, Expression.lower, h]
    rfl
  have hmacros : [Statement.expression (.plain (.operand (.string literal raw)))].mapM
      (Statement.toMacro 0) = .ok [none] := by
    rw [List.mapM_cons, List.mapM_nil]
    rfl
  have hblock : (Block.mk outer 0
      [.expression (.plain (.operand (.string literal raw)))]).lower = .ok ([], is) := by
    rw [Block.lower, hmacros, hcode]
    exact congrArg (fun code => Except.ok ([], code)) (List.append_nil is)
  rw [Document.lower, List.mapM_cons, List.mapM_nil, Item.lower, hblock]
  exact congrArg (fun code => Except.ok (⟨code, .empty⟩ : Program)) (List.append_nil is)

end Document

namespace Operand

variable {text : String}

theorem pieces_quoted (h : ¬['$', '('] <:+: text.toList) :
    StringBody.pieces 0 (String.ofList (Text.escaped text.toList)).toList =
      .ok (StringBody.alone 0 (0 + (Text.escaped text.toList).length) text.toList) := by
  rw [String.toList_ofList]
  exact StringBody.pieces_escaped 0 h

theorem lower_quoted (h : ¬['$', '('] <:+: text.toList) (span : Span) :
    ∃ is, (string span (String.ofList (Text.escaped text.toList))).lower = .ok is ∧
      is.map Instruction.operation = if text = "" then [] else [.act (.emitLiteral text)] := by
  refine ⟨_, by rw [lower, pieces_quoted h], ?_⟩
  by_cases hempty : text = ""
  · subst hempty
    rfl
  · have hchars : text.toList ≠ [] := fun hnil => hempty (String.toList_eq_nil_iff.mp hnil)
    rw [StringBody.alone, if_neg hchars, if_neg hempty]
    change [Operation.act (.emitLiteral (String.ofList text.toList))] = _
    rw [String.ofList_toList]

theorem evaluate_quoted (h : ¬['$', '('] <:+: text.toList) (env : Environment)
    (bound : Bindings) (span : Span) :
    (string span (String.ofList (Text.escaped text.toList))).evaluate env bound =
      .text text := by
  rw [evaluate, pieces_quoted h]
  by_cases hempty : text = ""
  · subst hempty
    rfl
  · have hchars : text.toList ≠ [] := fun hnil => hempty (String.toList_eq_nil_iff.mp hnil)
    rw [StringBody.alone, if_neg hchars]
    change Evaluation.text (String.ofList text.toList ++ "") = _
    rw [String.append_empty, String.ofList_toList]

end Operand

namespace Text

/-- The language reads a quoted text as that text. -/
structure ReadsBack (text : String) : Prop where
  tokens : Token.kinds (tokenize (showing text)) = [.blockOpen, .string, .blockClose, .endOfInput]
  compiles : ∃ p, Program.compile (showing text) = .ok p ∧ p.macros = .empty ∧
    p.instructions.map Instruction.operation =
      if text = "" then [] else [.act (.emitLiteral text)]
  renders : ∀ {σ : Type} (c : Setting σ), c.Plain → ∀ world : σ,
    (render c (showing text) world).succeeded = true ∧
      (render c (showing text) world).output = text

theorem readsBack_of_tokens {text : String} (h : ¬['$', '('] <:+: text.toList)
    {opening literal closing fin : Span}
    (htokens : tokenize (showing text) =
      [⟨.blockOpen, "\x7b\x7b", opening⟩,
        ⟨.string, String.ofList (escaped text.toList), literal⟩,
        ⟨.blockClose, "\x7d\x7d", closing⟩, ⟨.endOfInput, "", fin⟩]) :
    ReadsBack text := by
  rcases Operand.lower_quoted h literal with ⟨is, hlower, his⟩
  have hdocument := Document.ofTokens_literal (String.ofList (escaped text.toList))
    opening literal closing fin
  rw [← htokens] at hdocument
  have hprogram := Document.lower_literal hlower (opening.join closing) ⟨0, fin.stop, 1, 1⟩
  have hcompile := Program.compile_of_document hdocument hprogram
  constructor
  · rw [htokens]
    rfl
  · exact ⟨_, hcompile, rfl, his⟩
  · intro σ c hc world
    have hshows := Program.run_shows hc world hdocument hprogram
    have heval : (Document.mk ⟨0, fin.stop, 1, 1⟩ [.block ⟨opening.join closing, 0,
        [.expression (.plain (.operand
          (.string literal (String.ofList (escaped text.toList)))))]⟩]).evaluate
        c.environment = .text text := by
      change (((Operand.evaluate c.environment [] _).andThen .nothing).andThen .nothing) = _
      rw [Operand.evaluate_quoted h, Evaluation.andThen_nothing, Evaluation.andThen_nothing]
    rw [heval] at hshows
    rw [render, hcompile]
    exact ⟨Option.isNone_iff_eq_none.mpr (Option.map_eq_none_iff.mp hshows.failure),
      hshows.output⟩

/-- What listings show a literal as is read back by the language as the same text, unless it
has an interpolation.  Different texts are shown differently, each on one line. -/
theorem quote_undone :
    (∀ text : String, ¬['$', '('] <:+: text.toList → ReadsBack text) ∧
      Function.Injective quote ∧
      ∀ text : String, ∀ c ∈ (quote text).toList, c ∉ ['\n', '\t', '\r'] := by
  refine ⟨?_, quote_injective, fun _ _ hc => notMem_blanks_of_mem_quote hc⟩
  intro text h
  rcases tokenize_showing text with ⟨_, _, _, _, htokens⟩
  exact readsBack_of_tokens h htokens

/-- Backslashes before the closing quote, a line end, and a dollar sign that opens nothing. -/
theorem quote_undone_backslashes :
    quote "a\n$ (\"\\\\" = "\"a\\n$ (\\\"\\\\\\\\\"" ∧
      ReadsBack "a\n$ (\"\\\\" := by
  constructor
  · decide
  · exact quote_undone.1 "a\n$ (\"\\\\" (by decide +kernel)

end Text

end Stencil
