import Stencil.Proofs.Numbering
import Stencil.Proofs.Outline
import Stencil.Proofs.Quotation

/-!
# Reading listings back

A listing tells the opcode and the operand of every instruction, and of every macro its
name, its block and the line of its definition; it tells nothing else.  The opcode is a
word, the rest of a line is the operand, and no operand of a compiled program breaks a
line.  The lines of a fragment are told from those around it by their indentation.
-/

namespace Stencil

/-! ## What is shown -/

namespace Instruction

def shown (i : Instruction) : String × String :=
  (i.opcode, i.operand)

theorem map_shown (is : List Instruction) :
    is.map shown = (is.map operation).map fun o => (o.opcode, o.operand) := by
  rw [List.map_map]
  rfl

end Instruction

namespace Macro

/-- What a listing shows of a macro. -/
structure Shown where
  name : String
  block : Nat
  line : Option Nat
  pattern : List (String × String)
  body : List (String × String)
  deriving DecidableEq

def shown (m : Macro) : Shown where
  name := m.name
  block := m.block
  line := m.span.map Span.line
  pattern := m.pattern.map Instruction.shown
  body := m.body.map Instruction.shown

end Macro

namespace Program

/-- Two programs are the same but for spans, and for the blocks of calls. -/
structure ShownAlike (p q : Program) : Prop where
  instructions : p.instructions.map Instruction.shown = q.instructions.map Instruction.shown
  macros : p.macros.entries.map Macro.shown = q.macros.entries.map Macro.shown

end Program

/-! ## Numbers -/

namespace Text

theorem padded_zero (n : Nat) : padded 0 n = toString n := by
  rw [padded, Nat.zero_sub]
  exact String.empty_append

theorem toString_injective : Function.Injective (toString : Nat → String) := by
  intro m n h
  apply padded_injective 0
  rw [padded_zero, padded_zero, h]

theorem isDigit_of_mem_toString {n : Nat} {c : Char} (h : c ∈ (toString n).toList) :
    c.isDigit = true := by
  rw [← padded_zero] at h
  exact isDigit_of_mem_padded h

end Text

/-! ## Where a run of characters or lines ends -/

theorem append_cons_inj_of_forall {α : Type} {P : α → Prop} {xs xs' ys ys' : List α} {y y' : α}
    (hxs : ∀ x ∈ xs, P x) (hxs' : ∀ x ∈ xs', P x) (hy : ¬P y) (hy' : ¬P y')
    (h : xs ++ y :: ys = xs' ++ y' :: ys') : xs = xs' ∧ y = y' ∧ ys = ys' := by
  induction xs generalizing xs' with
  | nil =>
      cases xs' with
      | nil => exact ⟨rfl, List.cons.inj h⟩
      | cons x' xs' => exact absurd ((List.cons.inj h).1 ▸ hxs' x' List.mem_cons_self) hy
  | cons x xs ih =>
      cases xs' with
      | nil => exact absurd ((List.cons.inj h).1 ▸ hxs x List.mem_cons_self) hy'
      | cons x' xs' =>
          rcases List.cons.inj h with ⟨rfl, hrest⟩
          rcases List.forall_mem_cons.mp hxs with ⟨_, hxs⟩
          rcases List.forall_mem_cons.mp hxs' with ⟨_, hxs'⟩
          rcases ih hxs hxs' hrest with ⟨rfl, hlast⟩
          exact ⟨rfl, hlast⟩

/-- A number ends where its digits do. -/
theorem number_cons_inj {m n : Nat} {c c' : Char} {rest rest' : List Char}
    (hc : ¬c.isDigit = true) (hc' : ¬c'.isDigit = true)
    (h : (toString m).toList ++ c :: rest = (toString n).toList ++ c' :: rest') :
    m = n ∧ rest = rest' := by
  rcases append_cons_inj_of_forall (fun _ => Text.isDigit_of_mem_toString)
    (fun _ => Text.isDigit_of_mem_toString) hc hc' h with ⟨hnumber, _, hrest⟩
  exact ⟨Text.toString_injective (String.toList_inj.mp hnumber), hrest⟩

/-! ## Opcodes -/

namespace Operation

/-- The words that stand first in the lines of instructions. -/
def opcodes : List String :=
  ["EMIT_LITERAL", "EMIT_VAR", "BEGIN_MACRO_CALL", "END_MACRO_CALL", "PUSH_SCOPE", "POP_SCOPE",
    "BEGIN_CAPTURE", "END_CAPTURE", "COMMENT", "NOP", "BEGIN_ARRAY_ITER", "END_ARRAY_ITER"]

theorem opcode_mem (o : Operation) : o.opcode ∈ opcodes := by
  cases o with
  | act action => cases action <;> simp [opcode, Action.opcode, opcodes]
  | beginArrayIter array => simp [opcode, opcodes]
  | endArrayIter => simp [opcode, opcodes]

theorem notMem_blanks_of_mem_opcode {o : Operation} {c : Char} (h : c ∈ o.opcode.toList) :
    c ∉ [' ', '\n'] := by
  have hall : opcodes.all (fun word => word.toList.all fun c => c ≠ ' ' && c ≠ '\n') = true := by
    decide +kernel
  simpa using List.all_eq_true.mp (List.all_eq_true.mp hall _ o.opcode_mem) c h

theorem exists_cons_of_opcode (o : Operation) : ∃ c rest, o.opcode.toList = c :: rest := by
  have hall : opcodes.all (fun word => !word.toList.isEmpty) = true := by
    decide +kernel
  have hne : o.opcode.toList ≠ [] := by
    simpa using List.all_eq_true.mp hall _ o.opcode_mem
  exact List.exists_cons_of_ne_nil hne

/-- The opcode tells which way a bracket turns. -/
theorem opens_iff (o : Operation) :
    o.opens = true ↔
      o.opcode ∈ ["BEGIN_MACRO_CALL", "PUSH_SCOPE", "BEGIN_CAPTURE", "BEGIN_ARRAY_ITER"] := by
  cases o with
  | act action => cases action <;> simp [opens, opcode, Action.opcode, Action.opens]
  | beginArrayIter array => simp [opens, opcode]
  | endArrayIter => simp [opens, opcode]

theorem closes_iff (o : Operation) :
    o.closes = true ↔
      o.opcode ∈ ["END_MACRO_CALL", "POP_SCOPE", "END_CAPTURE", "END_ARRAY_ITER"] := by
  cases o with
  | act action => cases action <;> simp [closes, opcode, Action.opcode, Action.closes]
  | beginArrayIter array => simp [closes, opcode]
  | endArrayIter => simp [closes, opcode]

end Operation

/-! ## The line of an instruction -/

namespace Instruction

variable {i j : Instruction}

theorem text_of_shown (h : i.shown = j.shown) : i.text = j.text := by
  rcases Prod.mk.inj h with ⟨hopcode, hoperand⟩
  rw [text, text, hopcode, hoperand]

theorem toList_text (h : i.operand ≠ "") :
    i.text.toList = i.opcode.toList ++ ' ' :: i.operand.toList := by
  rw [text, if_neg h]
  simp

theorem blank_notMem_opcode (i : Instruction) : ∀ c ∈ i.opcode.toList, c ≠ ' ' := by
  rintro c hc rfl
  exact Operation.notMem_blanks_of_mem_opcode hc (by decide)

theorem exists_cons_of_text (i : Instruction) : ∃ c rest, i.text.toList = c :: rest ∧ c ≠ ' ' := by
  rcases i.operation.exists_cons_of_opcode with ⟨c, rest, hopcode⟩
  have hword : i.opcode.toList = c :: rest := hopcode
  have hc : c ≠ ' ' := i.blank_notMem_opcode c (hword ▸ List.mem_cons_self)
  by_cases h : i.operand = ""
  · rw [text, if_pos h]
    exact ⟨c, rest, hword, hc⟩
  · rw [toList_text h, hword]
    exact ⟨c, rest ++ ' ' :: i.operand.toList, rfl, hc⟩

theorem ne_text_of_operand (hi : i.operand = "") (hj : j.operand ≠ "") : i.text ≠ j.text := by
  intro h
  have hchars := congrArg String.toList h
  rw [text, if_pos hi, toList_text hj] at hchars
  exact i.blank_notMem_opcode ' ' (hchars ▸ by simp) rfl

/-- The first word of the line is the opcode, and what is behind it the operand. -/
theorem shown_of_text (h : i.text = j.text) : i.shown = j.shown := by
  by_cases hi : i.operand = ""
  · by_cases hj : j.operand = ""
    · rw [text, text, if_pos hi, if_pos hj] at h
      rw [shown, shown, h, hi, hj]
    · exact absurd h (ne_text_of_operand hi hj)
  · by_cases hj : j.operand = ""
    · exact absurd h.symm (ne_text_of_operand hj hi)
    · have hchars := congrArg String.toList h
      rw [toList_text hi, toList_text hj] at hchars
      rcases append_cons_inj_of_forall i.blank_notMem_opcode j.blank_notMem_opcode
        (not_not_intro rfl) (not_not_intro rfl) hchars with ⟨hopcode, _, hoperand⟩
      rw [shown, shown, String.toList_inj.mp hopcode, String.toList_inj.mp hoperand]

/-- The operand stands on one line. -/
def OneLine (i : Instruction) : Prop :=
  '\n' ∉ i.operand.toList

theorem OneLine.text (h : i.OneLine) : '\n' ∉ i.text.toList := by
  have hopcode : '\n' ∉ i.opcode.toList := fun hmem =>
    Operation.notMem_blanks_of_mem_opcode hmem (by decide)
  by_cases hempty : i.operand = ""
  · rwa [Instruction.text, if_pos hempty]
  · rw [toList_text hempty, List.mem_append, List.mem_cons]
    rintro (hmem | hmem | hmem)
    · exact hopcode hmem
    · cases hmem
    · exact h hmem

end Instruction

/-! ## The lines of a fragment -/

namespace Listing

variable {is js : List Instruction} {depth : Nat}

/-- The indentation of a line ends at its first letter. -/
theorem text_of_indent {around around' : Nat} {i j : Instruction}
    (h : indent around i.text = indent around' j.text) : i.text = j.text := by
  rcases i.exists_cons_of_text with ⟨c, rest, hi, hc⟩
  rcases j.exists_cons_of_text with ⟨d, rest', hj, hd⟩
  have hchars := congrArg String.toList h
  rw [indent, indent, String.toList_append, String.toList_append, String.toList_ofList,
    String.toList_ofList, hi, hj] at hchars
  rcases append_cons_inj_of_forall (fun _ => List.eq_of_mem_replicate)
    (fun _ => List.eq_of_mem_replicate) hc hd hchars with ⟨_, rfl, rfl⟩
  exact String.toList_inj.mp (hi.trans hj.symm)

theorem shown_of_lines {depth depth' : Nat} (h : lines depth is = lines depth' js) :
    is.map Instruction.shown = js.map Instruction.shown := by
  induction is generalizing depth depth' js with
  | nil =>
      cases js with
      | nil => rfl
      | cons j js => cases h
  | cons i is ih =>
      cases js with
      | nil => cases h
      | cons j js =>
          rcases List.cons.inj h with ⟨hfirst, hrest⟩
          rw [List.map_cons, List.map_cons, Instruction.shown_of_text (text_of_indent hfirst),
            ih hrest]

/-- The lines depend on nothing that they do not show. -/
theorem lines_of_shown (h : is.map Instruction.shown = js.map Instruction.shown) (depth : Nat) :
    lines depth is = lines depth js := by
  induction is generalizing depth js with
  | nil => rw [List.map_eq_nil_iff.mp h.symm]
  | cons i is ih =>
      cases js with
      | nil => cases h
      | cons j js =>
          rw [List.map_cons, List.map_cons] at h
          rcases List.cons.inj h with ⟨hfirst, hrest⟩
          have hopcode : i.operation.opcode = j.operation.opcode := congrArg Prod.fst hfirst
          have hcloses : i.operation.closes = j.operation.closes := by
            rw [Bool.eq_iff_iff, Operation.closes_iff, Operation.closes_iff, hopcode]
          have hopens : i.operation.opens = j.operation.opens := by
            rw [Bool.eq_iff_iff, Operation.opens_iff, Operation.opens_iff, hopcode]
          rw [lines, lines, Instruction.text_of_shown hfirst, hcloses, hopens]
          exact congrArg _ (ih hrest _)

/-! ## The lines of a macro -/

/-- The line is indented at least as far as the instructions of macros. -/
def Deep (line : String) : Prop :=
  List.replicate 6 ' ' <+: line.toList

theorem deep_of_mem_lines (h : Nested is) {line : String} (hline : line ∈ lines 3 is) :
    Deep line := by
  rcases mem_of_outlined (outlined_of_nested h 3) hline with ⟨i, _, around, hle, rfl⟩
  rw [Deep, indent, String.toList_append, String.toList_ofList]
  exact (List.prefix_replicate_iff.mpr ⟨by simp; omega, by simp⟩).trans (List.prefix_append _ _)

/-- The line that a macro begins with. -/
def header (m : Macro) : String :=
  "  @" ++ m.name ++ " (block " ++ toString m.block ++ placeText m ++ "):"

theorem macroLines_eq (m : Macro) :
    macroLines m =
      header m :: "    pattern:" :: (lines 3 m.pattern ++ "    body:" :: lines 3 m.body) := by
  simp [macroLines, header]

theorem toList_header {m : Macro} {span : Span} (hspan : m.span = some span) :
    (header m).toList =
      ' ' :: ' ' :: '@' :: (m.name.toList ++ ' ' :: ("(block ".toList ++
        ((toString m.block).toList ++ ',' :: (" line ".toList ++
          ((toString span.line).toList ++ ')' :: [':']))))) := by
  rw [header, placeText, hspan]
  simp

end Listing

/-- A macro that is listed without ambiguity. -/
structure Macro.Legible (m : Macro) : Prop where
  name : ∀ c ∈ m.name.toList, c ∉ [' ', '\n']
  placed : ∃ span, m.span = some span
  pattern : Nested m.pattern
  body : Nested m.body
  operands : ∀ i ∈ m.pattern ++ m.body, i.OneLine

namespace Listing

variable {m m' : Macro} {ms ms' : List Macro}

theorem not_deep_header (h : m.Legible) : ¬Deep (header m) := by
  rcases h.placed with ⟨span, hspan⟩
  rintro ⟨rest, hrest⟩
  rw [toList_header hspan] at hrest
  cases hrest

/-- A name ends at the first blank, and a number where its digits end. -/
theorem header_inj (h : m.Legible) (h' : m'.Legible) (heq : header m = header m') :
    m.name = m'.name ∧ m.block = m'.block ∧ m.span.map Span.line = m'.span.map Span.line := by
  rcases h.placed with ⟨span, hspan⟩
  rcases h'.placed with ⟨span', hspan'⟩
  have hchars := congrArg String.toList heq
  rw [toList_header hspan, toList_header hspan'] at hchars
  have hnames := (List.cons.inj (List.cons.inj (List.cons.inj hchars).2).2).2
  have hblank {m : Macro} (hm : m.Legible) : ∀ c ∈ m.name.toList, c ≠ ' ' := by
    rintro c hc rfl
    exact hm.name ' ' hc (by decide)
  rcases append_cons_inj_of_forall (hblank h) (hblank h') (not_not_intro rfl) (not_not_intro rfl)
    hnames with ⟨hname, _, hblocks⟩
  rcases number_cons_inj (by decide) (by decide) (List.append_cancel_left hblocks) with
    ⟨hblock, hlines⟩
  rcases number_cons_inj (by decide) (by decide) (List.append_cancel_left hlines) with ⟨hline, _⟩
  refine ⟨String.toList_inj.mp hname, hblock, ?_⟩
  rw [hspan, hspan']
  exact congrArg some hline

theorem macroLines_of_shown (h : m.shown = m'.shown) : macroLines m = macroLines m' := by
  rcases Macro.Shown.mk.inj h with ⟨hname, hblock, hline, hpattern, hbody⟩
  have hplace : placeText m = placeText m' := by
    rw [placeText, placeText]
    cases hm : m.span with
    | none =>
        rw [hm] at hline
        rw [Option.map_eq_none_iff.mp hline.symm]
    | some span =>
        rw [hm] at hline
        rcases Option.map_eq_some_iff.mp hline.symm with ⟨span', hm', hlines⟩
        rw [hm']
        exact congrArg (fun line => ", line " ++ toString line) hlines.symm
  rw [macroLines_eq, macroLines_eq, header, header, hname, hblock, hplace,
    lines_of_shown hpattern, lines_of_shown hbody]

theorem flatMap_macroLines_of_shown (h : ms.map Macro.shown = ms'.map Macro.shown) :
    ms.flatMap macroLines = ms'.flatMap macroLines := by
  induction ms generalizing ms' with
  | nil => rw [List.map_eq_nil_iff.mp h.symm]
  | cons m ms ih =>
      cases ms' with
      | nil => cases h
      | cons m' ms' =>
          rcases List.cons.inj h with ⟨hfirst, hrest⟩
          rw [List.flatMap_cons, List.flatMap_cons, macroLines_of_shown hfirst, ih hrest]

/-- The line between the macros and the instructions of a program. -/
def divider (count : Nat) : String :=
  "program (" ++ toString count ++ " instructions):"

theorem exists_cons_of_divider (count : Nat) : ∃ rest, (divider count).toList = 'p' :: rest := by
  simp [divider]

theorem not_deep_divider (count : Nat) : ¬Deep (divider count) := by
  rintro ⟨rest, hrest⟩
  rcases exists_cons_of_divider count with ⟨letters, hletters⟩
  rw [hletters] at hrest
  cases hrest

theorem header_ne_divider (h : m.Legible) (count : Nat) : header m ≠ divider count := by
  intro heq
  rcases h.placed with ⟨span, hspan⟩
  rcases exists_cons_of_divider count with ⟨letters, hletters⟩
  have hchars := congrArg String.toList heq
  rw [toList_header hspan, hletters] at hchars
  cases hchars

/-- Behind a macro stands a line that is not indented like its instructions. -/
theorem exists_cons_of_macros (h : ∀ m ∈ ms, m.Legible) (count : Nat) (rest : List String) :
    ∃ next more, ms.flatMap macroLines ++ divider count :: rest = next :: more ∧ ¬Deep next := by
  cases ms with
  | nil => exact ⟨divider count, rest, rfl, not_deep_divider count⟩
  | cons m ms =>
      rw [List.flatMap_cons, macroLines_eq]
      exact ⟨header m, _, rfl, not_deep_header (h m List.mem_cons_self)⟩

theorem shown_of_macroLines (h : ∀ m ∈ ms, m.Legible) (h' : ∀ m ∈ ms', m.Legible)
    {count count' : Nat} {rest rest' : List String}
    (heq : ms.flatMap macroLines ++ divider count :: rest =
      ms'.flatMap macroLines ++ divider count' :: rest') :
    ms.map Macro.shown = ms'.map Macro.shown ∧ rest = rest' := by
  induction ms generalizing ms' with
  | nil =>
      cases ms' with
      | nil => exact ⟨rfl, (List.cons.inj heq).2⟩
      | cons m' ms' =>
          rw [List.flatMap_cons, macroLines_eq] at heq
          have hfirst : divider count = header m' := (List.cons.inj heq).1
          exact absurd hfirst.symm (header_ne_divider (h' m' List.mem_cons_self) count)
  | cons m ms ih =>
      cases ms' with
      | nil =>
          rw [List.flatMap_cons, macroLines_eq] at heq
          have hfirst : header m = divider count' := (List.cons.inj heq).1
          exact absurd hfirst (header_ne_divider (h m List.mem_cons_self) count')
      | cons m' ms' =>
          rcases List.forall_mem_cons.mp h with ⟨hm, hms⟩
          rcases List.forall_mem_cons.mp h' with ⟨hm', hms'⟩
          rcases exists_cons_of_macros hms count rest with ⟨next, more, hnext, hdeep⟩
          rcases exists_cons_of_macros hms' count' rest' with ⟨next', more', hnext', hdeep'⟩
          have hbody : ¬Deep "    body:" := by
            rw [Deep]
            decide
          simp only [List.flatMap_cons, macroLines_eq, List.cons_append, List.append_assoc,
            hnext, hnext'] at heq
          rcases List.cons.inj heq with ⟨hheader, hinner⟩
          rcases append_cons_inj_of_forall (fun _ => deep_of_mem_lines hm.pattern)
            (fun _ => deep_of_mem_lines hm'.pattern) hbody hbody (List.cons.inj hinner).2 with
            ⟨hpattern, _, hrest⟩
          rcases append_cons_inj_of_forall (fun _ => deep_of_mem_lines hm.body)
            (fun _ => deep_of_mem_lines hm'.body) hdeep hdeep' hrest with ⟨hbodies, hfirst, hmore⟩
          rw [hfirst, hmore, ← hnext'] at hnext
          rcases ih hms hms' hnext with ⟨hshown, hlast⟩
          rcases header_inj hm hm' hheader with ⟨hname, hblock, hline⟩
          refine ⟨?_, hlast⟩
          rw [List.map_cons, List.map_cons, hshown, Macro.shown, Macro.shown, hname, hblock, hline,
            shown_of_lines hpattern, shown_of_lines hbodies]

end Listing

/-! ## What sources spell -/

theorem Text.mem_of_mem_strip {cs : List Char} {c : Char} (h : c ∈ strip cs) : c ∈ cs := by
  rw [strip, dropWhileEnd, List.mem_reverse] at h
  have hreversed := (List.dropWhile_sublist _).subset h
  exact (List.dropWhile_sublist _).subset (List.mem_reverse.mp hreversed)

/-- Of the symbols only host texts may break a line, and the names of macros are words. -/
structure Symbol.Legible (s : Symbol) : Prop where
  oneLine : ∀ value, s.value = some value → s.kind ≠ .hostText → '\n' ∉ value.toList
  word : ∀ value, s.value = some value → s.kind = .macroDef → ' ' ∉ value.toList

namespace Token

theorem legible_of_spelled {kind : TokenKind} {value : String} {text : List Char} {span : Span}
    (h : Spelled kind value text) : (symbol ⟨kind, value, span⟩).Legible := by
  have hname {name : List Char} (hidentifier : Text.isIdentifier name = true) {c : Char}
      (hc : Text.isIdentPart c = false) : c ∉ (String.ofList name).toList := by
    rw [String.toList_ofList]
    intro hmem
    rw [Text.isIdentPart_of_isIdentifier hidentifier c hmem] at hc
    cases hc
  constructor
  · intro value' hvalue hhost
    cases h with
    | hostText text => exact absurd rfl hhost
    | identifier hidentifier => cases hvalue; exact hname hidentifier rfl
    | macroDef hidentifier => cases hvalue; exact hname hidentifier rfl
    | macroRef hidentifier => cases hvalue; exact hname hidentifier rfl
    | string hbody =>
        cases hvalue
        rwa [String.toList_ofList]
    | comment hbody =>
        cases hvalue
        rw [String.toList_ofList]
        exact fun hmem => hbody (Text.mem_of_mem_strip hmem)
    | _ => cases hvalue
  · intro value' hvalue hkind
    cases h with
    | macroDef hidentifier => cases hvalue; exact hname hidentifier rfl
    | _ => cases hkind

end Token

namespace Document

theorem legible_symbols {source : String} {document : Document}
    (h : ofTokens (tokenize source) = .ok document) : ∀ s ∈ document.symbols, s.Legible := by
  rcases ok_of_bind (read_of_ofTokens h) with ⟨items, hitems, hend⟩
  cases hend
  rcases Parse.takes_items hitems with ⟨word, hword, _, hsymbols⟩
  rw [List.append_nil] at hword
  intro s hs
  change s ∈ items.flatMap Item.symbols at hs
  rw [← hsymbols, Token.symbols] at hs
  rcases List.mem_map.mp hs with ⟨t, ht, rfl⟩
  have hsignificant : t ∈ significant (tokenize source) := hword ▸ List.mem_of_mem_filter ht
  have hkind : t.kind ≠ .endOfInput := by
    simpa using List.all_eq_true.mp List.all_takeWhile t hsignificant
  exact Token.legible_of_spelled
    (tokenize_spelled source t ((significant_sublist _).subset hsignificant) hkind)

end Document

/-! ## What is lowered from it -/

namespace Operand

variable {o : Operand} {is : List Instruction}

theorem oneLine_of_lower (ho : ∀ s ∈ o.symbols, s.Legible) (h : o.lower = .ok is) :
    ∀ i ∈ is, i.OneLine := by
  cases o with
  | identifier span name =>
      cases h
      rintro i hi
      rw [List.mem_singleton.mp hi]
      exact (ho _ List.mem_cons_self).oneLine name rfl nofun
  | string span raw =>
      have hraw := (ho _ List.mem_cons_self).oneLine raw rfl nofun
      rcases fits_of_lower h with ⟨ps, rfl, hfits⟩
      intro i hi
      rcases List.mem_map.mp hi with ⟨piece, hpiece, rfl⟩
      have hpieceFits := hfits piece hpiece
      cases piece with
      | text start stop value => exact fun hmem => Text.notMem_blanks_of_mem_quote hmem (by decide)
      | interpolation start stop name =>
          rcases hpieceFits with ⟨_, _, _, hstands⟩
          intro hmem
          change '\n' ∈ (String.ofList name).toList at hmem
          rw [String.toList_ofList] at hmem
          have hletters : '\n' ∈ (raw.toList.drop start).take (stop - start) := by
            rw [hstands]
            simp [hmem]
          exact hraw (List.mem_of_mem_drop (List.mem_of_mem_take hletters))

end Operand

namespace MacroRef

theorem oneLine_of_lower {target : MacroRef} (h : '\n' ∉ target.name.toList) (block : Nat) :
    ∀ i ∈ target.lower block, i.OneLine := by
  intro i hi
  rcases List.mem_cons.mp hi with rfl | hi
  · change '\n' ∉ ("?" ++ target.name).toList
    simp [h]
  · rw [List.mem_singleton.mp hi]
    exact List.not_mem_nil

end MacroRef

namespace Source

theorem oneLine_of_symbols (span : Span) {name : String}
    (h : ∀ s ∈ (array span name).symbols, s.Legible) : '\n' ∉ name.toList :=
  (h _ List.mem_cons_self).oneLine name rfl nofun

end Source

namespace Expression

variable {e : Expression} {block : Nat} {is : List Instruction}

theorem oneLine_of_lower (he : ∀ s ∈ e.symbols, s.Legible) (h : e.lower block = .ok is) :
    ∀ i ∈ is, i.OneLine := by
  have hbinding : '\n' ∉ Binding.item.toList ∧ '\n' ∉ Binding.index.toList := by decide
  cases e with
  | plain source =>
      cases source with
      | operand o => exact Operand.oneLine_of_lower he h
      | array span name =>
          cases h
          simp only [List.forall_mem_cons]
          exact ⟨Source.oneLine_of_symbols span he, hbinding.1, List.not_mem_nil,
            List.forall_mem_nil _⟩
  | pipe source target =>
      rcases List.forall_mem_append.mp he with ⟨hsource, htarget⟩
      have hcall := MacroRef.oneLine_of_lower
        ((htarget ⟨.macroRef, some target.name⟩ (by simp)).oneLine _ rfl nofun) block
      cases source with
      | array span name =>
          cases h
          rw [List.forall_mem_cons, List.forall_mem_append, List.forall_mem_singleton]
          exact ⟨Source.oneLine_of_symbols span hsource, hcall, List.not_mem_nil⟩
      | operand o =>
          rcases ok_of_bind h with ⟨value, hvalue, hend⟩
          cases hend
          have hzero : '\n' ∉ (Text.quote "0").toList := by decide
          have hnone : '\n' ∉ "".toList := List.not_mem_nil
          have hend : ∀ i ∈ ([] : List Instruction), i.OneLine := List.forall_mem_nil _
          simp only [List.forall_mem_append, List.forall_mem_cons]
          exact ⟨⟨⟨⟨⟨hnone, hnone, hend⟩, Operand.oneLine_of_lower hsource hvalue⟩,
            hbinding.1, hnone, hzero, hbinding.2, hend⟩, hcall⟩, hnone, hend⟩

end Expression

namespace Part

variable {part : Part}

def symbols : Part → List Symbol
  | hostText _ text => [⟨.hostText, some text⟩]
  | statement _ s => s.symbols

theorem oneLine_of_code (hpart : ∀ s ∈ part.symbols, s.Legible) {group : List Instruction}
    (h : part.code = .ok group) : ∀ i ∈ group, i.OneLine := by
  cases part with
  | hostText span text =>
      cases h
      intro i hi
      split at hi
      · cases hi
      · rw [List.mem_singleton.mp hi]
        exact fun hmem => Text.notMem_blanks_of_mem_quote hmem (by decide)
  | statement b s =>
      cases s with
      | comment span text =>
          cases h
          rintro i hi
          rw [List.mem_singleton.mp hi]
          change '\n' ∉ ("# " ++ text).toList
          have htext := (hpart _ List.mem_cons_self).oneLine text rfl nofun
          simp [htext]
      | definition span name pattern body =>
          cases h
          exact List.forall_mem_nil _
      | expression e => exact Expression.oneLine_of_lower hpart h

theorem legible_of_defines {m : Macro} (hpart : ∀ s ∈ part.symbols, s.Legible)
    (h : part.Defines m) : m.Legible := by
  have hlowered := h.lowered
  have hspan := h.span
  have hemits := h.emits
  cases part with
  | hostText span text => cases hlowered
  | statement b s =>
      cases s with
      | comment span text => cases hlowered
      | expression e => cases hlowered
      | definition span name pattern body =>
          rcases ok_of_bind hlowered with ⟨patternCode, hpattern, hrest⟩
          rcases ok_of_bind hrest with ⟨bodyCode, hbody, hend⟩
          cases hend
          rcases List.forall_mem_cons.mp hpart with ⟨hname, hoperands⟩
          rcases List.forall_mem_append.mp hoperands with ⟨hpatternSymbols, hrest⟩
          rcases List.forall_mem_cons.mp hrest with ⟨_, hbodySymbols⟩
          rcases List.forall_mem_append.mp hemits with ⟨hpatternEmits, hbodyEmits⟩
          refine ⟨?_, ⟨_, hspan⟩, nested_of_emits hpatternEmits, nested_of_emits hbodyEmits, ?_⟩
          · intro c hc hblank
            simp only [List.mem_cons, List.not_mem_nil, or_false] at hblank
            rcases hblank with rfl | rfl
            · exact hname.word name rfl rfl hc
            · exact hname.oneLine name rfl nofun hc
          · exact List.forall_mem_append.mpr ⟨Operand.oneLine_of_lower hpatternSymbols hpattern,
              Operand.oneLine_of_lower hbodySymbols hbody⟩

end Part

/-! ## Programs -/

namespace Document

theorem symbols_subset_of_mem_parts {document : Document} {part : Part}
    (h : part ∈ document.parts) : part.symbols ⊆ document.symbols := by
  rcases List.mem_flatMap.mp h with ⟨item, hitem, hpart⟩
  intro s hs
  refine List.mem_flatMap.mpr ⟨item, hitem, ?_⟩
  cases item with
  | hostText span text =>
      cases List.mem_singleton.mp hpart
      exact hs
  | block b =>
      rcases List.mem_map.mp hpart with ⟨statement, hstatement, rfl⟩
      have hmem : s ∈ b.statements.flatMap Statement.symbols :=
        List.mem_flatMap.mpr ⟨statement, hstatement, hs⟩
      exact List.mem_cons_of_mem _ (List.mem_append_left _ hmem)

end Document

namespace Listing

theorem newline_notMem_toString (n : Nat) : '\n' ∉ (toString n).toList :=
  fun hmem => absurd (Text.isDigit_of_mem_toString hmem) (by decide)

theorem newline_notMem_header {m : Macro} (h : m.Legible) : '\n' ∉ (header m).toList := by
  rcases h.placed with ⟨span, hspan⟩
  have hname : '\n' ∉ m.name.toList := fun hmem => h.name _ hmem (by decide)
  rw [toList_header hspan]
  simp [hname, -Nat.toString_eq_repr, newline_notMem_toString]

theorem displays_of_legible {m : Macro} (h : m.Legible) :
    Displays 3 m.pattern (lines 3 m.pattern) ∧ Displays 3 m.body (lines 3 m.body) := by
  rcases List.forall_mem_append.mp h.operands with ⟨hpattern, hbody⟩
  exact ⟨displays_of_nested h.pattern (fun i hi => (hpattern i hi).text) 3,
    displays_of_nested h.body (fun i hi => (hbody i hi).text) 3⟩

theorem newline_notMem_macroLines {m : Macro} (h : m.Legible) :
    ∀ line ∈ macroLines m, '\n' ∉ line.toList := by
  rcases displays_of_legible h with ⟨hpattern, hbody⟩
  rw [macroLines_eq, List.forall_mem_cons, List.forall_mem_cons, List.forall_mem_append,
    List.forall_mem_cons]
  exact ⟨newline_notMem_header h, by decide, hpattern.oneLine, by decide, hbody.oneLine⟩

/-- Lines that do not break are read back from the text of all of them. -/
theorem lines_of_join {ls ls' : List String} (h : ∀ line ∈ ls, '\n' ∉ line.toList)
    (h' : ∀ line ∈ ls', '\n' ∉ line.toList)
    (heq : String.join (ls.map (· ++ "\n")) = String.join (ls'.map (· ++ "\n"))) : ls = ls' := by
  have hne {line : String} (hline : '\n' ∉ line.toList) : ∀ c ∈ line.toList, c ≠ '\n' :=
    fun c hc hbreak => hline (hbreak ▸ hc)
  induction ls generalizing ls' with
  | nil =>
      cases ls' with
      | nil => rfl
      | cons line' ls' =>
          have hchars := congrArg String.toList heq
          simp at hchars
  | cons line ls ih =>
      cases ls' with
      | nil =>
          have hchars := congrArg String.toList heq
          simp at hchars
      | cons line' ls' =>
          rcases List.forall_mem_cons.mp h with ⟨hline, hls⟩
          rcases List.forall_mem_cons.mp h' with ⟨hline', hls'⟩
          have hchars := congrArg String.toList heq
          simp only [List.map_cons, String.join_cons, String.toList_append, List.append_assoc]
            at hchars
          rcases append_cons_inj_of_forall (hne hline) (hne hline') (not_not_intro rfl)
            (not_not_intro rfl) hchars with ⟨hfirst, _, hrest⟩
          rw [String.toList_inj.mp hfirst, ih hls hls' (String.toList_inj.mp hrest)]

end Listing

namespace Program

/-- A program that is listed without ambiguity. -/
structure Legible (p : Program) : Prop where
  nested : Nested p.instructions
  operands : ∀ i ∈ p.instructions, i.OneLine
  macros : ∀ m ∈ p.macros.entries, m.Legible

variable {source : String} {p q : Program}

theorem legible_of_compile (h : compile source = .ok p) : p.Legible := by
  rcases document_of_compile h with ⟨document, hdocument, hlower⟩
  have hmirrored := Document.lowers_in_groups source document p hdocument hlower
  have hlegible : ∀ part ∈ document.parts, ∀ s ∈ part.symbols, s.Legible :=
    fun part hpart s hs => Document.legible_symbols hdocument s
      (Document.symbols_subset_of_mem_parts hpart hs)
  refine ⟨hmirrored.nested, ?_, ?_⟩
  · rcases hmirrored.groups with ⟨groups, hinstructions, hgroups⟩
    intro i hi
    rw [hinstructions] at hi
    rcases List.mem_flatten.mp hi with ⟨group, hgroup, hi⟩
    rcases exists_of_mem_of_forall₂ hgroups hgroup with ⟨part, hpart, hyields⟩
    exact Part.oneLine_of_code (hlegible part (List.mem_of_mem_filter hpart)) hyields.lowered i hi
  · intro m hm
    rcases exists_of_mem_of_forall₂ hmirrored.table hm with ⟨part, hpart, hdefines⟩
    exact Part.legible_of_defines (hlegible part (List.mem_of_mem_filter hpart)) hdefines

theorem listingLines_eq (p : Program) :
    p.listingLines = ("macros (" ++ toString p.macros.size ++ "):") ::
      (p.macros.entries.flatMap Listing.macroLines ++
        Listing.divider p.instructions.length :: Listing.lines 1 p.instructions) := by
  simp [listingLines, Listing.divider]

/-- The listing has a line for every instruction of a program and of its macros: the code is
displayed as outlines, that of macros further to the right. -/
structure Displayed (p : Program) : Prop where
  joined : p.listing = String.join (p.listingLines.map (· ++ "\n"))
  instructions : ∃ above ls, p.listingLines = above ++ ls ∧ Listing.Displays 1 p.instructions ls
  macros : ∀ m ∈ p.macros.entries, ∃ above patternLines bodyLines below,
    p.listingLines = above ++ "    pattern:" :: patternLines ++ "    body:" :: bodyLines ++ below ∧
      Listing.Displays 3 m.pattern patternLines ∧ Listing.Displays 3 m.body bodyLines

theorem Legible.displays (h : p.Legible) :
    Listing.Displays 1 p.instructions (Listing.lines 1 p.instructions) :=
  Listing.displays_of_nested h.nested (fun i hi => (h.operands i hi).text) 1

theorem Legible.displayed (h : p.Legible) : p.Displayed where
  joined := rfl
  instructions := ⟨_, _, rfl, h.displays⟩
  macros m hm := by
    rcases List.append_of_mem hm with ⟨before, after, hentries⟩
    refine ⟨("macros (" ++ toString p.macros.size ++ "):") ::
        (before.flatMap Listing.macroLines ++ [Listing.header m]),
      _, _, after.flatMap Listing.macroLines ++
        Listing.divider p.instructions.length :: Listing.lines 1 p.instructions, ?_,
      Listing.displays_of_legible (h.macros m hm)⟩
    rw [listingLines_eq, hentries, List.flatMap_append, List.flatMap_cons, Listing.macroLines_eq]
    simp only [List.cons_append, List.append_assoc, List.nil_append]

theorem Legible.oneLine (h : p.Legible) : ∀ line ∈ p.listingLines, '\n' ∉ line.toList := by
  have hlines := h.displays
  have hmacros : ∀ line ∈ p.macros.entries.flatMap Listing.macroLines, '\n' ∉ line.toList := by
    intro line hline
    rcases List.mem_flatMap.mp hline with ⟨m, hm, hline⟩
    exact Listing.newline_notMem_macroLines (h.macros m hm) line hline
  rw [listingLines_eq, List.forall_mem_cons, List.forall_mem_append, List.forall_mem_cons]
  refine ⟨?_, hmacros, ?_, hlines.oneLine⟩
  · simp [-Nat.toString_eq_repr, Listing.newline_notMem_toString]
  · simp [-Nat.toString_eq_repr, Listing.divider, Listing.newline_notMem_toString]

theorem shownAlike_of_listingLines (hp : p.Legible) (hq : q.Legible)
    (h : p.listingLines = q.listingLines) : p.ShownAlike q := by
  rw [listingLines_eq, listingLines_eq] at h
  rcases Listing.shown_of_macroLines hp.macros hq.macros (List.cons.inj h).2 with
    ⟨hmacros, hlines⟩
  exact ⟨Listing.shown_of_lines hlines, hmacros⟩

theorem ShownAlike.listingLines (h : p.ShownAlike q) : p.listingLines = q.listingLines := by
  have hsize : p.macros.size = q.macros.size := by
    have hlengths := congrArg List.length h.macros
    rwa [List.length_map, List.length_map] at hlengths
  have hlength : p.instructions.length = q.instructions.length := by
    have hlengths := congrArg List.length h.instructions
    rwa [List.length_map, List.length_map] at hlengths
  rw [listingLines_eq, listingLines_eq, hsize, hlength,
    Listing.flatMap_macroLines_of_shown h.macros, Listing.lines_of_shown h.instructions]

/-- Two sources are listed the same exactly if they compile to the same opcodes and operands
and to the same macros, in the same order and on the same lines; and each listing has a line
for every instruction, indented by the brackets that are open around it. -/
theorem listing_faithful {source source' : String} {p q : Program}
    (hp : compile source = .ok p) (hq : compile source' = .ok q) :
    (p.listing = q.listing ↔ p.ShownAlike q) ∧ p.Displayed := by
  have hpLegible := legible_of_compile hp
  have hqLegible := legible_of_compile hq
  refine ⟨⟨?_, ?_⟩, hpLegible.displayed⟩
  · intro h
    exact shownAlike_of_listingLines hpLegible hqLegible
      (Listing.lines_of_join hpLegible.oneLine hqLegible.oneLine h)
  · intro h
    rw [listing, listing, h.listingLines]

/-- A macro of one name in two blocks, called in the first or in the second. -/
theorem listing_faithful_call :
    let source := "\x7b\x7b @m x | _; a[:] | ?m \x7d\x7d\x7b\x7b @m x | _ \x7d\x7d"
    let source' := "\x7b\x7b @m x | _ \x7d\x7d\x7b\x7b @m x | _; a[:] | ?m \x7d\x7d"
    let listed := "macros (2):\n" ++
      "  @m (block 0, line 1):\n    pattern:\n      EMIT_VAR x\n    body:\n      EMIT_VAR _\n" ++
      "  @m (block 1, line 1):\n    pattern:\n      EMIT_VAR x\n    body:\n      EMIT_VAR _\n" ++
      "program (4 instructions):\n  BEGIN_ARRAY_ITER a\n    BEGIN_MACRO_CALL ?m\n" ++
      "    END_MACRO_CALL\n  END_ARRAY_ITER\n"
    ∃ p q, compile source = .ok p ∧ compile source' = .ok q ∧
      p.instructions.map Instruction.operation = [.beginArrayIter "a",
        .act (.beginMacroCall "m" 0), .act .endMacroCall, .endArrayIter] ∧
      q.instructions.map Instruction.operation = [.beginArrayIter "a",
        .act (.beginMacroCall "m" 1), .act .endMacroCall, .endArrayIter] ∧
      p.listing = listed ∧ q.listing = listed ∧ p.ShownAlike q ∧ p.Displayed := by
  intro source source' listed
  have hsource : (compile source).map (fun p => (p.listing,
      p.instructions.map Instruction.operation, p.macros.entries.map Macro.shown)) =
        .ok (listed, [.beginArrayIter "a", .act (.beginMacroCall "m" 0), .act .endMacroCall,
            .endArrayIter],
          [⟨"m", 0, some 1, [("EMIT_VAR", "x")], [("EMIT_VAR", "_")]⟩,
            ⟨"m", 1, some 1, [("EMIT_VAR", "x")], [("EMIT_VAR", "_")]⟩]) := by
    decide +kernel
  have hsource' : (compile source').map (fun p => (p.instructions.map Instruction.operation,
      p.macros.entries.map Macro.shown)) =
        .ok ([.beginArrayIter "a", .act (.beginMacroCall "m" 1), .act .endMacroCall,
            .endArrayIter],
          [⟨"m", 0, some 1, [("EMIT_VAR", "x")], [("EMIT_VAR", "_")]⟩,
            ⟨"m", 1, some 1, [("EMIT_VAR", "x")], [("EMIT_VAR", "_")]⟩]) := by
    decide +kernel
  rcases ok_of_map hsource with ⟨p, hp, hpShown⟩
  rcases ok_of_map hsource' with ⟨q, hq, hqShown⟩
  rcases Prod.mk.inj hpShown with ⟨hlisted, hpCode⟩
  rcases Prod.mk.inj hpCode with ⟨hpOperations, hpMacros⟩
  rcases Prod.mk.inj hqShown with ⟨hqOperations, hqMacros⟩
  have halike : p.ShownAlike q := by
    refine ⟨?_, hpMacros.trans hqMacros.symm⟩
    rw [Instruction.map_shown, Instruction.map_shown, hpOperations, hqOperations]
    rfl
  rcases listing_faithful hp hq with ⟨hiff, hdisplayed⟩
  exact ⟨p, q, hp, hq, hpOperations, hqOperations, hlisted, hiff.mpr halike ▸ hlisted, halike,
    hdisplayed⟩

end Program

end Stencil
