import Stencil.Proofs.Continuing
import Stencil.Proofs.Displacement
import Stencil.Proofs.LoweringAlike
import Stencil.Proofs.Scanning
import Stencil.Proofs.Showing

/-!
# Sources put together

Two sources that compile, one put after the other, compile to a program that runs the
first and then the second.  No block is open after the first, so its host text goes on
into the second; all else that is read of the two is read as it was.  The blocks of the
second are numbered after those of the first, which keeps their macros apart.
-/

namespace Stencil

/-! ## Between two sources -/

namespace Lexeme

namespace Mode

theorem afterAll_eq_next (mode : Mode) (p : Position) (lexemes : List Lexeme) :
    mode.afterAll lexemes = (Token.kinds (words p lexemes)).foldl next mode := by
  induction lexemes generalizing mode p with
  | nil => rfl
  | cons lexeme rest ih =>
      rw [words]
      change (mode.after lexeme).afterAll rest = _
      cases hkind : lexeme.kind with
      | none =>
          have hafter : mode.after lexeme = mode := by rw [after, hkind]
          rw [hafter]
          exact ih mode _
      | some kind =>
          rw [after_of_kind hkind]
          exact ih (mode.next kind) _

open Grammar

theorem next_of_operand {word : List TokenKind} (h : IsOperand word) :
    word.foldl next .script = .script := by
  cases h with
  | string => rfl
  | identifier => rfl

theorem next_of_source {word : List TokenKind} (h : IsSource word) :
    word.foldl next .script = .script := by
  cases h with
  | operand h => exact next_of_operand h
  | array => rfl

theorem next_of_statement {word : List TokenKind} (h : IsStatement word) :
    word.foldl next .script = .script := by
  cases h with
  | comment => rfl
  | definition hpattern hbody =>
      rw [List.foldl_cons, List.foldl_append, show next .script .macroDef = .script from rfl,
        next_of_operand hpattern, List.foldl_cons]
      exact next_of_operand hbody
  | plain hsource => exact next_of_source hsource
  | piped hsource =>
      rw [List.foldl_append, next_of_source hsource]
      rfl

theorem next_of_closesBlock {word : List TokenKind} (h : ClosesBlock word) :
    word.foldl next .script = .host := by
  induction h with
  | close => rfl
  | newline _ ih => exact ih
  | statement hword _ _ ih => rw [List.foldl_append, next_of_statement hword, ih]

/-- No block is open at the end of a document. -/
theorem next_of_document {word : List TokenKind} (h : IsDocument word) :
    word.foldl next .host = .host := by
  induction h with
  | empty => rfl
  | hostText _ ih => exact ih
  | block hinside _ ih =>
      rw [List.foldl_cons, List.foldl_append, show next .host .blockOpen = .script from rfl,
        next_of_closesBlock hinside, ih]

end Mode

theorem scan_hostText {text : List Char} (htext : hostRun text = text) (after : List Char)
    (h : ¬OpensBetween text after) :
    scan .host (text ++ after) =
      ofHost (text ++ hostRun after) ++ scan .host (after.drop (hostRun after).length) := by
  rw [scan_host, hostRun_append htext h, List.length_append, ← List.drop_drop, List.drop_left]

theorem flatMap_text_ofHost (text : List Char) : (ofHost text).flatMap Lexeme.text = text := by
  rw [ofHost]
  split
  · rename_i htext
    exact htext.symm
  · exact List.append_nil text

theorem OpensBetween.of_suffix {text cs after : List Char} (htext : text <:+ cs)
    (h : OpensBetween text after) : OpensBetween cs after := by
  rcases htext with ⟨before, rfl⟩
  have hne : text ≠ [] := by
    rintro rfl
    cases h.1
  exact ⟨by rw [List.getLast?_append_of_ne_nil _ hne]; exact h.1, h.2⟩

/-- The lexemes of two texts and of the one that they make up.  They differ where the
host text of the first goes on into that of the second. -/
theorem scan_between {cs ds : List Char} (hmode : Mode.host.afterAll (scan .host cs) = .host)
    (hseam : ¬OpensBetween cs ds) :
    ∃ front text more back, scan .host cs = front ++ ofHost text ∧
      scan .host ds = ofHost more ++ back ∧
      scan .host (cs ++ ds) = front ++ (ofHost (text ++ more) ++ back) := by
  rcases scan_append hmode ds with ⟨front, text, hscan, htext, hsuffix, hboth⟩
  have hopens : ¬OpensBetween text ds := fun h => hseam (h.of_suffix hsuffix)
  rw [scan_hostText htext ds hopens] at hboth
  exact ⟨front, text, hostRun ds, _, hscan, scan_host ds, hboth⟩

end Lexeme

/-! ## What is read of two sources -/

namespace Parse

open Lexeme

/-- Some tokens are read as items, wherever the input ends. -/
def Reads (index : Nat) (tokens : List Token) (is : List Item) : Prop :=
  ∀ fin, items fin index tokens = .ok is

variable {index : Nat} {tokens tokens' : List Token} {is is' : List Item}

theorem reads_of_items {fin : Span} (h : items fin index tokens = .ok is) :
    Reads index tokens is := by
  intro fin'
  have hitems := items_append h fin' []
  rw [List.append_nil, items] at hitems
  rw [hitems]
  exact congrArg Except.ok (List.append_nil is)

theorem Reads.append (h : Reads index tokens is)
    (h' : Reads (index + blockCount is) tokens' is') :
    Reads index (tokens ++ tokens') (is ++ is') := by
  intro fin
  rw [items_append (h fin) fin tokens', h' fin]
  rfl

theorem Reads.unique (h : Reads index tokens is) (h' : Reads index tokens is') : is' = is :=
  Except.ok.inj ((h' default).symm.trans (h default))

/-- Host text as an item, if there is any. -/
def hostItem (p : Position) (text : List Char) : List Item :=
  if text = [] then [] else [.hostText (p.upTo (p.advanceOver text)) (String.ofList text)]

theorem reads_ofHost (index : Nat) (p : Position) (text : List Char) :
    Reads index (words p (ofHost text)) (hostItem p text) := by
  intro fin
  rw [ofHost, hostItem]
  split
  · rw [words, items]
  · rw [words]
    change items fin index [⟨.hostText, _, _⟩] = _
    rw [items, items]
    rfl

theorem blockCount_hostItem (p : Position) (text : List Char) :
    blockCount (hostItem p text) = 0 := by
  rw [hostItem]
  split
  · rfl
  · rfl

theorem placeAfter_ofHost (p : Position) (text : List Char) :
    placeAfter p (ofHost text) = p.advanceOver text := by
  rw [placeAfter, flatMap_text_ofHost]

/-- What stands before the host text at the end is read by itself. -/
theorem Reads.before_ofHost {p : Position} {front : List Lexeme} {text : List Char}
    (h : Reads index (words p (front ++ ofHost text)) is) :
    ∃ before, Reads index (words p front) before ∧
      is = before ++ hostItem (placeAfter p front) text := by
  have hdocument : Grammar.IsDocument (Token.kinds (words p front)) := by
    rcases takes_items (h default) with ⟨word, hword, hkinds, _⟩
    rw [List.append_nil] at hword
    rw [← hword, words_append, Token.kinds_append] at hkinds
    rw [ofHost] at hkinds
    split at hkinds
    · rwa [words, Token.kinds, Token.kinds, List.map_nil, List.append_nil] at hkinds
    · exact hkinds.of_hostText
  rcases read_items hdocument default index with ⟨before, hbefore⟩
  have hread := reads_of_items hbefore
  refine ⟨before, hread, ?_⟩
  apply Reads.unique _ h
  rw [words_append]
  exact hread.append (reads_ofHost _ _ _)

/-- What stands after host text is read by itself. -/
theorem Reads.after_ofHost {p : Position} {text : List Char} {back : List Lexeme}
    (h : Reads index (words p (ofHost text ++ back)) is) :
    ∃ after, Reads index (words (p.advanceOver text) back) after ∧
      is = hostItem p text ++ after := by
  by_cases htext : text = []
  · subst htext
    exact ⟨is, h, rfl⟩
  · rw [ofHost, if_neg htext] at h
    have hitems := h default
    rw [List.singleton_append, words] at hitems
    change items default index (⟨.hostText, _, _⟩ :: _) = _ at hitems
    rw [items] at hitems
    rcases ok_of_bind hitems with ⟨after, hafter, hend⟩
    cases hend
    refine ⟨after, reads_of_items hafter, ?_⟩
    rw [hostItem, if_neg htext]
    rfl

theorem Reads.moved {p q : Position} {n : Nat} (hq : q.Counted) {lexemes : List Lexeme}
    (h : Reads 0 (words q lexemes) is) :
    ∃ is', Reads n (words (p.move q) lexemes) is' ∧
      List.Forall₂ (Item.Alike (.moved p n)) is is' := by
  have hwords := words_moved (p := p) (n := n) hq lexemes
  have hfin : (Likeness.moved p n).span default ((default : Span).move p) := rfl
  have hzero : (Likeness.moved p n).block 0 n := (Nat.zero_add n).symm
  have hitems := items_alike hfin hzero hwords
  rw [h default] at hitems
  rcases hitems.of_ok with ⟨is', his', halike⟩
  exact ⟨is', reads_of_items his', halike⟩

end Parse

namespace Document

open Lexeme Parse

/-- Two documents, and the one of their sources put together, the second of which stands
from the position `p` on. -/
inductive Joins (p : Position) : List Item → List Item → List Item → Prop where
  | mk {front back back' : List Item} (q r : Position) (text more : List Char)
      (hfront : ∀ b, .block b ∈ front → b.index < blockCount front)
      (hback : List.Forall₂ (Item.Alike (.moved p (blockCount front))) back back') :
      Joins p (front ++ hostItem q text) (hostItem r more ++ back)
        (front ++ (hostItem q (text ++ more) ++ back'))

/-- What is read of a source. -/
def sourceWords (source : String) : List Token :=
  words .origin (scan .host source.toList)

theorem tokenize_eq_words (source : String) :
    ∃ eof : Token, eof.kind = .endOfInput ∧ tokenize source = sourceWords source ++ [eof] :=
  ⟨_, rfl, tokens_eq_words _ _⟩

theorem ne_endOfInput_of_tiles {mode : Mode} {p : Position} {cs : List Char} {tokens : List Token}
    (h : Token.Tiles mode p cs tokens) : ∀ t ∈ tokens, t.kind ≠ .endOfInput := by
  induction h with
  | done mode p => simp
  | blank _ _ ih => exact ih
  | token _ _ hspelled _ _ ih =>
      intro t ht
      rcases List.mem_cons.mp ht with rfl | ht
      · intro hkind
        rw [hkind] at hspelled
        cases hspelled
      · exact ih t ht

theorem ne_endOfInput (source : String) : ∀ t ∈ sourceWords source, t.kind ≠ .endOfInput := by
  rcases tokenize_eq_words source with ⟨eof, _, hwords⟩
  rcases tiles_tokenize source with ⟨tokens, htokens, htiles⟩
  rcases List.append_inj' (hwords.symm.trans htokens) rfl with ⟨heq, _⟩
  rw [heq]
  exact ne_endOfInput_of_tiles htiles

theorem reads_of_ofTokens {source : String} {d : Document}
    (h : ofTokens (tokenize source) = .ok d) : Reads 0 (sourceWords source) d.items := by
  rcases tokenize_eq_words source with ⟨eof, heof, hwords⟩
  have hread := read_of_ofTokens h
  rw [hwords, read_append (ne_endOfInput source) heof []] at hread
  rcases ok_of_bind hread with ⟨is, his, hend⟩
  cases hend
  exact reads_of_items his

theorem ofTokens_of_reads {source : String} {is : List Item}
    (h : Reads 0 (sourceWords source) is) :
    ∃ span, ofTokens (tokenize source) = .ok ⟨span, is⟩ := by
  rcases tokenize_eq_words source with ⟨eof, heof, hwords⟩
  refine ⟨⟨0, eof.span.stop, 1, 1⟩, ?_⟩
  rw [ofTokens, hwords, read_append (ne_endOfInput source) heof [], h eof.span]
  rfl

theorem host_of_reads {source : String} {is : List Item}
    (h : Reads 0 (sourceWords source) is) :
    Mode.host.afterAll (scan .host source.toList) = .host := by
  rcases takes_items (h default) with ⟨word, hword, hkinds, _⟩
  rw [List.append_nil] at hword
  rw [Mode.afterAll_eq_next .host .origin]
  change (Token.kinds (sourceWords source)).foldl _ _ = _
  rw [hword]
  exact Mode.next_of_document hkinds

/-- The place at which a source ends. -/
def endOf (source : String) : Position :=
  Position.origin.advanceOver source.toList

theorem joins_of_reads {a b : String} {is is' : List Item} (ha : Reads 0 (sourceWords a) is)
    (hb : Reads 0 (sourceWords b) is') (hseam : ¬OpensBetween a.toList b.toList) :
    ∃ all, Reads 0 (sourceWords (a ++ b)) all ∧ Joins (endOf a) is is' all := by
  rcases scan_between (host_of_reads ha) hseam with
    ⟨front, text, more, back, hfirst, hsecond, hboth⟩
  rw [sourceWords, hfirst] at ha
  rw [sourceWords, hsecond] at hb
  rw [sourceWords, String.toList_append, hboth]
  rcases ha.before_ofHost with ⟨before, hbefore, rfl⟩
  rcases hb.after_ofHost with ⟨after, hafter, rfl⟩
  have htext : a.toList = front.flatMap Lexeme.text ++ text := by
    rw [← flatMap_text_scan .host a.toList, hfirst, List.flatMap_append, flatMap_text_ofHost]
  have hplace : (endOf a).move (Position.origin.advanceOver more) =
      placeAfter (placeAfter .origin front) (ofHost (text ++ more)) := by
    rw [endOf, Position.move_origin_advanceOver, htext, placeAfter_ofHost, List.append_assoc,
      Position.advanceOver_append]
    rfl
  rcases hafter.moved (p := endOf a) (n := blockCount before)
    (Position.counted_origin.advanceOver more) with ⟨after', hafter', halike⟩
  rw [hplace] at hafter'
  have hfront : ∀ b, .block b ∈ before → b.index < blockCount before := by
    intro b hb
    have hlt := (index_lt_of_items (hbefore default) hb).2
    rwa [Nat.zero_add] at hlt
  refine ⟨_, ?_, .mk (placeAfter .origin front) .origin text more hfront halike⟩
  rw [words_append, words_append]
  apply hbefore.append
  apply (reads_ofHost _ _ _).append
  rwa [blockCount_hostItem, Nat.add_zero, Nat.zero_add]

end Document

/-! ## What it means -/

namespace Evaluation

theorem andThen_assoc (first second third : Evaluation) :
    (first.andThen second).andThen third = first.andThen (second.andThen third) := by
  rcases first with ⟨output, stopped⟩
  cases stopped with
  | some u => rfl
  | none =>
      rcases second with ⟨output', stopped'⟩
      cases stopped' with
      | some u => rfl
      | none => simp [andThen, String.append_assoc]

theorem sequence_append (first second : List Evaluation) :
    sequence (first ++ second) = (sequence first).andThen (sequence second) := by
  induction first with
  | nil => exact (nothing_andThen _).symm
  | cons e first ih => rw [List.cons_append, sequence, ih, sequence, andThen_assoc]

end Evaluation

namespace Document

open Parse

theorem evaluate_hostItem (env : Environment) (p : Position) (text : List Char) :
    Evaluation.sequence ((hostItem p text).map (Item.evaluate env)) =
      .text (String.ofList text) := by
  rw [hostItem]
  split
  · rename_i htext
    rw [htext]
    rfl
  · exact Evaluation.andThen_nothing _

/-- The second document is evaluated after the first, in its own place. -/
theorem Joins.evaluate {p : Position} {is is' all : List Item} (h : Joins p is is' all)
    (env : Environment) :
    Evaluation.sequence (all.map (Item.evaluate env)) =
      (Evaluation.sequence (is.map (Item.evaluate env))).andThen
        ((Evaluation.sequence (is'.map (Item.evaluate env))).move p) := by
  cases h with
  | mk q r text more hfront hback =>
      have htexts : Evaluation.text (String.ofList (text ++ more)) =
          (Evaluation.text (String.ofList text)).andThen (.text (String.ofList more)) := by
        rw [String.ofList_append]
        rfl
      have hmoved := Evaluation.sequence_moved hback fun _ _ hitem => hitem.evaluate env
      rw [List.map_append, List.map_append, List.map_append, List.map_append,
        Evaluation.sequence_append, Evaluation.sequence_append, Evaluation.sequence_append,
        Evaluation.sequence_append, evaluate_hostItem, evaluate_hostItem, evaluate_hostItem,
        Evaluation.move_andThen, htexts, hmoved, Evaluation.andThen_assoc,
        Evaluation.andThen_assoc]
      rfl

end Document

/-! ## What it is lowered to -/

namespace MacroTable

theorem mem_of_get? {ms : List Macro} {block : Nat} {name : String} {m : Macro}
    (h : (ofList ms).get? block name = some m) : m ∈ ms ∧ m.block = block := by
  rw [ofList, get?_foldl_define, show empty.get? block name = none from rfl, Option.or_none] at h
  have hkey := Macro.hasKey_iff.mp (List.find?_some h)
  exact ⟨List.mem_reverse.mp (List.mem_of_find?_eq_some h), congrArg Prod.fst hkey⟩

theorem get?_ofList_append (ms ms' : List Macro) (block : Nat) (name : String) :
    (ofList (ms ++ ms')).get? block name =
      ((ofList ms').get? block name).or ((ofList ms).get? block name) := by
  have hnone : empty.get? block name = none := rfl
  rw [ofList, ofList, ofList, get?_foldl_define, get?_foldl_define, get?_foldl_define, hnone,
    List.reverse_append, List.find?_append, Option.or_none, Option.or_none, Option.or_none]

theorem get?_eq_none {ms : List Macro} {block : Nat} (h : ∀ m ∈ ms, m.block ≠ block)
    (name : String) : (ofList ms).get? block name = none := by
  cases hfound : (ofList ms).get? block name with
  | none => rfl
  | some m =>
      rcases mem_of_get? hfound with ⟨hmem, hblock⟩
      exact absurd hblock (h m hmem)

/-- Macros of lower blocks are found without looking further. -/
theorem get?_below {ms ms' : List Macro} {n : Nat} (h : ∀ m ∈ ms', n ≤ m.block) {block : Nat}
    (hblock : block < n) (name : String) :
    (ofList (ms ++ ms')).get? block name = (ofList ms).get? block name := by
  have hnone := get?_eq_none (fun m hm => Nat.ne_of_gt (Nat.lt_of_lt_of_le hblock (h m hm))) name
  rw [get?_ofList_append, hnone, Option.none_or]

theorem get?_above {ms ms' : List Macro} {n : Nat} (h : ∀ m ∈ ms, m.block < n) {block : Nat}
    (hblock : n ≤ block) (name : String) :
    (ofList (ms ++ ms')).get? block name = (ofList ms').get? block name := by
  have hnone := get?_eq_none (fun m hm => Nat.ne_of_lt (Nat.lt_of_lt_of_le (h m hm) hblock)) name
  rw [get?_ofList_append, hnone, Option.or_none]

theorem le_block_of_moved {place : Position} {n : Nat} {ms ms' : List Macro}
    (h : List.Forall₂ (Macro.Alike (.moved place n)) ms ms') : ∀ m ∈ ms', n ≤ m.block := by
  intro m hm
  rcases exists_of_mem_of_forall₂ h hm with ⟨m', _, halike⟩
  have hblock : m.block = m'.block + n := halike.block
  omega

end MacroTable

/-- A program that does what two others do, the second of which stands from the position
`place` on, after `n` blocks.  Calls find the macros that they found before, and no
others. -/
structure Program.Apart (place : Position) (n : Nat) (p q r : Program) : Prop where
  calls : ∀ name block span, Instruction.of (.beginMacroCall name block) span ∈ r.instructions →
    Instruction.of (.beginMacroCall name block) span ∈ p.instructions ∨
      ∃ i ∈ q.instructions, i.Alike (.moved place n) (.of (.beginMacroCall name block) span)
  below : ∀ name block m, p.macros.get? block name = some m → block < n
  first : ∀ name block, block < n → r.macros.get? block name = p.macros.get? block name
  second : ∀ name block, Option.Rel (Macro.Alike (.moved place n)) (q.macros.get? block name)
    (r.macros.get? (block + n) name)

namespace Document

open Parse

variable {is is' : List Item} {ms ms' : List Macro} {code code' : List Instruction}

/-- The items define these macros and are lowered to this code. -/
def Lowers (is : List Item) (ms : List Macro) (code : List Instruction) : Prop :=
  ∃ parts, is.mapM Item.lower = .ok parts ∧ (parts.map Prod.fst).flatten = ms ∧
    (parts.map Prod.snd).flatten = code

theorem lowers_of_lower {d : Document} {p : Program} (h : d.lower = .ok p) :
    ∃ ms, Lowers d.items ms p.instructions ∧ p.macros = MacroTable.ofList ms := by
  rcases ok_of_bind h with ⟨parts, hparts, hend⟩
  cases hend
  exact ⟨_, ⟨parts, hparts, rfl, rfl⟩, rfl⟩

namespace Lowers

theorem lower (h : Lowers is ms code) (span : Span) :
    (Document.mk span is).lower = .ok ⟨code, MacroTable.ofList ms⟩ := by
  rcases h with ⟨parts, hparts, rfl, rfl⟩
  exact bind_of_eq_ok hparts _

theorem unique (h : Lowers is ms code) (h' : Lowers is ms' code') : ms' = ms ∧ code' = code := by
  rcases h with ⟨parts, hparts, rfl, rfl⟩
  rcases h' with ⟨parts', hparts', rfl, rfl⟩
  cases Except.ok.inj (hparts.symm.trans hparts')
  exact ⟨rfl, rfl⟩

theorem append (h : Lowers is ms code) (h' : Lowers is' ms' code') :
    Lowers (is ++ is') (ms ++ ms') (code ++ code') := by
  rcases h with ⟨parts, hparts, rfl, rfl⟩
  rcases h' with ⟨parts', hparts', rfl, rfl⟩
  refine ⟨parts ++ parts', ?_, ?_, ?_⟩
  · rw [List.mapM_append]
    exact (bind_of_eq_ok hparts _).trans (bind_of_eq_ok hparts' _)
  · rw [List.map_append, List.flatten_append]
  · rw [List.map_append, List.flatten_append]

theorem of_append (h : Lowers (is ++ is') ms code) :
    ∃ before after entry exit, Lowers is before entry ∧ Lowers is' after exit ∧
      ms = before ++ after ∧ code = entry ++ exit := by
  rcases h with ⟨parts, hparts, rfl, rfl⟩
  rw [List.mapM_append] at hparts
  rcases ok_of_bind hparts with ⟨front, hfront, hrest⟩
  rcases ok_of_bind hrest with ⟨back, hback, hend⟩
  cases hend
  refine ⟨_, _, _, _, ⟨front, hfront, rfl, rfl⟩, ⟨back, hback, rfl, rfl⟩, ?_, ?_⟩
  · rw [List.map_append, List.flatten_append]
  · rw [List.map_append, List.flatten_append]

theorem moved {p : Position} {n : Nat} (h : Lowers is ms code)
    (his : List.Forall₂ (Item.Alike (.moved p n)) is is') :
    ∃ ms' code', Lowers is' ms' code' ∧ List.Forall₂ (Macro.Alike (.moved p n)) ms ms' ∧
      List.Forall₂ (Instruction.Alike (.moved p n)) code code' := by
  rcases h with ⟨parts, hparts, rfl, rfl⟩
  have hlowered := Both.mapM his fun _ _ hitem => hitem.lower
  rw [hparts] at hlowered
  rcases hlowered.of_ok with ⟨parts', hparts', halike⟩
  refine ⟨_, _, ⟨parts', hparts', rfl, rfl⟩, ?_, ?_⟩
  · exact List.rel_flatten (List.rel_map (fun _ _ hpart => hpart.macros) halike)
  · exact List.rel_flatten (List.rel_map (fun _ _ hpart => hpart.instructions) halike)

theorem block_lt (h : Lowers is ms code) {n : Nat} (hn : ∀ b, .block b ∈ is → b.index < n) :
    ∀ m ∈ ms, m.block < n := by
  rcases h with ⟨parts, hparts, rfl, _⟩
  intro m hm
  have hkey : m.key ∈ (parts.map Prod.fst).flatten.map Macro.key := List.mem_map_of_mem hm
  rw [keys_of_lower (forall₂_of_mapM hparts) default] at hkey
  rcases List.mem_flatMap.mp hkey with ⟨b, hb, hdefinition⟩
  rcases List.mem_map.mp hdefinition with ⟨d, _, hd⟩
  have hblock : b.index = m.block := congrArg Prod.fst hd
  rw [← hblock]
  exact hn b (mem_items_of_mem_blocks hb)

end Lowers

/-- Host text defines no macros. -/
theorem lowers_hostItem (p : Position) (text : List Char) :
    ∃ code, Lowers (hostItem p text) [] code ∧
      ∀ name block span, Instruction.of (.beginMacroCall name block) span ∉ code := by
  by_cases htext : text = []
  · rw [hostItem, if_pos htext]
    exact ⟨[], ⟨[], rfl, rfl, rfl⟩, by simp⟩
  · have hne : String.ofList text ≠ "" := by
      rw [Ne, String.ofList_eq_empty_iff]
      exact htext
    have hlower : (hostItem p text).mapM Item.lower =
        .ok [([], [.of (.emitLiteral (String.ofList text)) (p.upTo (p.advanceOver text))])] := by
      rw [hostItem, if_neg htext, List.mapM_cons, Item.lower, if_neg hne]
      rfl
    refine ⟨_, ⟨_, hlower, rfl, rfl⟩, ?_⟩
    simp [Instruction.of]

theorem Lowers.macros_hostItem {p : Position} {text : List Char}
    (h : Lowers (hostItem p text) ms code) : ms = [] := by
  rcases lowers_hostItem p text with ⟨_, hhost, _⟩
  exact (hhost.unique h).1

theorem Joins.lower {place : Position} {is is' all : List Item} (h : Joins place is is' all)
    {span span' : Span} {p q : Program} (hp : (Document.mk span is).lower = .ok p)
    (hq : (Document.mk span' is').lower = .ok q) (fin : Span) :
    ∃ r n, (Document.mk fin all).lower = .ok r ∧ Program.Apart place n p q r := by
  cases h with
  | @mk front back back' s t text more hfront hback =>
      rcases lowers_of_lower hp with ⟨_, hfirst, hpmacros⟩
      rcases hfirst.of_append with ⟨ms, _, entry, _, hfrontLowers, htexts, rfl, hpcode⟩
      rcases lowers_of_lower hq with ⟨_, hsecond, hqmacros⟩
      rcases hsecond.of_append with ⟨_, ms', _, exit, hmores, hbackLowers, rfl, hqcode⟩
      rcases lowers_hostItem s (text ++ more) with ⟨host, hhost, hnocalls⟩
      rcases hbackLowers.moved hback with ⟨ms'', exit', hmoved, hmacros, hcode⟩
      have hall := hfrontLowers.append (hhost.append hmoved)
      have hbelow : ∀ m ∈ ms, m.block < blockCount front := hfrontLowers.block_lt hfront
      have habove : ∀ m ∈ ms'', blockCount front ≤ m.block := MacroTable.le_block_of_moved hmacros
      rw [htexts.macros_hostItem, List.append_nil] at hpmacros
      rw [hmores.macros_hostItem, List.nil_append] at hqmacros
      refine ⟨_, blockCount front, hall.lower fin, ?_⟩
      constructor
      · intro name block span hcall
        simp only [List.mem_append] at hcall
        rcases hcall with hcall | hcall | hcall
        · left
          rw [hpcode]
          exact List.mem_append_left _ hcall
        · exact absurd hcall (hnocalls name block span)
        · right
          rcases exists_of_mem_of_forall₂ hcode hcall with ⟨i, hi, halike⟩
          refine ⟨i, ?_, halike⟩
          rw [hqcode]
          exact List.mem_append_right _ hi
      · intro name block m hm
        rw [hpmacros] at hm
        rcases MacroTable.mem_of_get? hm with ⟨hmem, rfl⟩
        exact hbelow m hmem
      · intro name block hblock
        rw [hpmacros]
        exact MacroTable.get?_below habove hblock name
      · intro name block
        rw [hqmacros]
        change Option.Rel _ _ ((MacroTable.ofList (ms ++ ms'')).get? _ name)
        rw [MacroTable.get?_above hbelow (Nat.le_add_left _ block)]
        exact MacroTable.get?_alike (MacroTable.ofList_alike hmacros) rfl name

end Document

/-! ## How it runs -/

namespace Outcome

variable {σ : Type} {o o' o'' : Outcome σ} {e e' : Evaluation}

/-- One run after another, in the place `p`: the second writes after the first and fails as
it would alone, unless the first has failed. -/
structure After (p : Position) (o o' o'' : Outcome σ) : Prop where
  goes : o.failure = none → o''.output = o.output ++ o'.output ∧
    o''.failure = o'.failure.map fun (cause, span) => (cause, span.map (Span.move p))
  stops : o.failure ≠ none → o''.output = o.output ∧ o''.failure = o.failure

theorem Shows.after {p : Position} (h : o.Shows e) (h' : o'.Shows e')
    (h'' : o''.Shows (e.andThen (e'.move p))) : After p o o' o'' := by
  rcases e with ⟨output, stopped⟩
  rcases e' with ⟨output', stopped'⟩
  have hfailure := h.failure
  cases stopped with
  | none =>
      refine ⟨fun _ => ⟨?_, ?_⟩, fun hfailed => absurd hfailure hfailed⟩
      · rw [h''.output, h.output, h'.output]
        rfl
      · rw [h''.failure, h'.failure]
        cases stopped' with
        | none => rfl
        | some u => cases u <;> rfl
  | some u =>
      refine ⟨fun hgoes => ?_, fun _ => ⟨?_, ?_⟩⟩
      · rw [hgoes] at hfailure
        cases hfailure
      · rw [h''.output, h.output]
        rfl
      · rw [h''.failure, h.failure]
        rfl

end Outcome

namespace Program

variable {σ : Type}

theorem compile_of_document {source : String} {d : Document} {p : Program}
    (hdocument : Document.ofTokens (tokenize source) = .ok d) (hlower : d.lower = .ok p) :
    compile source = .ok p := by
  unfold compile ofTokens
  rw [hdocument]
  dsimp only
  rw [hlower]

/-- If two sources compile, and the braces of an opening are not split between them, so does
the first with the second after it.  Without hooks its run writes what the first source
writes and then what the second writes.  It fails as the first does, or else as the second
does, with the place moved to where the second source stands.  The macros of the two do not
see each other, whatever their names. -/
theorem run_append {a b : String} {p q : Program} (ha : compile a = .ok p)
    (hb : compile b = .ok q) (hseam : ¬Lexeme.OpensBetween a.toList b.toList) (c : Setting σ)
    (hc : c.Plain) (world : σ) :
    let place := Position.origin.advanceOver a.toList
    ∃ r n, compile (a ++ b) = .ok r ∧ Apart place n p q r ∧
      Outcome.After place (p.run c world) (q.run c world) (r.run c world) := by
  rcases document_of_compile ha with ⟨d, hd, hp⟩
  rcases document_of_compile hb with ⟨d', hd', hq⟩
  rcases Document.joins_of_reads (Document.reads_of_ofTokens hd)
    (Document.reads_of_ofTokens hd') hseam with ⟨all, hall, hjoins⟩
  rcases Document.ofTokens_of_reads hall with ⟨span, hread⟩
  rcases hjoins.lower hp hq span with ⟨r, n, hr, hapart⟩
  have hshows := run_shows hc world hread hr
  rw [Document.evaluate, hjoins.evaluate] at hshows
  have hafter := (run_shows hc world hd hp).after (run_shows hc world hd' hq) hshows
  exact ⟨r, n, compile_of_document hread hr, hapart, hafter⟩

/-- Two sources whose macros have the same name, the second of which fails. -/
theorem run_append_same_name :
    let c : Setting Unit := ⟨"m", ⟨[("x", "v")], []⟩, Registry.empty, Sink.accepting, false⟩
    let a := "\x7b\x7b @m \"$(_item_)\" | \"<$(_)>\"; x | ?m \x7d\x7d\n\x7b"
    let b := "(\x7b\x7b x | ?m; y; @m \"$(_item_)\" | \"[$(_)]\" \x7d\x7d)"
    c.Plain ∧ ∃ p q r, compile a = .ok p ∧ compile b = .ok q ∧ compile (a ++ b) = .ok r ∧
      (r.run c ()).output = "<v>\n\x7b([v]" ∧
      (r.run c ()).failure = some (.undefinedVariable "y", some ⟨53, 54, 2, 14⟩) := by
  intro c a b
  have hc : c.Plain := ⟨rfl, fun _ _ => rfl⟩
  have hfirst : (Document.ofTokens (tokenize a)).map (Document.evaluate c.environment) =
      .ok ⟨"<v>\n\x7b", none⟩ := by
    decide +kernel
  have hsecond : (Document.ofTokens (tokenize b)).map (Document.evaluate c.environment) =
      .ok ⟨"([v]", some (.scalar "y" ⟨12, 13, 1, 13⟩)⟩ := by
    decide +kernel
  rcases exists_of_isOk (x := compile a) (by decide +kernel) with ⟨p, hp⟩
  rcases exists_of_isOk (x := compile b) (by decide +kernel) with ⟨q, hq⟩
  have hseam : ¬Lexeme.OpensBetween a.toList b.toList := by
    rintro ⟨_, hbegins⟩
    exact absurd hbegins (by decide +kernel)
  rcases run_append hp hq hseam c hc () with ⟨r, n, hr, _, hafter⟩
  have hshows := run_shows_of_evaluates hc () hp hfirst
  have hshows' := run_shows_of_evaluates hc () hq hsecond
  rcases hafter.goes hshows.failure with ⟨houtput, hfailure⟩
  rw [hshows.output, hshows'.output] at houtput
  have hplace : Span.move (Position.origin.advanceOver a.toList) ⟨12, 13, 1, 13⟩ =
      ⟨53, 54, 2, 14⟩ := by
    decide +kernel
  simp only [hshows'.failure, Option.map_some, Undefined.cause, Undefined.span, hplace] at hfailure
  exact ⟨hc, p, q, r, hp, hq, hr, houtput, hfailure⟩

end Program

end Stencil
