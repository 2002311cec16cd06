import Stencil.Proofs.Concatenation
import Stencil.Proofs.Layout
import Stencil.Proofs.Markers
import Stencil.Rendering

/-!
# Host text goes through

The items of a document tile its source.  A host text is a stretch of the source without an
opening, and a block goes from an opening to a closing.  So a source whose blocks write
nothing renders to what is left of it without its blocks, and a source without blocks
renders to itself.
-/

namespace Stencil

/-! ## Spans that tile -/

namespace Span

variable {source cs : List Char} {s first last : Span} {spans : List Span} {i stop : Nat}

/-- Spans follow one another from one place to another, without gap or overlap, and none of
them is empty. -/
def Tile : Nat → List Span → Nat → Prop
  | i, [], stop => i = stop
  | i, s :: spans, stop => s.start = i ∧ s.start < s.stop ∧ Tile s.stop spans stop

theorem Tile.le (h : Tile i spans stop) : i ≤ stop := by
  induction spans generalizing i with
  | nil => exact Nat.le_of_eq h
  | cons s spans ih =>
      rcases h with ⟨rfl, hlt, htail⟩
      exact Nat.le_trans (Nat.le_of_lt hlt) (ih htail)

theorem Tile.le_start (h : Tile i spans stop) : ∀ s ∈ spans, i ≤ s.start := by
  induction spans generalizing i with
  | nil => simp
  | cons s spans ih =>
      rcases h with ⟨rfl, hlt, htail⟩
      rw [List.forall_mem_cons]
      constructor
      · exact Nat.le_refl _
      · intro later hlater
        exact Nat.le_trans (Nat.le_of_lt hlt) (ih htail later hlater)

/-- The characters of a text that stand in none of the spans, the first character of the
text having offset `i`. -/
def remove (spans : List Span) (i : Nat) (cs : List Char) : List Char :=
  ((cs.zipIdx i).filter fun (_, j) => !spans.any (·.covers j)).map Prod.fst

theorem remove_append (spans : List Span) (i : Nat) (cs ds : List Char) :
    remove spans i (cs ++ ds) = remove spans i cs ++ remove spans (i + cs.length) ds := by
  rw [remove, List.zipIdx_append, List.filter_append, List.map_append]
  rfl

theorem remove_of_before (h : ∀ s ∈ spans, i + cs.length ≤ s.start) : remove spans i cs = cs := by
  rw [remove, List.filter_eq_self.mpr, List.zipIdx_map_fst]
  rintro ⟨c, j⟩ hpair
  have hlt : j < i + cs.length := List.snd_lt_add_of_mem_zipIdx hpair
  rw [Bool.not_eq_true', List.any_eq_false]
  intro s hs
  have hstart := h s hs
  simp only [covers, Bool.and_eq_true, decide_eq_true_eq, not_and]
  omega

theorem remove_of_covered (hstart : s.start ≤ i) (hstop : i + cs.length ≤ s.stop) :
    remove (s :: spans) i cs = [] := by
  rw [remove, List.map_eq_nil_iff, List.filter_eq_nil_iff]
  rintro ⟨c, j⟩ hpair
  have hge : i ≤ j := List.le_snd_of_mem_zipIdx hpair
  have hlt : j < i + cs.length := List.snd_lt_add_of_mem_zipIdx hpair
  have hcovers : s.covers j = true := by
    simp only [covers, Bool.and_eq_true, decide_eq_true_eq]
    omega
  simp [hcovers]

/-- A span that has ended takes nothing. -/
theorem remove_of_ended (h : s.stop ≤ i) : remove (s :: spans) i cs = remove spans i cs := by
  unfold remove
  congr 1
  apply List.filter_congr
  rintro ⟨c, j⟩ hpair
  have hge : i ≤ j := List.le_snd_of_mem_zipIdx hpair
  have hout : s.covers j = false := by
    simp only [covers, Bool.and_eq_false_iff, decide_eq_false_iff_not]
    omega
  dsimp only
  rw [List.any_cons, hout, Bool.false_or]

theorem drop_eq_text_append (h : s.start ≤ s.stop) :
    source.drop s.start = s.text source ++ source.drop s.stop := by
  have hstop : s.stop = s.start + (s.stop - s.start) := by omega
  conv_rhs => rw [hstop, ← List.drop_drop]
  exact (List.take_append_drop _ _).symm

theorem length_text (h : s.stop ≤ source.length) : (s.text source).length = s.stop - s.start := by
  rw [text, List.length_take, List.length_drop]
  omega

/-- A join begins with its first span. -/
theorem text_prefix_join (h : first.stop ≤ last.stop) :
    first.text source <+: (first.join last).text source :=
  List.take_prefix_take_left (Nat.sub_le_sub_right h _)

/-- A join ends with its last span. -/
theorem text_suffix_join (h : first.start ≤ last.start) :
    last.text source <:+ (first.join last).text source := by
  have hstart : last.start = first.start + (last.start - first.start) := by omega
  have hlength : last.stop - first.start - (last.start - first.start) =
      last.stop - last.start := by
    omega
  have hdrop : last.text source =
      ((first.join last).text source).drop (last.start - first.start) := by
    rw [text, text, join, List.drop_take, List.drop_drop, ← hstart, hlength]
  rw [hdrop]
  exact List.drop_suffix _ _

end Span

/-! ## The items of a document -/

/-- The item stands for its stretch of the source: host text is what it covers and has no
opening, and a block goes from an opening to a closing. -/
inductive Item.Covers (source : List Char) : Item → Prop where
  | hostText {span : Span} {text : String} (htext : text.toList = span.text source)
      (hnone : ¬Token.opening <:+: span.text source) : Covers source (.hostText span text)
  | block {b : Block} (hopens : Token.opening <+: b.span.text source)
      (hcloses : ['}', '}'] <:+ b.span.text source) : Covers source (.block b)

namespace Token

variable {source : String} {left after : List Token} {token : Token}

theorem value_of_hostText (h : token ∈ tokenize source) (hkind : token.kind = .hostText) :
    token.value.toList = token.span.text source.toList := by
  have hspelled := tokenize_spelled source token h (by rw [hkind]; decide)
  rw [hkind] at hspelled
  generalize token.value = value, token.span.text source.toList = text at hspelled
  cases hspelled
  exact String.toList_ofList

theorem lt_of_text_ne_nil {s : Span} {cs : List Char} (h : s.text cs ≠ []) :
    s.start < s.stop := by
  by_contra hle
  apply h
  rw [Span.text, Nat.sub_eq_zero_of_le (Nat.le_of_not_lt hle), List.take_zero]

/-- Outside of blocks the input ends where the last token does. -/
theorem Exact.ended_of_endOfInput {cs : List Char} (h : Exact cs left token [])
    (hhost : ¬InBlock left) : ended left = cs.length := by
  have hstart := h.eq_ended hhost
  have hnil : cs.drop token.span.start = [] := h.endOfInput.1.mp (h.endOfInput.2.mpr rfl)
  have hle : cs.length ≤ token.span.start := List.drop_eq_nil_iff.mp hnil
  have hbounds := h.bounds
  omega

theorem not_inBlock_concat_of_blockClose (hkind : token.kind = .blockClose) :
    ¬InBlock (left ++ [token]) := by
  rw [inBlock_concat, hkind]
  simp

end Token

namespace Parse

open Token

variable {source : String} {fin opening closing : Span} {index : Nat}
  {tokens before rest : List Token} {eof : Token} {is : List Item}

/-- The statements of a block are taken up to a closing, which is the last token taken. -/
theorem closes_statements {ss : List Statement}
    (h : statements fin opening tokens = .ok (ss, closing, rest)) :
    ∃ inside value, tokens = inside ++ ⟨.blockClose, value, closing⟩ :: rest := by
  fun_induction statements fin opening tokens generalizing ss with
  | case1 => cases h
  | case2 value span more ih =>
      rcases ih h with ⟨inside, value', rfl⟩
      exact ⟨_ :: inside, value', rfl⟩
  | case3 value span more =>
      cases h
      exact ⟨[], value, rfl⟩
  | case4 => cases h
  | case5 _ _ _ _ statement left hstatement _ ih =>
      rcases ok_of_bind h with ⟨⟨more, closing', rest'⟩, hmore, hend⟩
      cases hend
      rcases takes_statement hstatement with ⟨word, hword, _⟩
      rcases ih hmore with ⟨inside, value, rfl⟩
      exact ⟨word ++ inside, value, by rw [hword, List.append_assoc]⟩
  | case6 => cases h

/-- From the end of what was read before on, the items tile the source. -/
theorem tile_items (h : items fin index tokens = .ok is)
    (hwords : tokenize source = before ++ (tokens ++ [eof])) (hhost : ¬InBlock before) :
    Span.Tile (ended before) (is.map Item.span) source.toList.length ∧
      ∀ item ∈ is, item.Covers source.toList := by
  fun_induction items fin index tokens generalizing before is with
  | case1 =>
      cases h
      exact ⟨(tokenize_exact hwords).ended_of_endOfInput hhost, by simp⟩
  | case2 index text span more ih =>
      rcases ok_of_bind h with ⟨others, hothers, hend⟩
      cases hend
      have hexact := tokenize_exact hwords
      rcases hexact.hostText rfl with ⟨_, hne, hnone, _⟩
      have hnext : ¬InBlock (before ++ [⟨.hostText, text, span⟩]) := by
        rw [inBlock_concat]
        simp [hhost]
      have hsplit : tokenize source = (before ++ [⟨.hostText, text, span⟩]) ++ (more ++ [eof]) := by
        rw [hwords, List.append_assoc]
        rfl
      rcases ih hothers hsplit hnext with ⟨htile, hcovers⟩
      rw [ended_concat] at htile
      constructor
      · exact ⟨hexact.eq_ended hhost, lt_of_text_ne_nil hne, htile⟩
      · rw [List.forall_mem_cons]
        have hmem : ⟨.hostText, text, span⟩ ∈ tokenize source := by
          rw [hwords]
          simp
        exact ⟨.hostText (value_of_hostText hmem rfl) hnone, hcovers⟩
  | case3 => cases h
  | case4 index value opening more ss closing left hss ih =>
      rcases ok_of_bind h with ⟨others, hothers, hend⟩
      cases hend
      rcases closes_statements hss with ⟨inside, value', rfl⟩
      have hopening := tokenize_exact hwords
      have hopens : opening.text source.toList = Token.opening := (hopening.blockOpen rfl).2.1
      have hlt := lt_of_text_ne_nil (hopens.trans_ne (List.cons_ne_nil _ _))
      -- the walk goes on behind the closing, after which no block is open
      have hsplit : tokenize source =
          ((before ++ ⟨.blockOpen, value, opening⟩ :: inside) ++
            [⟨.blockClose, value', closing⟩]) ++ (left ++ [eof]) := by
        rw [hwords]
        simp
      rcases ih hothers hsplit (not_inBlock_concat_of_blockClose rfl) with ⟨htile, hcovers⟩
      rw [ended_concat] at htile
      have hmem : ⟨.blockClose, value', closing⟩ ∈ tokenize source := by
        rw [hsplit]
        simp
      have hcloses : closing.text source.toList = ['}', '}'] := text_of_blockClose hmem rfl
      have hforward := lt_of_text_ne_nil (hcloses.trans_ne (List.cons_ne_nil _ _))
      have hapart : opening.stop ≤ closing.start := by
        have hpairwise := (apart_tokenize source).pairwise
        rw [hwords, List.pairwise_append] at hpairwise
        exact (List.pairwise_cons.mp hpairwise.2.1).1 ⟨.blockClose, value', closing⟩ (by simp)
      constructor
      · refine ⟨hopening.eq_ended hhost, ?_, htile⟩
        change opening.start < closing.stop
        omega
      · rw [List.forall_mem_cons]
        refine ⟨.block ?_ ?_, hcovers⟩
        · rw [← hopens]
          exact Span.text_prefix_join (by omega)
        · rw [← hcloses]
          exact Span.text_suffix_join (by omega)
  | case5 => cases h

end Parse

namespace Document

open Parse

variable {source : String} {d : Document}

/-- The items of a document tile its source. -/
theorem tile_of_ofTokens (h : ofTokens (tokenize source) = .ok d) :
    Span.Tile 0 (d.items.map Item.span) source.toList.length ∧
      ∀ item ∈ d.items, item.Covers source.toList := by
  rcases tokenize_eq_words source with ⟨eof, _, hwords⟩
  have hsplit : tokenize source = [] ++ (sourceWords source ++ [eof]) := hwords
  exact tile_items (reads_of_ofTokens h default) hsplit Token.not_inBlock_nil

end Document

/-! ## What is left without the blocks -/

/-- What an item leaves of the source: host text stays, and blocks go. -/
def Item.kept (source : List Char) : Item → List Char
  | hostText span _ => span.text source
  | block _ => []

namespace Document

variable {source : List Char} {i : Nat} {is : List Item}

theorem remove_blocks (h : Span.Tile i (is.map Item.span) source.length) (span : Span) :
    Span.remove ((Document.mk span is).blocks.map Block.span) i (source.drop i) =
      is.flatMap (Item.kept source) := by
  induction is generalizing i with
  | nil =>
      cases h
      rw [List.drop_length]
      rfl
  | cons item is ih =>
      rcases h with ⟨rfl, hlt, htail⟩
      have hlength := Span.length_text htail.le
      have hstop : item.span.start + (item.span.text source).length = item.span.stop := by
        omega
      rw [Span.drop_eq_text_append (Nat.le_of_lt hlt), Span.remove_append, hstop,
        List.flatMap_cons, ← ih htail]
      congr 1
      -- later blocks do not reach back, and a block does not reach beyond its end
      · cases item with
        | hostText s text =>
            apply Span.remove_of_before
            intro t ht
            rcases List.mem_map.mp ht with ⟨b, hb, rfl⟩
            have hblock : b ∈ (Document.mk span is).blocks := hb
            have hitem : Item.block b ∈ is := mem_items_of_mem_blocks hblock
            rw [hstop]
            exact htail.le_start _ (List.mem_map_of_mem hitem)
        | block b => exact Span.remove_of_covered (Nat.le_refl _) (Nat.le_of_eq hstop)
      · cases item with
        | hostText s text => rfl
        | block b => exact Span.remove_of_ended (Nat.le_refl _)

end Document

/-! ## Blocks that write nothing -/

/-- Comments and definitions. -/
inductive Statement.Silent : Statement → Prop where
  | comment (span : Span) (text : String) : Silent (.comment span text)
  | definition (span : Span) (name : String) (pattern body : Operand) :
      Silent (.definition span name pattern body)

namespace Block

theorem evaluate_silent (env : Environment) (b : Block) {ss : List Statement}
    (h : ∀ s ∈ ss, s.Silent) :
    Evaluation.sequence (ss.map (b.evaluateStatement env)) = .nothing := by
  induction ss with
  | nil => rfl
  | cons s ss ih =>
      rcases List.forall_mem_cons.mp h with ⟨hs, hss⟩
      have hnothing : b.evaluateStatement env s = .nothing := by
        cases hs with
        | comment => rfl
        | definition => rfl
      rw [List.map_cons, Evaluation.sequence, hnothing, ih hss]
      rfl

end Block

namespace Document

variable {source : List Char} {is : List Item}

theorem evaluate_kept (env : Environment) (hcovers : ∀ item ∈ is, item.Covers source)
    (hsilent : ∀ b, .block b ∈ is → ∀ s ∈ b.statements, s.Silent) :
    Evaluation.sequence (is.map (Item.evaluate env)) =
      .text (String.ofList (is.flatMap (Item.kept source))) := by
  induction is with
  | nil => rfl
  | cons item is ih =>
      rcases List.forall_mem_cons.mp hcovers with ⟨hitem, hothers⟩
      have htext : item.evaluate env = .text (String.ofList (item.kept source)) := by
        cases hitem with
        | hostText htext _ =>
            rw [Item.kept, ← htext, String.ofList_toList]
            rfl
        | @block b _ _ => exact Block.evaluate_silent env b (hsilent b List.mem_cons_self)
      have hrest := ih hothers fun b hb => hsilent b (List.mem_cons_of_mem _ hb)
      rw [List.map_cons, Evaluation.sequence, htext, hrest, List.flatMap_cons, String.ofList_append]
      rfl

end Document

/-! ## Renderings -/

section Renderings

variable {σ : Type} {c : Setting σ} {source : String} {d : Document} {p : Program}

theorem render_of_evaluates (hc : c.Plain) (world : σ)
    (hdocument : Document.ofTokens (tokenize source) = .ok d) (hlower : d.lower = .ok p)
    {text : String} (htext : d.evaluate c.environment = .text text) :
    (render c source world).succeeded = true ∧ (render c source world).output = text := by
  have hshows := Program.run_shows hc world hdocument hlower
  rw [htext] at hshows
  rw [render, Program.compile_of_document hdocument hlower]
  constructor
  · have hfailure : (p.run c world).error.map (fun e => (e.cause, e.span)) = none := hshows.failure
    rw [Rendering.succeeded, Option.map_eq_none_iff.mp hfailure]
    rfl
  · exact hshows.output

/-- A source without an opening is one host text. -/
theorem ofTokens_of_not_opening (h : ¬Token.opening <:+: source.toList) :
    ∃ span, Document.ofTokens (tokenize source) =
      .ok ⟨span, Parse.hostItem .origin source.toList⟩ := by
  apply Document.ofTokens_of_reads
  have hrun : Lexeme.hostRun source.toList = source.toList := by
    rcases Lexeme.hostRun_isPrefix source.toList with ⟨rest, hrest⟩
    rcases Token.opening_of_hostRun hrest.symm with rfl | hopens
    · rw [List.append_nil] at hrest
      exact hrest
    · rw [← hrest] at h
      exact absurd (hopens.isInfix.trans (List.suffix_append _ _).isInfix) h
  have hscan : Lexeme.scan .host source.toList = Lexeme.ofHost source.toList := by
    rw [Lexeme.scan_host, hrun, List.drop_length, Lexeme.scan, List.append_nil]
  rw [Document.sourceWords, hscan]
  exact Parse.reads_ofHost 0 .origin source.toList

/-- The items of what is read of a source tile it, each host text being its stretch of the
source, without an opening, and each block going from an opening to a closing.  Without
hooks, a source that compiles and has only comments and definitions in its blocks renders to
what is left of it when the blocks are deleted.  A source without an opening renders to
itself. -/
theorem render_keeps_host_text (hc : c.Plain) (world : σ) (source : String) :
    (∀ d, Document.ofTokens (tokenize source) = .ok d →
      Span.Tile 0 (d.items.map Item.span) source.toList.length ∧
        ∀ item ∈ d.items, item.Covers source.toList) ∧
    (∀ d p, Document.ofTokens (tokenize source) = .ok d → Program.compile source = .ok p →
      (∀ b ∈ d.blocks, ∀ s ∈ b.statements, s.Silent) →
        (render c source world).succeeded = true ∧ (render c source world).output =
          String.ofList (Span.remove (d.blocks.map Block.span) 0 source.toList)) ∧
    (¬Token.opening <:+: source.toList →
      (render c source world).succeeded = true ∧ (render c source world).output = source) := by
  refine ⟨fun d => Document.tile_of_ofTokens, ?_, ?_⟩
  · intro d p hdocument hcompile hsilent
    rcases Document.tile_of_ofTokens hdocument with ⟨htile, hcovers⟩
    have hevaluate := Document.evaluate_kept c.environment hcovers fun b hb =>
      hsilent b (List.mem_filterMap.mpr ⟨.block b, hb, rfl⟩)
    have hremove := Document.remove_blocks htile d.span
    rw [List.drop_zero] at hremove
    rcases Program.document_of_compile hcompile with ⟨d', hd', hlower⟩
    cases Except.ok.inj (hdocument.symm.trans hd')
    rw [← hremove] at hevaluate
    exact render_of_evaluates hc world hdocument hlower hevaluate
  · intro hnone
    rcases ofTokens_of_not_opening hnone with ⟨span, hdocument⟩
    rcases Document.lowers_hostItem .origin source.toList with ⟨code, hlowers, _⟩
    have hevaluate := Document.evaluate_hostItem c.environment .origin source.toList
    rw [String.ofList_toList] at hevaluate
    exact render_of_evaluates hc world hdocument (hlowers.lower span) hevaluate

/-- Braces in comments and strings do not close a block, and braces outside of blocks that
open none do not matter. -/
theorem render_keeps_host_text_braces :
    let c : Setting Unit := ⟨"t", ⟨[("x", "v")], []⟩, Registry.empty, Sink.accepting, false⟩
    let source := "\x7d\x7d $(x) \x7b\x7b # \x7b\x7b \n @m \"\x7d\x7d\" | x \x7d\x7d\\\"\x7b"
    let plain := "\x7d\x7d $(x) \" \\ \x7b"
    c.Plain ∧ (∃ d p, Document.ofTokens (tokenize source) = .ok d ∧
        Program.compile source = .ok p ∧ (∀ b ∈ d.blocks, ∀ s ∈ b.statements, s.Silent) ∧
        Span.Tile 0 (d.items.map Item.span) source.toList.length ∧
        (render c source ()).succeeded = true ∧
        (render c source ()).output = "\x7d\x7d $(x) \\\"\x7b") ∧
      ¬Token.opening <:+: plain.toList ∧ (render c plain ()).output = plain := by
  intro c source plain
  have hc : c.Plain := ⟨rfl, fun _ _ => rfl⟩
  have hblocks : (Document.ofTokens (tokenize source)).map Document.blocks =
      .ok [⟨⟨8, 32, 1, 9⟩, 0, [.comment ⟨11, 16, 1, 12⟩ "\x7b\x7b",
        .definition ⟨18, 29, 2, 2⟩ "m" (.string ⟨21, 25, 2, 5⟩ "\x7d\x7d")
          (.identifier ⟨28, 29, 2, 12⟩ "x")]⟩] := by
    decide +kernel
  have hremoved : Span.remove [⟨8, 32, 1, 9⟩] 0 source.toList =
      "\x7d\x7d $(x) \\\"\x7b".toList := by
    decide +kernel
  have hnone : ¬Token.opening <:+: plain.toList := by
    decide +kernel
  rcases exists_of_isOk (x := Program.compile source) (by decide +kernel) with ⟨p, hp⟩
  rcases Program.document_of_compile hp with ⟨d, hd, _⟩
  rw [hd] at hblocks
  have hblocks := Except.ok.inj hblocks
  have hsilent : ∀ b ∈ d.blocks, ∀ s ∈ b.statements, s.Silent := by
    rw [hblocks]
    simp only [List.forall_mem_cons, List.not_mem_nil, false_implies, implies_true, and_true]
    exact ⟨.comment _ _, .definition _ _ _ _⟩
  rcases render_keeps_host_text hc () source with ⟨htiles, hrenders, _⟩
  rcases hrenders d p hd hp hsilent with ⟨hsucceeded, houtput⟩
  rw [hblocks, List.map_singleton, hremoved, String.ofList_toList] at houtput
  have hplain := (render_keeps_host_text hc () plain).2.2 hnone
  exact ⟨hc, ⟨d, p, hd, hp, hsilent, (htiles d hd).1, hsucceeded, houtput⟩, hnone, hplain.2⟩

end Renderings

end Stencil
