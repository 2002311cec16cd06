import Stencil.Machine.State
import Stencil.Proofs.Resolution

/-!
# The shape of compiled code

Code moves a machine from one shape to another: from some frames being open, and
perhaps a capture, to others.  The shapes that are met are few, as the patterns
and bodies of macros only emit.  Every source that compiles gives code that
starts outside of all frames and captures and comes back there.
-/

namespace Stencil

/-- The frames that compiled code has open. -/
inductive Region where
  | document
  | iteration
  | iterationMacro
  | scope
  | scopeMacro
  deriving DecidableEq

namespace Region

/-- Innermost first. -/
def kinds : Region → List FrameKind
  | document => []
  | iteration => [.iteration]
  | iterationMacro => [.call, .iteration]
  | scope => [.scope]
  | scopeMacro => [.call, .scope]

/-- A frame leads into another region. -/
def Opens (outer : Region) (kind : FrameKind) (inner : Region) : Prop :=
  inner.kinds = kind :: outer.kinds

end Region

structure Shape where
  region : Region
  capturing : Bool
  deriving DecidableEq

namespace Shape

variable {σ : Type}

/-- Outside of all frames and captures. -/
def start : Shape := ⟨.document, false⟩

def item : Shape := ⟨.iteration, false⟩

def Fits (t : Shape) (s : State σ) : Prop :=
  s.frames.map Frame.kind = t.region.kinds ∧ s.captures.length = t.capturing.toNat

end Shape

/-! ## Code that only emits -/

namespace Code

inductive Emits : Code → Prop where
  | done : Emits .done
  | emitLiteral (text : String) (span : Option Span) {rest : Code} (h : Emits rest) :
      Emits (.step (.emitLiteral text) span rest)
  | emitVar (name : String) (span : Option Span) {rest : Code} (h : Emits rest) :
      Emits (.step (.emitVar name) span rest)

end Code

/-- Instructions that stand for code that only emits. -/
def EmitsOnly (is : List Instruction) : Prop :=
  ∃ code : Code, code.toInstructions = is ∧ code.Emits

theorem emitsOnly_pieces (literal : Span) (pieces : List Piece) :
    EmitsOnly (pieces.map (Piece.lower literal)) := by
  induction pieces with
  | nil => exact ⟨.done, rfl, .done⟩
  | cons piece pieces ih =>
      rcases ih with ⟨code, hcode, hemits⟩
      rw [List.map_cons, ← hcode]
      cases piece with
      | text start stop value => exact ⟨.step _ _ code, rfl, .emitLiteral _ _ hemits⟩
      | interpolation start stop name => exact ⟨.step _ _ code, rfl, .emitVar _ _ hemits⟩

theorem emitsOnly_operand {o : Operand} {is : List Instruction} (h : o.lower = .ok is) :
    EmitsOnly is := by
  cases o with
  | identifier span name =>
      cases h
      exact ⟨.step (.emitVar name) span .done, rfl, .emitVar name span .done⟩
  | string span raw =>
      simp only [Operand.lower] at h
      split at h
      · rename_i pieces _
        cases h
        exact emitsOnly_pieces span pieces
      · cases h

/-! ## Moves -/

section Moves

variable (macros : MacroTable)

/-- A macro of the table whose pattern and body only emit. -/
def MacroTable.Emits (block : Nat) (name : String) : Prop :=
  ∃ m, macros.get? block name = some m ∧ EmitsOnly m.pattern ∧ EmitsOnly m.body

/-- What an action does to the shape, calls being allowed to some depth. -/
inductive Action.Moves : Nat → Shape → Action → Shape → Prop where
  | emitLiteral (depth : Nat) (t : Shape) (text : String) :
      Moves depth t (.emitLiteral text) t
  | emitVar (depth : Nat) (t : Shape) (name : String) : Moves depth t (.emitVar name) t
  | beginMacroCall (depth : Nat) {outer inner : Region} {name : String} {block : Nat}
      (hopens : outer.Opens .call inner) (hemits : macros.Emits block name) :
      Moves (depth + 1) ⟨outer, false⟩ (.beginMacroCall name block) ⟨inner, false⟩
  | endMacroCall (depth : Nat) {outer inner : Region} {kind : FrameKind}
      (hopens : outer.Opens kind inner) :
      Moves depth ⟨inner, false⟩ .endMacroCall ⟨outer, false⟩
  | pushScope (depth : Nat) : Moves depth .start .pushScope ⟨.scope, false⟩
  | popScope (depth : Nat) : Moves depth ⟨.scope, false⟩ .popScope .start
  | beginCapture (depth : Nat) : Moves depth ⟨.scope, false⟩ .beginCapture ⟨.scope, true⟩
  | endCapture (depth : Nat) (name : String) :
      Moves depth ⟨.scope, true⟩ (.endCapture name) ⟨.scope, false⟩
  | comment (depth : Nat) (t : Shape) (text : String) : Moves depth t (.comment text) t

/-- An iteration stands outside of all frames, and its body keeps the one of the
item open. -/
inductive Code.Moves (depth : Nat) : Shape → Code → Shape → Prop where
  | done (t : Shape) : Moves depth t .done t
  | step {t t' t'' : Shape} {action : Action} (span : Option Span) {rest : Code}
      (haction : action.Moves macros depth t t') (hrest : Moves depth t' rest t'') :
      Moves depth t (.step action span rest) t''
  | loop {t : Shape} (opening closing : Option Span) (array : String) {body rest : Code}
      (hbody : Moves depth .item body .item) (hrest : Moves depth .start rest t) :
      Moves depth .start (.loop opening array body closing rest) t

/-- The moves of instructions are those of their code. -/
def MovesAll (depth : Nat) (t : Shape) (is : List Instruction) (t' : Shape) : Prop :=
  ∃ code : Code, code.toInstructions = is ∧ code.Moves macros depth t t'

end Moves

variable {macros : MacroTable} {depth : Nat} {t t' t'' : Shape}

theorem Code.moves_append {first second : Code} (hfirst : first.Moves macros depth t t')
    (hsecond : second.Moves macros depth t' t'') :
    (first.append second).Moves macros depth t t'' := by
  induction hfirst with
  | done t => exact hsecond
  | step span haction _ ih => exact .step span haction (ih hsecond)
  | loop opening closing array hbody _ _ ih =>
      exact .loop opening closing array hbody (ih hsecond)

theorem Code.moves_of_emits {code : Code} (h : code.Emits) (t : Shape) :
    code.Moves macros depth t t := by
  induction h with
  | done => exact .done t
  | emitLiteral text span _ ih => exact .step span (.emitLiteral depth t text) ih
  | emitVar name span _ ih => exact .step span (.emitVar depth t name) ih

theorem movesAll_nil (t : Shape) : MovesAll macros depth t [] t :=
  ⟨.done, rfl, .done t⟩

theorem movesAll_append {first second : List Instruction}
    (hfirst : MovesAll macros depth t first t') (hsecond : MovesAll macros depth t' second t'') :
    MovesAll macros depth t (first ++ second) t'' := by
  rcases hfirst with ⟨firstCode, rfl, hfirst⟩
  rcases hsecond with ⟨secondCode, rfl, hsecond⟩
  exact ⟨firstCode.append secondCode, Code.toInstructions_append _ _,
    Code.moves_append hfirst hsecond⟩

theorem movesAll_cons {action : Action} {rest : List Instruction} (span : Option Span)
    (haction : action.Moves macros depth t t') (hrest : MovesAll macros depth t' rest t'') :
    MovesAll macros depth t (.of action span :: rest) t'' := by
  rcases hrest with ⟨code, rfl, hrest⟩
  exact ⟨.step action span code, rfl, .step span haction hrest⟩

theorem movesAll_of_emitsOnly {is : List Instruction} (h : EmitsOnly is) (t : Shape) :
    MovesAll macros depth t is t := by
  rcases h with ⟨code, hcode, hemits⟩
  exact ⟨code, hcode, Code.moves_of_emits hemits t⟩

theorem movesAll_array {body : List Instruction} (opening closing : Option Span)
    (array : String) (hbody : MovesAll macros depth .item body .item) :
    MovesAll macros depth .start
      (⟨.beginArrayIter array, opening⟩ :: (body ++ [⟨.endArrayIter, closing⟩])) .start := by
  rcases hbody with ⟨code, rfl, hcode⟩
  exact ⟨.loop opening array code closing .done, rfl,
    .loop opening closing array hcode (.done .start)⟩

/-! ## Compiled code -/

theorem emits_of_resolves {b : Block} {name : String} (h : b.Resolves macros name) :
    macros.Emits b.index name := by
  rcases h with ⟨pattern, body, m, _, hm, _, _, hpattern, hbody⟩
  exact ⟨m, hm, emitsOnly_operand hpattern, emitsOnly_operand hbody⟩

theorem movesAll_call {outer inner : Region} (hopens : outer.Opens .call inner) {b : Block}
    {target : MacroRef} (hresolves : b.Resolves macros target.name) :
    MovesAll macros (depth + 1) ⟨outer, false⟩ (target.lower b.index) ⟨outer, false⟩ :=
  movesAll_cons target.span (.beginMacroCall depth hopens (emits_of_resolves hresolves))
    (movesAll_cons target.span (.endMacroCall (depth + 1) hopens) (movesAll_nil _))

theorem movesAll_scalar_pipe {b : Block} {target : MacroRef} {o : Operand}
    {value : List Instruction} (hvalue : o.lower = .ok value)
    (hresolves : b.Resolves macros target.name) :
    MovesAll macros (depth + 1) .start
      ([.of .pushScope o.span, .of .beginCapture o.span] ++ value ++
        [.of (.endCapture Binding.item) o.span, .of .beginCapture o.span,
          .of (.emitLiteral "0") o.span, .of (.endCapture Binding.index) o.span] ++
        target.lower b.index ++ [.of .popScope o.span])
      .start := by
  have hopening : MovesAll macros (depth + 1) .start
      [.of .pushScope o.span, .of .beginCapture o.span] ⟨.scope, true⟩ :=
    movesAll_cons _ (.pushScope _) (movesAll_cons _ (.beginCapture _) (movesAll_nil _))
  have hbinding : MovesAll macros (depth + 1) ⟨.scope, true⟩
      [.of (.endCapture Binding.item) o.span, .of .beginCapture o.span,
        .of (.emitLiteral "0") o.span, .of (.endCapture Binding.index) o.span]
      ⟨.scope, false⟩ :=
    movesAll_cons _ (.endCapture _ _) (movesAll_cons _ (.beginCapture _)
      (movesAll_cons _ (.emitLiteral _ _ _) (movesAll_cons _ (.endCapture _ _)
        (movesAll_nil _))))
  have hopens : Region.Opens .scope .call .scopeMacro := rfl
  have hcall : MovesAll macros (depth + 1) ⟨.scope, false⟩ (target.lower b.index)
      ⟨.scope, false⟩ :=
    movesAll_call hopens hresolves
  have hclosing : MovesAll macros (depth + 1) ⟨.scope, false⟩ [.of .popScope o.span] .start :=
    movesAll_cons _ (.popScope _) (movesAll_nil _)
  have hitem := movesAll_append hopening (movesAll_of_emitsOnly (emitsOnly_operand hvalue) _)
  exact movesAll_append (movesAll_append (movesAll_append hitem hbinding) hcall) hclosing

theorem movesAll_expression {b : Block} {e : Expression} {is : List Instruction}
    (hlower : e.lower b.index = .ok is)
    (hresolves : ∀ target, (Statement.expression e).call? = some target →
      b.Resolves macros target.name) :
    MovesAll macros (depth + 1) .start is .start := by
  cases e with
  | plain source =>
      cases source with
      | operand o => exact movesAll_of_emitsOnly (emitsOnly_operand hlower) .start
      | array span name =>
          cases hlower
          have hbody : MovesAll macros (depth + 1) .item
              [.of (.emitVar Binding.item) (some span)] .item :=
            movesAll_cons _ (.emitVar _ _ _) (movesAll_nil _)
          exact movesAll_array (some span) (some span) name hbody
  | pipe source target =>
      have htarget : b.Resolves macros target.name := hresolves target rfl
      cases source with
      | operand o =>
          rcases ok_of_bind hlower with ⟨value, hvalue, hend⟩
          cases hend
          exact movesAll_scalar_pipe hvalue htarget
      | array span name =>
          cases hlower
          have hopens : Region.Opens .iteration .call .iterationMacro := rfl
          apply movesAll_array
          exact movesAll_call hopens htarget

theorem movesAll_statement {b : Block} {s : Statement} {is : List Instruction}
    (hlower : s.lower b.index = .ok is)
    (hresolves : ∀ target, s.call? = some target → b.Resolves macros target.name) :
    MovesAll macros (depth + 1) .start is .start := by
  cases s with
  | comment span text =>
      cases hlower
      exact movesAll_cons _ (.comment _ _ _) (movesAll_nil _)
  | definition span name pattern body =>
      cases hlower
      exact movesAll_nil _
  | expression e => exact movesAll_expression hlower hresolves

theorem movesAll_statements {b : Block} {ss : List Statement}
    {parts : List (List Instruction)}
    (hlower : List.Forall₂ (fun s part => s.lower b.index = .ok part) ss parts)
    (hresolved : ∀ s ∈ ss, ∀ target, s.call? = some target → b.Resolves macros target.name) :
    MovesAll macros (depth + 1) .start parts.flatten .start := by
  induction hlower with
  | nil => exact movesAll_nil .start
  | @cons s part ss parts hs _ ih =>
      have hhead : MovesAll macros (depth + 1) .start part .start :=
        movesAll_statement hs (hresolved s List.mem_cons_self)
      have htail := ih fun s' hs' => hresolved s' (List.mem_cons_of_mem _ hs')
      exact movesAll_append hhead htail

theorem movesAll_item {item : Item} {part : List Macro × List Instruction}
    (hlower : item.lower = .ok part)
    (hresolved : ∀ b, item = .block b → b.Resolved macros) :
    MovesAll macros (depth + 1) .start part.2 .start := by
  cases item with
  | hostText span text =>
      cases hlower
      by_cases htext : text = ""
      · subst htext
        exact movesAll_nil .start
      · simp only [htext, if_false]
        exact movesAll_cons _ (.emitLiteral _ _ _) (movesAll_nil _)
  | block b =>
      rcases (Block.lowered_of_lower hlower).code with ⟨parts, hparts, hcode⟩
      rw [hcode]
      exact movesAll_statements hparts (hresolved b rfl)

theorem movesAll_items {items : List Item} {parts : List (List Macro × List Instruction)}
    (hlower : List.Forall₂ (fun item part => item.lower = .ok part) items parts)
    (hresolved : ∀ b, Item.block b ∈ items → b.Resolved macros) :
    MovesAll macros (depth + 1) .start (parts.map Prod.snd).flatten .start := by
  induction hlower with
  | nil => exact movesAll_nil .start
  | @cons item part items parts hitem _ ih =>
      have hhead : MovesAll macros (depth + 1) .start part.2 .start := by
        apply movesAll_item hitem
        rintro b rfl
        exact hresolved b List.mem_cons_self
      have htail := ih fun b hb => hresolved b (List.mem_cons_of_mem _ hb)
      exact movesAll_append hhead htail

namespace Program

theorem movesAll_of_compile {source : String} {p : Program} (h : compile source = .ok p)
    (depth : Nat) : MovesAll p.macros (depth + 1) .start p.instructions .start := by
  rcases document_of_compile h with ⟨document, hdocument, hlower⟩
  rcases Document.parts_of_lower hlower with ⟨parts, hparts, hinstructions, _⟩
  rw [hinstructions]
  apply movesAll_items hparts
  intro b hb
  exact Document.resolved_of_lower hlower (Document.nodup_index_of_ofTokens hdocument) hb

end Program

end Stencil
