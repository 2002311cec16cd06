import Stencil.Compile
import Stencil.Proofs.Realization
import Stencil.Proofs.Resolution

/-!
# Compiled programs mean what their documents mean

The instructions of every construct realize its evaluation.  A program that was
compiled therefore writes the text that its document evaluates to, and fails where
and only where the evaluation stops.
-/

namespace Stencil

namespace Exec

variable {σ : Type} {c : Setting σ} {F : ScopeStack}
  {call : Option Span → String → Nat → Exec σ Unit}

/-- Instructions, once their iterations are matched, realize an evaluation and
leave the scopes as they were. -/
def Realized (c : Setting σ) (call : Option Span → String → Nat → Exec σ Unit)
    (F : ScopeStack) (is : List Instruction) (e : Evaluation) : Prop :=
  ∃ code : Code, code.toInstructions = is ∧ Realizes F F (runCode c call code) e

theorem realized_nil : Realized c call F [] .nothing :=
  ⟨.done, rfl, realizes_pure⟩

theorem realized_step (hc : c.Plain) {action : Action} {span : Option Span}
    {rest : List Instruction} {e e' : Evaluation}
    (haction : Realizes F F (perform c call span action) e)
    (hrest : Realized c call F rest e') :
    Realized c call F (.of action span :: rest) (e.andThen e') := by
  rcases hrest with ⟨code, rfl, hcode⟩
  exact ⟨.step action span code, rfl, realizes_step hc haction hcode⟩

theorem realized_one (hc : c.Plain) {action : Action} {span : Option Span} {e : Evaluation}
    (haction : Realizes F F (perform c call span action) e) :
    Realized c call F [.of action span] e := by
  have h := realized_step hc haction realized_nil
  rwa [Evaluation.andThen_nothing] at h

theorem realized_append {first second : List Instruction} {e e' : Evaluation}
    (hfirst : Realized c call F first e) (hsecond : Realized c call F second e') :
    Realized c call F (first ++ second) (e.andThen e') := by
  rcases hfirst with ⟨firstCode, rfl, hfirst⟩
  rcases hsecond with ⟨secondCode, rfl, hsecond⟩
  exact ⟨firstCode.append secondCode, Code.toInstructions_append _ _,
    realizes_append hfirst hsecond⟩

/-- Instructions have one code only. -/
theorem realizes_of_realized {code : Code} {e : Evaluation}
    (h : Realized c call F code.toInstructions e) : Realizes F F (runCode c call code) e := by
  rcases h with ⟨code', hcode', hrealizes⟩
  have hsame := congrArg Code.ofInstructions hcode'
  rw [Code.ofInstructions_toInstructions, Code.ofInstructions_toInstructions] at hsame
  cases hsame
  exact hrealizes

theorem realizes_fragment {is : List Instruction} {e : Evaluation}
    (h : Realized c call F is e) : Realizes F F (runFragment c call is) e := by
  rcases h with ⟨code, rfl, hcode⟩
  rw [runFragment, Code.ofInstructions_toInstructions]
  exact hcode

/-! ## Operands -/

/-- The scopes give every name the value that the bindings give it. -/
def Binds (F : ScopeStack) (bound : Bindings) : Prop :=
  ∀ name, ScopeStack.lookup name F = List.lookup name bound

theorem binds_nil : Binds [] [] :=
  fun _ => rfl

theorem binds_cons {bound : Bindings} (h : Binds F bound) (frame : Frame) :
    Binds (frame :: F) (frame.values ++ bound) := by
  intro name
  rw [ScopeStack.lookup, List.lookup_append, h]
  cases List.lookup name frame.values with
  | some value => rfl
  | none => rfl

theorem realized_piece (hc : c.Plain) {bound : Bindings} (hbound : Binds F bound)
    (literal : Span) (piece : Piece) :
    Realized c call F [piece.lower literal] (piece.evaluate c.environment bound literal) := by
  cases piece with
  | text start stop value => exact realized_one hc (realizes_write hc _)
  | interpolation start stop name => exact realized_one hc (realizes_emitVar hc call hbound _ _)

theorem realized_operand (hc : c.Plain) {bound : Bindings} (hbound : Binds F bound)
    {o : Operand} {is : List Instruction} (h : o.lower = .ok is) :
    Realized c call F is (o.evaluate c.environment bound) := by
  cases o with
  | identifier span name =>
      cases h
      exact realized_one hc (realizes_emitVar hc call hbound name span)
  | string span raw =>
      simp only [Operand.lower] at h
      split at h
      · rename_i pieces hpieces
        cases h
        simp only [Operand.evaluate, hpieces]
        clear hpieces
        induction pieces with
        | nil => exact realized_nil
        | cons piece pieces ih =>
            exact realized_append (realized_piece hc hbound span piece) ih
      · cases h

/-! ## Macros -/

theorem realizes_applyMacro (hc : c.Plain) {macros : MacroTable} {depth : Nat} {b : Block}
    {name : String} (hresolves : b.Resolves macros name) {bound : Bindings}
    (hbound : Binds F bound) (opening closing : Option Span) {G : ScopeStack} {rest : Code}
    {e : Evaluation} (hrest : Realizes F G (runCode c (callMacro c macros (depth + 1)) rest) e) :
    Realizes F G
      (runCode c (callMacro c macros (depth + 1))
        (.step (.beginMacroCall name b.index) opening (.step .endMacroCall closing rest)))
      ((b.applyMacro c.environment name bound).andThen e) := by
  rcases hresolves with ⟨pattern, body, m, hfind, hm, _, _, hpattern, hbody⟩
  rw [Block.applyMacro, hfind]
  apply realizes_call hc hm _ _ hrest
  · exact realizes_fragment (realized_operand hc hbound hpattern)
  · intro text id
    exact realizes_fragment (realized_operand hc (binds_cons hbound _) hbody)

theorem applyToItems_eq_forItems (env : Environment) (b : Block) (name : String)
    (index : Nat) (items : List String) :
    b.applyToItems env name index items =
      Evaluation.forItems (fun index item => b.applyMacro env name
        [(Binding.index, toString index), (Binding.item, item)]) index items := by
  induction items generalizing index with
  | nil => rfl
  | cons item items ih => rw [Block.applyToItems, Evaluation.forItems, ih]

/-! ## Expressions -/

theorem realized_array (hc : c.Plain) (name : String) (span : Span) (closing : Option Span)
    {body : Code} {each : Nat → String → Evaluation}
    (hbody : ∀ place id index item,
      Realizes [.ofItem (some span) place id index item] [.ofItem (some span) place id index item]
        (runCode c call body) (each index item)) :
    Realized c call []
      (⟨.beginArrayIter name, some span⟩ ::
        (body.toInstructions ++ [⟨.endArrayIter, closing⟩]))
      (match c.environment.findArray name with
      | some items => Evaluation.forItems each 0 items
      | none => .stop (.array name span)) := by
  refine ⟨.loop (some span) name body closing .done, rfl, ?_⟩
  cases hitems : c.environment.findArray name with
  | none => exact realizes_missing_loop hc hitems
  | some items =>
      have hdone : Realizes [] [] (runCode c call .done) .nothing := realizes_pure
      have h : Realizes [] [] (runCode c call (.loop (some span) name body closing .done))
          ((Evaluation.forItems each 0 items).andThen .nothing) :=
        realizes_loop hc hitems hbody hdone
      rwa [Evaluation.andThen_nothing] at h

theorem evaluate_item (env : Environment) (span place : Span) (name : String) (id : FrameId)
    (index : Nat) (item : String) :
    env.evaluate ((Frame.ofItem (some span) name id index item).values ++ []) Binding.item place =
      .text item := by
  simp [Environment.evaluate, Frame.ofItem, Binding.item, Binding.index, List.lookup_cons]

theorem realized_plain_array (hc : c.Plain) (b : Block) (span : Span) (name : String) :
    Realized c call []
      [⟨.beginArrayIter name, some span⟩, .of (.emitVar Binding.item) (some span),
        ⟨.endArrayIter, some span⟩]
      (b.evaluateExpression c.environment (.plain (.array span name))) := by
  have hbody : ∀ place id index item,
      Realizes [.ofItem (some span) place id index item] [.ofItem (some span) place id index item]
        (runCode c call (.step (.emitVar Binding.item) (some span) .done))
        (Evaluation.text item) := by
    intro place id index item
    have hdone : Realizes [.ofItem (some span) place id index item]
        [.ofItem (some span) place id index item] (runCode c call .done) .nothing :=
      realizes_pure
    have haction := realizes_emitVar hc call
      (binds_cons binds_nil (.ofItem (some span) place id index item)) Binding.item span
    rw [evaluate_item] at haction
    have h := realizes_step hc haction hdone
    rwa [Evaluation.andThen_nothing] at h
  have h := realized_array hc name span (some span) hbody
  simp only [Evaluation.forItems_text] at h
  exact h

theorem realized_array_pipe (hc : c.Plain) {macros : MacroTable} {depth : Nat} {b : Block}
    {target : MacroRef} (hresolves : b.Resolves macros target.name) (span : Span)
    (name : String) :
    Realized c (callMacro c macros (depth + 1)) []
      (⟨.beginArrayIter name, some span⟩ ::
        (target.lower b.index ++ [⟨.endArrayIter, some span⟩]))
      (b.evaluateExpression c.environment (.pipe (.array span name) target)) := by
  have hbody : ∀ place id index item,
      Realizes [.ofItem (some span) place id index item] [.ofItem (some span) place id index item]
        (runCode c (callMacro c macros (depth + 1))
          (.step (.beginMacroCall target.name b.index) target.span
            (.step .endMacroCall target.span .done)))
        (b.applyMacro c.environment target.name
          [(Binding.index, toString index), (Binding.item, item)]) := by
    intro place id index item
    have hdone : Realizes [.ofItem (some span) place id index item]
        [.ofItem (some span) place id index item]
        (runCode c (callMacro c macros (depth + 1)) .done) .nothing := realizes_pure
    have h := realizes_applyMacro hc hresolves (binds_cons binds_nil _) target.span target.span
      hdone
    rwa [Evaluation.andThen_nothing] at h
  have h := realized_array hc name span (some span) hbody
  simp only [← applyToItems_eq_forItems] at h
  exact h

/-- A scope in which an item is bound, and after it the index zero. -/
def scalarScope (span : Option Span) (id : FrameId) (values : Bindings) : Frame :=
  ⟨"<scope>", .scope, id, span, values⟩

def scalarPipe (span : Option Span) (value : Code) (name : String) (block : Nat)
    (calling : Option Span) : Code :=
  .step .pushScope span
    (.step .beginCapture span
      (value.append
        (.step (.endCapture Binding.item) span
          (.step .beginCapture span
            ((Code.step (.emitLiteral "0") span .done).append
              (.step (.endCapture Binding.index) span
                (.step (.beginMacroCall name block) calling
                  (.step .endMacroCall calling (.step .popScope span .done)))))))))

theorem realizes_scalarPipe (hc : c.Plain) {macros : MacroTable} {depth : Nat} {b : Block}
    {name : String} (hresolves : b.Resolves macros name) (span calling : Option Span)
    {value : Code} {e : Evaluation}
    (hvalue : ∀ id, Realizes [scalarScope span id []] [scalarScope span id []]
      (runCode c (callMacro c macros (depth + 1)) value) e) :
    Realizes [] []
      (runCode c (callMacro c macros (depth + 1))
        (scalarPipe span value name b.index calling))
      (e.captured fun text =>
        b.applyMacro c.environment name [(Binding.item, text), (Binding.index, "0")]) := by
  have hcall : ∀ id text zero, Realizes
      [scalarScope span id [(Binding.item, text), (Binding.index, zero)]] []
      (runCode c (callMacro c macros (depth + 1))
        (.step (.beginMacroCall name b.index) calling
          (.step .endMacroCall calling (.step .popScope span .done))))
      (b.applyMacro c.environment name [(Binding.item, text), (Binding.index, zero)]) := by
    intro id text zero
    have hclosed : Realizes
        [scalarScope span id [(Binding.item, text), (Binding.index, zero)]] []
        (runCode c (callMacro c macros (depth + 1)) (.step .popScope span .done)) .nothing :=
      realizes_quiet_step hc (realizes_popFrame _) realizes_pure
    have h := realizes_applyMacro hc hresolves (binds_cons binds_nil _) calling calling hclosed
    rwa [Evaluation.andThen_nothing] at h
  have hindexed : ∀ id text, Realizes [scalarScope span id [(Binding.item, text)]] []
      (runCode c (callMacro c macros (depth + 1))
        (.step .beginCapture span
          ((Code.step (.emitLiteral "0") span .done).append
            (.step (.endCapture Binding.index) span
              (.step (.beginMacroCall name b.index) calling
                (.step .endMacroCall calling (.step .popScope span .done)))))))
      ((Evaluation.text "0").captured fun zero =>
        b.applyMacro c.environment name [(Binding.item, text), (Binding.index, zero)]) := by
    intro id text
    have hzero : Realizes [scalarScope span id [(Binding.item, text)]]
        [scalarScope span id [(Binding.item, text)]]
        (runCode c (callMacro c macros (depth + 1)) (.step (.emitLiteral "0") span .done))
        ((Evaluation.text "0").andThen .nothing) :=
      realizes_step hc (realizes_write hc "0") realizes_pure
    rw [Evaluation.andThen_nothing] at hzero
    apply realizes_binding hc hzero
    intro zero
    have hset : Entries.set Binding.index zero [(Binding.item, text)] =
        [(Binding.item, text), (Binding.index, zero)] := by
      simp [Entries.set, Binding.item, Binding.index]
    simp only [scalarScope, hset]
    exact hcall id text zero
  rw [scalarPipe, runCode]
  apply realizes_after_quiet (realizes_logStep hc _)
  apply realizes_pushFrame
  intro id
  apply realizes_binding hc (hvalue id)
  intro text
  exact hindexed id text

theorem realized_scalar_pipe (hc : c.Plain) {macros : MacroTable} {depth : Nat} {b : Block}
    {target : MacroRef} (hresolves : b.Resolves macros target.name) {o : Operand}
    {is : List Instruction} (hlower : o.lower = .ok is) :
    Realized c (callMacro c macros (depth + 1)) []
      ([.of .pushScope o.span, .of .beginCapture o.span] ++ is ++
        [.of (.endCapture Binding.item) o.span, .of .beginCapture o.span,
          .of (.emitLiteral "0") o.span, .of (.endCapture Binding.index) o.span] ++
        target.lower b.index ++ [.of .popScope o.span])
      (b.evaluateExpression c.environment (.pipe (.operand o) target)) := by
  have hvalue : ∀ F bound, Binds F bound →
      Realized c (callMacro c macros (depth + 1)) F is (o.evaluate c.environment bound) :=
    fun F bound hbound => realized_operand hc hbound hlower
  rcases hvalue [] [] binds_nil with ⟨value, rfl, _⟩
  refine ⟨scalarPipe o.span value target.name b.index target.span, ?_, ?_⟩
  · simp [scalarPipe, Code.toInstructions, Code.toInstructions_append, MacroRef.lower]
  · apply realizes_scalarPipe hc hresolves
    intro id
    exact realizes_of_realized (hvalue _ _ (binds_cons binds_nil (scalarScope o.span id [])))

/-- The macro of an expression is one that the table holds. -/
theorem realized_expression (hc : c.Plain) {macros : MacroTable} {depth : Nat} {b : Block}
    {e : Expression} {is : List Instruction} (hlower : e.lower b.index = .ok is)
    (hresolves : ∀ target, (Statement.expression e).call? = some target →
      b.Resolves macros target.name) :
    Realized c (callMacro c macros (depth + 1)) [] is
      (b.evaluateExpression c.environment e) := by
  cases e with
  | plain source =>
      cases source with
      | operand o => exact realized_operand hc binds_nil hlower
      | array span name =>
          cases hlower
          exact realized_plain_array hc b span name
  | pipe source target =>
      cases source with
      | operand o =>
          rcases ok_of_bind hlower with ⟨value, hvalue, hend⟩
          cases hend
          exact realized_scalar_pipe hc (hresolves target rfl) hvalue
      | array span name =>
          cases hlower
          exact realized_array_pipe hc (hresolves target rfl) span name

/-! ## Statements, items and documents -/

theorem realized_statement (hc : c.Plain) {macros : MacroTable} {depth : Nat} {b : Block}
    {s : Statement} {is : List Instruction} (hlower : s.lower b.index = .ok is)
    (hresolves : ∀ target, s.call? = some target → b.Resolves macros target.name) :
    Realized c (callMacro c macros (depth + 1)) [] is
      (b.evaluateStatement c.environment s) := by
  cases s with
  | comment span text =>
      cases hlower
      exact realized_one hc realizes_pure
  | definition span name pattern body =>
      cases hlower
      exact realized_nil
  | expression e => exact realized_expression hc hlower hresolves

theorem realized_statements (hc : c.Plain) {macros : MacroTable} {depth : Nat} {b : Block}
    {ss : List Statement} {parts : List (List Instruction)}
    (hlower : List.Forall₂ (fun s part => s.lower b.index = .ok part) ss parts)
    (hresolved : ∀ s ∈ ss, ∀ target, s.call? = some target → b.Resolves macros target.name) :
    Realized c (callMacro c macros (depth + 1)) [] parts.flatten
      (.sequence (ss.map (b.evaluateStatement c.environment))) := by
  induction hlower with
  | nil => exact realized_nil
  | @cons s part ss parts hs _ ih =>
      apply realized_append
      · exact realized_statement hc hs (hresolved s List.mem_cons_self)
      · apply ih
        intro s' hs'
        exact hresolved s' (List.mem_cons_of_mem _ hs')

theorem realized_item (hc : c.Plain) {macros : MacroTable} {depth : Nat} {item : Item}
    {part : List Macro × List Instruction} (hlower : item.lower = .ok part)
    (hresolved : ∀ b, item = .block b → b.Resolved macros) :
    Realized c (callMacro c macros (depth + 1)) [] part.2 (item.evaluate c.environment) := by
  cases item with
  | hostText span text =>
      cases hlower
      by_cases htext : text = ""
      · subst htext
        exact realized_nil
      · simp only [htext, if_false]
        exact realized_one hc (realizes_write hc text)
  | block b =>
      rcases (Block.lowered_of_lower hlower).code with ⟨parts, hparts, hcode⟩
      rw [hcode]
      exact realized_statements hc hparts (hresolved b rfl)

theorem realized_items (hc : c.Plain) {macros : MacroTable} {depth : Nat}
    {items : List Item} {parts : List (List Macro × List Instruction)}
    (hlower : List.Forall₂ (fun item part => item.lower = .ok part) items parts)
    (hresolved : ∀ b, Item.block b ∈ items → b.Resolved macros) :
    Realized c (callMacro c macros (depth + 1)) [] (parts.map Prod.snd).flatten
      (.sequence (items.map (Item.evaluate c.environment))) := by
  induction hlower with
  | nil => exact realized_nil
  | @cons item part items parts hitem _ ih =>
      apply realized_append
      · apply realized_item hc hitem
        rintro b rfl
        exact hresolved b List.mem_cons_self
      · apply ih
        intro b hb
        exact hresolved b (List.mem_cons_of_mem _ hb)

theorem realizes_program (hc : c.Plain) {document : Document} {p : Program}
    (hlower : document.lower = .ok p) (hindex : (document.blocks.map Block.index).Nodup) :
    Realizes [] [] (program c p) (document.evaluate c.environment) := by
  rcases Document.parts_of_lower hlower with ⟨parts, hparts, hinstructions, _⟩
  have hitems : Realized c (callMacro c p.macros (callDepth p.macros)) [] p.instructions
      (document.evaluate c.environment) := by
    rw [hinstructions]
    apply realized_items hc hparts
    intro b hb
    exact Document.resolved_of_lower hlower hindex hb
  rw [program]
  apply realizes_after_quiet (realizes_emit hc _)
  have h := realizes_seq (realizes_fragment hitems) (realizes_emit hc .programEnd)
  rwa [Evaluation.andThen_nothing] at h

end Exec

namespace Program

variable {σ : Type}

/-- A run without hooks fails with the error of the program, at its last step. -/
theorem run_of_error {c : Setting σ} (hc : c.Plain) {p : Program} {world : σ} {s : State σ}
    {e : RuntimeError} (h : Exec.program c p (State.initial world) = .error (.error e) s) :
    p.run c world = ⟨some (e.stamp s.lastIndex), s⟩ := by
  have hemit : Exec.emit c (.onError (e.stamp s.lastIndex)) s = .ok () s := by
    rw [Exec.emit, hc.noHooks]
    rfl
  simp only [run, h, Outcome.failed, Fault.toError, hemit]

/-- What a compiled program writes is what its document evaluates to, and it fails
at the name, and at the place, where the evaluation stops. -/
theorem run_eq_evaluate (c : Setting σ) (hc : c.Plain) (world : σ) {source : String}
    {p : Program} (hcompile : compile source = .ok p) :
    ∃ document, Document.ofTokens (tokenize source) = .ok document ∧
      String.join (p.run c world).state.host.written.toList =
        (document.evaluate c.environment).output ∧
      (p.run c world).error.map (fun e => (e.cause, e.span)) =
        (document.evaluate c.environment).stopped.map fun u => (u.cause, some u.span) := by
  rcases document_of_compile hcompile with ⟨document, hdocument, hlower⟩
  refine ⟨document, hdocument, ?_⟩
  have hrun := Exec.realizes_program hc hlower (Document.nodup_index_of_ofTokens hdocument)
    (State.initial world) rfl
  have hstart : ∀ text, ((State.initial world).surface.add text).written = text := by
    intro text
    simp [State.initial, State.surface, Host.initial, Surface.add]
  cases hresult : Exec.program c p (State.initial world) with
  | ok a s =>
      rw [hresult] at hrun
      rcases hrun with ⟨hstopped, _, hsurface⟩
      have hwritten := congrArg Surface.written hsurface
      rw [hstart] at hwritten
      simp only [run, hresult, hstopped]
      exact ⟨hwritten, rfl⟩
  | error fault s =>
      rw [hresult] at hrun
      rcases hrun with ⟨u, hstopped, rfl, hwritten⟩
      rw [hstart] at hwritten
      rw [run_of_error hc hresult, hstopped]
      exact ⟨hwritten, rfl⟩

/-- A pipe before the definition that it uses, with a global variable in the item, and with
escapes around a name. -/
theorem run_scalar_pipe :
    let c : Setting Unit :=
      ⟨"m", ⟨[("x", "v")], [("a", ["1", "2"])]⟩, Registry.empty, Sink.accepting, false⟩
    let source := "a\x7b\x7b x | ?m; a[:] | ?m; @m \"<$(_item_)>\" | " ++
      "\"$(_)\\t$(_index_)\\q\"; y \x7d\x7d"
    c.Plain ∧ ∃ p, compile source = .ok p ∧
      String.join (p.run c ()).state.host.written.toList = "a<v>\t0\\q<1>\t0\\q<2>\t1\\q" ∧
      (p.run c ()).error.map (fun e => e.cause) = some (.undefinedVariable "y") := by
  intro c source
  have hc : c.Plain := ⟨rfl, fun _ _ => rfl⟩
  have hmeaning : (Document.ofTokens (tokenize source)).map (Document.evaluate c.environment) =
      .ok ⟨"a<v>\t0\\q<1>\t0\\q<2>\t1\\q", some (.scalar "y" ⟨64, 65, 1, 65⟩)⟩ := by
    decide +kernel
  have hcompiles : (compile source).isOk = true := by decide +kernel
  refine ⟨hc, ?_⟩
  cases hcompile : compile source with
  | error e =>
      rw [hcompile] at hcompiles
      cases hcompiles
  | ok p =>
      rcases run_eq_evaluate c hc () hcompile with ⟨document, hdocument, houtput, herror⟩
      rw [hdocument] at hmeaning
      have hevaluate : document.evaluate c.environment =
          ⟨"a<v>\t0\\q<1>\t0\\q<2>\t1\\q", some (.scalar "y" ⟨64, 65, 1, 65⟩)⟩ :=
        Except.ok.inj hmeaning
      rw [hevaluate] at houtput herror
      refine ⟨p, rfl, houtput, ?_⟩
      cases hfailed : (p.run c ()).error with
      | none =>
          rw [hfailed] at herror
          cases herror
      | some e =>
          rw [hfailed] at herror
          simp only [Option.map_some, Option.some.injEq, Prod.mk.injEq] at herror
          exact congrArg some herror.1

end Program

end Stencil
