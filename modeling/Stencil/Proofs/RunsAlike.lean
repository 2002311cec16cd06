import Stencil.Proofs.Agenda
import Stencil.Proofs.LoweringAlike
import Stencil.Proofs.Realization

/-!
# Running alike

Alike programs without hooks take the same steps.  The frames that they open bind the
same names, the instructions that they log are alike, and so are the errors that they
fail with; the texts that they bind and write may stand for each other.
-/

namespace Stencil

variable {σ : Type} {L : Likeness}

/-- Which texts may stand for each other in runs of programs that number their blocks
alike. -/
structure Exchange (L : Likeness) where
  rel : String → String → Prop
  refl : ∀ x, rel x x
  append : ∀ {x y x' y' : String}, rel x y → rel x' y' → rel (x ++ x') (y ++ y')
  text : ∀ {s : Span} {x y : String}, L.text s x y → rel x y
  block : ∀ {i i' : Nat}, L.block i i' ↔ i = i'

theorem Exchange.join (E : Exchange L) {xs ys : List String} (h : List.Forall₂ E.rel xs ys) :
    E.rel (String.join xs) (String.join ys) := by
  have hall : ∀ x y, E.rel x y → E.rel (xs.foldl (· ++ ·) x) (ys.foldl (· ++ ·) y) := by
    induction h with
    | nil => exact fun _ _ hrel => hrel
    | cons hchunk _ ih => exact fun _ _ hrel => ih _ _ (E.append hrel hchunk)
  exact hall "" "" (E.refl "")

/-! ## Code -/

theorem Instruction.Alike.span {i i' : Instruction} (h : i.Alike L i') :
    Option.Rel L.span i.span i'.span := by
  cases h with
  | hostText htext hspan => exact .some hspan
  | call name hblock hspan => exact .some hspan
  | same operation hne hspan => exact .some hspan

theorem Instruction.Alike.opcode {i i' : Instruction} (h : i.Alike L i') :
    i.opcode = i'.opcode := by
  cases h with
  | hostText htext hspan => rfl
  | call name hblock hspan => rfl
  | same operation hne hspan => rfl

namespace Code

/-- Code that was matched from alike instructions. -/
inductive Alike (L : Likeness) : Code → Code → Prop where
  | done : Alike L .done .done
  | step {action action' : Action} {span span' : Option Span} {rest rest' : Code}
      (h : Instruction.Alike L (.of action span) (.of action' span'))
      (hrest : Alike L rest rest') : Alike L (.step action span rest) (.step action' span' rest')
  | loop (array : String) {opening opening' closing closing' : Option Span}
      {body body' rest rest' : Code}
      (hopening : Instruction.Alike L ⟨.beginArrayIter array, opening⟩
        ⟨.beginArrayIter array, opening'⟩)
      (hclosing : Instruction.Alike L ⟨.endArrayIter, closing⟩ ⟨.endArrayIter, closing'⟩)
      (hbody : Alike L body body') (hrest : Alike L rest rest') :
      Alike L (.loop opening array body closing rest) (.loop opening' array body' closing' rest')

/-- An end that waits for its beginning, and the code after it. -/
structure EndAlike (L : Likeness) (x x' : Option Span × Code) : Prop where
  closing : Instruction.Alike L ⟨.endArrayIter, x.1⟩ ⟨.endArrayIter, x'.1⟩
  rest : x.2.Alike L x'.2

namespace Suffix

inductive Alike (L : Likeness) : Suffix → Suffix → Prop where
  | closed {code code' : Code} {pending pending' : List (Option Span × Code)}
      (hcode : code.Alike L code') (hpending : List.Forall₂ (EndAlike L) pending pending') :
      Alike L (closed code pending) (closed code' pending')
  | unclosed {lastOpen lastOpen' : Option Span} {pending pending' : List (Option Span)}
      (hopen : Option.Rel L.span lastOpen lastOpen')
      (hpending : List.Forall₂ (Option.Rel L.span) pending pending') :
      Alike L (unclosed lastOpen pending) (unclosed lastOpen' pending')

theorem prepend_action_alike {action action' : Action} {span span' : Option Span}
    (hi : Instruction.Alike L (.of action span) (.of action' span')) {suffix suffix' : Suffix}
    (h : suffix.Alike L suffix') :
    (prepend (.of action span) suffix).Alike L (prepend (.of action' span') suffix') := by
  cases h with
  | closed hcode hpending => exact .closed (.step hi hcode) hpending
  | unclosed hopen hpending => exact .unclosed hopen hpending

theorem prepend_alike {i i' : Instruction} (hi : i.Alike L i') {suffix suffix' : Suffix}
    (h : suffix.Alike L suffix') : (prepend i suffix).Alike L (prepend i' suffix') := by
  have hspan := hi.span
  cases hi with
  | hostText htext hs => exact prepend_action_alike (.hostText htext hs) h
  | call name hblock hs => exact prepend_action_alike (.call name hblock hs) h
  | same operation hne hs =>
      cases operation with
      | act action => exact prepend_action_alike (.same (.act action) hne hs) h
      | endArrayIter =>
          cases h with
          | closed hcode hpending =>
              exact .closed .done (.cons ⟨.same .endArrayIter hne hs, hcode⟩ hpending)
          | unclosed hopen hpending => exact .unclosed hopen (.cons hspan hpending)
      | beginArrayIter array =>
          cases h with
          | closed hcode hpending =>
              cases hpending with
              | nil => exact .unclosed hspan .nil
              | cons hend hpending =>
                  exact .closed (.loop array (.same _ hne hs) hend.closing hcode hend.rest) hpending
          | unclosed hopen hpending =>
              cases hpending with
              | nil => exact .unclosed hopen .nil
              | cons _ hpending => exact .unclosed hopen hpending

end Suffix
end Code

inductive IterationFault.Alike (L : Likeness) : IterationFault → IterationFault → Prop where
  | endWithoutBegin {s s' : Option Span} (hspan : Option.Rel L.span s s') :
      Alike L (.endWithoutBegin s) (.endWithoutBegin s')
  | beginWithoutEnd {s s' : Option Span} (hspan : Option.Rel L.span s s') :
      Alike L (.beginWithoutEnd s) (.beginWithoutEnd s')

theorem IterationFault.Alike.span {fault fault' : IterationFault} (h : fault.Alike L fault') :
    Option.Rel L.span fault.span fault'.span := by
  cases h with
  | endWithoutBegin hspan => exact hspan
  | beginWithoutEnd hspan => exact hspan

namespace Code

theorem Suffix.finish_alike {suffix suffix' : Suffix} (h : suffix.Alike L suffix') :
    Both (IterationFault.Alike L) (Code.Alike L) suffix.finish suffix'.finish := by
  cases h with
  | closed hcode hpending =>
      cases hpending with
      | nil => exact .ok hcode
      | cons hend _ => exact .error (.endWithoutBegin hend.closing.span)
  | unclosed hopen hpending =>
      cases hpending with
      | nil => exact .error (.beginWithoutEnd hopen)
      | cons hspan _ => exact .error (.endWithoutBegin hspan)

theorem ofInstructions_alike {is is' : List Instruction}
    (h : List.Forall₂ (Instruction.Alike L) is is') :
    Both (IterationFault.Alike L) (Code.Alike L) (ofInstructions is) (ofInstructions is') := by
  apply Suffix.finish_alike
  induction h with
  | nil => exact .closed .done .nil
  | cons hi _ ih => exact Suffix.prepend_alike hi ih

end Code

/-! ## Errors -/

inductive Cause.Alike (L : Likeness) : Cause → Cause → Prop where
  | same (cause : Cause) : Alike L cause cause
  | iteration {fault fault' : IterationFault} (h : fault.Alike L fault') :
      Alike L (.internal (.iteration fault)) (.internal (.iteration fault'))

theorem Cause.Alike.eq_of_undefined {cause cause' : Cause} (h : cause.Alike L cause')
    {u : Undefined} (hu : cause = u.cause) : cause' = cause := by
  cases h with
  | same cause => rfl
  | iteration h => cases u <;> cases hu

structure RuntimeError.Alike (L : Likeness) (e e' : RuntimeError) : Prop where
  cause : e.cause.Alike L e'.cause
  span : Option.Rel L.span e.span e'.span
  stepIndex : e.stepIndex = e'.stepIndex

inductive Failure.Alike (L : Likeness) : Failure → Failure → Prop where
  | machine {e e' : RuntimeError} (h : e.Alike L e') : Alike L (.machine e) (.machine e')
  | breakdown (b : Breakdown) : Alike L (.breakdown b) (.breakdown b)

/-! ## Tasks and states -/

section Relations

variable (E : Exchange L)

inductive Action.Alike : Action → Action → Prop where
  | emitLiteral {x y : String} (h : E.rel x y) : Alike (.emitLiteral x) (.emitLiteral y)
  | same (action : Action) : Alike action action

inductive Task.Alike : Task → Task → Prop where
  | announce (event event' : Event) : Alike (.announce event) (.announce event')
  | log {i i' : Instruction} (h : i.Alike L i') : Alike (.log i) (.log i')
  | rules (context context' : StepContext) : Alike (.rules context) (.rules context')
  | write {x y : String} (h : E.rel x y) : Alike (.write x) (.write y)
  | filter {x y : String} (h : E.rel x y) : Alike (.filter x) (.filter y)
  | deliver {x y : String} (h : E.rel x y) : Alike (.deliver x) (.deliver y)
  | perform (depth : Nat) {span span' : Option Span} {action action' : Action}
      (hspan : Option.Rel L.span span span') (h : action.Alike E action') :
      Alike (.perform depth span action) (.perform depth span' action')
  | bind (name : String) {x y : String} (h : E.rel x y) : Alike (.bind name x) (.bind name y)
  | leave : Alike .leave .leave
  | loop (depth : Nat) (array : String) {opening opening' : Option Span} {body body' : Code}
      (hspan : Option.Rel L.span opening opening') (hbody : body.Alike L body') :
      Alike (.loop depth opening array body) (.loop depth opening' array body')
  | items (depth : Nat) (array : String) {span span' : Option Span} {body body' : Code}
      (index : Nat) (found : List String) (hspan : Option.Rel L.span span span')
      (hbody : body.Alike L body') :
      Alike (.items depth array span body index found) (.items depth array span' body' index found)
  | code (depth : Nat) {code code' : Code} (h : code.Alike L code') :
      Alike (.code depth code) (.code depth code')
  | fragment (depth : Nat) {is is' : List Instruction}
      (h : List.Forall₂ (Instruction.Alike L) is is') :
      Alike (.fragment depth is) (.fragment depth is')
  | enter (depth : Nat) {span span' : Option Span} {m m' : Macro}
      (hspan : Option.Rel L.span span span') (hm : m.Alike L m') :
      Alike (.enter depth span m) (.enter depth span' m')
  | invoke (depth : Nat) {span span' : Option Span} {m m' : Macro} {x y : String}
      (hspan : Option.Rel L.span span span') (hm : m.Alike L m') (h : E.rel x y) :
      Alike (.invoke depth span m x) (.invoke depth span' m' y)

structure Binding.Alike (v v' : String × String) : Prop where
  name : v.1 = v'.1
  value : E.rel v.2 v'.2

structure Frame.Alike (f f' : Frame) : Prop where
  name : f.name = f'.name
  kind : f.kind = f'.kind
  id : f.id = f'.id
  values : List.Forall₂ (Binding.Alike E) f.values f'.values

/-- Entries of logs, their snapshots apart. -/
structure LogEntry.Alike (L : Likeness) (entry entry' : LogEntry) : Prop where
  index : entry.index = entry'.index
  frame : entry.frame = entry'.frame
  instruction : entry.instruction.Alike L entry'.instruction

structure State.Alike (s s' : State σ) : Prop where
  frames : List.Forall₂ (Frame.Alike E) s.frames s'.frames
  captures : List.Forall₂ E.rel s.captures s'.captures
  frameCount : s.frameCount = s'.frameCount
  log : List.Forall₂ (LogEntry.Alike L) s.log.toList s'.log.toList
  written : List.Forall₂ E.rel s.host.written.toList s'.host.written.toList

end Relations

variable {E : Exchange L}

theorem Instruction.Alike.action {action action' : Action} {span span' : Option Span}
    (h : Instruction.Alike L (.of action span) (.of action' span')) :
    action.Alike E action' := by
  cases h with
  | hostText htext hspan => exact .emitLiteral (E.text htext)
  | call name hblock hspan =>
      rw [E.block.mp hblock]
      exact .same _
  | same operation hne hspan => exact .same _

/-! ## Bindings -/

theorem Entries.set_alike (name : String) {x y : String} (h : E.rel x y)
    {values values' : Bindings} (hvalues : List.Forall₂ (Binding.Alike E) values values') :
    List.Forall₂ (Binding.Alike E) (Entries.set name x values) (Entries.set name y values') := by
  induction hvalues with
  | nil => exact .cons ⟨rfl, h⟩ .nil
  | @cons v v' values values' hv hvalues ih =>
      rcases v with ⟨k, value⟩
      rcases v' with ⟨k', value'⟩
      cases hv.name
      rw [Entries.set, Entries.set]
      split
      · exact .cons ⟨rfl, h⟩ hvalues
      · exact .cons hv ih

theorem Bindings.lookup_alike (name : String) {values values' : Bindings}
    (h : List.Forall₂ (Binding.Alike E) values values') :
    Option.Rel E.rel (List.lookup name values) (List.lookup name values') := by
  induction h with
  | nil => exact .none
  | @cons v v' values values' hv _ ih =>
      rcases v with ⟨k, value⟩
      rcases v' with ⟨k', value'⟩
      cases hv.name
      rw [Entries.lookup_cons, Entries.lookup_cons]
      split
      · exact .some hv.value
      · exact ih

theorem ScopeStack.lookup_alike (name : String) {frames frames' : ScopeStack}
    (h : List.Forall₂ (Frame.Alike E) frames frames') :
    Option.Rel E.rel (lookup name frames) (lookup name frames') := by
  induction h with
  | nil => exact .none
  | @cons f f' frames frames' hf _ ih =>
      have hvalue := Bindings.lookup_alike name hf.values
      rw [lookup, lookup]
      generalize List.lookup name f.values = value at hvalue
      generalize List.lookup name f'.values = value' at hvalue
      cases hvalue with
      | none => exact ih
      | some hvalue => exact .some hvalue

/-- A name has a value in both runs or in none. -/
theorem lookup_alike (env : Environment) (name : String) {frames frames' : ScopeStack}
    (h : List.Forall₂ (Frame.Alike E) frames frames') :
    Option.Rel E.rel (ScopeStack.lookup name frames <|> env.findVariable name)
      (ScopeStack.lookup name frames' <|> env.findVariable name) := by
  have hbound := ScopeStack.lookup_alike name h
  generalize ScopeStack.lookup name frames = value at hbound
  generalize ScopeStack.lookup name frames' = value' at hbound
  cases hbound with
  | some hvalue => exact .some hvalue
  | none =>
      change Option.Rel E.rel (env.findVariable name) (env.findVariable name)
      cases env.findVariable name with
      | none => exact .none
      | some value => exact .some (E.refl value)

/-! ## Hooks -/

namespace Setting.Plain

variable {c : Setting σ}

theorem emit (hc : c.Plain) (event : Event) (host : Host σ) :
    c.registry.emit c.machine event host = .ok () host := by
  rw [hc.noHooks]
  rfl

theorem afterStep (hc : c.Plain) (context : StepContext) (host : Host σ) :
    c.registry.afterStep c.machine context host = .ok () host := by
  rw [hc.noHooks]
  rfl

theorem filterOutput (hc : c.Plain) (text : String) (host : Host σ) :
    c.registry.filterOutput c.machine text host = .ok text host := by
  rw [hc.noHooks]
  rfl

end Setting.Plain

/-! ## States -/

namespace State.Alike

variable {s s' : State σ}

theorem initial (world : σ) : (State.initial world).Alike E (State.initial world) :=
  ⟨.nil, .nil, rfl, .nil, .nil⟩

theorem frame (h : s.Alike E s') : s.frame = s'.frame := by
  rw [State.frame, State.frame]
  have hframes := h.frames
  generalize s.frames = frames at hframes
  generalize s'.frames = frames' at hframes
  cases hframes with
  | nil => rfl
  | cons hf _ => exact hf.id

theorem logSize (h : s.Alike E s') : s.log.size = s'.log.size :=
  h.log.length_eq

theorem lastEntry (h : s.Alike E s') :
    Option.Rel (LogEntry.Alike L) s.log.back? s'.log.back? := by
  have hreverse := List.rel_reverse h.log
  rw [← Array.getLast?_toList, ← Array.getLast?_toList, List.getLast?_eq_head?_reverse,
    List.getLast?_eq_head?_reverse]
  generalize s.log.toList.reverse = entries at hreverse
  generalize s'.log.toList.reverse = entries' at hreverse
  cases hreverse with
  | nil => exact .none
  | cons hentry _ => exact .some hentry

theorem lastSpan (h : s.Alike E s') : Option.Rel L.span s.lastSpan s'.lastSpan := by
  have hentry := h.lastEntry
  rw [State.lastSpan, State.lastSpan]
  generalize s.log.back? = entry at hentry
  generalize s'.log.back? = entry' at hentry
  cases hentry with
  | none => exact .none
  | some hentry => exact hentry.instruction.span

theorem lastIndex (h : s.Alike E s') : s.lastIndex = s'.lastIndex := by
  have hentry := h.lastEntry
  rw [State.lastIndex, State.lastIndex]
  generalize s.log.back? = entry at hentry
  generalize s'.log.back? = entry' at hentry
  cases hentry with
  | none => rfl
  | some hentry => exact congrArg some hentry.index

theorem logged (h : s.Alike E s') (verbose : Bool) {i i' : Instruction} (hi : i.Alike L i') :
    (s.logged verbose i).Alike E (s'.logged verbose i') where
  frames := h.frames
  captures := h.captures
  frameCount := h.frameCount
  log := by
    rw [State.logged, State.logged, Array.toList_push, Array.toList_push]
    exact List.rel_append h.log (.cons ⟨h.logSize, h.frame, hi⟩ .nil)
  written := h.written

theorem opened (h : s.Alike E s') (name : String) (kind : FrameKind) (span span' : Option Span)
    {values values' : Bindings} (hvalues : List.Forall₂ (Binding.Alike E) values values') :
    (s.opened name kind span values).Alike E (s'.opened name kind span' values') where
  frames := .cons ⟨rfl, rfl, by rw [h.frameCount], hvalues⟩ h.frames
  captures := h.captures
  frameCount := congrArg (· + 1) h.frameCount
  log := h.log
  written := h.written

theorem capturing (h : s.Alike E s') {captures captures' : List String}
    (hcaptures : List.Forall₂ E.rel captures captures') :
    { s with captures := captures }.Alike E { s' with captures := captures' } :=
  ⟨h.frames, hcaptures, h.frameCount, h.log, h.written⟩

theorem framing (h : s.Alike E s') {frames frames' : ScopeStack}
    (hframes : List.Forall₂ (Frame.Alike E) frames frames') :
    { s with frames := frames }.Alike E { s' with frames := frames' } :=
  ⟨hframes, h.captures, h.frameCount, h.log, h.written⟩

theorem writing (h : s.Alike E s') {x y : String} (htext : E.rel x y) :
    { s with host := s.host.write x }.Alike E { s' with host := s'.host.write y } where
  frames := h.frames
  captures := h.captures
  frameCount := h.frameCount
  log := h.log
  written := by
    simp only [Host.write, Array.toList_push]
    exact List.rel_append h.written (.cons htext .nil)

end State.Alike

/-! ## Steps -/

namespace Task

variable {c : Setting σ} {macros macros' : MacroTable} {task task' : Task} {s s' t : State σ}

/-- Alike actions take alike steps. -/
theorem perform_steps_alike
    (hmacros : List.Forall₂ (Macro.Alike L) macros.entries macros'.entries) {depth : Nat}
    {span span' : Option Span} {action action' : Action} (hspan : Option.Rel L.span span span')
    (haction : action.Alike E action') (hs : s.Alike E s') {new : List Task}
    (h : (perform depth span action).Steps c macros s new t) :
    ∃ new' t', (perform depth span' action').Steps c macros' s' new' t' ∧
      List.Forall₂ (Task.Alike E) new new' ∧ t.Alike E t' := by
  have hcaptures := hs.captures
  cases h with
  | emitLiteral depth span text s =>
      cases haction with
      | emitLiteral htext =>
          exact ⟨_, _, .emitLiteral depth _ _ s', .cons (.write htext) .nil, hs⟩
      | same action =>
          exact ⟨_, _, .emitLiteral depth _ _ s', .cons (.write (E.refl text)) .nil, hs⟩
  | @emitVar depth span name value s h =>
      cases haction
      have hvalue := lookup_alike c.environment name hs.frames
      rw [h] at hvalue
      generalize hfound : (ScopeStack.lookup name s'.frames <|>
        c.environment.findVariable name) = found at hvalue
      cases hvalue with
      | some hvalue => exact ⟨_, _, .emitVar depth _ hfound, .cons (.write hvalue) .nil, hs⟩
  | @call depth span name block m s h =>
      cases haction
      have hfound := MacroTable.get?_alike hmacros (E.block.mpr (Eq.refl block)) name
      rw [h] at hfound
      generalize h' : macros'.get? block name = found at hfound
      cases hfound with
      | some hm =>
          exact ⟨_, _, .call depth _ s' h',
            .cons (.fragment depth hm.pattern) (.cons (.enter depth hspan hm) .nil),
            hs.capturing (.cons (E.refl "") hcaptures)⟩
  | endMacroCall depth span s =>
      cases haction
      exact ⟨_, _, .endMacroCall depth _ s', .cons .leave .nil, hs⟩
  | pushScope depth span s =>
      cases haction
      exact ⟨_, _, .pushScope depth _ s', .nil, hs.opened _ _ _ _ .nil⟩
  | popScope depth span s =>
      cases haction
      exact ⟨_, _, .popScope depth _ s', .cons .leave .nil, hs⟩
  | beginCapture depth span s =>
      cases haction
      exact ⟨_, _, .beginCapture depth _ s', .nil, hs.capturing (.cons (E.refl "") hcaptures)⟩
  | endCapture depth span name h =>
      rw [h] at hcaptures
      cases haction
      rcases List.forall₂_cons_left_iff.mp hcaptures with ⟨_, _, hinner, houter, h'⟩
      exact ⟨_, _, .endCapture depth _ name h', .cons (.bind name hinner) .nil,
        hs.capturing houter⟩
  | comment depth span text s =>
      cases haction
      exact ⟨_, _, .comment depth _ text s', .nil, hs⟩

theorem items_steps_alike {depth : Nat} {array : String} {span span' : Option Span}
    {body body' : Code} {index : Nat} {found : List String}
    (hspan : Option.Rel L.span span span') (hbody : body.Alike L body') (hs : s.Alike E s')
    {new : List Task} (h : (items depth array span body index found).Steps c macros s new t) :
    ∃ new' t', (items depth array span' body' index found).Steps c macros' s' new' t' ∧
      List.Forall₂ (Task.Alike E) new new' ∧ t.Alike E t' := by
  cases h with
  | noItem depth array span body index s =>
      exact ⟨_, _, .noItem depth array _ _ index s', .nil, hs⟩
  | item depth array span body index item rest s =>
      have hvalues : List.Forall₂ (Binding.Alike E)
          [(Binding.index, toString index), (Binding.item, item)]
          [(Binding.index, toString index), (Binding.item, item)] :=
        .cons ⟨rfl, E.refl _⟩ (.cons ⟨rfl, E.refl item⟩ .nil)
      exact ⟨_, _, .item depth array _ _ index item rest s',
        .cons (.code depth hbody)
          (.cons .leave (.cons (.items depth array (index + 1) rest hspan hbody) .nil)),
        hs.opened _ _ _ _ hvalues⟩

theorem code_steps_alike {depth : Nat} {code code' : Code} (hcode : code.Alike L code')
    (hs : s.Alike E s') {new : List Task} (h : (Task.code depth code).Steps c macros s new t) :
    ∃ new' t', (Task.code depth code').Steps c macros' s' new' t' ∧
      List.Forall₂ (Task.Alike E) new new' ∧ t.Alike E t' := by
  cases h with
  | done depth s =>
      cases hcode
      exact ⟨_, _, .done depth s', .nil, hs⟩
  | step depth action span rest s =>
      cases hcode with
      | step hi hrest =>
          exact ⟨_, _, .step depth _ _ _ s',
            .cons (.log hi)
              (.cons (.perform depth hi.span hi.action) (.cons (.code depth hrest) .nil)), hs⟩
  | iteration depth opening closing array body rest s =>
      cases hcode with
      | loop array hopening hclosing hbody hrest =>
          exact ⟨_, _, .iteration depth _ _ array _ _ s',
            .cons (.log hopening) (.cons (.loop depth array hopening.span hbody)
              (.cons (.log hclosing) (.cons (.code depth hrest) .nil))), hs⟩

/-- Alike tasks take alike steps. -/
theorem steps_alike (hc : c.Plain)
    (hmacros : List.Forall₂ (Macro.Alike L) macros.entries macros'.entries)
    (htask : task.Alike E task') (hs : s.Alike E s') {new : List Task}
    (h : task.Steps c macros s new t) :
    ∃ new' t', task'.Steps c macros' s' new' t' ∧ List.Forall₂ (Task.Alike E) new new' ∧
      t.Alike E t' := by
  have hframes := hs.frames
  have hcaptures := hs.captures
  cases htask with
  | perform depth hspan haction => exact perform_steps_alike hmacros hspan haction hs h
  | items depth array index found hspan hbody => exact items_steps_alike hspan hbody hs h
  | code depth hcode => exact code_steps_alike hcode hs h
  | announce event event' =>
      cases h with
      | announce h =>
          rw [hc.emit] at h
          cases h
          exact ⟨_, _, .announce (hc.emit _ _), .nil, hs⟩
  | log hi =>
      cases h with
      | log i s => exact ⟨_, _, .log _ s', .cons (.rules _ _) .nil, hs.logged c.verbose hi⟩
  | rules context context' =>
      cases h with
      | rules h =>
          rw [hc.afterStep] at h
          cases h
          exact ⟨_, _, .rules (hc.afterStep _ _), .nil, hs⟩
  | write htext =>
      cases h with
      | capture h =>
          rw [h] at hcaptures
          rcases List.forall₂_cons_left_iff.mp hcaptures with ⟨_, _, hinner, houter, h'⟩
          exact ⟨_, _, .capture h', .nil, hs.capturing (.cons (E.append hinner htext) houter)⟩
      | write text h =>
          rw [h] at hcaptures
          have h' := List.forall₂_nil_left_iff.mp hcaptures
          exact ⟨_, _, .write _ h', .cons (.filter htext) .nil, hs⟩
  | filter htext =>
      cases h with
      | filter h =>
          rw [hc.filterOutput] at h
          cases h
          exact ⟨_, _, .filter (hc.filterOutput _ _), .cons (.deliver htext) .nil, hs⟩
  | deliver htext =>
      cases h with
      | deliver h => exact ⟨_, _, .deliver (hc.accepts _ _), .nil, hs.writing htext⟩
  | bind name htext =>
      cases h with
      | bind name text h =>
          rw [h] at hframes
          rcases List.forall₂_cons_left_iff.mp hframes with ⟨_, _, hf, houter, h'⟩
          have hvalues := Entries.set_alike name htext hf.values
          exact ⟨_, _, .bind name _ h', .nil,
            hs.framing (.cons ⟨hf.name, hf.kind, hf.id, hvalues⟩ houter)⟩
  | leave =>
      cases h with
      | leave h =>
          rw [h] at hframes
          rcases List.forall₂_cons_left_iff.mp hframes with ⟨_, _, _, houter, h'⟩
          exact ⟨_, _, .leave h', .nil, hs.framing houter⟩
  | loop depth array hspan hbody =>
      cases h with
      | loop depth opening body s h =>
          exact ⟨_, _, .loop depth _ _ s' h,
            .cons (.announce _ _) (.cons (.items depth _ 0 _ hspan hbody) .nil), hs⟩
  | fragment depth his =>
      cases h with
      | fragment depth s h =>
          have hmatched := Code.ofInstructions_alike his
          rw [h] at hmatched
          rcases hmatched.of_ok with ⟨code', h', hcode⟩
          exact ⟨_, _, .fragment depth s' h', .cons (.code depth hcode) .nil, hs⟩
  | enter depth hspan hm =>
      cases h with
      | enter depth span m h =>
          rw [h] at hcaptures
          rcases List.forall₂_cons_left_iff.mp hcaptures with ⟨_, _, hinner, houter, h'⟩
          exact ⟨_, _, .enter depth _ _ h',
            .cons (.announce _ _) (.cons (.invoke depth hspan hm hinner) .nil),
            hs.capturing houter⟩
  | invoke depth hspan hm htext =>
      cases h with
      | invoke depth span m text s =>
          refine ⟨_, _, .invoke depth _ _ _ s', .cons (.fragment depth hm.body) .nil, ?_⟩
          rw [hm.name]
          exact hs.opened _ _ _ _ (.cons ⟨rfl, htext⟩ .nil)

/-- Alike actions fail alike. -/
theorem perform_fails_alike
    (hmacros : List.Forall₂ (Macro.Alike L) macros.entries macros'.entries) {depth : Nat}
    {span span' : Option Span} {action action' : Action} (hspan : Option.Rel L.span span span')
    (haction : action.Alike E action') (hs : s.Alike E s') {x : Failure}
    (h : (perform depth span action).Fails c macros s x t) :
    ∃ x' t', (perform depth span' action').Fails c macros' s' x' t' ∧ x.Alike L x' ∧
      t.Alike E t' := by
  cases h with
  | @emitVar depth span name s h =>
      cases haction
      have hvalue := lookup_alike c.environment name hs.frames
      rw [h] at hvalue
      generalize hfound : (ScopeStack.lookup name s'.frames <|>
        c.environment.findVariable name) = found at hvalue
      cases hvalue with
      | none => exact ⟨_, _, .emitVar depth _ hfound, .machine ⟨.same _, hspan, rfl⟩, hs⟩
  | tooDeep span name block s =>
      cases haction
      exact ⟨_, _, .tooDeep _ name block s', .breakdown _, hs⟩
  | @missing depth span name block s h =>
      cases haction
      have hfound := MacroTable.get?_alike hmacros (E.block.mpr (Eq.refl block)) name
      rw [h] at hfound
      generalize h' : macros'.get? block name = found at hfound
      cases hfound with
      | none => exact ⟨_, _, .missing depth _ s' h', .breakdown _, hs⟩
  | endCapture depth span name h =>
      have hcaptures := hs.captures
      rw [h] at hcaptures
      cases haction
      have h' := List.forall₂_nil_left_iff.mp hcaptures
      exact ⟨_, _, .endCapture depth _ name h', .breakdown _, hs⟩
  | nop depth span s =>
      cases haction
      exact ⟨_, _, .nop depth _ s', .machine ⟨.same _, hspan, rfl⟩, hs⟩

/-- Alike tasks fail alike. -/
theorem fails_alike (hc : c.Plain)
    (hmacros : List.Forall₂ (Macro.Alike L) macros.entries macros'.entries)
    (htask : task.Alike E task') (hs : s.Alike E s') {x : Failure}
    (h : task.Fails c macros s x t) :
    ∃ x' t', task'.Fails c macros' s' x' t' ∧ x.Alike L x' ∧ t.Alike E t' := by
  have hframes := hs.frames
  cases htask with
  | perform depth hspan haction => exact perform_fails_alike hmacros hspan haction hs h
  | announce event event' =>
      cases h with
      | announce h =>
          rw [hc.emit] at h
          cases h
  | log hi => cases h
  | rules context context' =>
      cases h with
      | rules h =>
          rw [hc.afterStep] at h
          cases h
  | write htext => cases h
  | filter htext =>
      cases h with
      | filter h =>
          rw [hc.filterOutput] at h
          cases h
  | deliver htext =>
      cases h with
      | deliver h =>
          rw [hc.accepts] at h
          cases h
  | bind name htext =>
      cases h with
      | bind name text h =>
          rw [h] at hframes
          have h' := List.forall₂_nil_left_iff.mp hframes
          exact ⟨_, _, .bind name _ h', .machine ⟨.same _, .none, rfl⟩, hs⟩
  | leave =>
      cases h with
      | leave h =>
          rw [h] at hframes
          have h' := List.forall₂_nil_left_iff.mp hframes
          exact ⟨_, _, .leave h', .machine ⟨.same _, .none, rfl⟩, hs⟩
  | loop depth array hspan hbody =>
      cases h with
      | loop depth opening body s h =>
          exact ⟨_, _, .loop depth _ _ s' h, .machine ⟨.same _, hspan, rfl⟩, hs⟩
  | items depth array index found hspan hbody => cases h
  | code depth hcode => cases h
  | fragment depth his =>
      cases h with
      | fragment depth s h =>
          have hmatched := Code.ofInstructions_alike his
          rw [h] at hmatched
          rcases hmatched.of_error with ⟨fault', h', hfault⟩
          exact ⟨_, _, .fragment depth s' h', .machine ⟨.iteration hfault, hfault.span, rfl⟩, hs⟩
  | enter depth hspan hm =>
      cases h with
      | enter depth span m h =>
          have hcaptures := hs.captures
          rw [h] at hcaptures
          have h' := List.forall₂_nil_left_iff.mp hcaptures
          exact ⟨_, _, .enter depth _ _ h', .breakdown _, hs⟩
  | invoke depth hspan hm htext => cases h

end Task

/-! ## Runs -/

namespace Agenda

variable {c : Setting σ} {macros macros' : MacroTable} {tasks tasks' : List Task}
  {s s' t : State σ}

/-- Wherever one agenda leads, the other leads to something alike. -/
theorem leads_alike (hc : c.Plain)
    (hmacros : List.Forall₂ (Macro.Alike L) macros.entries macros'.entries)
    (htasks : List.Forall₂ (Task.Alike E) tasks tasks') (hs : s.Alike E s') {left : List Task}
    (h : Leads c macros tasks s left t) :
    ∃ left' t', Leads c macros' tasks' s' left' t' ∧ List.Forall₂ (Task.Alike E) left left' ∧
      t.Alike E t' := by
  induction h generalizing tasks' s' with
  | refl tasks s => exact ⟨tasks', s', .refl tasks' s', htasks, hs⟩
  | step hstep _ ih =>
      cases htasks with
      | cons htask hrest =>
          rcases Task.steps_alike hc hmacros htask hs hstep with ⟨new', u', hstep', hnew, hu⟩
          rcases ih (List.rel_append hnew hrest) hu with ⟨left', t', hleads, hleft, ht⟩
          exact ⟨left', t', .step hstep' hleads, hleft, ht⟩

theorem raises_alike (hc : c.Plain)
    (hmacros : List.Forall₂ (Macro.Alike L) macros.entries macros'.entries)
    (htasks : List.Forall₂ (Task.Alike E) tasks tasks') (hs : s.Alike E s') {x : Failure}
    (h : Raises c macros tasks s x t) :
    ∃ x' t', Raises c macros' tasks' s' x' t' ∧ x.Alike L x' ∧ t.Alike E t' := by
  rcases h with ⟨task, rest, before, hleads, hfails⟩
  rcases leads_alike hc hmacros htasks hs hleads with ⟨left', before', hleads', hleft, hbefore⟩
  cases hleft with
  | cons htask _ =>
      rcases Task.fails_alike hc hmacros htask hbefore hfails with ⟨x', t', hfails', hx, ht⟩
      exact ⟨x', t', ⟨_, _, before', hleads', hfails'⟩, hx, ht⟩

end Agenda

/-- Two runs end alike: neither fails, or both fail with alike errors. -/
structure Outcome.Alike (E : Exchange L) (o o' : Outcome σ) : Prop where
  error : Option.Rel (RuntimeError.Alike L) o.error o'.error
  state : o.state.Alike E o'.state

namespace Outcome

variable {c : Setting σ} {s s' : State σ}

theorem failed_of_plain (hc : c.Plain) (fault : Fault) (s : State σ) :
    failed c fault s = ⟨some ((fault.toError s.lastSpan).stamp s.lastIndex), s⟩ := by
  have hemit : Exec.emit c (.onError ((fault.toError s.lastSpan).stamp s.lastIndex)) s =
      .ok () s :=
    Exec.hooks_of_ok (hc.emit _ _)
  simp only [failed, hemit]

theorem failed_alike (hc : c.Plain) {x x' : Failure} (hx : x.Alike L x') (hs : s.Alike E s') :
    (failed c (x.toFault s.lastSpan) s).Alike E (failed c (x'.toFault s'.lastSpan) s') := by
  rw [failed_of_plain hc, failed_of_plain hc]
  refine ⟨.some ?_, hs⟩
  cases hx with
  | machine he =>
      refine ⟨he.cause, he.span, ?_⟩
      simp only [Failure.toFault, Fault.toError, RuntimeError.stamp, he.stepIndex, hs.lastIndex]
  | breakdown b =>
      refine ⟨.same _, hs.lastSpan, ?_⟩
      simp only [Failure.toFault, Fault.toError, RuntimeError.stamp, hs.lastIndex]

end Outcome

theorem Program.agenda_alike {p p' : Program} (h : p.Alike L p') :
    List.Forall₂ (Task.Alike E) p.agenda p'.agenda := by
  have hdepth : Exec.callDepth p.macros = Exec.callDepth p'.macros := by
    rw [Exec.callDepth, Exec.callDepth, MacroTable.size, MacroTable.size, h.macros.length_eq]
  rw [agenda, agenda, hdepth]
  exact .cons (.announce _ _) (.cons (.fragment _ h.instructions) (.cons (.announce _ _) .nil))

/-- Without hooks, alike programs run alike. -/
theorem Program.run_alike {c : Setting σ} (hc : c.Plain) {p p' : Program} (h : p.Alike L p')
    (world : σ) : (p.run c world).Alike E (p'.run c world) := by
  have htasks : List.Forall₂ (Task.Alike E) p.agenda p'.agenda := agenda_alike h
  have hs : (State.initial world).Alike E (State.initial world) := .initial world
  rcases completes_or_raises p c world with ⟨s, hreaches⟩ | ⟨x, s, hraises⟩
  · rcases Agenda.leads_alike hc h.macros htasks hs hreaches with ⟨left', s', hleads, hleft, ht⟩
    cases hleft
    have hreaches' : p'.Reaches c world [] s' := hleads
    rw [run_of_reaches hreaches, run_of_reaches hreaches']
    exact ⟨.none, ht⟩
  · rcases Agenda.raises_alike hc h.macros htasks hs hraises with ⟨x', s', hraises', hx, ht⟩
    rw [run_of_raises hraises, run_of_raises hraises']
    exact Outcome.failed_alike hc hx ht

end Stencil
