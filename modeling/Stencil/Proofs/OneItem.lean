import Stencil.Proofs.Accounts

/-!
# Operands and arrays of one item

An operand that is piped into a macro is treated as an array with its value as the only
item.  The instructions have little in common: for the operand they open a scope, collect
the value and the index zero and bind one after the other; for the array they go through an
iteration, whose frame has both bindings from the start.  The macro sees the same bindings
either way.
-/

namespace Stencil

/-! ## Accounts of operands -/

namespace Account

/-- What is written to a text, and where it stops. -/
def evaluation (a : Account) : Evaluation :=
  ⟨String.join a.chunks, a.stopped⟩

theorem evaluation_andThen (first second : Account) :
    (first.andThen second).evaluation = first.evaluation.andThen second.evaluation := by
  rcases first with ⟨chunks, calls, stopped⟩
  cases stopped with
  | some u => rfl
  | none => simp [andThen, evaluation, Evaluation.andThen]

/-- No macro is called, and only a variable can be missing. -/
structure Simple (a : Account) : Prop where
  calls : a.calls = 0
  scalar : ∀ u, a.stopped = some u → ∃ name span, u = .scalar name span

theorem simple_of_unstopped {a : Account} (hcalls : a.calls = 0) (h : a.stopped = none) :
    a.Simple := by
  refine ⟨hcalls, fun u hu => ?_⟩
  rw [h] at hu
  exact absurd hu.symm (Option.some_ne_none u)

theorem simple_chunk (text : String) : (chunk text).Simple :=
  simple_of_unstopped rfl rfl

theorem Simple.andThen {first second : Account} (h : first.Simple) (h' : second.Simple) :
    (first.andThen second).Simple := by
  rcases first with ⟨chunks, calls, stopped⟩
  cases stopped with
  | some u => exact h
  | none =>
      refine ⟨?_, h'.scalar⟩
      change calls + second.calls = 0
      rw [h'.calls, Nat.add_zero]
      exact h.calls

end Account

namespace Environment

variable {env : Environment} {bound bound' : Bindings}

theorem evaluate_eq_account (env : Environment) (bound : Bindings) (name : String) (span : Span) :
    env.evaluate bound name span = (env.account bound name span).evaluation := by
  rw [evaluate, account]
  cases List.lookup name bound <|> env.findVariable name with
  | some value => simp [Account.chunk, Account.evaluation, Evaluation.text]
  | none => rfl

theorem simple_account (env : Environment) (bound : Bindings) (name : String) (span : Span) :
    (env.account bound name span).Simple := by
  rw [account]
  cases List.lookup name bound <|> env.findVariable name with
  | some value => exact Account.simple_chunk value
  | none => exact ⟨rfl, fun u hu => ⟨name, span, (Option.some.inj hu).symm⟩⟩

end Environment

namespace Piece

theorem evaluate_eq_account (env : Environment) (bound : Bindings) (literal : Span)
    (piece : Piece) :
    piece.evaluate env bound literal = (piece.account env bound literal).evaluation := by
  cases piece with
  | text start stop value => simp [evaluate, account, Account.chunk, Account.evaluation,
      Evaluation.text]
  | interpolation start stop name => exact env.evaluate_eq_account bound _ _

theorem simple_account (env : Environment) (bound : Bindings) (literal : Span) (piece : Piece) :
    (piece.account env bound literal).Simple := by
  cases piece with
  | text start stop value => exact Account.simple_chunk _
  | interpolation start stop name => exact env.simple_account bound _ _

end Piece

namespace Operand

variable {env : Environment} {bound bound' : Bindings}

/-- The text of an operand is that of its chunks. -/
theorem evaluate_eq_account (env : Environment) (bound : Bindings) (o : Operand) :
    o.evaluate env bound = (o.account env bound).evaluation := by
  cases o with
  | identifier span name => exact env.evaluate_eq_account bound name span
  | string span raw =>
      rw [evaluate, account]
      cases StringBody.pieces 0 raw.toList with
      | error e => rfl
      | ok pieces =>
          change Evaluation.sequence (pieces.map (Piece.evaluate env bound span)) =
            (Account.sequence (pieces.map (Piece.account env bound span))).evaluation
          induction pieces with
          | nil => rfl
          | cons piece pieces ih =>
              rw [List.map_cons, List.map_cons, Evaluation.sequence, Account.sequence, ih,
                Account.evaluation_andThen, piece.evaluate_eq_account]

theorem simple_account (env : Environment) (bound : Bindings) (o : Operand) :
    (o.account env bound).Simple := by
  cases o with
  | identifier span name => exact env.simple_account bound name span
  | string span raw =>
      rw [account]
      cases StringBody.pieces 0 raw.toList with
      | error e => exact Account.simple_of_unstopped rfl rfl
      | ok pieces =>
          change (Account.sequence (pieces.map (Piece.account env bound span))).Simple
          induction pieces with
          | nil => exact Account.simple_of_unstopped rfl rfl
          | cons piece pieces ih => exact (piece.simple_account env bound span).andThen ih

/-- An operand depends on what names are bound to, not on how. -/
theorem account_congr (h : ∀ name, List.lookup name bound = List.lookup name bound')
    (o : Operand) : o.account env bound = o.account env bound' := by
  have hname (name : String) (span : Span) :
      env.account bound name span = env.account bound' name span := by
    rw [Environment.account, Environment.account, h]
  cases o with
  | identifier span name => exact hname name span
  | string span raw =>
      have hpiece : Piece.account env bound span = Piece.account env bound' span := by
        funext piece
        cases piece with
        | text start stop value => rfl
        | interpolation start stop name => exact hname _ _
      rw [account, account, hpiece]

/-- A captured operand that has a value leaves nothing but that value. -/
theorem captured_account {o : Operand} {value : String} (h : o.evaluate env bound = .text value)
    (next : String → Account) : (o.account env bound).captured next = next value := by
  rw [evaluate_eq_account] at h
  have htext : String.join (o.account env bound).chunks = value := congrArg Evaluation.output h
  have hgoes : (o.account env bound).stopped = none := congrArg Evaluation.stopped h
  rw [Account.captured, htext, hgoes, (o.simple_account env bound).calls]
  exact Account.nothing_andThen (next value)

end Operand

/-! ## Accounts of pipes -/

namespace Block

variable {env : Environment} {b b' : Block} {name : String} {bound bound' : Bindings}

theorem accountMacro_congr (h : ∀ name, List.lookup name bound = List.lookup name bound') :
    b.accountMacro env name bound = b.accountMacro env name bound' := by
  have hbody (text : String) : ∀ name, List.lookup name ((Binding.pattern, text) :: bound) =
      List.lookup name ((Binding.pattern, text) :: bound') := by
    intro name
    rw [Entries.lookup_cons, Entries.lookup_cons, h]
  rw [accountMacro, accountMacro]
  cases b.findMacro name with
  | none => rfl
  | some operands =>
      rcases operands with ⟨pattern, body⟩
      have hbodies : (fun text => body.account env ((Binding.pattern, text) :: bound)) =
          fun text => body.account env ((Binding.pattern, text) :: bound') :=
        funext fun text => Operand.account_congr (hbody text) body
      dsimp only
      rw [Operand.account_congr h pattern, hbodies]

/-- A macro that is applied is called once, and can only miss a variable. -/
theorem accountMacro_calls {operands : Operand × Operand} (h : b.findMacro name = some operands)
    (env : Environment) (bound : Bindings) :
    (b.accountMacro env name bound).calls = 1 ∧
      ∀ u, (b.accountMacro env name bound).stopped = some u →
        ∃ name span, u = .scalar name span := by
  rcases operands with ⟨pattern, body⟩
  have hpattern := pattern.simple_account env bound
  have hcaptured : ((pattern.account env bound).captured fun text =>
      body.account env ((Binding.pattern, text) :: bound)).Simple :=
    Account.Simple.andThen ⟨hpattern.calls, hpattern.scalar⟩ (body.simple_account env _)
  rw [accountMacro, h]
  exact ⟨congrArg (1 + ·) hcaptured.calls, hcaptured.scalar⟩

/-- The bindings for an operand are those for the first item of an array. -/
theorem account_operand_pipe {o : Operand} {value : String}
    (h : o.evaluate env [] = .text value) (target : MacroRef) :
    b.accountExpression env (.pipe (.operand o) target) =
      b.accountItem env target.name 0 value := by
  rw [accountExpression, Operand.captured_account h, accountItem]
  apply accountMacro_congr
  intro name
  have hne : Binding.item ≠ Binding.index := by decide
  simp only [Entries.lookup_cons]
  by_cases hitem : name = Binding.item
  · rw [if_pos hitem, hitem, if_neg hne, if_pos rfl]
  · rw [if_neg hitem, if_neg hitem]
    rfl

theorem account_array_pipe {array value : String} (h : env.findArray array = some [value])
    (span : Span) (target : MacroRef) :
    b.accountExpression env (.pipe (.array span array) target) =
      b.accountItem env target.name 0 value := by
  rw [accountExpression, h]
  exact Account.andThen_nothing _

end Block

/-! ## Documents in which items take the place of operands -/

/-- The statements are the same, or the second hands to a macro, as the only item of an array,
the value of the operand that the first hands to it. -/
inductive Statement.Swaps (env : Environment) : Statement → Statement → Prop
  | same (s : Statement) : Swaps env s s
  | item {o : Operand} {array value : String} (hvalue : o.evaluate env [] = .text value)
      (harray : env.findArray array = some [value]) (span : Span) (target : MacroRef) :
      Swaps env (.expression (.pipe (.operand o) target))
        (.expression (.pipe (.array span array) target))

structure Block.Swaps (env : Environment) (b b' : Block) : Prop where
  index : b'.index = b.index
  statements : List.Forall₂ (Statement.Swaps env) b.statements b'.statements

inductive Item.Swaps (env : Environment) : Item → Item → Prop
  | hostText (span : Span) (text : String) : Swaps env (.hostText span text) (.hostText span text)
  | block {b b' : Block} (h : b.Swaps env b') : Swaps env (.block b) (.block b')

/-- The documents are the same but for such statements. -/
def Document.Swaps (env : Environment) (d d' : Document) : Prop :=
  List.Forall₂ (Item.Swaps env) d.items d'.items

namespace Statement

variable {env : Environment} {s s' : Statement} {ss ss' : List Statement}

theorem Swaps.definition (h : s.Swaps env s') : s'.definition? = s.definition? := by
  cases h <;> rfl

theorem Swaps.call (h : s.Swaps env s') : s'.call? = s.call? := by
  cases h <;> rfl

theorem Swaps.toMacro (h : s.Swaps env s') (block : Nat) : s'.toMacro block = s.toMacro block := by
  cases h <;> rfl

theorem Swaps.lower (h : s.Swaps env s') {block : Nat} {is : List Instruction}
    (hlower : s.lower block = .ok is) : ∃ js, s'.lower block = .ok js := by
  cases h with
  | same s => exact ⟨is, hlower⟩
  | item hvalue harray span target => exact ⟨_, rfl⟩

theorem filterMap_of_swaps {α : Type} {f : Statement → Option α}
    (hf : ∀ s s', s.Swaps env s' → f s' = f s) (h : List.Forall₂ (Swaps env) ss ss') :
    ss'.filterMap f = ss.filterMap f := by
  induction h with
  | nil => rfl
  | cons hs _ ih => rw [List.filterMap_cons, List.filterMap_cons, hf _ _ hs, ih]

theorem map_of_swaps {α : Type} {f f' : Statement → α}
    (hf : ∀ s s', s.Swaps env s' → f' s' = f s) (h : List.Forall₂ (Swaps env) ss ss') :
    ss'.map f' = ss.map f := by
  induction h with
  | nil => rfl
  | cons hs _ ih => rw [List.map_cons, List.map_cons, hf _ _ hs, ih]

theorem mapM_toMacro_of_swaps (h : List.Forall₂ (Swaps env) ss ss') (block : Nat) :
    ss'.mapM (Statement.toMacro block) = ss.mapM (Statement.toMacro block) := by
  induction h with
  | nil => rfl
  | cons hs _ ih => rw [List.mapM_cons, List.mapM_cons, hs.toMacro, ih]

theorem mapM_lower_of_swaps (h : List.Forall₂ (Swaps env) ss ss') {block : Nat}
    {parts : List (List Instruction)} (hlower : ss.mapM (Statement.lower block) = .ok parts) :
    ∃ parts', ss'.mapM (Statement.lower block) = .ok parts' := by
  induction h generalizing parts with
  | nil => exact ⟨parts, hlower⟩
  | cons hs _ ih =>
      rw [List.mapM_cons] at hlower
      rcases ok_of_bind hlower with ⟨is, his, hrest⟩
      rcases ok_of_bind hrest with ⟨more, hmore, _⟩
      rcases hs.lower his with ⟨js, hjs⟩
      rcases ih hmore with ⟨more', hmore'⟩
      exact ⟨js :: more', by rw [List.mapM_cons, hjs, hmore']; rfl⟩

end Statement

namespace Block

variable {env : Environment} {b b' : Block}

theorem Swaps.lower (h : b.Swaps env b') {ms : List Macro} {is : List Instruction}
    (hlower : b.lower = .ok (ms, is)) : ∃ js, b'.lower = .ok (ms, js) := by
  have hdefinitions : b'.definitions = b.definitions :=
    Statement.filterMap_of_swaps (fun _ _ hs => hs.definition) h.statements
  have hcalls : b'.calls = b.calls :=
    Statement.filterMap_of_swaps (fun _ _ hs => hs.call) h.statements
  rcases ok_of_bind hlower with ⟨_, hdistinct, h1⟩
  rcases ok_of_bind h1 with ⟨_, hknown, h2⟩
  rcases ok_of_bind h2 with ⟨found, hfound, h3⟩
  rcases ok_of_bind h3 with ⟨parts, hparts, hend⟩
  cases hend
  rcases Statement.mapM_lower_of_swaps h.statements hparts with ⟨parts', hparts'⟩
  rw [Block.lower, hdefinitions, hcalls, h.index, hdistinct, hknown,
    Statement.mapM_toMacro_of_swaps h.statements, hfound, hparts']
  exact ⟨parts'.flatten, rfl⟩

theorem Swaps.findMacro (h : b.Swaps env b') (name : String) :
    b'.findMacro name = b.findMacro name := by
  have hstatements := h.statements
  rw [Block.findMacro, Block.findMacro]
  generalize b.statements = ss, b'.statements = ss' at hstatements
  induction hstatements with
  | nil => rfl
  | cons hs _ ih =>
      rw [List.findSome?_cons, List.findSome?_cons, ih]
      cases hs <;> rfl

theorem Swaps.accountStatement (h : b.Swaps env b') {s s' : Statement} (hs : s.Swaps env s') :
    b'.accountStatement env s' = b.accountStatement env s := by
  have hmacro : b'.accountMacro env = b.accountMacro env := by
    funext name bound
    rw [accountMacro, accountMacro, h.findMacro]
  have hitem : b'.accountItem env = b.accountItem env := by
    funext name index item
    rw [accountItem, accountItem, hmacro]
  cases hs with
  | same s =>
      cases s with
      | comment span text => rfl
      | definition span name pattern body => rfl
      | expression e =>
          change b'.accountExpression env e = b.accountExpression env e
          cases e with
          | plain source => cases source <;> rfl
          | pipe source target =>
              cases source with
              | operand o => rw [accountExpression, accountExpression, hmacro]
              | array span name => rw [accountExpression, accountExpression, hitem]
  | @item o array value hvalue harray span target =>
      change b'.accountExpression env (.pipe (.array span array) target) =
        b.accountExpression env (.pipe (.operand o) target)
      rw [account_operand_pipe hvalue, account_array_pipe harray, hitem]

end Block

namespace Item

variable {env : Environment} {item item' : Item}

theorem Swaps.lower (h : item.Swaps env item') {part : List Macro × List Instruction}
    (hlower : item.lower = .ok part) :
    ∃ part', item'.lower = .ok part' ∧ part'.1 = part.1 := by
  cases h with
  | hostText span text => exact ⟨part, hlower, rfl⟩
  | block h =>
      rcases h.lower hlower with ⟨js, hjs⟩
      exact ⟨_, hjs, rfl⟩

theorem Swaps.account (h : item.Swaps env item') : item'.account env = item.account env := by
  cases h with
  | hostText span text => rfl
  | block h =>
      exact congrArg Account.sequence
        (Statement.map_of_swaps (fun _ _ hs => h.accountStatement hs) h.statements)

end Item

namespace Document

variable {env : Environment} {d d' : Document}

theorem Swaps.account (h : d.Swaps env d') : d'.account env = d.account env := by
  rw [Document.account, Document.account]
  have hitems : List.Forall₂ (Item.Swaps env) d.items d'.items := h
  have hmap : d'.items.map (Item.account env) = d.items.map (Item.account env) := by
    generalize d.items = items, d'.items = items' at hitems
    induction hitems with
    | nil => rfl
    | cons hitem _ ih => rw [List.map_cons, List.map_cons, hitem.account, ih]
  rw [hmap]

theorem Swaps.indices (h : d.Swaps env d') :
    d'.blocks.map Block.index = d.blocks.map Block.index := by
  have hitems : List.Forall₂ (Item.Swaps env) d.items d'.items := h
  rw [blocks, blocks]
  generalize d.items = items, d'.items = items' at hitems
  induction hitems with
  | nil => rfl
  | cons hitem _ ih =>
      cases hitem with
      | hostText span text => exact ih
      | block h => exact congrArg₂ List.cons h.index ih

theorem Swaps.lower (h : d.Swaps env d') {p : Program} (hlower : d.lower = .ok p) :
    ∃ p', d'.lower = .ok p' ∧ p'.macros = p.macros := by
  have hitems : List.Forall₂ (Item.Swaps env) d.items d'.items := h
  have hparts : ∀ {items items' : List Item} {parts : List (List Macro × List Instruction)},
      List.Forall₂ (Item.Swaps env) items items' → items.mapM Item.lower = .ok parts →
      ∃ parts', items'.mapM Item.lower = .ok parts' ∧ parts'.map Prod.fst = parts.map Prod.fst := by
    intro items items' parts hswaps hlowers
    induction hswaps generalizing parts with
    | nil => exact ⟨parts, hlowers, rfl⟩
    | cons hitem _ ih =>
        rw [List.mapM_cons] at hlowers
        rcases ok_of_bind hlowers with ⟨part, hpart, hrest⟩
        rcases ok_of_bind hrest with ⟨more, hmore, hend⟩
        cases hend
        rcases hitem.lower hpart with ⟨part', hpart', hfirst⟩
        rcases ih hmore with ⟨more', hmore', hfirsts⟩
        refine ⟨part' :: more', by rw [List.mapM_cons, hpart', hmore']; rfl, ?_⟩
        rw [List.map_cons, List.map_cons, hfirst, hfirsts]
  rcases ok_of_bind hlower with ⟨parts, hlowers, hend⟩
  cases hend
  rcases hparts hitems hlowers with ⟨parts', hlowers', hmacros⟩
  refine ⟨_, by rw [Document.lower, hlowers']; rfl, ?_⟩
  rw [hmacros]

end Document

/-! ## Runs -/

namespace Exec

variable {σ : Type}

/-- Both end, or both miss the same variable at the same place, and either way the same chunks
have reached the sink one by one. -/
def EndAlike : EStateM.Result Fault (State σ) Unit → EStateM.Result Fault (State σ) Unit → Prop
  | .ok _ s, .ok _ s' => s'.host.written = s.host.written
  | .error fault s, .error fault' s' =>
      (∃ name span, fault = .error (Undefined.scalar name span).error) ∧ fault' = fault ∧
        s'.host.written = s.host.written
  | _, _ => False

theorem endAlike_of_describes {a : Account} {F : ScopeStack} {s : State σ}
    {r r' : EStateM.Result Fault (State σ) Unit} (h : a.Describes F s r) (h' : a.Describes F s r')
    (hscalar : ∀ u, a.stopped = some u → ∃ name span, u = .scalar name span) : EndAlike r r' := by
  cases r with
  | ok _ t =>
      rcases h with ⟨hgoes, _, htape⟩
      cases r' with
      | error fault t' =>
          rcases h' with ⟨u, hstopped, _⟩
          rw [hgoes] at hstopped
          cases hstopped
      | ok _ t' => exact Array.toList_inj.mp (congrArg Tape.written (h'.2.2.trans htape.symm))
  | error fault t =>
      rcases h with ⟨u, hstopped, rfl, hwritten, _⟩
      cases r' with
      | ok _ t' =>
          rw [h'.1] at hstopped
          cases hstopped
      | error fault' t' =>
          rcases h' with ⟨u', hstopped', rfl, hwritten', _⟩
          rcases hscalar u hstopped with ⟨name, span, rfl⟩
          rw [hstopped] at hstopped'
          cases hstopped'
          exact ⟨⟨name, span, rfl⟩, rfl, Array.toList_inj.mp (hwritten'.trans hwritten.symm)⟩

end Exec

namespace Program

variable {σ : Type} {c : Setting σ}

/-- An operand that has a value, and an array of which that value is the only item, are piped
into a macro to the same effect.  The macro is called once, and what reaches the sink are the
chunks of its body.  So in a whole document the one statement may take the place of the
other. -/
theorem pipes_one_item (hc : c.Plain) {d : Document} {p : Program} (hlower : d.lower = .ok p)
    (hindex : (d.blocks.map Block.index).Nodup) :
    (∀ b ∈ d.blocks, ∀ target : MacroRef, (∃ place, (target.name, place) ∈ b.definitions) →
      ∀ o value, o.evaluate c.environment [] = .text value →
      ∀ array, c.environment.findArray array = some [value] →
      ∀ span is js, (Expression.pipe (.operand o) target).lower b.index = .ok is →
      (Expression.pipe (.array span array) target).lower b.index = .ok js →
      let run := Exec.runFragment c (Exec.callMacro c p.macros (Exec.callDepth p.macros))
      let applied := b.accountItem c.environment target.name 0 value
      applied.calls = 1 ∧ ∀ s : State σ, s.frames = [] →
        applied.Describes [] s (run is s) ∧ applied.Describes [] s (run js s) ∧
        Exec.EndAlike (run is s) (run js s)) ∧
    ∀ d' : Document, d.Swaps c.environment d' → ∃ p', d'.lower = .ok p' ∧ ∀ world : σ,
      (p'.run c world).state.host.written = (p.run c world).state.host.written ∧
      (p'.run c world).failure = (p.run c world).failure := by
  constructor
  · intro b hb target hdefined o value hvalue array harray span is js his hjs run applied
    rcases hdefined with ⟨place, hdefinition⟩
    have hresolves := Document.resolves_of_definition hlower hindex hb hdefinition
    have hruns : ∀ {e : Expression} {is : List Instruction}, e.lower b.index = .ok is →
        (Statement.expression e).call? = some target →
        Exec.Keeps [] [] (run is) (b.accountExpression c.environment e) := by
      intro e is he hcall
      refine Exec.keeps_fragment (Exec.kept_expression hc he fun target' htarget' => ?_)
      rw [hcall] at htarget'
      cases htarget'
      exact hresolves
    have hoperand : Exec.Keeps [] [] (run is) applied := by
      have h := hruns his rfl
      rwa [Block.account_operand_pipe hvalue] at h
    have harrays : Exec.Keeps [] [] (run js) applied := by
      have h := hruns hjs rfl
      rwa [Block.account_array_pipe harray] at h
    rcases hresolves with ⟨pattern, body, m, hfind, _⟩
    rcases Block.accountMacro_calls hfind c.environment
      [(Binding.index, toString 0), (Binding.item, value)] with ⟨hcalls, hscalar⟩
    refine ⟨hcalls, fun s hs => ?_⟩
    exact ⟨hoperand s hs, harrays s hs,
      Exec.endAlike_of_describes (hoperand s hs) (harrays s hs) hscalar⟩
  · intro d' hswaps
    rcases hswaps.lower hlower with ⟨p', hlower', _⟩
    refine ⟨p', hlower', fun world => ?_⟩
    have hfollows := run_follows hc hlower hindex world
    have hfollows' := run_follows hc hlower' (hswaps.indices ▸ hindex) world
    rw [hswaps.account] at hfollows'
    exact ⟨Array.toList_inj.mp (hfollows'.chunks.trans hfollows.chunks.symm),
      hfollows'.failure.trans hfollows.failure.symm⟩

/-- An empty value, where a global variable has the name of the binding and the body misses a
variable after two chunks. -/
theorem pipes_one_item_empty :
    let c : Setting Unit := ⟨"m", ⟨[("x", ""), ("_item_", "global")], [("a", [""])]⟩,
      Registry.empty, Sink.accepting, false⟩
    let s : Span := ⟨0, 0, 1, 1⟩
    let document (source : Source) : Document := ⟨s, [.block ⟨s, 0, [
      .definition s "m" (.string s "<$(_item_)>") (.string s "$(_)$(_index_)$(u)"),
      .expression (.pipe source ⟨s, "m"⟩)]⟩]⟩
    let d := document (.operand (.identifier s "x"))
    c.Plain ∧ (d.blocks.map Block.index).Nodup ∧
      d.account c.environment = ⟨["<>", "0"], 1, some (.scalar "u" ⟨15, 19, 1, 16⟩)⟩ ∧
      ∃ p p', d.lower = .ok p ∧ (document (.array s "a")).lower = .ok p' ∧
        (p'.run c ()).state.host.written = (p.run c ()).state.host.written ∧
        (p'.run c ()).failure = (p.run c ()).failure := by
  intro c s document d
  have hc : c.Plain := ⟨rfl, fun _ _ => rfl⟩
  have hindex : (d.blocks.map Block.index).Nodup := by decide
  rcases exists_of_isOk (x := d.lower) (by decide +kernel) with ⟨p, hp⟩
  have hvalue : (Operand.identifier s "x").evaluate c.environment [] = .text "" := by
    decide +kernel
  have harray : c.environment.findArray "a" = some [""] := by decide +kernel
  have hitem : Statement.Swaps c.environment
      (.expression (.pipe (.operand (.identifier s "x")) ⟨s, "m"⟩))
      (.expression (.pipe (.array s "a") ⟨s, "m"⟩)) :=
    .item hvalue harray s ⟨s, "m"⟩
  have hswaps : d.Swaps c.environment (document (.array s "a")) :=
    .cons (.block ⟨rfl, .cons (.same _) (.cons hitem .nil)⟩) .nil
  rcases (pipes_one_item hc hp hindex).2 _ hswaps with ⟨p', hp', hruns⟩
  exact ⟨hc, hindex, by decide +kernel, p, p', hp, hp', hruns ()⟩

end Program

end Stencil
