import Stencil.Proofs.Layout

/-!
# The shape of lowered programs

The instructions of a program are those of the parts of its document, group by group, in
the order of the source.  The instructions of a part stand inside of it, and the brackets
that they open they close again, so that brackets are nested in the whole program too.
The table of macros holds the definitions of the document and nothing else, and a call
finds there the one definition of its name in its own block.
-/

namespace Stencil

/-! ## Brackets -/

namespace Operation

/-- A bracket that opens, and one that closes it. -/
inductive Pairs : Operation → Operation → Prop where
  | iteration (array : String) : Pairs (.beginArrayIter array) .endArrayIter
  | call (name : String) (block : Nat) :
      Pairs (.act (.beginMacroCall name block)) (.act .endMacroCall)
  | scope : Pairs (.act .pushScope) (.act .popScope)
  | capture (name : String) : Pairs (.act .beginCapture) (.act (.endCapture name))

end Operation

/-- Every bracket is closed by one of its kind, inside of the brackets around it. -/
inductive Nested : List Instruction → Prop where
  | nil : Nested []
  | plain {i : Instruction} {rest : List Instruction} (hopens : i.operation.opens = false)
      (hcloses : i.operation.closes = false) (hrest : Nested rest) : Nested (i :: rest)
  | pair {opening closing : Instruction} {body rest : List Instruction}
      (hpairs : opening.operation.Pairs closing.operation) (hbody : Nested body)
      (hrest : Nested rest) : Nested (opening :: (body ++ closing :: rest))

/-- A macro call is closed as soon as it is opened. -/
def CallsClosed (is : List Instruction) : Prop :=
  ∀ before opening after name block, is = before ++ opening :: after →
    opening.operation = .act (.beginMacroCall name block) →
    ∃ closing rest, after = closing :: rest ∧ closing.operation = .act .endMacroCall ∧
      closing.span = opening.span

namespace Instruction

/-- The instruction emits a text or a variable. -/
def Emits (i : Instruction) : Prop :=
  (∃ text, i.operation = .act (.emitLiteral text)) ∨ ∃ name, i.operation = .act (.emitVar name)

/-- The instruction has a place inside of a span. -/
def StandsIn (i : Instruction) (outer : Span) : Prop :=
  ∃ s, i.span = some s ∧ s.Inside outer

def Calls (i : Instruction) (name : String) (block : Nat) : Prop :=
  i.operation = .act (.beginMacroCall name block)

/-- The only macro that the instruction may call is this one, in a block of this number. -/
def CallsOnly (called : Option MacroRef) (block : Nat) (i : Instruction) : Prop :=
  ∀ name number, i.Calls name number →
    ∃ target, called = some target ∧ name = target.name ∧ number = block

/-- The instruction belongs to what stands in a span, and calls no macro but `called`, in a
block of this number. -/
structure Belongs (i : Instruction) (outer : Span) (called : Option MacroRef)
    (block : Nat) : Prop where
  standsIn : i.StandsIn outer
  calls : i.CallsOnly called block

variable {i : Instruction} {outer outer' : Span}

theorem CallsOnly.of_not_calls {called : Option MacroRef} {block : Nat}
    (hcalls : ∀ name number, ¬i.Calls name number) : i.CallsOnly called block :=
  fun name number h => absurd h (hcalls name number)

theorem StandsIn.mono (h : i.StandsIn outer) (hinside : outer.Inside outer') :
    i.StandsIn outer' := by
  rcases h with ⟨s, hs, houter⟩
  exact ⟨s, hs, houter.trans hinside⟩

end Instruction

section Brackets

variable {xs ys : List Instruction} {i : Instruction}

theorem Nested.append (hxs : Nested xs) (hys : Nested ys) : Nested (xs ++ ys) := by
  induction hxs with
  | nil => exact hys
  | plain hopens hcloses _ ih => exact .plain hopens hcloses ih
  | @pair opening closing body rest hpairs hbody _ _ ih =>
      have hpair : Nested (opening :: (body ++ closing :: (rest ++ ys))) :=
        .pair hpairs hbody ih
      simpa using hpair

theorem nested_of_emits (h : ∀ i ∈ xs, i.Emits) : Nested xs := by
  induction xs with
  | nil => exact .nil
  | cons i xs ih =>
      have hrest := ih fun j hj => h j (List.mem_cons_of_mem _ hj)
      rcases h i List.mem_cons_self with ⟨text, hi⟩ | ⟨name, hi⟩
      · exact .plain (by rw [hi]; rfl) (by rw [hi]; rfl) hrest
      · exact .plain (by rw [hi]; rfl) (by rw [hi]; rfl) hrest

theorem callsClosed_nil : CallsClosed [] := by
  intro before opening after name block hsplit
  exact absurd hsplit.symm (List.append_ne_nil_of_right_ne_nil before (List.cons_ne_nil _ _))

theorem CallsClosed.append (hxs : CallsClosed xs) (hys : CallsClosed ys) :
    CallsClosed (xs ++ ys) := by
  intro before opening after name block hsplit hopening
  rcases List.append_eq_append_iff.mp hsplit with ⟨mid, rfl, hys'⟩ | ⟨mid, rfl, hmid⟩
  · exact hys mid opening after name block hys' hopening
  · cases mid with
    | nil => exact hys [] opening after name block hmid.symm hopening
    | cons first mid =>
        cases hmid
        rcases hxs before opening mid name block rfl hopening with ⟨closing, rest, rfl, hclosing⟩
        exact ⟨closing, rest ++ ys, rfl, hclosing⟩

theorem callsClosed_cons (hi : ∀ name block, ¬i.Calls name block) (hxs : CallsClosed xs) :
    CallsClosed (i :: xs) := by
  intro before opening after name block hsplit hopening
  cases before with
  | nil =>
      cases hsplit
      exact absurd hopening (hi name block)
  | cons first before =>
      cases hsplit
      exact hxs before opening after name block rfl hopening

theorem not_calls_of_emits (h : i.Emits) (name : String) (block : Nat) :
    ¬i.Calls name block := by
  intro hcalls
  rcases h with ⟨text, hi⟩ | ⟨other, hi⟩
  · cases hcalls.symm.trans hi
  · cases hcalls.symm.trans hi

theorem callsClosed_of_none (h : ∀ i ∈ xs, ∀ name block, ¬i.Calls name block) :
    CallsClosed xs := by
  induction xs with
  | nil => exact callsClosed_nil
  | cons i xs ih =>
      exact callsClosed_cons (h i List.mem_cons_self)
        (ih fun j hj => h j (List.mem_cons_of_mem _ hj))

/-- Both at once. -/
structure Bracketed (is : List Instruction) : Prop where
  nested : Nested is
  callsClosed : CallsClosed is

theorem bracketed_nil : Bracketed [] :=
  ⟨.nil, callsClosed_nil⟩

theorem Bracketed.append (hxs : Bracketed xs) (hys : Bracketed ys) : Bracketed (xs ++ ys) :=
  ⟨hxs.nested.append hys.nested, hxs.callsClosed.append hys.callsClosed⟩

theorem bracketed_flatten {groups : List (List Instruction)}
    (h : ∀ group ∈ groups, Bracketed group) : Bracketed groups.flatten := by
  induction groups with
  | nil => exact bracketed_nil
  | cons group groups ih =>
      rw [List.flatten_cons]
      exact (h group List.mem_cons_self).append
        (ih fun other hother => h other (List.mem_cons_of_mem _ hother))

theorem bracketed_of_emits (h : ∀ i ∈ xs, i.Emits) : Bracketed xs :=
  ⟨nested_of_emits h, callsClosed_of_none fun i hi => not_calls_of_emits (h i hi)⟩

/-- Brackets other than those of a call, around others. -/
theorem Bracketed.pair (hxs : Bracketed xs) (opening closing : Instruction)
    (hpairs : opening.operation.Pairs closing.operation)
    (hopening : ∀ name block, ¬opening.Calls name block) :
    Bracketed (opening :: (xs ++ [closing])) where
  nested := .pair hpairs hxs.nested .nil
  callsClosed := by
    have hclosing : ∀ name block, ¬closing.Calls name block := by
      intro name block hcalls
      rw [hcalls] at hpairs
      generalize opening.operation = operation at hpairs
      cases hpairs
    exact callsClosed_cons hopening
      (hxs.callsClosed.append (callsClosed_cons hclosing callsClosed_nil))

end Brackets

/-! ## Operands and calls -/

namespace Operand

variable {o : Operand} {is : List Instruction}

theorem emits_of_lower (h : o.lower = .ok is) : ∀ i ∈ is, i.Emits := by
  intro i hi
  cases o with
  | identifier span name =>
      cases h
      rw [List.mem_singleton.mp hi]
      exact .inr ⟨name, rfl⟩
  | string literal raw =>
      rcases fits_of_lower h with ⟨ps, rfl, _⟩
      rcases List.mem_map.mp hi with ⟨piece, _, rfl⟩
      cases piece with
      | text start stop value => exact .inl ⟨_, rfl⟩
      | interpolation start stop name => exact .inr ⟨_, rfl⟩

theorem inside_of_slice {source : List Char} {literal : Span} {raw : String}
    (hspan : literal.Within source) (htext : literal.text source = '"' :: (raw.toList ++ ['"']))
    {start stop : Nat} (hstop : stop ≤ raw.toList.length) :
    (literal.slice (start + 1) (stop + 1)).Inside literal := by
  have hlength := congrArg List.length htext
  simp only [Span.text, List.length_take, List.length_drop, List.length_cons,
    List.length_append, List.length_nil] at hlength
  have hbounded := hspan.bounded
  constructor
  · simp only [Span.slice]
    omega
  · simp only [Span.slice]
    omega

theorem standsIn_of_lower {source : List Char} (ho : o.Written source) (h : o.lower = .ok is) :
    ∀ i ∈ is, i.StandsIn o.span := by
  intro i hi
  cases ho with
  | @identifier span name _ _ =>
      cases h
      rw [List.mem_singleton.mp hi]
      exact ⟨span, rfl, .refl span⟩
  | string hspan htext _ =>
      rcases fits_of_lower h with ⟨ps, rfl, hfits⟩
      rcases List.mem_map.mp hi with ⟨piece, hpiece, rfl⟩
      have hpieceFits := hfits piece hpiece
      cases piece with
      | text start stop value =>
          exact ⟨_, rfl, inside_of_slice hspan htext hpieceFits.2.2⟩
      | interpolation start stop name =>
          exact ⟨_, rfl, inside_of_slice hspan htext hpieceFits.2.2.1⟩

end Operand

namespace MacroRef

theorem bracketed_lower (target : MacroRef) (block : Nat) : Bracketed (target.lower block) where
  nested := @Nested.pair _ _ [] [] (.call target.name block) .nil .nil
  callsClosed := by
    intro before opening after name block' hsplit hopening
    cases before with
    | nil =>
        cases hsplit
        exact ⟨_, _, rfl, rfl, rfl⟩
    | cons first before =>
        have hclosing := (List.cons.inj hsplit).2
        have hmem : opening ∈ [Instruction.of .endMacroCall target.span] := by
          rw [hclosing]
          simp
        rw [List.mem_singleton.mp hmem] at hopening
        cases hopening

end MacroRef

/-! ## Statements -/

namespace Expression

variable {e : Expression} {block : Nat} {is : List Instruction}

theorem bracketed_lower (h : e.lower block = .ok is) : Bracketed is := by
  cases e with
  | plain source =>
      cases source with
      | operand o => exact bracketed_of_emits (Operand.emits_of_lower h)
      | array span name =>
          cases h
          have hitem : Bracketed [.of (.emitVar Binding.item) span] :=
            bracketed_of_emits fun i hi => by
              rw [List.mem_singleton.mp hi]
              exact .inr ⟨_, rfl⟩
          exact hitem.pair _ _ (.iteration name) nofun
  | pipe source target =>
      cases source with
      | operand o =>
          rcases ok_of_bind h with ⟨value, hvalue, hend⟩
          cases hend
          have hitem := (bracketed_of_emits (Operand.emits_of_lower hvalue)).pair
            (.of .beginCapture o.span) (.of (.endCapture Binding.item) o.span) (.capture _) nofun
          have hzero : Bracketed [.of (.emitLiteral "0") o.span] :=
            bracketed_of_emits fun i hi => by
              rw [List.mem_singleton.mp hi]
              exact .inl ⟨_, rfl⟩
          have hindex := hzero.pair (.of .beginCapture o.span)
            (.of (.endCapture Binding.index) o.span) (.capture _) nofun
          have hscope := ((hitem.append hindex).append (target.bracketed_lower block)).pair
            (.of .pushScope o.span) (.of .popScope o.span) .scope nofun
          simpa using hscope
      | array span name =>
          cases h
          exact (target.bracketed_lower block).pair _ _ (.iteration name) nofun

/-- What holds of the instructions of the operand and of the call holds of all, if it holds of
those that are put around them. -/
theorem forall_of_lower {P : Instruction → Prop} (h : e.lower block = .ok is)
    (hoperand : ∀ o value, e.source = .operand o → o.lower = .ok value → ∀ i ∈ value, P i)
    (haround : ∀ operation : Operation,
      (∀ name number, operation ≠ .act (.beginMacroCall name number)) →
      P ⟨operation, e.source.span⟩)
    (hcall : ∀ target, (Statement.expression e).call? = some target →
      ∀ i ∈ target.lower block, P i) : ∀ i ∈ is, P i := by
  have hhere {operation : Operation}
      (hcalls : ∀ name number, operation ≠ .act (.beginMacroCall name number)) :
      P ⟨operation, e.source.span⟩ := haround operation hcalls
  cases e with
  | plain origin =>
      cases origin with
      | operand o => exact hoperand o is rfl h
      | array span name =>
          cases h
          simp only [List.forall_mem_cons]
          exact ⟨hhere (by simp), hhere (by simp), hhere (by simp), by simp⟩
  | pipe origin target =>
      have htarget := hcall target rfl
      cases origin with
      | operand o =>
          rcases ok_of_bind h with ⟨value, hvalue, hend⟩
          cases hend
          have hitem := hoperand o value rfl hvalue
          simp only [List.forall_mem_append, List.forall_mem_cons]
          exact ⟨⟨⟨⟨⟨hhere (by simp), hhere (by simp), by simp⟩, hitem⟩,
            hhere (by simp), hhere (by simp), hhere (by simp), hhere (by simp), by simp⟩, htarget⟩,
            hhere (by simp), by simp⟩
      | array span name =>
          cases h
          simp only [List.forall_mem_append, List.forall_mem_cons]
          exact ⟨hhere (by simp), htarget, hhere (by simp), by simp⟩

theorem callsOnly_of_lower (h : e.lower block = .ok is) :
    ∀ i ∈ is, i.CallsOnly (Statement.expression e).call? block := by
  refine forall_of_lower h ?_ ?_ ?_
  · intro o value _ hvalue i hi
    exact .of_not_calls (not_calls_of_emits (Operand.emits_of_lower hvalue i hi))
  · intro operation hcalls
    exact .of_not_calls hcalls
  · intro target htarget
    rw [MacroRef.lower, List.forall_mem_cons, List.forall_mem_singleton]
    refine ⟨?_, .of_not_calls (by simp [Instruction.Calls, Instruction.of])⟩
    intro name number hcalls
    cases hcalls
    exact ⟨target, htarget, rfl, rfl⟩

theorem standsIn_of_lower {source : List Char} {outer : Span}
    (hspans : ∀ s ∈ e.spans, s.Inside outer)
    (hoperands : ∀ o ∈ e.source.operands, o.Written source) (h : e.lower block = .ok is) :
    ∀ i ∈ is, i.StandsIn outer := by
  have hsource : e.source.span.Inside outer := by
    cases e with
    | plain origin => exact hspans _ List.mem_cons_self
    | pipe origin target => exact hspans _ (by simp [spans, Expression.source])
  refine forall_of_lower h ?_ (fun operation _ => ⟨_, rfl, hsource⟩) ?_
  · intro o value ho hvalue i hi
    rw [ho] at hsource hoperands
    exact (Operand.standsIn_of_lower (hoperands o List.mem_cons_self) hvalue i hi).mono hsource
  · intro target htarget
    have hinside : target.span.Inside outer := by
      cases e with
      | plain origin => cases htarget
      | pipe origin other =>
          cases htarget
          exact hspans _ (by simp [spans])
    rw [MacroRef.lower, List.forall_mem_cons, List.forall_mem_singleton]
    exact ⟨⟨_, rfl, hinside⟩, _, rfl, hinside⟩

/-- Every instruction stands inside of the expression, and the only macro that is called is
the one that the expression names. -/
theorem belongs_of_lower {source : List Char} {outer : Span}
    (hspans : ∀ s ∈ e.spans, s.Inside outer)
    (hoperands : ∀ o ∈ e.source.operands, o.Written source) (h : e.lower block = .ok is) :
    ∀ i ∈ is, i.Belongs outer (Statement.expression e).call? block :=
  fun i hi => ⟨standsIn_of_lower hspans hoperands h i hi, callsOnly_of_lower h i hi⟩

end Expression

namespace Statement

variable {s : Statement} {block : Nat} {is : List Instruction}

theorem bracketed_lower (h : s.lower block = .ok is) : Bracketed is := by
  cases s with
  | comment span text =>
      cases h
      exact ⟨.plain rfl rfl .nil, callsClosed_cons nofun callsClosed_nil⟩
  | definition span name pattern body =>
      cases h
      exact bracketed_nil
  | expression e => exact Expression.bracketed_lower h

theorem belongs_of_lower {source : List Char} {outer : Span}
    (hspans : ∀ t ∈ s.spans, t.Inside outer) (hoperands : ∀ o ∈ s.operands, o.Written source)
    (h : s.lower block = .ok is) : ∀ i ∈ is, i.Belongs outer s.call? block := by
  cases s with
  | comment span text =>
      cases h
      simp only [List.forall_mem_cons]
      exact ⟨⟨⟨span, rfl, hspans span List.mem_cons_self⟩, .of_not_calls nofun⟩, by simp⟩
  | definition span name pattern body =>
      cases h
      simp
  | expression e =>
      exact Expression.belongs_of_lower
        (fun t ht => hspans t (List.mem_cons_of_mem _ ht)) hoperands h

end Statement

/-! ## Parts -/

namespace Part

def isDefinition : Part → Bool
  | statement _ (.definition _ _ _ _) => true
  | _ => false

/-- The instructions of a part. -/
def code : Part → Except SemanticError (List Instruction)
  | hostText span text => .ok (if text = "" then [] else [.of (.emitLiteral text) span])
  | statement b s => s.lower b.index

/-- The macro that a part defines, if it defines one. -/
def toMacro : Part → Except SemanticError (Option Macro)
  | hostText _ _ => .ok none
  | statement b s => s.toMacro b.index

theorem bracketed_code {part : Part} {group : List Instruction} (h : part.code = .ok group) :
    Bracketed group := by
  cases part with
  | statement b s => exact Statement.bracketed_lower h
  | hostText span text =>
      cases h
      split
      · exact bracketed_nil
      · exact ⟨.plain rfl rfl .nil, callsClosed_cons nofun callsClosed_nil⟩

/-- A part of a document defines this macro, which emits texts and variables that stand in
the definition. -/
structure Defines (part : Part) (m : Macro) : Prop where
  lowered : part.toMacro = .ok (some m)
  span : m.span = some part.span
  emits : ∀ i ∈ m.pattern ++ m.body, i.Emits
  inside : ∀ i ∈ m.pattern ++ m.body, i.StandsIn part.span

theorem defines_of_toMacro {part : Part} {m : Macro} {source : List Char}
    (hinside : ∀ s ∈ part.spans, s.Inside part.span)
    (hoperands : ∀ b s, part = .statement b s → ∀ o ∈ s.operands, o.Written source)
    (h : part.toMacro = .ok (some m)) : part.Defines m := by
  cases part with
  | hostText span text => cases h
  | statement b s =>
      cases s with
      | comment span text => cases h
      | expression e => cases h
      | definition span name pattern body =>
          have hparts := h
          rcases ok_of_bind h with ⟨patternCode, hpattern, hrest⟩
          rcases ok_of_bind hrest with ⟨bodyCode, hbody, hend⟩
          cases hend
          have hwritten := hoperands b _ rfl
          have hpatternStands := Operand.standsIn_of_lower (hwritten _ List.mem_cons_self) hpattern
          have hbodyStands := Operand.standsIn_of_lower
            (hwritten body (by simp [Statement.operands])) hbody
          have hpatternInside := hinside pattern.span (by simp [spans, Statement.spans])
          have hbodyInside := hinside body.span (by simp [spans, Statement.spans])
          refine ⟨hparts, rfl, ?_, ?_⟩
          · exact List.forall_mem_append.mpr
              ⟨Operand.emits_of_lower hpattern, Operand.emits_of_lower hbody⟩
          · exact List.forall_mem_append.mpr
              ⟨fun i hi => (hpatternStands i hi).mono hpatternInside,
                fun i hi => (hbodyStands i hi).mono hbodyInside⟩

end Part

/-! ## Documents -/

namespace Statement

variable {b : Block} {ss : List Statement}

theorem groups_of_lower {codes : List (List Instruction)}
    (h : List.Forall₂ (fun s code => s.lower b.index = .ok code) ss codes) :
    ∃ groups, codes.flatten = groups.flatten ∧
      List.Forall₂ (fun part group => part.code = .ok group)
        ((ss.map (Part.statement b)).filter (!·.isDefinition)) groups := by
  induction h with
  | nil => exact ⟨[], rfl, .nil⟩
  | @cons s code ss codes hs _ ih =>
      rcases ih with ⟨groups, hcodes, hgroups⟩
      rw [List.flatten_cons, hcodes]
      cases s with
      | comment span text => exact ⟨code :: groups, rfl, .cons hs hgroups⟩
      | expression e => exact ⟨code :: groups, rfl, .cons hs hgroups⟩
      | definition span name pattern body =>
          cases hs
          exact ⟨groups, rfl, hgroups⟩

theorem macros_of_toMacro {found : List (Option Macro)}
    (h : List.Forall₂ (fun s m => s.toMacro b.index = .ok m) ss found) :
    List.Forall₂ (fun part m => part.toMacro = .ok (some m))
      ((ss.map (Part.statement b)).filter (·.isDefinition)) (found.filterMap id) := by
  induction h with
  | nil => exact .nil
  | @cons s m ss found hs _ ih =>
      cases s with
      | comment span text =>
          cases hs
          exact ih
      | expression e =>
          cases hs
          exact ih
      | definition span name pattern body =>
          rcases defines_of_toMacro hs with ⟨m, rfl, _⟩
          exact .cons hs ih

end Statement

namespace Document

variable {items : List Item} {parts : List (List Macro × List Instruction)}

theorem groups_of_lower
    (h : List.Forall₂ (fun item part => item.lower = .ok part) items parts) :
    ∃ groups, (parts.map Prod.snd).flatten = groups.flatten ∧
      List.Forall₂ (fun part group => part.code = .ok group)
        ((items.flatMap Item.parts).filter (!·.isDefinition)) groups := by
  induction h with
  | nil => exact ⟨[], rfl, .nil⟩
  | @cons item part items parts hitem _ ih =>
      rcases ih with ⟨groups, hcodes, hgroups⟩
      rw [List.map_cons, List.flatten_cons, hcodes, List.flatMap_cons, List.filter_append]
      cases item with
      | hostText span text =>
          cases hitem
          exact ⟨_ :: groups, rfl, .cons rfl hgroups⟩
      | block b =>
          rcases (Block.lowered_of_lower hitem).code with ⟨codes, hblock, hcode⟩
          rcases Statement.groups_of_lower hblock with ⟨first, hfirst, hforall⟩
          refine ⟨first ++ groups, ?_, List.rel_append hforall hgroups⟩
          rw [hcode, hfirst, List.flatten_append]

theorem macros_of_lower
    (h : List.Forall₂ (fun item part => item.lower = .ok part) items parts) :
    List.Forall₂ (fun part m => part.toMacro = .ok (some m))
      ((items.flatMap Item.parts).filter (·.isDefinition)) (parts.map Prod.fst).flatten := by
  induction h with
  | nil => exact .nil
  | @cons item part items parts hitem _ ih =>
      rw [List.map_cons, List.flatten_cons, List.flatMap_cons, List.filter_append]
      refine List.rel_append ?_ ih
      cases item with
      | hostText span text =>
          cases hitem
          exact .nil
      | block b =>
          rcases (Block.lowered_of_lower hitem).macros with ⟨found, hfound, hmacros⟩
          rw [hmacros]
          exact Statement.macros_of_toMacro hfound

end Document

namespace MacroTable

theorem insert_of_fresh {m : Macro} {es : List Macro}
    (hfresh : ∀ e ∈ es, e.hasKey m.block m.name = false) : insert m es = es ++ [m] := by
  induction es with
  | nil => rfl
  | cons e es ih =>
      rw [insert, if_neg (by rw [hfresh e List.mem_cons_self]; exact Bool.false_ne_true),
        ih fun e' he' => hfresh e' (List.mem_cons_of_mem _ he')]
      rfl

/-- Macros of distinct keys are held in the order in which they are defined. -/
theorem entries_foldl_define {table : MacroTable} {ms : List Macro}
    (hkeys : ((table.entries ++ ms).map Macro.key).Nodup) :
    (ms.foldl define table).entries = table.entries ++ ms := by
  induction ms generalizing table with
  | nil => rw [List.append_nil]; rfl
  | cons m ms ih =>
      have hfresh : ∀ e ∈ table.entries, e.hasKey m.block m.name = false := by
        intro e he
        rw [← Bool.not_eq_true, Macro.hasKey_iff]
        rw [List.map_append, List.nodup_append] at hkeys
        exact hkeys.2.2 _ (List.mem_map_of_mem he) _ List.mem_cons_self
      have hdefine : (table.define m).entries = table.entries ++ [m] := insert_of_fresh hfresh
      rw [List.foldl_cons, ih, hdefine, List.append_assoc]
      · rfl
      · rw [hdefine, List.append_assoc]
        exact hkeys

theorem entries_ofList {ms : List Macro} (hkeys : (ms.map Macro.key).Nodup) :
    (ofList ms).entries = ms :=
  @entries_foldl_define empty ms hkeys

end MacroTable

namespace Block

/-- The block defines the name once, and the table holds what it defines under it. -/
structure Names (b : Block) (macros : MacroTable) (name : String) : Prop where
  once : (b.definitions.map Prod.fst).count name = 1
  found : ∃ span pattern body m, Statement.definition span name pattern body ∈ b.statements ∧
    (Statement.definition span name pattern body).toMacro b.index = .ok (some m) ∧
    macros.get? b.index name = some m

end Block

namespace Part

/-- A part yields a group of instructions: they stand in the part, and the only macro that
they call is the one the part names, which its own block defines. -/
structure Yields (macros : MacroTable) (part : Part) (group : List Instruction) : Prop where
  lowered : part.code = .ok group
  inside : ∀ i ∈ group, i.StandsIn part.span
  resolved : ∀ i ∈ group, ∀ name number, i.Calls name number →
    ∃ b s target, part = .statement b s ∧ s.call? = some target ∧ name = target.name ∧
      number = b.index ∧ b.Names macros name

theorem yields_of_code {part : Part} {group : List Instruction} {source : List Char}
    {macros : MacroTable} (hinside : ∀ s ∈ part.spans, s.Inside part.span)
    (hoperands : ∀ b s, part = .statement b s → ∀ o ∈ s.operands, o.Written source)
    (hnames : ∀ b s target, part = .statement b s → s.call? = some target →
      b.Names macros target.name)
    (h : part.code = .ok group) : part.Yields macros group := by
  cases part with
  | hostText span text =>
      cases h
      refine ⟨rfl, ?_, ?_⟩
      · intro i hi
        split at hi
        · cases hi
        · rw [List.mem_singleton.mp hi]
          exact ⟨span, rfl, .refl span⟩
      · intro i hi name number hcalls
        split at hi
        · cases hi
        · rw [List.mem_singleton.mp hi] at hcalls
          cases hcalls
  | statement b s =>
      have hbelongs := Statement.belongs_of_lower hinside (hoperands b s rfl) h
      refine ⟨h, fun i hi => (hbelongs i hi).standsIn, ?_⟩
      intro i hi name number hcalls
      rcases (hbelongs i hi).calls name number hcalls with ⟨target, hcall, rfl, rfl⟩
      exact ⟨b, s, target, rfl, hcall, rfl, rfl, hnames b s target rfl hcall⟩

end Part

namespace Document

theorem names_of_lower {document : Document} {p : Program} (h : document.lower = .ok p)
    (hindex : (document.blocks.map Block.index).Nodup) {b : Block}
    (hb : b ∈ document.blocks) {target : MacroRef} (htarget : target ∈ b.calls) :
    b.Names p.macros target.name := by
  rcases parts_of_lower h with ⟨parts, hparts, _, htable⟩
  rcases lowered_of_mem hparts (mem_items_of_mem_blocks hb) with ⟨ms, is, hlowered, hsubset⟩
  rcases hlowered.defined target htarget with ⟨_, hdefinition⟩
  constructor
  · exact List.count_eq_one_of_mem hlowered.distinct (List.mem_map_of_mem hdefinition)
  · rcases Block.findMacro_of_mem_definitions hdefinition with
      ⟨pattern, body, _, span, hstatement⟩
    rcases hlowered.macros with ⟨found, hfound, rfl⟩
    rcases exists_of_mem_of_forall₂ hfound.flip hstatement with ⟨entry, hentry, hmacro⟩
    rcases Statement.defines_of_toMacro hmacro with ⟨m, rfl, hname, hblock, _⟩
    refine ⟨span, pattern, body, m, hstatement, hmacro, ?_⟩
    rw [htable, ← hblock, ← hname]
    apply MacroTable.get?_ofList_of_mem (nodup_keys hparts document.span hindex)
    exact hsubset (List.mem_filterMap.mpr ⟨some m, hentry, rfl⟩)

/-- What a program has of its document. -/
structure Mirrored (document : Document) (p : Program) : Prop where
  /-- One group of instructions for each part but the definitions. -/
  groups : ∃ groups, p.instructions = groups.flatten ∧
    List.Forall₂ (Part.Yields p.macros) (document.parts.filter (!·.isDefinition)) groups
  /-- The parts stand in the order of the source. -/
  ordered : document.parts.Pairwise fun first second => first.span.stop ≤ second.span.start
  numbered : document.blocks.map Block.index = List.range document.blocks.length
  nested : Nested p.instructions
  callsClosed : CallsClosed p.instructions
  /-- One macro for each definition. -/
  table : List.Forall₂ Part.Defines (document.parts.filter (·.isDefinition)) p.macros.entries
  keys : (p.macros.entries.map Macro.key).Nodup

/-- Whatever document is read from a source, the program it is lowered to mirrors it. -/
theorem lowers_in_groups (source : String) (document : Document) (p : Program)
    (hread : ofTokens (tokenize source) = .ok document) (hlower : document.lower = .ok p) :
    document.Mirrored p := by
  rcases parts_inside hread with ⟨hinside, hordered⟩
  have hwritten := written_of_ofTokens hread
  have hindex := nodup_index_of_ofTokens hread
  rcases parts_of_lower hlower with ⟨parts, hparts, hinstructions, hmacros⟩
  have hkeys := nodup_keys hparts document.span hindex
  have hentries : p.macros.entries = (parts.map Prod.fst).flatten := by
    rw [hmacros, MacroTable.entries_ofList hkeys]
  have hoperands : ∀ part ∈ document.parts, ∀ b s, part = .statement b s →
      ∀ o ∈ s.operands, o.Written source.toList := by
    rintro part hpart b s rfl
    rcases mem_parts.mp hpart with ⟨hb, hs⟩
    exact (hwritten.statement (mem_items_of_mem_blocks hb) s hs).operands
  have hnames : ∀ part ∈ document.parts, ∀ b s target, part = .statement b s →
      s.call? = some target → b.Names p.macros target.name := by
    rintro part hpart b s target rfl hcall
    rcases mem_parts.mp hpart with ⟨hb, hs⟩
    exact names_of_lower hlower hindex hb (List.mem_filterMap.mpr ⟨s, hs, hcall⟩)
  rcases groups_of_lower hparts with ⟨groups, hcodes, hgroups⟩
  rw [hcodes] at hinstructions
  have hbracketed : Bracketed p.instructions := by
    rw [hinstructions]
    apply bracketed_flatten
    intro group hgroup
    rcases exists_of_mem_of_forall₂ hgroups hgroup with ⟨part, _, hcode⟩
    exact Part.bracketed_code hcode
  have hyields : List.Forall₂ (Part.Yields p.macros)
      (document.parts.filter (!·.isDefinition)) groups := by
    have hboth := (List.forall₂_and_left _ _).mpr
      ⟨fun part h => List.mem_of_mem_filter h, hgroups⟩
    refine hboth.imp fun part group h => ?_
    exact Part.yields_of_code (hinside part h.1) (hoperands part h.1) (hnames part h.1) h.2
  have hdefines : List.Forall₂ Part.Defines (document.parts.filter (·.isDefinition))
      p.macros.entries := by
    rw [hentries]
    have hboth := (List.forall₂_and_left _ _).mpr
      ⟨fun part h => List.mem_of_mem_filter h, macros_of_lower hparts⟩
    refine hboth.imp fun part m h => ?_
    exact Part.defines_of_toMacro (hinside part h.1) (hoperands part h.1) h.2
  exact
    { groups := ⟨groups, hinstructions, hyields⟩
      ordered := hordered
      numbered := index_of_read (read_of_ofTokens hread)
      nested := hbracketed.nested
      callsClosed := hbracketed.callsClosed
      table := hdefines
      keys := by rwa [hentries] }

/-- A text, and an array piped into a macro that is defined after the call. -/
theorem array_pipe_in_groups :
    let source := "a\x7b\x7b x[:] | ?m; @m \"b$(_item_)\" | \"$(_)\" \x7d\x7d"
    ∃ document p, ofTokens (tokenize source) = .ok document ∧ document.lower = .ok p ∧
      p.instructions.map Instruction.opcode = ["EMIT_LITERAL", "BEGIN_ARRAY_ITER",
        "BEGIN_MACRO_CALL", "END_MACRO_CALL", "END_ARRAY_ITER"] ∧
      p.macros.entries.map Macro.key = [(0, "m")] ∧ document.Mirrored p := by
  intro source
  have hopcodes : (Program.compile source).map
      (fun p => (p.instructions.map Instruction.opcode, p.macros.entries.map Macro.key)) =
        .ok (["EMIT_LITERAL", "BEGIN_ARRAY_ITER", "BEGIN_MACRO_CALL", "END_MACRO_CALL",
          "END_ARRAY_ITER"], [(0, "m")]) := by
    decide +kernel
  rcases ok_of_map hopcodes with ⟨p, hcompile, hp⟩
  rcases Program.document_of_compile hcompile with ⟨document, hread, hlower⟩
  exact ⟨document, p, hread, hlower, congrArg Prod.fst hp, congrArg Prod.snd hp,
    lowers_in_groups source document p hread hlower⟩

end Document

end Stencil
