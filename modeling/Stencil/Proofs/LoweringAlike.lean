import Stencil.Entries
import Stencil.Proofs.ReadingAlike

/-!
# Lowering alike

Alike documents are lowered alike: to alike programs, or with alike errors.  So alike
tokens are compiled alike.
-/

namespace Stencil

variable {L : Likeness}

/-! ## Expressions -/

theorem Piece.lower_alike {s s' : Span} (hspan : L.span s s') (piece : Piece) :
    (piece.lower s).Alike L (piece.lower s') := by
  cases piece with
  | text start stop value => exact .same _ (by simp) (L.span_slice _ _ hspan)
  | interpolation start stop name => exact .same _ (by simp) (L.span_slice _ _ hspan)

theorem Operand.Alike.lower {o o' : Operand} (h : o.Alike L o') :
    Both (SemanticError.Alike L) (List.Forall₂ (Instruction.Alike L)) o.lower o'.lower := by
  cases h with
  | identifier name hspan => exact .ok (.cons (.same _ (by simp) hspan) .nil)
  | string raw hspan =>
      rw [Operand.lower, Operand.lower]
      cases StringBody.pieces 0 raw.toList with
      | error e => exact .error (.malformedInterpolation _ (L.span_slice _ _ hspan))
      | ok pieces =>
          apply Both.ok
          rw [List.forall₂_map_left_iff, List.forall₂_map_right_iff, List.forall₂_same]
          intro piece _
          exact piece.lower_alike hspan

theorem MacroRef.Alike.lower {target target' : MacroRef} {i i' : Nat}
    (h : target.Alike L target') (hblock : L.block i i') :
    List.Forall₂ (Instruction.Alike L) (target.lower i) (target'.lower i') := by
  cases h with
  | named name hspan => exact .cons (.call name hblock hspan) (.cons (.same _ (by simp) hspan) .nil)

theorem Expression.Alike.lower {e e' : Expression} {i i' : Nat} (h : e.Alike L e')
    (hblock : L.block i i') :
    Both (SemanticError.Alike L) (List.Forall₂ (Instruction.Alike L)) (e.lower i)
      (e'.lower i') := by
  cases h with
  | plain h =>
      cases h with
      | operand h => exact h.lower
      | array name hspan =>
          exact .ok (.cons (.same _ (by simp) hspan) (.cons (.same _ (by simp) hspan)
            (.cons (.same _ (by simp) hspan) .nil)))
  | pipe h htarget =>
      have hcall := htarget.lower hblock
      cases h with
      | array name hspan =>
          exact .ok (.cons (.same _ (by simp) hspan)
            (List.rel_append hcall (.cons (.same _ (by simp) hspan) .nil)))
      | @operand o o' h =>
          have hspan := h.span
          apply h.lower.bind
          intro value value' hvalue
          apply Both.ok
          apply List.rel_append
          · apply List.rel_append
            · apply List.rel_append
              · exact List.rel_append
                  (.cons (.same _ (by simp) hspan) (.cons (.same _ (by simp) hspan) .nil)) hvalue
              · exact .cons (.same _ (by simp) hspan) (.cons (.same _ (by simp) hspan)
                  (.cons (.same _ (by simp) hspan) (.cons (.same _ (by simp) hspan) .nil)))
            · exact hcall
          · exact .cons (.same _ (by simp) hspan) .nil

/-! ## Statements -/

namespace Statement

variable {s s' : Statement} {i i' : Nat}

theorem Alike.lower (h : s.Alike L s') (hblock : L.block i i') :
    Both (SemanticError.Alike L) (List.Forall₂ (Instruction.Alike L)) (s.lower i)
      (s'.lower i') := by
  cases h with
  | comment text hspan => exact .ok (.cons (.same _ (by simp) hspan) .nil)
  | definition name hspan hpattern hbody => exact .ok .nil
  | expression h => exact h.lower hblock

theorem Alike.toMacro (h : s.Alike L s') (hblock : L.block i i') :
    Both (SemanticError.Alike L) (Option.Rel (Macro.Alike L)) (s.toMacro i) (s'.toMacro i') := by
  cases h with
  | comment text hspan => exact .ok .none
  | expression h => exact .ok .none
  | definition name hspan hpattern hbody =>
      apply hpattern.lower.bind
      intro pattern pattern' hpattern'
      apply hbody.lower.bind
      intro body body' hbody'
      exact .ok (.some (.named name hblock hspan hpattern' hbody'))

/-- A name stands at alike spans. -/
def NamedAlike (L : Likeness) (d d' : String × Span) : Prop :=
  d.1 = d'.1 ∧ L.span d.2 d'.2

theorem Alike.definition? (h : s.Alike L s') :
    Option.Rel (NamedAlike L) s.definition? s'.definition? := by
  cases h with
  | comment text hspan => exact .none
  | expression h => exact .none
  | definition name hspan hpattern hbody => exact .some ⟨rfl, hspan⟩

theorem Alike.call? (h : s.Alike L s') :
    Option.Rel (MacroRef.Alike L) s.call? s'.call? := by
  cases h with
  | comment text hspan => exact .none
  | definition name hspan hpattern hbody => exact .none
  | expression h =>
      cases h with
      | plain h => exact .none
      | pipe h htarget => exact .some htarget

end Statement

/-! ## Blocks -/

namespace Block

open Statement (NamedAlike)

variable {b b' : Block} {definitions definitions' : List (String × Span)}

theorem lookup_alike (h : List.Forall₂ (NamedAlike L) definitions definitions') (name : String) :
    Option.Rel L.span (definitions.lookup name) (definitions'.lookup name) := by
  induction h with
  | nil => exact .none
  | @cons d d' definitions definitions' hd _ ih =>
      rcases d with ⟨n, s⟩
      rcases d' with ⟨n', s'⟩
      rcases hd with ⟨hname, hspan⟩
      dsimp only at hname hspan
      rw [hname, Entries.lookup_cons, Entries.lookup_cons]
      split
      · exact .some hspan
      · exact ih

theorem checkDistinct_alike {seen seen' : List (String × Span)}
    (hseen : List.Forall₂ (NamedAlike L) seen seen')
    (h : List.Forall₂ (NamedAlike L) definitions definitions') :
    Both (SemanticError.Alike L) (fun _ _ => True) (checkDistinct seen definitions)
      (checkDistinct seen' definitions') := by
  induction h generalizing seen seen' with
  | nil => exact .ok trivial
  | @cons d d' definitions definitions' hd _ ih =>
      have hlookup := lookup_alike hseen d.1
      have hnext := ih (.cons hd hseen)
      rcases d with ⟨n, s⟩
      rcases d' with ⟨n', s'⟩
      rcases hd with ⟨hname, hspan⟩
      dsimp only at hname hspan hlookup
      subst hname
      rw [checkDistinct, checkDistinct]
      generalize seen.lookup n = found at hlookup
      generalize seen'.lookup n = found' at hlookup
      cases hlookup with
      | none => exact hnext
      | some hfirst => exact .error (.duplicateMacro n hfirst hspan)

theorem checkCalls_alike {calls calls' : List MacroRef}
    (hdefinitions : List.Forall₂ (NamedAlike L) definitions definitions')
    (h : List.Forall₂ (MacroRef.Alike L) calls calls') :
    Both (SemanticError.Alike L) (fun _ _ => True) (checkCalls definitions calls)
      (checkCalls definitions' calls') := by
  induction h with
  | nil => exact .ok trivial
  | cons htarget _ ih =>
      cases htarget with
      | named name hspan =>
          have hlookup := lookup_alike hdefinitions name
          rw [checkCalls, checkCalls]
          dsimp only
          generalize definitions.lookup name = found at hlookup ⊢
          generalize definitions'.lookup name = found' at hlookup ⊢
          cases hlookup with
          | none => exact .error (.unknownMacro name hspan)
          | some _ => exact ih

/-- The macros and the instructions of an item. -/
structure PartsAlike (L : Likeness) (part part' : List Macro × List Instruction) : Prop where
  macros : List.Forall₂ (Macro.Alike L) part.1 part'.1
  instructions : List.Forall₂ (Instruction.Alike L) part.2 part'.2

theorem Alike.lower (h : b.Alike L b') :
    Both (SemanticError.Alike L) (PartsAlike L) b.lower b'.lower := by
  have hdefinitions : List.Forall₂ (NamedAlike L) b.definitions b'.definitions :=
    List.rel_filterMap (fun _ _ hs => hs.definition?) h.statements
  have hcalls : List.Forall₂ (MacroRef.Alike L) b.calls b'.calls :=
    List.rel_filterMap (fun _ _ hs => hs.call?) h.statements
  apply (checkDistinct_alike .nil hdefinitions).bind
  intro _ _ _
  apply (checkCalls_alike hdefinitions hcalls).bind
  intro _ _ _
  apply (Both.mapM h.statements fun _ _ hs => hs.toMacro h.index).bind
  intro found found' hfound
  apply (Both.mapM h.statements fun _ _ hs => hs.lower h.index).bind
  intro code code' hcode
  exact .ok ⟨List.rel_filterMap (fun _ _ hm => hm) hfound, List.rel_flatten hcode⟩

end Block

/-! ## Items -/

open Block (PartsAlike)

theorem Item.Alike.lower {item item' : Item} (h : item.Alike L item') :
    Both (SemanticError.Alike L) (PartsAlike L) item.lower item'.lower := by
  cases h with
  | block h => exact h.lower
  | @hostText x y s s' htext hspan =>
      have hempty := L.text_empty htext
      apply Both.ok
      refine ⟨.nil, ?_⟩
      by_cases hx : x = ""
      · rw [if_pos hx, if_pos (hempty.mp hx)]
        exact .nil
      · rw [if_neg hx, if_neg fun hy => hx (hempty.mpr hy)]
        exact .cons (.hostText htext hspan) .nil

/-! ## Programs -/

namespace MacroTable

variable {m m' : Macro} {ms ms' : List Macro}

theorem hasKey_alike (h : m.Alike L m') {i i' : Nat} (hblock : L.block i i') (name : String) :
    m.hasKey i name = m'.hasKey i' name := by
  cases h with
  | named other hother _ _ _ =>
      have hiff := L.block_inj hother hblock
      rw [Macro.hasKey, Macro.hasKey]
      congr 1
      simp only [beq_eq_beq, hiff]

theorem insert_alike (hm : m.Alike L m') (h : List.Forall₂ (Macro.Alike L) ms ms') :
    List.Forall₂ (Macro.Alike L) (insert m ms) (insert m' ms') := by
  induction h with
  | nil => exact .cons hm .nil
  | @cons e e' ms ms' he hms ih =>
      have hkey : e.hasKey m.block m.name = e'.hasKey m'.block m'.name := by
        cases hm with
        | named name hblock _ _ _ => exact hasKey_alike he hblock name
      rw [insert, insert, hkey]
      split
      · exact .cons hm hms
      · exact .cons he ih

theorem ofList_alike (h : List.Forall₂ (Macro.Alike L) ms ms') :
    List.Forall₂ (Macro.Alike L) (ofList ms).entries (ofList ms').entries := by
  have hall : ∀ table table' : MacroTable,
      List.Forall₂ (Macro.Alike L) table.entries table'.entries →
        List.Forall₂ (Macro.Alike L) (ms.foldl define table).entries
          (ms'.foldl define table').entries := by
    induction h with
    | nil => exact fun _ _ htable => htable
    | cons hm _ ih => exact fun _ _ htable => ih _ _ (insert_alike hm htable)
  exact hall empty empty .nil

theorem get?_alike {table table' : MacroTable}
    (h : List.Forall₂ (Macro.Alike L) table.entries table'.entries) {i i' : Nat}
    (hblock : L.block i i') (name : String) :
    Option.Rel (Macro.Alike L) (table.get? i name) (table'.get? i' name) := by
  rw [get?, get?]
  generalize table.entries = es at h
  generalize table'.entries = es' at h
  induction h with
  | nil => exact .none
  | cons hm _ ih =>
      rw [List.find?_cons, List.find?_cons, hasKey_alike hm hblock name]
      split
      · exact .some hm
      · exact ih

end MacroTable

theorem Document.lower_alike {document document' : Document}
    (h : List.Forall₂ (Item.Alike L) document.items document'.items) :
    Both (SemanticError.Alike L) (Program.Alike L) document.lower document'.lower := by
  apply (Both.mapM h fun _ _ hitem => hitem.lower).bind
  intro parts parts' hparts
  apply Both.ok
  constructor
  · exact List.rel_flatten (List.rel_map (fun _ _ hpart => hpart.instructions) hparts)
  · exact MacroTable.ofList_alike
      (List.rel_flatten (List.rel_map (fun _ _ hpart => hpart.macros) hparts))

theorem Program.ofTokens_alike {tokens tokens' : List Token}
    (hfin : L.span (Document.endSpan tokens) (Document.endSpan tokens')) (hzero : L.block 0 0)
    (h : List.Forall₂ (Token.Alike L) tokens tokens') :
    Both (CompileError.Alike L) (Program.Alike L) (ofTokens tokens) (ofTokens tokens') := by
  have hread := Document.ofTokens_alike hfin hzero h
  unfold ofTokens
  generalize Document.ofTokens tokens = read at hread
  generalize Document.ofTokens tokens' = read' at hread
  cases hread with
  | error herror => exact .error (.structural herror)
  | @ok document document' hitems =>
      have hlower := Document.lower_alike hitems
      dsimp only
      generalize document.lower = lowered at hlower
      generalize document'.lower = lowered' at hlower
      cases hlower with
      | ok hprogram => exact .ok hprogram
      | error herror => exact .error (.semantic herror)

end Stencil
