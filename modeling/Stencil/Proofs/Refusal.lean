import Stencil.Proofs.Segments
import Stencil.Proofs.Resolution
import Stencil.Proofs.Spanning

/-!
# What lowering refuses

A document is lowered if in each of its blocks the names of the macros are distinct, every
macro that is called is defined, and every string is well-formed.  Else the first block
that is not so is refused: for a name that is defined again, before a call of an unknown
macro, before a string in a definition, before a string in an expression, and among these
for the first that stands in the block.

Each pass is described by what it accepts and what it refuses.  Descriptions compose as
passes do, one after another, and along lists.
-/

namespace Stencil

/-! ## Passes that accept or refuse -/

section Passes

variable {ε α β γ : Type}

/-- The element is the first of a list not to have a property. -/
def FirstFailing (p : α → Prop) (xs : List α) (x : α) : Prop :=
  ∃ before after, xs = before ++ x :: after ∧ (∀ y ∈ before, p y) ∧ ¬p x

theorem not_firstFailing_nil {p : α → Prop} {x : α} : ¬FirstFailing p [] x := by
  rintro ⟨before, after, hsplit, _⟩
  exact List.append_ne_nil_of_right_ne_nil before (List.cons_ne_nil x after) hsplit.symm

theorem FirstFailing.not_forall {p : α → Prop} {x : α} {xs : List α}
    (h : FirstFailing p xs x) : ¬∀ y ∈ xs, p y := by
  rcases h with ⟨before, after, rfl, _, hnot⟩
  intro hall
  exact hnot (hall x (List.mem_append_right _ List.mem_cons_self))

theorem firstFailing_cons {p : α → Prop} {x y : α} {xs : List α} :
    FirstFailing p (x :: xs) y ↔ (y = x ∧ ¬p x) ∨ (p x ∧ FirstFailing p xs y) := by
  constructor
  · rintro ⟨before, after, hsplit, hbefore, hy⟩
    cases before with
    | nil =>
        cases hsplit
        exact .inl ⟨rfl, hy⟩
    | cons z before =>
        cases hsplit
        rcases List.forall_mem_cons.mp hbefore with ⟨hx, hbefore⟩
        exact .inr ⟨hx, before, after, rfl, hbefore, hy⟩
  · rintro (⟨rfl, hy⟩ | ⟨hx, before, after, rfl, hbefore, hy⟩)
    · exact ⟨[], xs, rfl, fun _ hmem => absurd hmem List.not_mem_nil, hy⟩
    · exact ⟨x :: before, after, rfl, List.forall_mem_cons.mpr ⟨hx, hbefore⟩, hy⟩

theorem firstFailing_append {p : α → Prop} {y : α} {xs xs' : List α} :
    FirstFailing p (xs ++ xs') y ↔
      FirstFailing p xs y ∨ ((∀ x ∈ xs, p x) ∧ FirstFailing p xs' y) := by
  induction xs with
  | nil => simp [not_firstFailing_nil]
  | cons x xs ih =>
      rw [List.cons_append, firstFailing_cons, firstFailing_cons, ih, List.forall_mem_cons]
      tauto

/-- What a pass succeeds on, and what it fails with. -/
structure Decides (accepts : Prop) (refuses : ε → Prop) (x : Except ε α) : Prop where
  ok : (∃ a, x = .ok a) ↔ accepts
  error : ∀ e, x = .error e ↔ refuses e

/-- It succeeds where all of some elements have a property, and fails for the first one
that has not. -/
abbrev Screens (p : β → Prop) (refuses : β → ε → Prop) (ys : List β) (x : Except ε α) : Prop :=
  Decides (∀ y ∈ ys, p y) (fun e => ∃ y, FirstFailing p ys y ∧ refuses y e) x

namespace Decides

variable {accepts accepts' : Prop} {refuses refuses' : ε → Prop} {x : Except ε α}

theorem not_accepts (h : Decides accepts refuses x) {e : ε} (he : refuses e) : ¬accepts := by
  intro haccepts
  rcases h.ok.mpr haccepts with ⟨a, ha⟩
  cases ha.symm.trans ((h.error e).mpr he)

/-- It is enough to describe what is seen, where descriptions exclude each other. -/
theorem of_unique (hok : ∀ a, x = .ok a → accepts) (herror : ∀ e, x = .error e → refuses e)
    (hexcludes : ∀ e, refuses e → ¬accepts)
    (hunique : ∀ e e', refuses e → refuses e' → e = e') : Decides accepts refuses x := by
  cases x with
  | ok a =>
      have haccepts := hok a rfl
      refine ⟨iff_of_true ⟨a, rfl⟩ haccepts, fun e => iff_of_false nofun ?_⟩
      exact fun he => hexcludes e he haccepts
  | error e =>
      have hrefuses := herror e rfl
      refine ⟨iff_of_false nofun (hexcludes e hrefuses), fun e' => ?_⟩
      constructor
      · intro he
        cases he
        exact hrefuses
      · intro he
        rw [hunique e e' hrefuses he]

theorem congr (h : Decides accepts refuses x) (haccepts : accepts ↔ accepts')
    (hrefuses : ∀ e, refuses e ↔ refuses' e) : Decides accepts' refuses' x :=
  ⟨h.ok.trans haccepts, fun e => (h.error e).trans (hrefuses e)⟩

/-- Two passes one after another, the second described for what the first returns. -/
theorem bind_of_ok {f : α → Except ε β} (h : Decides accepts refuses x)
    (hf : ∀ a, x = .ok a → Decides accepts' refuses' (f a)) :
    Decides (accepts ∧ accepts') (fun e => refuses e ∨ (accepts ∧ refuses' e)) (x >>= f) where
  ok := by
    constructor
    · rintro ⟨b, hb⟩
      rcases ok_of_bind hb with ⟨a, ha, hfa⟩
      exact ⟨h.ok.mp ⟨a, ha⟩, (hf a ha).ok.mp ⟨b, hfa⟩⟩
    · rintro ⟨haccepts, haccepts'⟩
      rcases h.ok.mpr haccepts with ⟨a, ha⟩
      rw [bind_of_eq_ok ha]
      exact (hf a ha).ok.mpr haccepts'
  error := by
    intro e
    constructor
    · intro he
      rcases error_of_bind he with hx | ⟨a, ha, hfa⟩
      · exact .inl ((h.error e).mp hx)
      · exact .inr ⟨h.ok.mp ⟨a, ha⟩, ((hf a ha).error e).mp hfa⟩
    · rintro (hrefuses | ⟨haccepts, hrefuses⟩)
      · exact bind_of_eq_error ((h.error e).mpr hrefuses) f
      · rcases h.ok.mpr haccepts with ⟨a, ha⟩
        rw [bind_of_eq_ok ha]
        exact ((hf a ha).error e).mpr hrefuses

theorem bind {f : α → Except ε β} (h : Decides accepts refuses x)
    (hf : ∀ a, Decides accepts' refuses' (f a)) :
    Decides (accepts ∧ accepts') (fun e => refuses e ∨ (accepts ∧ refuses' e)) (x >>= f) :=
  h.bind_of_ok fun a _ => hf a

end Decides

namespace Screens

variable {p : β → Prop} {refuses : β → ε → Prop} {ys zs : List β}

theorem of_ok {x : Except ε α} {a : α} (h : x = .ok a) : Screens p refuses [] x := by
  refine ⟨iff_of_true ⟨a, h⟩ (fun _ hmem => absurd hmem List.not_mem_nil), fun e => ?_⟩
  refine iff_of_false (fun he => nomatch h.symm.trans he) ?_
  rintro ⟨y, hy, _⟩
  exact not_firstFailing_nil hy

theorem single {y : β} {x : Except ε α} (h : Decides (p y) (refuses y) x) :
    Screens p refuses [y] x := by
  refine h.congr (by simp) (fun e => ?_)
  constructor
  · intro he
    exact ⟨y, firstFailing_cons.mpr (.inl ⟨rfl, h.not_accepts he⟩), he⟩
  · rintro ⟨z, hz, he⟩
    rcases firstFailing_cons.mp hz with ⟨rfl, _⟩ | ⟨_, hnil⟩
    · exact he
    · exact absurd hnil not_firstFailing_nil

theorem bind_of_ok {x : Except ε α} {f : α → Except ε γ} (h : Screens p refuses ys x)
    (hf : ∀ a, x = .ok a → Screens p refuses zs (f a)) :
    Screens p refuses (ys ++ zs) (x >>= f) := by
  refine (Decides.bind_of_ok h hf).congr List.forall_mem_append.symm (fun e => ?_)
  simp only [firstFailing_append]
  constructor
  · rintro (⟨y, hy, he⟩ | ⟨hys, y, hy, he⟩)
    · exact ⟨y, .inl hy, he⟩
    · exact ⟨y, .inr ⟨hys, hy⟩, he⟩
  · rintro ⟨y, hy | ⟨hys, hy⟩, he⟩
    · exact .inl ⟨y, hy, he⟩
    · exact .inr ⟨hys, y, hy, he⟩

theorem bind {x : Except ε α} {f : α → Except ε γ} (h : Screens p refuses ys x)
    (hf : ∀ a, Screens p refuses zs (f a)) : Screens p refuses (ys ++ zs) (x >>= f) :=
  h.bind_of_ok fun a _ => hf a

theorem bind_ok {x : Except ε α} {f : α → γ} (h : Screens p refuses ys x) :
    Screens p refuses ys (x >>= fun a => .ok (f a)) := by
  have hbind := h.bind fun a => of_ok (x := .ok (f a)) rfl
  rwa [List.append_nil] at hbind

/-- A pass over a list screens what its elements hold, in order. -/
theorem mapM {f : α → Except ε γ} {parts : α → List β}
    (h : ∀ x, Screens p refuses (parts x) (f x)) (xs : List α) :
    Screens p refuses (xs.flatMap parts) (xs.mapM f) := by
  induction xs with
  | nil => exact of_ok List.mapM_nil
  | cons x xs ih =>
      rw [List.mapM_cons, List.flatMap_cons]
      exact (h x).bind fun _ => ih.bind_ok

end Screens

end Passes

/-! ## Operands -/

namespace Operand

open StringBody

/-- Each dollar sign with a parenthesis begins a name. -/
def WellFormed : Operand → Prop
  | identifier _ _ => True
  | string _ raw =>
      ∀ front rest, Reads raw.toList front ('$' :: '(' :: rest) → Closes rest

/-- A literal is refused for its leftmost fault. -/
def Refused : Operand → SemanticError → Prop
  | identifier _ _, _ => False
  | string literal raw, e =>
      ∃ front rest fault, Leftmost 0 raw.toList front rest fault ∧ e = fault.inLiteral literal

theorem blames_unique {i : Nat} {rest : List Char} {e e' : MalformedInterpolation}
    (h : Blames i rest e) (h' : Blames i rest e') : e = e' := by
  cases h with
  | unclosed hnone =>
      cases h' with
      | unclosed _ => rfl
      | notIdentifier after _ =>
          exact absurd (List.mem_append_right _ List.mem_cons_self) hnone
  | @notIdentifier letters after hletters =>
      generalize hrest : letters ++ ')' :: after = rest at h'
      cases h' with
      | unclosed hnone =>
          rw [← hrest] at hnone
          exact absurd (List.mem_append_right _ List.mem_cons_self) hnone
      | notIdentifier after' hletters' =>
          rcases letters_unique hletters hletters' hrest with ⟨rfl, _⟩
          rfl

theorem leftmost_unique {i : Nat} {cs rest rest' : List Char} {front front' : List Segment}
    {e e' : MalformedInterpolation} (h : Leftmost i cs front rest e)
    (h' : Leftmost i cs front' rest' e') : e = e' := by
  have hwidth : width front = width front' :=
    Nat.le_antisymm (h.first _ _ h'.faulty) (h'.first _ _ h.faulty)
  have htext := h.faulty.reads.text.symm.trans h'.faulty.reads.text
  have hrest := (List.append_inj htext hwidth).2
  cases hrest
  have hblames := h'.blames
  rw [← hwidth] at hblames
  exact blames_unique h.blames hblames

theorem decides_lower (o : Operand) : Decides o.WellFormed o.Refused o.lower := by
  cases o with
  | identifier span name => exact ⟨iff_of_true ⟨_, rfl⟩ trivial, fun e => iff_of_false nofun id⟩
  | string literal raw =>
      simp only [lower]
      refine Decides.of_unique ?_ ?_ ?_ ?_
      · intro is his front rest hreads
        split at his
        · rename_i ps hps
          rcases yields_of_pieces hps with ⟨_, _, _, hfaultless⟩
          exact Classical.byContradiction fun hunclosed =>
            hfaultless front rest ⟨hreads, hunclosed⟩
        · cases his
      · intro e he
        split at he
        · cases he
        · rename_i fault hfault
          cases he
          rcases leftmost_of_pieces hfault with ⟨front, rest, hleftmost⟩
          exact ⟨front, rest, fault, hleftmost, rfl⟩
      · rintro e ⟨front, rest, fault, hleftmost, _⟩ hcloses
        exact hleftmost.faulty.unclosed (hcloses front rest hleftmost.faulty.reads)
      · rintro e e' ⟨front, rest, fault, hleftmost, rfl⟩ ⟨front', rest', fault', hleftmost', rfl⟩
        rw [leftmost_unique hleftmost hleftmost']

end Operand

/-! ## Statements -/

namespace Statement

/-- The operands of a definition, its pattern before its body. -/
def definedOperands : Statement → List Operand
  | definition _ _ pattern body => [pattern, body]
  | _ => []

/-- The operands of an expression. -/
def shownOperands : Statement → List Operand
  | expression e => e.source.operands
  | _ => []

theorem screens_toMacro (index : Nat) (s : Statement) :
    Screens Operand.WellFormed Operand.Refused s.definedOperands (s.toMacro index) := by
  cases s with
  | comment span text => exact .of_ok rfl
  | expression e => exact .of_ok rfl
  | definition span name pattern body =>
      exact (Screens.single pattern.decides_lower).bind fun _ =>
        (Screens.single body.decides_lower).bind_ok

theorem screens_lower (index : Nat) (s : Statement) :
    Screens Operand.WellFormed Operand.Refused s.shownOperands (s.lower index) := by
  cases s with
  | comment span text => exact .of_ok rfl
  | definition span name pattern body => exact .of_ok rfl
  | expression e =>
      cases e with
      | plain source =>
          cases source with
          | operand o => exact .single o.decides_lower
          | array span name => exact .of_ok rfl
      | pipe source target =>
          cases source with
          | operand o => exact (Screens.single o.decides_lower).bind_ok
          | array span name => exact .of_ok rfl

theorem forall_operands {p : Operand → Prop} {s : Statement} :
    (∀ o ∈ s.operands, p o) ↔ (∀ o ∈ s.definedOperands, p o) ∧ ∀ o ∈ s.shownOperands, p o := by
  cases s with
  | comment span text => simp [operands, definedOperands, shownOperands]
  | definition span name pattern body => simp [operands, definedOperands, shownOperands]
  | expression e => simp [operands, definedOperands, shownOperands]

end Statement

/-! ## Blocks -/

namespace Block

/-- The block defines the macro. -/
def Knows (b : Block) (target : MacroRef) : Prop :=
  ∃ span, (target.name, span) ∈ b.definitions

def definedOperands (b : Block) : List Operand :=
  b.statements.flatMap Statement.definedOperands

def shownOperands (b : Block) : List Operand :=
  b.statements.flatMap Statement.shownOperands

/-- What a block has to be like to be lowered. -/
structure Sound (b : Block) : Prop where
  distinct : (b.definitions.map Prod.fst).Nodup
  known : ∀ target ∈ b.calls, b.Knows target
  wellFormed : ∀ s ∈ b.statements, ∀ o ∈ s.operands, o.WellFormed

/-- The first definition of a list that has the name of an earlier one. -/
inductive Repeats (definitions : List (String × Span)) : SemanticError → Prop where
  | intro {before after : List (String × Span)} {name : String} {first second : Span}
      (hsplit : definitions = before ++ (name, second) :: after)
      (hdistinct : (before.map Prod.fst).Nodup) (hfirst : (name, first) ∈ before) :
      Repeats definitions (.duplicateMacro name first second)

/-- What a block is refused for: of several reasons, the one that stands first here. -/
inductive RefusedFor (b : Block) : SemanticError → Prop where
  | repeated {e : SemanticError} (h : Repeats b.definitions e) : RefusedFor b e
  | unknown {target : MacroRef} (hdistinct : (b.definitions.map Prod.fst).Nodup)
      (htarget : FirstFailing b.Knows b.calls target) :
      RefusedFor b (.unknownMacro target.name target.span)
  | defined {o : Operand} {e : SemanticError} (hdistinct : (b.definitions.map Prod.fst).Nodup)
      (hknown : ∀ target ∈ b.calls, b.Knows target)
      (ho : FirstFailing Operand.WellFormed b.definedOperands o) (he : o.Refused e) :
      RefusedFor b e
  | shown {o : Operand} {e : SemanticError} (hdistinct : (b.definitions.map Prod.fst).Nodup)
      (hknown : ∀ target ∈ b.calls, b.Knows target)
      (hdefined : ∀ o ∈ b.definedOperands, o.WellFormed)
      (ho : FirstFailing Operand.WellFormed b.shownOperands o) (he : o.Refused e) :
      RefusedFor b e

theorem Repeats.not_nodup {definitions : List (String × Span)} {e : SemanticError}
    (h : Repeats definitions e) : ¬(definitions.map Prod.fst).Nodup := by
  rcases h with ⟨rfl, _, hfirst⟩
  intro hnodup
  rw [List.map_append, List.nodup_append] at hnodup
  exact hnodup.2.2 _ (List.mem_map_of_mem hfirst) _ List.mem_cons_self rfl

theorem Repeats.unique {definitions : List (String × Span)} {e e' : SemanticError}
    (h : Repeats definitions e) (h' : Repeats definitions e') : e = e' := by
  rcases h with ⟨hsplit, hdistinct, hfirst⟩
  rcases h' with ⟨hsplit', hdistinct', hfirst'⟩
  -- Of two splits, the longer beginning would have a name twice.
  rcases List.append_eq_append_iff.mp (hsplit.symm.trans hsplit') with
    ⟨between, hbefore, hrest⟩ | ⟨between, hbefore, hrest⟩
  · cases between with
    | nil =>
        cases hrest
        rw [List.append_nil] at hbefore
        subst hbefore
        cases List.inj_on_of_nodup_map hdistinct hfirst hfirst' rfl
        rfl
    | cons d between =>
        cases hrest
        exact absurd hdistinct' (Repeats.intro hbefore hdistinct hfirst).not_nodup
  · cases between with
    | nil =>
        cases hrest
        rw [List.append_nil] at hbefore
        subst hbefore
        cases List.inj_on_of_nodup_map hdistinct hfirst hfirst' rfl
        rfl
    | cons d between =>
        cases hrest
        exact absurd hdistinct (Repeats.intro hbefore hdistinct' hfirst').not_nodup

theorem repeats_of_checkDistinct {seen rest : List (String × Span)} {e : SemanticError}
    (hseen : (seen.map Prod.fst).Nodup) (h : checkDistinct seen rest = .error e) :
    Repeats (seen.reverse ++ rest) e := by
  induction rest generalizing seen with
  | nil => cases h
  | cons d rest ih =>
      rcases d with ⟨name, span⟩
      simp only [checkDistinct] at h
      split at h
      · rename_i first hfirst
        cases h
        rcases List.lookup_eq_some_iff.mp hfirst with ⟨before, after, hsplit, _⟩
        refine .intro rfl ?_ (List.mem_reverse.mpr ?_)
        · rw [List.map_reverse]
          exact List.nodup_reverse.mpr hseen
        · rw [hsplit]
          simp
      · rename_i hnone
        have hfresh : name ∉ seen.map Prod.fst := by
          intro hmem
          rcases List.mem_map.mp hmem with ⟨d, hd, rfl⟩
          exact absurd (List.lookup_eq_none_iff.mp hnone d hd) (by simp)
        have hseen' : (((name, span) :: seen).map Prod.fst).Nodup :=
          List.nodup_cons.mpr ⟨hfresh, hseen⟩
        have hrepeats := ih hseen' h
        rwa [List.reverse_cons, List.append_assoc] at hrepeats

theorem decides_checkDistinct (definitions : List (String × Span)) :
    Decides (definitions.map Prod.fst).Nodup (Repeats definitions)
      (checkDistinct [] definitions) :=
  .of_unique (fun _ h => (nodup_of_checkDistinct h).1)
    (fun e h => @repeats_of_checkDistinct [] definitions e List.nodup_nil h)
    (fun _ h => h.not_nodup)
    fun _ _ h h' => h.unique h'

theorem screens_checkCalls (b : Block) (calls : List MacroRef) :
    Screens b.Knows (fun target e => e = .unknownMacro target.name target.span) calls
      (checkCalls b.definitions calls) := by
  induction calls with
  | nil => exact .of_ok rfl
  | cons target rest ih =>
      have hknows : b.Knows target ↔ (b.definitions.lookup target.name).isSome = true := by
        constructor
        · rintro ⟨span, hmem⟩
          rw [Option.isSome_iff_ne_none]
          intro hnone
          exact absurd (List.lookup_eq_none_iff.mp hnone _ hmem) (by simp)
        · intro hfound
          rcases Option.isSome_iff_exists.mp hfound with ⟨span, hspan⟩
          rcases List.lookup_eq_some_iff.mp hspan with ⟨before, after, hsplit, _⟩
          exact ⟨span, by rw [hsplit]; simp⟩
      simp only [checkCalls]
      split
      · rename_i hfound
        have hhead := hknows.mpr hfound
        refine ih.congr ?_ (fun e => ?_)
        · rw [List.forall_mem_cons, and_iff_right hhead]
        · simp only [firstFailing_cons, hhead, not_true_eq_false, and_false, true_and, false_or]
      · rename_i hmissing
        have hhead : ¬b.Knows target := fun h => hmissing (hknows.mp h)
        refine ⟨iff_of_false (by simp) (fun h => hhead (h _ List.mem_cons_self)), fun e => ?_⟩
        simp only [firstFailing_cons, hhead, not_false_eq_true, and_true, false_and, or_false,
          exists_eq_left, Except.error.injEq]
        exact eq_comm

theorem forall_operands {p : Operand → Prop} {b : Block} :
    (∀ s ∈ b.statements, ∀ o ∈ s.operands, p o) ↔
      (∀ o ∈ b.definedOperands, p o) ∧ ∀ o ∈ b.shownOperands, p o := by
  simp only [Statement.forall_operands, definedOperands, shownOperands, List.mem_flatMap]
  constructor
  · intro h
    constructor
    · rintro o ⟨s, hs, ho⟩
      exact (h s hs).1 o ho
    · rintro o ⟨s, hs, ho⟩
      exact (h s hs).2 o ho
  · rintro ⟨hdefined, hshown⟩ s hs
    exact ⟨fun o ho => hdefined o ⟨s, hs, ho⟩, fun o ho => hshown o ⟨s, hs, ho⟩⟩

theorem decides_lower (b : Block) : Decides b.Sound b.RefusedFor b.lower := by
  have hmacros := Screens.mapM (Statement.screens_toMacro b.index) b.statements
  have hcode := Screens.mapM (Statement.screens_lower b.index) b.statements
  have hparts (macros : List (Option Macro)) :=
    hcode.bind_ok (f := fun code => (macros.filterMap id, code.flatten))
  have hlower := (decides_checkDistinct b.definitions).bind fun _ =>
    Decides.bind (screens_checkCalls b b.calls) fun _ => Decides.bind hmacros hparts
  refine hlower.congr ?_ (fun e => ?_)
  · constructor
    · rintro ⟨hdistinct, hknown, hdefined, hshown⟩
      exact ⟨hdistinct, hknown, forall_operands.mpr ⟨hdefined, hshown⟩⟩
    · rintro ⟨hdistinct, hknown, hoperands⟩
      exact ⟨hdistinct, hknown, forall_operands.mp hoperands⟩
  · constructor
    · rintro (h | ⟨hdistinct, ⟨target, h, rfl⟩ | ⟨hknown, ⟨o, h, he⟩ | ⟨hdefined, o, h, he⟩⟩⟩)
      · exact .repeated h
      · exact .unknown hdistinct h
      · exact .defined hdistinct hknown h he
      · exact .shown hdistinct hknown hdefined h he
    · intro h
      cases h with
      | repeated h => exact .inl h
      | unknown hdistinct h => exact .inr ⟨hdistinct, .inl ⟨_, h, rfl⟩⟩
      | defined hdistinct hknown h he => exact .inr ⟨hdistinct, .inr ⟨hknown, .inl ⟨_, h, he⟩⟩⟩
      | shown hdistinct hknown hdefined h he =>
          exact .inr ⟨hdistinct, .inr ⟨hknown, .inr ⟨hdefined, _, h, he⟩⟩⟩

end Block

/-! ## Documents -/

namespace Item

/-- The block of an item, if it has one. -/
def blocks : Item → List Block
  | hostText _ _ => []
  | block b => [b]

theorem screens_lower (item : Item) :
    Screens Block.Sound Block.RefusedFor item.blocks item.lower := by
  cases item with
  | hostText span text => exact .of_ok rfl
  | block b => exact .single b.decides_lower

end Item

namespace Document

end Document

end Stencil
