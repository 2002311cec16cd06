import Mathlib.Data.List.Forall2
import Stencil.Compile

/-!
# Likeness

Sources may differ in where their tokens stand, in how their blocks are numbered and in
their host text, and still be read alike.  A likeness says which of these differences
there may be; tokens, documents and programs are alike if they differ in nothing else.
-/

namespace Stencil

variable {ε ε' α α' β β' : Type}

/-! ## Computations alike -/

/-- Two computations both succeed, with related results, or both fail, with related
errors. -/
inductive Both (E : ε → ε' → Prop) (R : α → α' → Prop) : Except ε α → Except ε' α' → Prop where
  | ok {a : α} {a' : α'} (h : R a a') : Both E R (.ok a) (.ok a')
  | error {e : ε} {e' : ε'} (h : E e e') : Both E R (.error e) (.error e')

namespace Both

variable {E : ε → ε' → Prop} {R : α → α' → Prop} {S : β → β' → Prop} {x : Except ε α}
  {x' : Except ε' α'}

theorem bind {k : α → Except ε β} {k' : α' → Except ε' β'} (h : Both E R x x')
    (hk : ∀ a a', R a a' → Both E S (k a) (k' a')) : Both E S (x >>= k) (x' >>= k') := by
  cases h with
  | ok h => exact hk _ _ h
  | error h => exact .error h

theorem map {f : α → β} {f' : α' → β'} (h : Both E R x x')
    (hf : ∀ a a', R a a' → S (f a) (f' a')) : Both E S (f <$> x) (f' <$> x') := by
  cases h with
  | ok h => exact .ok (hf _ _ h)
  | error h => exact .error h

theorem mapM {f : α → Except ε β} {f' : α' → Except ε' β'} {as : List α} {as' : List α'}
    (h : List.Forall₂ R as as') (hf : ∀ a a', R a a' → Both E S (f a) (f' a')) :
    Both E (List.Forall₂ S) (as.mapM f) (as'.mapM f') := by
  induction h with
  | nil => exact .ok .nil
  | cons ha _ ih =>
      rw [List.mapM_cons, List.mapM_cons]
      apply (hf _ _ ha).bind
      intro b b' hb
      apply ih.bind
      intro bs bs' hbs
      exact .ok (.cons hb hbs)

theorem of_ok {a : α} (h : Both E R (.ok a) x') : ∃ a', x' = .ok a' ∧ R a a' := by
  cases h with
  | ok h => exact ⟨_, rfl, h⟩

theorem of_error {e : ε} (h : Both E R (.error e : Except ε α) x') :
    ∃ e', x' = .error e' ∧ E e e' := by
  cases h with
  | error h => exact ⟨_, rfl, h⟩

end Both

/-! ## What may differ -/

/-- The differences that there may be between spans, between the host texts at a span,
and between the numbers of blocks. -/
structure Likeness where
  span : Span → Span → Prop
  text : Span → String → String → Prop
  block : Nat → Nat → Prop
  span_join : ∀ {s s' t t' : Span}, span s s' → span t t' → span (s.join t) (s'.join t')
  span_slice : ∀ {s s' : Span} (start stop : Nat), span s s' →
    span (s.slice start stop) (s'.slice start stop)
  text_empty : ∀ {s : Span} {x y : String}, text s x y → (x = "" ↔ y = "")
  block_succ : ∀ {i i' : Nat}, block i i' → block (i + 1) (i' + 1)
  block_inj : ∀ {i i' j j' : Nat}, block i i' → block j j' → (i = j ↔ i' = j')

variable (L : Likeness)

/-! ## Tokens and documents -/

inductive Token.Alike : Token → Token → Prop where
  | hostText {x y : String} {s s' : Span} (htext : L.text s x y) (hspan : L.span s s') :
      Alike ⟨.hostText, x, s⟩ ⟨.hostText, y, s'⟩
  | same (kind : TokenKind) (value : String) {s s' : Span} (hkind : kind ≠ .hostText)
      (hspan : L.span s s') : Alike ⟨kind, value, s⟩ ⟨kind, value, s'⟩

inductive Operand.Alike : Operand → Operand → Prop where
  | string (raw : String) {s s' : Span} (hspan : L.span s s') :
      Alike (.string s raw) (.string s' raw)
  | identifier (name : String) {s s' : Span} (hspan : L.span s s') :
      Alike (.identifier s name) (.identifier s' name)

inductive Source.Alike : Source → Source → Prop where
  | operand {o o' : Operand} (h : o.Alike L o') : Alike (.operand o) (.operand o')
  | array (name : String) {s s' : Span} (hspan : L.span s s') :
      Alike (.array s name) (.array s' name)

inductive MacroRef.Alike : MacroRef → MacroRef → Prop where
  | named (name : String) {s s' : Span} (hspan : L.span s s') : Alike ⟨s, name⟩ ⟨s', name⟩

inductive Expression.Alike : Expression → Expression → Prop where
  | plain {source source' : Source} (h : source.Alike L source') :
      Alike (.plain source) (.plain source')
  | pipe {source source' : Source} {target target' : MacroRef} (h : source.Alike L source')
      (htarget : target.Alike L target') : Alike (.pipe source target) (.pipe source' target')

inductive Statement.Alike : Statement → Statement → Prop where
  | comment (text : String) {s s' : Span} (hspan : L.span s s') :
      Alike (.comment s text) (.comment s' text)
  | definition (name : String) {s s' : Span} {pattern pattern' body body' : Operand}
      (hspan : L.span s s') (hpattern : pattern.Alike L pattern') (hbody : body.Alike L body') :
      Alike (.definition s name pattern body) (.definition s' name pattern' body')
  | expression {e e' : Expression} (h : e.Alike L e') : Alike (.expression e) (.expression e')

structure Block.Alike (b b' : Block) : Prop where
  span : L.span b.span b'.span
  index : L.block b.index b'.index
  statements : List.Forall₂ (Statement.Alike L) b.statements b'.statements

inductive Item.Alike : Item → Item → Prop where
  | hostText {x y : String} {s s' : Span} (htext : L.text s x y) (hspan : L.span s s') :
      Alike (.hostText s x) (.hostText s' y)
  | block {b b' : Block} (h : b.Alike L b') : Alike (.block b) (.block b')

/-! ## Programs -/

inductive Instruction.Alike : Instruction → Instruction → Prop where
  /-- The literal of a host text. -/
  | hostText {x y : String} {s s' : Span} (htext : L.text s x y) (hspan : L.span s s') :
      Alike (.of (.emitLiteral x) s) (.of (.emitLiteral y) s')
  | call (name : String) {i i' : Nat} {s s' : Span} (hblock : L.block i i')
      (hspan : L.span s s') :
      Alike (.of (.beginMacroCall name i) s) (.of (.beginMacroCall name i') s')
  | same (operation : Operation) {s s' : Span}
      (h : ∀ name block, operation ≠ .act (.beginMacroCall name block)) (hspan : L.span s s') :
      Alike ⟨operation, s⟩ ⟨operation, s'⟩

inductive Macro.Alike : Macro → Macro → Prop where
  | named (name : String) {i i' : Nat} {s s' : Span}
      {pattern pattern' body body' : List Instruction} (hblock : L.block i i')
      (hspan : L.span s s') (hpattern : List.Forall₂ (Instruction.Alike L) pattern pattern')
      (hbody : List.Forall₂ (Instruction.Alike L) body body') :
      Alike ⟨name, i, s, pattern, body⟩ ⟨name, i', s', pattern', body'⟩

structure Program.Alike (p p' : Program) : Prop where
  instructions : List.Forall₂ (Instruction.Alike L) p.instructions p'.instructions
  macros : List.Forall₂ (Macro.Alike L) p.macros.entries p'.macros.entries

/-! ## Errors -/

inductive SyntaxError.Alike : SyntaxError → SyntaxError → Prop where
  | unexpected {token token' : Token} (expected : Expected) (h : token.Alike L token') :
      Alike (.unexpected token expected) (.unexpected token' expected)
  | unclosedBlock {s s' : Span} (hspan : L.span s s') :
      Alike (.unclosedBlock s) (.unclosedBlock s')

inductive SemanticError.Alike : SemanticError → SemanticError → Prop where
  | duplicateMacro (name : String) {s s' t t' : Span} (hfirst : L.span s s')
      (hduplicate : L.span t t') : Alike (.duplicateMacro name s t) (.duplicateMacro name s' t')
  | unknownMacro (name : String) {s s' : Span} (hspan : L.span s s') :
      Alike (.unknownMacro name s) (.unknownMacro name s')
  | malformedInterpolation (fault : InterpolationFault) {s s' : Span} (hspan : L.span s s') :
      Alike (.malformedInterpolation fault s) (.malformedInterpolation fault s')

inductive CompileError.Alike : CompileError → CompileError → Prop where
  | structural {e e' : SyntaxError} (h : e.Alike L e') : Alike (.structural e) (.structural e')
  | semantic {e e' : SemanticError} (h : e.Alike L e') : Alike (.semantic e) (.semantic e')

variable {L}

namespace Token

variable {t t' : Token} {tokens tokens' : List Token}

theorem Alike.kind (h : t.Alike L t') : t.kind = t'.kind := by
  cases h with
  | hostText htext hspan => rfl
  | same kind value hkind hspan => rfl

theorem Alike.span (h : t.Alike L t') : L.span t.span t'.span := by
  cases h with
  | hostText htext hspan => exact hspan
  | same kind value hkind hspan => exact hspan

theorem Alike.value (h : t.Alike L t') (hkind : t.kind ≠ .hostText) : t.value = t'.value := by
  cases h with
  | hostText htext hspan => exact absurd rfl hkind
  | same kind value hkind hspan => rfl

/-- Host text is not shown where a token is described. -/
theorem Alike.describe (h : t.Alike L t') : t.describe = t'.describe := by
  cases h with
  | hostText htext hspan => rfl
  | same kind value hkind hspan => rfl

end Token

namespace Operand

theorem Alike.span {o o' : Operand} (h : o.Alike L o') : L.span o.span o'.span := by
  cases h with
  | string raw hspan => exact hspan
  | identifier name hspan => exact hspan

end Operand

namespace Macro

variable {m m' : Macro}

theorem Alike.name (h : m.Alike L m') : m.name = m'.name := by
  cases h with
  | named name hblock hspan hpattern hbody => rfl

theorem Alike.block (h : m.Alike L m') : L.block m.block m'.block := by
  cases h with
  | named name hblock hspan hpattern hbody => exact hblock

theorem Alike.pattern (h : m.Alike L m') :
    List.Forall₂ (Instruction.Alike L) m.pattern m'.pattern := by
  cases h with
  | named name hblock hspan hpattern hbody => exact hpattern

theorem Alike.body (h : m.Alike L m') : List.Forall₂ (Instruction.Alike L) m.body m'.body := by
  cases h with
  | named name hblock hspan hpattern hbody => exact hbody

end Macro

theorem SyntaxError.Alike.message {e e' : SyntaxError} (h : e.Alike L e') :
    e.message = e'.message := by
  cases h with
  | unexpected expected h => simp only [SyntaxError.message, SyntaxError.found,
      SyntaxError.expected, h.describe]
  | unclosedBlock hspan => rfl

theorem SemanticError.Alike.message {e e' : SemanticError} (h : e.Alike L e') :
    e.message = e'.message := by
  cases h with
  | duplicateMacro name hfirst hduplicate => rfl
  | unknownMacro name hspan => rfl
  | malformedInterpolation fault hspan => rfl

theorem CompileError.Alike.message {e e' : CompileError} (h : e.Alike L e') :
    e.message = e'.message := by
  cases h with
  | structural h => exact h.message
  | semantic h => exact h.message

end Stencil
