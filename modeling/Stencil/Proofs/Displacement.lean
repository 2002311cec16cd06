import Stencil.Document.Evaluation
import Stencil.Proofs.Likeness
import Stencil.Token.Stream

/-!
# Displaced sources

A source that stands after another has the same tokens, moved to where the first one
ends.  Trees that are alike but for their places and the numbers of their blocks evaluate
alike: they write the same, and stop at the same name in its new place.
-/

namespace Stencil

/-! ## Positions and spans -/

namespace Position

/-- A position of a source that begins at `p`.  Columns move on the first line only. -/
def move (p q : Position) : Position :=
  ⟨p.offset + q.offset, p.line - 1 + q.line,
    if q.line = 1 then p.column - 1 + q.column else q.column⟩

/-- Lines and columns are counted from one. -/
structure Counted (p : Position) : Prop where
  line : 1 ≤ p.line
  column : 1 ≤ p.column

theorem counted_origin : origin.Counted :=
  ⟨Nat.le_refl 1, Nat.le_refl 1⟩

theorem Counted.advance {p : Position} (h : p.Counted) (c : Char) : (p.advance c).Counted := by
  unfold Position.advance
  split
  · exact ⟨Nat.le_add_left 1 p.line, Nat.le_refl 1⟩
  · exact ⟨h.line, Nat.le_add_left 1 p.column⟩

theorem Counted.advanceOver {p : Position} (h : p.Counted) (cs : List Char) :
    (p.advanceOver cs).Counted := by
  induction cs generalizing p with
  | nil => exact h
  | cons c cs ih => exact ih (h.advance c)

theorem move_origin {p : Position} (h : p.Counted) : p.move origin = p := by
  rcases p with ⟨offset, line, column⟩
  rcases h with ⟨hline, hcolumn⟩
  simp only [move, origin, Nat.add_zero, if_true, Nat.sub_add_cancel hline,
    Nat.sub_add_cancel hcolumn]

theorem move_advance (p : Position) {q : Position} (h : 1 ≤ q.line) (c : Char) :
    p.move (q.advance c) = (p.move q).advance c := by
  unfold advance
  split
  · have hline : q.line + 1 ≠ 1 := by omega
    simp only [move, if_neg hline]
    rfl
  · simp only [move]
    split
    · rfl
    · rfl

theorem move_advanceOver (p : Position) {q : Position} (h : q.Counted) (cs : List Char) :
    p.move (q.advanceOver cs) = (p.move q).advanceOver cs := by
  induction cs generalizing q with
  | nil => rfl
  | cons c cs ih =>
      have hnext := ih (h.advance c)
      rw [move_advance p h.line] at hnext
      exact hnext

/-- A place of a source, counted in one that has another text in front. -/
theorem move_origin_advanceOver (cs ds : List Char) :
    (origin.advanceOver cs).move (origin.advanceOver ds) = origin.advanceOver (cs ++ ds) := by
  rw [move_advanceOver _ counted_origin, move_origin (counted_origin.advanceOver cs),
    advanceOver_append]

end Position

namespace Span

/-- A span of a source that begins at `p`. -/
def move (p : Position) (s : Span) : Span :=
  ⟨p.offset + s.start, p.offset + s.stop, p.line - 1 + s.line,
    if s.line = 1 then p.column - 1 + s.column else s.column⟩

theorem move_join (p : Position) (s t : Span) : (s.join t).move p = (s.move p).join (t.move p) :=
  rfl

theorem move_slice (p : Position) (s : Span) (start stop : Nat) :
    (s.slice start stop).move p = (s.move p).slice start stop := by
  by_cases hline : s.line = 1
  · simp [move, slice, hline, Nat.add_assoc]
  · simp [move, slice, hline, Nat.add_assoc]

end Span

/-- What stands from the position `p` on, after `n` blocks. -/
def Likeness.moved (p : Position) (n : Nat) : Likeness where
  span s s' := s' = s.move p
  text _ x y := x = y
  block i i' := i' = i + n
  span_join := by
    rintro s s' t t' rfl rfl
    exact (Span.move_join p s t).symm
  span_slice := by
    rintro s s' start stop rfl
    exact (Span.move_slice p s start stop).symm
  text_empty := by
    rintro s x y rfl
    rfl
  block_succ := by
    rintro i i' rfl
    exact Nat.add_right_comm i n 1
  block_inj := by
    rintro i i' j j' rfl rfl
    exact (Nat.add_right_cancel_iff).symm

/-! ## Tokens -/

variable {p : Position} {n : Nat}

theorem Token.alike_moved (kind : TokenKind) (value : String) (s : Span) :
    (Token.mk kind value s).Alike (.moved p n) ⟨kind, value, s.move p⟩ := by
  by_cases hkind : kind = .hostText
  · subst hkind
    exact .hostText rfl rfl
  · exact .same kind value hkind rfl

namespace Lexeme

/-- The tokens of consecutive lexemes without the end of the input. -/
def words (p : Position) : List Lexeme → List Token
  | [] => []
  | lexeme :: rest =>
      let q := p.advanceOver lexeme.text
      match lexeme.kind with
      | none => words q rest
      | some kind => ⟨kind, lexeme.value, p.upTo q⟩ :: words q rest

/-- The position after consecutive lexemes. -/
def placeAfter (p : Position) (lexemes : List Lexeme) : Position :=
  p.advanceOver (lexemes.flatMap text)

theorem placeAfter_cons (p : Position) (lexeme : Lexeme) (rest : List Lexeme) :
    placeAfter p (lexeme :: rest) = placeAfter (p.advanceOver lexeme.text) rest := by
  rw [placeAfter, List.flatMap_cons, Position.advanceOver_append]
  rfl

theorem tokens_eq_words (p : Position) (lexemes : List Lexeme) :
    tokens p lexemes = words p lexemes ++
      [⟨.endOfInput, "", (placeAfter p lexemes).upTo (placeAfter p lexemes)⟩] := by
  induction lexemes generalizing p with
  | nil => rfl
  | cons lexeme rest ih =>
      rw [tokens, words, placeAfter_cons]
      cases lexeme.kind with
      | none => exact ih _
      | some kind => exact congrArg (List.cons _) (ih _)

theorem words_append (p : Position) (first second : List Lexeme) :
    words p (first ++ second) = words p first ++ words (placeAfter p first) second := by
  induction first generalizing p with
  | nil => rfl
  | cons lexeme rest ih =>
      rw [List.cons_append, words, words, placeAfter_cons]
      cases lexeme.kind with
      | none => exact ih _
      | some kind => exact congrArg (List.cons _) (ih _)

theorem words_moved {q : Position} (hq : q.Counted) (lexemes : List Lexeme) :
    List.Forall₂ (Token.Alike (.moved p n)) (words q lexemes) (words (p.move q) lexemes) := by
  induction lexemes generalizing q with
  | nil => exact .nil
  | cons lexeme rest ih =>
      have hrest := ih (hq.advanceOver lexeme.text)
      rw [Position.move_advanceOver p hq] at hrest
      rw [words, words]
      cases lexeme.kind with
      | none => exact hrest
      | some kind =>
          dsimp only
          rw [← Position.move_advanceOver p hq]
          rw [← Position.move_advanceOver p hq] at hrest
          exact .cons (Token.alike_moved kind lexeme.value _) hrest

end Lexeme

/-! ## Evaluation -/

namespace Undefined

def move (p : Position) : Undefined → Undefined
  | scalar name span => .scalar name (span.move p)
  | array name span => .array name (span.move p)

end Undefined

namespace Evaluation

def move (p : Position) (e : Evaluation) : Evaluation :=
  ⟨e.output, e.stopped.map (Undefined.move p)⟩

theorem move_andThen (p : Position) (first second : Evaluation) :
    (first.andThen second).move p = (first.move p).andThen (second.move p) := by
  rcases first with ⟨output, stopped⟩
  cases stopped with
  | none => rfl
  | some u => rfl

theorem move_sequence (p : Position) (es : List Evaluation) :
    (sequence es).move p = sequence (es.map (move p)) := by
  induction es with
  | nil => rfl
  | cons e es ih => rw [sequence, move_andThen, ih, List.map_cons, sequence]

theorem move_captured (p : Position) (e : Evaluation) (next : String → Evaluation) :
    (e.captured next).move p = (e.move p).captured fun text => (next text).move p := by
  rcases e with ⟨output, stopped⟩
  cases stopped with
  | none => rfl
  | some u => rfl

/-- One after the other, things are moved as each of them is. -/
theorem sequence_moved {α α' : Type} {R : α → α' → Prop} {f : α → Evaluation}
    {f' : α' → Evaluation} {as : List α} {as' : List α'} (h : List.Forall₂ R as as')
    (hf : ∀ a a', R a a' → f' a' = (f a).move p) :
    sequence (as'.map f') = (sequence (as.map f)).move p := by
  induction h with
  | nil => rfl
  | cons ha _ ih =>
      rw [List.map_cons, List.map_cons, sequence, sequence, move_andThen, hf _ _ ha, ih]

end Evaluation

theorem Environment.evaluate_moved (env : Environment) (bound : Bindings) (name : String)
    (s : Span) : env.evaluate bound name (s.move p) = (env.evaluate bound name s).move p := by
  unfold evaluate
  split
  · rfl
  · rfl

theorem Piece.evaluate_moved (env : Environment) (bound : Bindings) (s : Span) (piece : Piece) :
    piece.evaluate env bound (s.move p) = (piece.evaluate env bound s).move p := by
  cases piece with
  | text start stop value => rfl
  | interpolation start stop name =>
      rw [evaluate, ← Span.move_slice, Environment.evaluate_moved]
      rfl

theorem Operand.Alike.evaluate {o o' : Operand} (h : o.Alike (.moved p n) o') (env : Environment)
    (bound : Bindings) : o'.evaluate env bound = (o.evaluate env bound).move p := by
  cases h with
  | identifier name hspan =>
      cases hspan
      exact env.evaluate_moved bound name _
  | string raw hspan =>
      cases hspan
      rw [Operand.evaluate, Operand.evaluate]
      split
      · rw [Evaluation.move_sequence, List.map_map]
        congr 1
        apply List.map_congr_left
        intro piece _
        exact piece.evaluate_moved env bound _
      · rfl

namespace Block

variable {b b' : Block}

/-- Operands of the same macro, of each of two blocks. -/
structure MacroAlike (L : Likeness) (m m' : Operand × Operand) : Prop where
  pattern : m.1.Alike L m'.1
  body : m.2.Alike L m'.2

theorem Alike.findMacro {L : Likeness} (h : b.Alike L b') (name : String) :
    Option.Rel (MacroAlike L) (b.findMacro name) (b'.findMacro name) := by
  rw [Block.findMacro, Block.findMacro]
  have hstatements := h.statements
  generalize b.statements = ss at hstatements
  generalize b'.statements = ss' at hstatements
  induction hstatements with
  | nil => exact .none
  | cons hs _ ih =>
      cases hs with
      | comment text hspan => exact ih
      | expression he => exact ih
      | definition other hspan hpattern hbody =>
          rw [List.findSome?_cons, List.findSome?_cons]
          by_cases hname : other = name
          · simp only [if_pos hname]
            exact .some ⟨hpattern, hbody⟩
          · simp only [if_neg hname]
            exact ih

theorem Alike.applyMacro (h : b.Alike (.moved p n) b') (env : Environment) (name : String)
    (bound : Bindings) :
    b'.applyMacro env name bound = (b.applyMacro env name bound).move p := by
  have hmacro := h.findMacro name
  rw [Block.applyMacro, Block.applyMacro]
  generalize b.findMacro name = found at hmacro
  generalize b'.findMacro name = found' at hmacro
  cases hmacro with
  | none => rfl
  | some hm =>
      dsimp only
      rw [Evaluation.move_captured, hm.pattern.evaluate]
      congr 1
      funext text
      exact hm.body.evaluate env _

theorem Alike.applyToItems (h : b.Alike (.moved p n) b') (env : Environment) (name : String)
    (index : Nat) (items : List String) :
    b'.applyToItems env name index items = (b.applyToItems env name index items).move p := by
  induction items generalizing index with
  | nil => rfl
  | cons item items ih =>
      rw [Block.applyToItems, Block.applyToItems, Evaluation.move_andThen, h.applyMacro, ih]

theorem Alike.evaluateExpression (h : b.Alike (.moved p n) b') (env : Environment)
    {e e' : Expression} (he : e.Alike (.moved p n) e') :
    b'.evaluateExpression env e' = (b.evaluateExpression env e).move p := by
  cases he with
  | plain hsource =>
      cases hsource with
      | operand ho => exact ho.evaluate env []
      | array name hspan =>
          cases hspan
          rw [Block.evaluateExpression, Block.evaluateExpression]
          split
          · rfl
          · rfl
  | pipe hsource htarget =>
      cases htarget with
      | named target htarget =>
          cases hsource with
          | operand ho =>
              rw [Block.evaluateExpression, Block.evaluateExpression, Evaluation.move_captured,
                ho.evaluate]
              congr 1
              funext text
              exact h.applyMacro env _ _
          | array name hspan =>
              cases hspan
              rw [Block.evaluateExpression, Block.evaluateExpression]
              split
              · exact h.applyToItems env _ 0 _
              · rfl

theorem Alike.evaluateStatement (h : b.Alike (.moved p n) b') (env : Environment)
    {s s' : Statement} (hs : s.Alike (.moved p n) s') :
    b'.evaluateStatement env s' = (b.evaluateStatement env s).move p := by
  cases hs with
  | comment text hspan => rfl
  | definition name hspan hpattern hbody => rfl
  | expression he => exact h.evaluateExpression env he

end Block

theorem Item.Alike.evaluate {item item' : Item} (h : item.Alike (.moved p n) item')
    (env : Environment) : item'.evaluate env = (item.evaluate env).move p := by
  cases h with
  | hostText htext hspan =>
      cases htext
      rfl
  | block hb =>
      exact Evaluation.sequence_moved hb.statements fun _ _ hs => hb.evaluateStatement env hs

end Stencil
