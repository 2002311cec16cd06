import Stencil.Proofs.Location
import Stencil.Proofs.Resolution
import Stencil.Proofs.Spanning

/-!
# Where programs come from

The spans of a document that was read from a source lie in it, and so do those of
every instruction and every macro that the document is lowered to, and those of
every error.  A name interpolated into a string is placed at the dollar sign, the
parentheses and the name that stand for it.
-/

namespace Stencil

/-! ## Pieces of strings -/

namespace Piece

/-- The piece lies in the body of a literal, from offset `i` on, and a name stands
there between parentheses, with a dollar sign in front. -/
def Fits (body : List Char) (i : Nat) : Piece → Prop
  | text start stop _ => i ≤ start ∧ start ≤ stop ∧ stop ≤ body.length
  | interpolation start stop name => i ≤ start ∧ start ≤ stop ∧ stop ≤ body.length ∧
      (body.drop start).take (stop - start) = '$' :: '(' :: (name ++ [')'])

variable {body : List Char} {i j : Nat}

theorem Fits.mono {piece : Piece} (h : piece.Fits body j) (hle : i ≤ j) : piece.Fits body i := by
  cases piece with
  | text start stop value => exact ⟨Nat.le_trans hle h.1, h.2⟩
  | interpolation start stop name => exact ⟨Nat.le_trans hle h.1, h.2⟩

theorem fits_prepend {pieces : List Piece} {value : List Char} (hle : i ≤ j)
    (hj : j ≤ body.length) (h : ∀ piece ∈ pieces, piece.Fits body j) :
    ∀ piece ∈ StringBody.prepend i j value pieces, piece.Fits body i := by
  unfold StringBody.prepend
  split
  · rename_i start stop value' rest
    rcases h _ List.mem_cons_self with ⟨hstart, hstop, hbound⟩
    intro piece hpiece
    rcases List.mem_cons.mp hpiece with rfl | hpiece
    · exact ⟨Nat.le_refl i, by omega, hbound⟩
    · exact (h piece (List.mem_cons_of_mem _ hpiece)).mono hle
  · intro piece hpiece
    rcases List.mem_cons.mp hpiece with rfl | hpiece
    · exact ⟨Nat.le_refl i, hle, hj⟩
    · exact (h piece hpiece).mono hle

end Piece

namespace StringBody

/-- A name up to its closing parenthesis, and what stands after that. -/
theorem takeWhile_append_of_drop {rest after : List Char} {c : Char}
    (h : rest.drop (rest.takeWhile (· != ')')).length = c :: after) :
    rest = rest.takeWhile (· != ')') ++ ')' :: after := by
  induction rest with
  | nil => cases h
  | cons d rest ih =>
      by_cases hd : d = ')'
      · subst hd
        rw [List.takeWhile_cons_of_neg (by simp)] at h ⊢
        cases h
        rfl
      · have hpos : (d != ')') = true := bne_iff_ne.mpr hd
        rw [List.takeWhile_cons_of_pos (p := (· != ')')) hpos] at h ⊢
        rw [List.length_cons, List.drop_succ_cons] at h
        rw [List.cons_append, ← ih h]

theorem fits_of_pieces {body : List Char} (before : List Char) {cs : List Char} {i : Nat}
    {ps : List Piece} (hbody : body = before ++ cs) (hi : before.length = i)
    (h : pieces i cs = .ok ps) : ∀ piece ∈ ps, piece.Fits body i := by
  have hbound : body.length = i + cs.length := by
    rw [hbody, List.length_append, hi]
  fun_induction pieces i cs generalizing before ps with
  | case1 =>
      cases h
      simp
  | case2 i c rest ih =>
      rcases ok_of_map h with ⟨more, hmore, rfl⟩
      rw [List.length_cons, List.length_cons] at hbound
      apply Piece.fits_prepend (by omega) (by omega)
      apply ih (before ++ ['\\', c]) (by simp [hbody]) _ hmore (by omega)
      rw [List.length_append, hi]
      rfl
  | case3 => cases h
  | case4 i rest name stop c after hdrop hname =>
      rename_i ih
      rcases ok_of_map h with ⟨more, hmore, rfl⟩
      have hrest : rest = name ++ ')' :: after := takeWhile_append_of_drop hdrop
      have hsplit : '$' :: '(' :: rest = '$' :: '(' :: (name ++ [')']) ++ after := by
        rw [hrest]
        simp
      have hlength : ('$' :: '(' :: (name ++ [')'])).length = name.length + 3 := by
        simp
      rw [hsplit] at hbody hbound
      rw [List.length_append, hlength] at hbound
      have hstop : stop = i + (name.length + 3) := Nat.add_assoc _ _ _
      intro piece hpiece
      rcases List.mem_cons.mp hpiece with rfl | hpiece
      · refine ⟨Nat.le_refl i, by omega, by omega, ?_⟩
        have hsub : stop - i = ('$' :: '(' :: (name ++ [')'])).length := by omega
        rw [hbody, ← hi, List.drop_left, hi, hsub, List.take_left]
      · have hmono : piece.Fits body stop := by
          apply ih (before ++ '$' :: '(' :: (name ++ [')'])) _ _ hmore (by omega) piece hpiece
          · rw [hbody, List.append_assoc]
          · rw [List.length_append, hi, hlength, hstop]
        exact hmono.mono (by omega)
  | case5 => cases h
  | case6 i c rest _ _ ih =>
      rcases ok_of_map h with ⟨more, hmore, rfl⟩
      rw [List.length_cons] at hbound
      apply Piece.fits_prepend (by omega) (by omega)
      apply ih (before ++ [c]) (by simp [hbody]) _ hmore (by omega)
      rw [List.length_append, hi]
      rfl

theorem bounds_of_pieces {cs : List Char} {i : Nat} {e : MalformedInterpolation}
    (h : pieces i cs = .error e) : e.start ≤ e.stop ∧ e.stop ≤ i + cs.length := by
  fun_induction pieces i cs with
  | case1 => cases h
  | case2 i c rest ih =>
      have hbounds := ih (error_of_map h)
      rw [List.length_cons, List.length_cons]
      omega
  | case3 i rest name hdrop =>
      cases h
      rw [List.length_cons, List.length_cons]
      simp only
      omega
  | case4 i rest name stop c after hdrop hname =>
      rename_i ih
      have hbounds := ih (error_of_map h)
      have hrest : rest = name ++ ')' :: after := takeWhile_append_of_drop hdrop
      rw [hrest, List.length_cons, List.length_cons, List.length_append, List.length_cons]
      omega
  | case5 i rest name stop c after hdrop hname =>
      cases h
      have hrest : rest = name ++ ')' :: after := takeWhile_append_of_drop hdrop
      rw [hrest, List.length_cons, List.length_cons, List.length_append, List.length_cons]
      simp only
      omega
  | case6 i c rest _ _ ih =>
      have hbounds := ih (error_of_map h)
      rw [List.length_cons]
      omega

end StringBody

/-! ## Instructions -/

variable {source : List Char} {P : Span → Prop}

namespace Instruction

/-- The instruction has a place, which has the property. -/
def Located (P : Span → Prop) (i : Instruction) : Prop :=
  ∃ s, i.span = some s ∧ P s

/-- The instruction has a place, which lies in the source. -/
def Placed (source : List Char) (i : Instruction) : Prop :=
  ∃ s, i.span = some s ∧ s.Within source

theorem located_of {s : Span} (h : P s) (operation : Operation) :
    (Instruction.mk operation (some s)).Located P :=
  ⟨s, rfl, h⟩

end Instruction

namespace CompileError

/-- The place of an error and those of its notes. -/
def spans (e : CompileError) : List Span :=
  e.span :: e.notes.map Note.span

/-- All of them have the property. -/
def Located (P : Span → Prop) (e : CompileError) : Prop :=
  ∀ s ∈ e.spans, P s

/-- All of them lie in the source. -/
def Placed (source : List Char) (e : CompileError) : Prop :=
  ∀ s ∈ e.spans, s.Within source

end CompileError

/-! ## Operands -/

namespace Operand

/-- The operand stands in the source as it is: a string between quotes on one line,
an identifier with its name. -/
inductive Written (source : List Char) : Operand → Prop where
  | string {span : Span} {raw : String} (hspan : span.Within source)
      (htext : span.text source = '"' :: (raw.toList ++ ['"'])) (hline : '\n' ∉ raw.toList) :
      Written source (string span raw)
  | identifier {span : Span} {name : String} (hspan : span.Within source)
      (htext : span.text source = name.toList) : Written source (identifier span name)

/-- The operand and the slices of a string between its quotes have the property. -/
inductive Located (P : Span → Prop) : Operand → Prop where
  | string {span : Span} {raw : String} (hspan : P span)
      (hslice : ∀ {start stop : Nat}, start ≤ stop → stop ≤ raw.toList.length →
        P (span.slice (start + 1) (stop + 1))) : Located P (string span raw)
  | identifier {span : Span} {name : String} (hspan : P span) : Located P (identifier span name)

variable {o : Operand} {is : List Instruction}

theorem Written.located (h : o.Written source) : o.Located (Span.Within source) := by
  cases h with
  | string hspan htext hline =>
      exact .string hspan fun hle hstop =>
        Span.slice_within hspan htext (by decide) hline hle hstop
  | identifier hspan _ => exact .identifier hspan

theorem Located.span (h : o.Located P) : P o.span := by
  cases h with
  | string hspan _ => exact hspan
  | identifier hspan => exact hspan

theorem fits_of_lower {span : Span} {raw : String} (h : (string span raw).lower = .ok is) :
    ∃ ps : List Piece, is = ps.map (Piece.lower span) ∧ ∀ piece ∈ ps, piece.Fits raw.toList 0 := by
  simp only [lower] at h
  split at h
  · rename_i ps hps
    cases h
    exact ⟨ps, rfl, StringBody.fits_of_pieces [] rfl rfl hps⟩
  · cases h

theorem located_of_lower (ho : o.Located P) (h : o.lower = .ok is) :
    ∀ i ∈ is, i.Located P := by
  cases ho with
  | identifier hspan =>
      cases h
      intro i hi
      rw [List.mem_singleton.mp hi]
      exact Instruction.located_of hspan _
  | string hspan hslice =>
      rcases fits_of_lower h with ⟨ps, rfl, hfits⟩
      intro i hi
      rcases List.mem_map.mp hi with ⟨piece, hpiece, rfl⟩
      have hpieceFits := hfits piece hpiece
      cases piece with
      | text start stop value =>
          rcases hpieceFits with ⟨_, hle, hstop⟩
          exact Instruction.located_of (hslice hle hstop) _
      | interpolation start stop name =>
          rcases hpieceFits with ⟨_, hle, hstop, _⟩
          exact Instruction.located_of (hslice hle hstop) _

/-- A name that a string interpolates is placed where it is interpolated. -/
theorem text_of_interpolation {span s : Span} {raw name : String}
    (ho : (string span raw).Written source) (h : (string span raw).lower = .ok is)
    (hmem : .of (.emitVar name) (some s) ∈ is) :
    s.text source = '$' :: '(' :: (name.toList ++ [')']) := by
  cases ho with
  | string hspan htext hline =>
      rcases fits_of_lower h with ⟨ps, rfl, hfits⟩
      rcases List.mem_map.mp hmem with ⟨piece, hpiece, heq⟩
      have hpieceFits := hfits piece hpiece
      cases piece with
      | text start stop value => cases heq
      | interpolation start stop letters =>
          cases heq
          rcases hpieceFits with ⟨_, _, hstop, hletters⟩
          rw [Span.text_slice hspan htext hstop, hletters, String.toList_ofList]

theorem located_of_lower_error {e : SemanticError} (ho : o.Located P)
    (h : o.lower = .error e) : (CompileError.semantic e).Located P := by
  cases ho with
  | identifier _ => cases h
  | @string span raw hspan hslice =>
      simp only [lower] at h
      split at h
      · cases h
      · rename_i fault hfault
        cases h
        rcases StringBody.bounds_of_pieces hfault with ⟨hle, hstop⟩
        rw [Nat.zero_add] at hstop
        intro s hs
        rw [List.mem_singleton.mp hs]
        exact hslice hle hstop

end Operand

/-! ## Statements -/

namespace Expression

variable {e : Expression}

theorem located_of_lower {block : Nat} {is : List Instruction}
    (hspans : ∀ s ∈ e.spans, P s)
    (hoperands : ∀ o ∈ e.source.operands, o.Located P) (h : e.lower block = .ok is) :
    ∀ i ∈ is, i.Located P := by
  cases e with
  | plain origin =>
      cases origin with
      | operand o => exact Operand.located_of_lower (hoperands o List.mem_cons_self) h
      | array span name =>
          cases h
          have hspan : P span := hspans span List.mem_cons_self
          simp [Instruction.of, Instruction.located_of hspan]
  | pipe origin target =>
      have htarget : P target.span := hspans _ (by simp [spans])
      cases origin with
      | operand o =>
          rcases ok_of_bind h with ⟨value, hvalue, hend⟩
          cases hend
          have ho := hoperands o List.mem_cons_self
          have hlocated := Operand.located_of_lower ho hvalue
          simp only [List.forall_mem_append, List.forall_mem_cons, MacroRef.lower,
            Instruction.of, Instruction.located_of ho.span, Instruction.located_of htarget]
          simpa using hlocated
      | array span name =>
          cases h
          have hspan : P span := hspans span (by simp [spans, Source.span])
          simp [MacroRef.lower, Instruction.of, Instruction.located_of hspan,
            Instruction.located_of htarget]

theorem located_of_lower_error {block : Nat} {error : SemanticError}
    (hoperands : ∀ o ∈ e.source.operands, o.Located P)
    (h : e.lower block = .error error) : (CompileError.semantic error).Located P := by
  cases e with
  | plain origin =>
      cases origin with
      | operand o => exact Operand.located_of_lower_error (hoperands o List.mem_cons_self) h
      | array span name => cases h
  | pipe origin target =>
      cases origin with
      | operand o =>
          rcases error_of_bind h with hvalue | ⟨value, _, hend⟩
          · exact Operand.located_of_lower_error (hoperands o List.mem_cons_self) hvalue
          · cases hend
      | array span name => cases h

end Expression

namespace Macro

/-- The macro has a place, and so have its instructions. -/
def Located (P : Span → Prop) (m : Macro) : Prop :=
  (∃ s, m.span = some s ∧ P s) ∧ ∀ i ∈ m.pattern ++ m.body, i.Located P

/-- The macro and its instructions have places in the source. -/
def Placed (source : List Char) (m : Macro) : Prop :=
  (∃ s, m.span = some s ∧ s.Within source) ∧ ∀ i ∈ m.pattern ++ m.body, i.Placed source

end Macro

namespace Statement

/-- The parts of the statement lie in the source. -/
structure Written (source : List Char) (s : Statement) : Prop where
  spans : ∀ span ∈ s.spans, span.Within source
  operands : ∀ o ∈ s.operands, o.Written source

/-- The spans and the operands of the statement have the property. -/
structure Located (P : Span → Prop) (s : Statement) : Prop where
  spans : ∀ span ∈ s.spans, P span
  operands : ∀ o ∈ s.operands, o.Located P

variable {s : Statement} {block : Nat}

theorem located_of_lower {is : List Instruction} (hs : s.Located P)
    (h : s.lower block = .ok is) : ∀ i ∈ is, i.Located P := by
  cases s with
  | comment span text =>
      cases h
      intro i hi
      rw [List.mem_singleton.mp hi]
      exact Instruction.located_of (hs.spans span List.mem_cons_self) _
  | definition span name pattern body =>
      cases h
      simp
  | expression e =>
      have hspans : ∀ span ∈ e.spans, P span := fun span hmem =>
        hs.spans span (List.mem_cons_of_mem _ hmem)
      exact Expression.located_of_lower hspans hs.operands h

theorem located_of_toMacro {m : Macro} (hs : s.Located P)
    (h : s.toMacro block = .ok (some m)) : m.Located P := by
  cases s with
  | comment span text => cases h
  | expression e => cases h
  | definition span name pattern body =>
      rcases ok_of_bind h with ⟨patternCode, hpattern, hrest⟩
      rcases ok_of_bind hrest with ⟨bodyCode, hbody, hend⟩
      cases hend
      refine ⟨⟨span, rfl, hs.spans span List.mem_cons_self⟩, ?_⟩
      have hpatternLocated := Operand.located_of_lower
        (hs.operands pattern List.mem_cons_self) hpattern
      have hbodyLocated := Operand.located_of_lower
        (hs.operands body (by simp [Statement.operands])) hbody
      exact List.forall_mem_append.mpr ⟨hpatternLocated, hbodyLocated⟩

theorem located_of_lower_error {e : SemanticError} (hs : s.Located P)
    (h : s.lower block = .error e) : (CompileError.semantic e).Located P := by
  cases s with
  | comment span text => cases h
  | definition span name pattern body => cases h
  | expression e => exact Expression.located_of_lower_error hs.operands h

theorem located_of_toMacro_error {e : SemanticError} (hs : s.Located P)
    (h : s.toMacro block = .error e) : (CompileError.semantic e).Located P := by
  cases s with
  | comment span text => cases h
  | expression e => cases h
  | definition span name pattern body =>
      rcases error_of_bind h with hpattern | ⟨patternCode, _, hrest⟩
      · exact Operand.located_of_lower_error (hs.operands pattern List.mem_cons_self) hpattern
      · rcases error_of_bind hrest with hbody | ⟨bodyCode, _, hend⟩
        · exact Operand.located_of_lower_error
            (hs.operands body (by simp [Statement.operands])) hbody
        · cases hend

end Statement

/-! ## Blocks -/

namespace Block

theorem located_of_checkDistinct {seen rest : List (String × Span)} {e : SemanticError}
    (hseen : ∀ d ∈ seen, P d.2) (hrest : ∀ d ∈ rest, P d.2)
    (h : checkDistinct seen rest = .error e) : (CompileError.semantic e).Located P := by
  induction rest generalizing seen with
  | nil => cases h
  | cons d rest ih =>
      rcases d with ⟨name, span⟩
      have hspan : P span := hrest _ List.mem_cons_self
      simp only [checkDistinct] at h
      split at h
      · rename_i first hfirst
        cases h
        rcases List.lookup_eq_some_iff.mp hfirst with ⟨before, after, hsplit, _⟩
        have hmem : (name, first) ∈ seen := by
          rw [hsplit]
          simp
        intro s hs
        rcases List.mem_cons.mp hs with rfl | hs
        · exact hspan
        · rw [List.mem_singleton.mp hs]
          exact hseen _ hmem
      · apply ih _ (fun d hd => hrest d (List.mem_cons_of_mem _ hd)) h
        exact List.forall_mem_cons.mpr ⟨hspan, hseen⟩

theorem located_of_checkCalls {definitions : List (String × Span)} {calls : List MacroRef}
    {e : SemanticError} (hcalls : ∀ target ∈ calls, P target.span)
    (h : checkCalls definitions calls = .error e) :
    (CompileError.semantic e).Located P := by
  induction calls with
  | nil => cases h
  | cons target rest ih =>
      simp only [checkCalls] at h
      split at h
      · exact ih (fun t ht => hcalls t (List.mem_cons_of_mem _ ht)) h
      · cases h
        intro s hs
        rw [List.mem_singleton.mp hs]
        exact hcalls target List.mem_cons_self

variable {b : Block}

theorem located_definitions (hb : ∀ s ∈ b.statements, s.Located P) :
    ∀ d ∈ b.definitions, P d.2 := by
  intro d hd
  rcases List.mem_filterMap.mp hd with ⟨s, hmem, hs⟩
  cases s with
  | comment _ _ => cases hs
  | expression _ => cases hs
  | definition span name pattern body =>
      cases hs
      exact (hb _ hmem).spans span List.mem_cons_self

theorem located_calls (hb : ∀ s ∈ b.statements, s.Located P) :
    ∀ target ∈ b.calls, P target.span := by
  intro target htarget
  rcases List.mem_filterMap.mp htarget with ⟨s, hmem, hs⟩
  cases s with
  | comment _ _ => cases hs
  | definition _ _ _ _ => cases hs
  | expression e =>
      cases e with
      | plain _ => cases hs
      | pipe origin target =>
          cases hs
          exact (hb _ hmem).spans target.span (by simp [Statement.spans, Expression.spans])

theorem located_of_lower {ms : List Macro} {is : List Instruction}
    (hb : ∀ s ∈ b.statements, s.Located P) (h : b.lower = .ok (ms, is)) :
    (∀ m ∈ ms, m.Located P) ∧ ∀ i ∈ is, i.Located P := by
  have hlowered := lowered_of_lower h
  constructor
  · rcases hlowered.macros with ⟨found, hfound, rfl⟩
    intro m hm
    rcases List.mem_filterMap.mp hm with ⟨option, hoption, hid⟩
    cases hid
    rcases exists_of_mem_of_forall₂ hfound hoption with ⟨s, hs, hmacro⟩
    exact Statement.located_of_toMacro (hb s hs) hmacro
  · rcases hlowered.code with ⟨parts, hparts, rfl⟩
    intro i hi
    rcases List.mem_flatten.mp hi with ⟨part, hpart, hi⟩
    rcases exists_of_mem_of_forall₂ hparts hpart with ⟨s, hs, hcode⟩
    exact Statement.located_of_lower (hb s hs) hcode i hi

theorem located_of_lower_error {e : SemanticError} (hb : ∀ s ∈ b.statements, s.Located P)
    (h : b.lower = .error e) : (CompileError.semantic e).Located P := by
  rcases error_of_bind h with hdistinct | ⟨_, _, h1⟩
  · exact located_of_checkDistinct (by simp) (located_definitions hb) hdistinct
  · rcases error_of_bind h1 with hcalls | ⟨_, _, h2⟩
    · exact located_of_checkCalls (located_calls hb) hcalls
    · rcases error_of_bind h2 with hmacros | ⟨_, _, h3⟩
      · rcases error_of_mapM hmacros with ⟨s, hs, hmacro⟩
        exact Statement.located_of_toMacro_error (hb s hs) hmacro
      · rcases error_of_bind h3 with hcode | ⟨_, _, hend⟩
        · rcases error_of_mapM hcode with ⟨s, hs, hlower⟩
          exact Statement.located_of_lower_error (hb s hs) hlower
        · cases hend

end Block

/-! ## Documents -/

namespace MacroTable

theorem mem_of_mem_insert {m other : Macro} {es : List Macro} (h : other ∈ insert m es) :
    other = m ∨ other ∈ es := by
  induction es with
  | nil => exact .inl (List.mem_singleton.mp h)
  | cons e es ih =>
      simp only [insert] at h
      split at h
      · rcases List.mem_cons.mp h with h | h
        · exact .inl h
        · exact .inr (List.mem_cons_of_mem _ h)
      · rcases List.mem_cons.mp h with h | h
        · exact .inr (h ▸ List.mem_cons_self)
        · rcases ih h with h | h
          · exact .inl h
          · exact .inr (List.mem_cons_of_mem _ h)

theorem mem_of_mem_foldl_define {ms : List Macro} {table : MacroTable} {m : Macro}
    (h : m ∈ (ms.foldl define table).entries) : m ∈ ms ∨ m ∈ table.entries := by
  induction ms generalizing table with
  | nil => exact .inr h
  | cons first ms ih =>
      rcases ih h with h | h
      · exact .inl (List.mem_cons_of_mem _ h)
      · rcases mem_of_mem_insert h with rfl | h
        · exact .inl List.mem_cons_self
        · exact .inr h

theorem mem_of_mem_ofList {ms : List Macro} {m : Macro} (h : m ∈ (ofList ms).entries) :
    m ∈ ms := by
  rcases mem_of_mem_foldl_define h with h | h
  · exact h
  · cases h

end MacroTable

namespace Program

structure Located (P : Span → Prop) (p : Program) : Prop where
  instructions : ∀ i ∈ p.instructions, i.Located P
  macros : ∀ m ∈ p.macros.entries, m.Located P

/-- The instructions and the macros of the program have places in the source. -/
structure Placed (source : List Char) (p : Program) : Prop where
  instructions : ∀ i ∈ p.instructions, i.Placed source
  macros : ∀ m ∈ p.macros.entries, m.Placed source

end Program

namespace Document

structure Located (P : Span → Prop) (document : Document) : Prop where
  spans : ∀ s ∈ document.spans, P s
  operands : ∀ o ∈ document.operands, o.Located P

/-- The parts of the document lie in the source. -/
structure Written (source : List Char) (document : Document) : Prop where
  spans : ∀ s ∈ document.spans, s.Within source
  operands : ∀ o ∈ document.operands, o.Written source

variable {document : Document}

theorem Written.located (h : document.Written source) : document.Located (Span.Within source) :=
  ⟨h.spans, fun o ho => (h.operands o ho).located⟩

theorem subset_of_item {item : Item} (hitem : item ∈ document.items) :
    item.spans ⊆ document.spans ∧ item.operands ⊆ document.operands := by
  constructor
  · intro s hs
    exact List.mem_cons_of_mem _ (List.mem_flatMap.mpr ⟨item, hitem, hs⟩)
  · intro o ho
    exact List.mem_flatMap.mpr ⟨item, hitem, ho⟩

theorem subset_of_statement {b : Block} {s : Statement} (hb : Item.block b ∈ document.items)
    (hs : s ∈ b.statements) : s.spans ⊆ document.spans ∧ s.operands ⊆ document.operands := by
  rcases subset_of_item hb with ⟨hspans, hoperands⟩
  constructor
  · intro span hspan
    exact hspans (List.mem_cons_of_mem _ (List.mem_flatMap.mpr ⟨s, hs, hspan⟩))
  · intro o ho
    exact hoperands (List.mem_flatMap.mpr ⟨s, hs, ho⟩)

theorem Located.statement (h : document.Located P) {b : Block}
    (hb : Item.block b ∈ document.items) : ∀ s ∈ b.statements, s.Located P := by
  intro s hs
  rcases subset_of_statement hb hs with ⟨hspans, hoperands⟩
  exact ⟨fun span hspan => h.spans span (hspans hspan), fun o ho => h.operands o (hoperands ho)⟩

theorem Written.statement (h : document.Written source) {b : Block}
    (hb : Item.block b ∈ document.items) : ∀ s ∈ b.statements, s.Written source := by
  intro s hs
  rcases subset_of_statement hb hs with ⟨hspans, hoperands⟩
  exact ⟨fun span hspan => h.spans span (hspans hspan), fun o ho => h.operands o (hoperands ho)⟩

theorem located_of_lowered_item (h : document.Located P) {item : Item}
    (hitem : item ∈ document.items) {ms : List Macro} {is : List Instruction}
    (hlower : item.lower = .ok (ms, is)) :
    (∀ m ∈ ms, m.Located P) ∧ ∀ i ∈ is, i.Located P := by
  cases item with
  | block b => exact Block.located_of_lower (h.statement hitem) hlower
  | hostText span text =>
      have hspan : P span := h.spans span ((subset_of_item hitem).1 List.mem_cons_self)
      cases hlower
      constructor
      · simp
      · intro i hi
        split at hi
        · cases hi
        · rw [List.mem_singleton.mp hi]
          exact Instruction.located_of hspan _

theorem located_of_lower {p : Program} (h : document.Located P)
    (hlower : document.lower = .ok p) : p.Located P := by
  rcases parts_of_lower hlower with ⟨parts, hparts, hinstructions, hmacros⟩
  constructor
  · rw [hinstructions]
    intro i hi
    rcases List.mem_flatten.mp hi with ⟨is, his, hi⟩
    rcases List.mem_map.mp his with ⟨part, hpart, rfl⟩
    rcases exists_of_mem_of_forall₂ hparts hpart with ⟨item, hitem, hpartLower⟩
    exact (located_of_lowered_item h hitem hpartLower).2 i hi
  · rw [hmacros]
    intro m hm
    rcases List.mem_flatten.mp (MacroTable.mem_of_mem_ofList hm) with ⟨ms, hms, hm⟩
    rcases List.mem_map.mp hms with ⟨part, hpart, rfl⟩
    rcases exists_of_mem_of_forall₂ hparts hpart with ⟨item, hitem, hpartLower⟩
    exact (located_of_lowered_item h hitem hpartLower).1 m hm

theorem located_of_lower_error {e : SemanticError} (h : document.Located P)
    (hlower : document.lower = .error e) : (CompileError.semantic e).Located P := by
  rcases error_of_bind hlower with hitems | ⟨parts, _, hend⟩
  · rcases error_of_mapM hitems with ⟨item, hitem, hpart⟩
    cases item with
    | hostText _ _ => cases hpart
    | block b => exact Block.located_of_lower_error (h.statement hitem) hpart
  · cases hend

end Document

/-! ## Sources -/

theorem Token.Spanned.within {tokens : List Token} {s : Span} (h : Spanned tokens s)
    (hwithin : ∀ t ∈ tokens, t.span.Within source)
    (hordered : tokens.Pairwise fun first second => first.span.start ≤ second.span.stop) :
    s.Within source := by
  rcases h with ⟨first, rest, last, hsublist, hlast, rfl⟩
  have hfirst := hwithin first (hsublist.subset List.mem_cons_self)
  apply Span.join_within hfirst (hwithin last (hsublist.subset hlast))
  rcases List.mem_cons.mp hlast with rfl | hlast
  · exact hfirst.ordered
  · exact (List.pairwise_cons.mp (hordered.sublist hsublist)).1 last hlast

/-- The beginning of a source, up to a place in it. -/
theorem Span.within_of_stop {stop : Nat} (h : stop ≤ source.length) :
    (Span.mk 0 stop 1 1).Within source where
  ordered := Nat.zero_le stop
  bounded := h
  line := by simp
  column := by simp

theorem Document.endSpan_within (source : String) :
    (endSpan (tokenize source)).Within source.toList := by
  unfold endSpan
  split
  · rename_i token htoken
    exact tokenize_within source token (List.mem_of_find?_eq_some htoken)
  · exact Span.within_of_stop (Nat.zero_le _)

namespace Operand

theorem written_of_holds {source : String} {o : Operand}
    (h : Token.Holds (tokenize source) o) : o.Written source.toList := by
  cases o with
  | string span raw =>
      have hspelled : Token.Spelled .string raw (span.text source.toList) :=
        tokenize_spelled source _ h (by simp)
      rcases hspelled.string_inv with ⟨hline, htext⟩
      exact Written.string (tokenize_within source _ h) htext hline
  | identifier span name =>
      have hspelled : Token.Spelled .identifier name (span.text source.toList) :=
        tokenize_spelled source _ h (by simp)
      exact Written.identifier (tokenize_within source _ h) hspelled.identifier_inv

end Operand

namespace Document

theorem written_of_ofTokens {source : String} {document : Document}
    (h : ofTokens (tokenize source) = .ok document) : document.Written source.toList := by
  rcases grounded_of_read (read_of_ofTokens h) with ⟨hspan, hspans, hoperands⟩
  constructor
  · intro s hs
    rcases List.mem_cons.mp hs with rfl | hs
    · rw [hspan]
      exact Span.within_of_stop (endSpan_within source).bounded
    · exact (hspans s hs).within (tokenize_within source) (tokenize_ordered source)
  · intro o ho
    exact Operand.written_of_holds (hoperands o ho)

end Document

namespace Program

variable {source : String}

theorem located_of_compile {P : Span → Prop}
    (hdocument : ∀ document, Document.ofTokens (tokenize source) = .ok document →
      document.Located P) {p : Program} (h : compile source = .ok p) : p.Located P := by
  rcases document_of_compile h with ⟨document, hread, hlower⟩
  exact Document.located_of_lower (hdocument document hread) hlower

theorem placed_of_compile {p : Program} (h : compile source = .ok p) :
    p.Placed source.toList := by
  have hlocated := located_of_compile
    (fun document hread => (Document.written_of_ofTokens hread).located) h
  exact ⟨hlocated.instructions, hlocated.macros⟩

theorem placed_of_compile_error {e : CompileError} (h : compile source = .error e) :
    e.Placed source.toList := by
  unfold compile ofTokens at h
  split at h
  · rename_i error herror
    cases h
    intro s hs
    rw [List.mem_singleton.mp hs]
    rcases Document.blamed_of_ofTokens herror with hend | ⟨t, ht, hspan⟩
    · change error.span.Within source.toList
      rw [hend]
      exact Document.endSpan_within source
    · change error.span.Within source.toList
      rw [hspan]
      exact tokenize_within source t ht
  · rename_i document hdocument
    split at h
    · rename_i error herror
      cases h
      exact Document.located_of_lower_error (Document.written_of_ofTokens hdocument).located herror
    · cases h

end Program
end Stencil
