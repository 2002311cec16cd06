import Stencil.Proofs.Brackets
import Stencil.Proofs.Success

/-!
# Matched iterations

Instructions are matched from left to right into a table, and from right to left into
code.  Any instructions either begin with code that an end follows, or are code in which
some more iterations are begun.  In both cases the two ways of matching come to the same,
and what they come to is what the brackets say.
-/

namespace Stencil

namespace Brackets

/-- From that position on, the instructions are those of `part`. -/
def PartAt (is : List Instruction) (position : Nat) (part : List Instruction) : Prop :=
  part <+: is.drop position

variable {is part first second : List Instruction} {code : Code} {b e p start : Nat}

/-! ## Instructions in their places -/

namespace PartAt

theorem head {i : Instruction} (h : PartAt is p (i :: part)) : is[p]? = some i := by
  rcases h with ⟨rest, hrest⟩
  rw [← List.head?_drop, ← hrest]
  rfl

theorem left (h : PartAt is p (first ++ second)) : PartAt is p first :=
  (List.prefix_append first second).trans h

theorem right (h : PartAt is p (first ++ second)) : PartAt is (p + first.length) second := by
  rcases h with ⟨rest, hrest⟩
  refine ⟨rest, ?_⟩
  rw [← List.drop_drop, ← hrest, List.append_assoc, List.drop_left]

theorem tail {i : Instruction} (h : PartAt is p (i :: part)) : PartAt is (p + 1) part := by
  have happend : PartAt is p ([i] ++ part) := h
  exact happend.right

/-- The parts of an iteration, each in its place. -/
theorem loop {opening closing : Option Span} {array : String} {body rest : Code}
    (h : PartAt is p (Code.loop opening array body closing rest).toInstructions) :
    is[p]? = some ⟨.beginArrayIter array, opening⟩ ∧
      PartAt is (p + 1) body.toInstructions ∧
      is[p + 1 + body.toInstructions.length]? = some ⟨.endArrayIter, closing⟩ ∧
      PartAt is (p + 1 + body.toInstructions.length + 1) rest.toInstructions :=
  ⟨h.head, h.tail.left, h.tail.right.head, h.tail.right.tail⟩

end PartAt

theorem partAt_zero (is : List Instruction) : PartAt is 0 is :=
  List.prefix_refl is

theorem Begins.not_ends (h : Begins is p) : ¬Ends is p := by
  intro hends
  rw [Ends, h] at hends
  cases hends

theorem lt_length_of_bracket {step : DyckStep}
    (h : is[p]?.bind Instruction.bracket? = some step) : p < is.length := by
  rcases Option.bind_eq_some_iff.mp h with ⟨i, hi, _⟩
  exact (List.getElem?_eq_some_iff.mp hi).1

/-! ## Code -/

theorem balanced_toInstructions (code : Code) : Balanced code.toInstructions := by
  induction code with
  | done => exact ⟨0, rfl⟩
  | step action span rest ih => exact ih
  | loop opening array body closing rest ihBody ihRest =>
      rcases ihBody with ⟨inside, hinside⟩
      rcases ihRest with ⟨after, hafter⟩
      refine ⟨inside.nest + after, ?_⟩
      change [DyckStep.U] ++ inside.toList ++ [DyckStep.D] ++ after.toList = _
      rw [hinside, hafter]
      simp [word, Code.toInstructions, Instruction.bracket?]

/-- What the table of code holds is closed there. -/
theorem closes_of_mem_table (h : PartAt is start code.toInstructions)
    (hmem : (b, e) ∈ code.table start) :
    start ≤ b ∧ e < start + code.toInstructions.length ∧ Closes is b e := by
  induction code generalizing start with
  | done => cases hmem
  | step action span rest ih =>
      rcases ih h.tail hmem with ⟨hlow, hhigh, hcloses⟩
      rw [Code.toInstructions, List.length_cons]
      exact ⟨by omega, by omega, hcloses⟩
  | loop opening array body closing rest ihBody ihRest =>
      rcases h.loop with ⟨hbegin, hbody, hend, hrest⟩
      rw [Code.toInstructions, List.length_cons, List.length_append, List.length_cons]
      rcases List.mem_append.mp hmem with hafter | hhere
      · rcases ihRest hrest hafter with ⟨hlow, hhigh, hcloses⟩
        exact ⟨by omega, by omega, hcloses⟩
      · rcases List.mem_cons.mp hhere with hpair | hinside
        · cases hpair
          refine ⟨Nat.le_refl _, by omega, ?_, ?_, by omega, ?_⟩
          · rw [Begins, hbegin]
            rfl
          · rw [Ends, hend]
            rfl
          · rw [List.extract_eq_take_drop, Nat.add_sub_cancel_left,
              ← List.prefix_iff_eq_take.mp hbody]
            exact balanced_toInstructions body
        · rcases ihBody hbody hinside with ⟨hlow, hhigh, hcloses⟩
          exact ⟨by omega, by omega, hcloses⟩

/-- Every bracket of code is in its table. -/
theorem mem_table_of_bracket (h : PartAt is start code.toInstructions) (hlow : start ≤ p)
    (hhigh : p < start + code.toInstructions.length) (hbracket : Begins is p ∨ Ends is p) :
    ∃ b e, (b, e) ∈ code.table start ∧ (p = b ∨ p = e) := by
  induction code generalizing start with
  | done =>
      rw [Code.toInstructions, List.length_nil] at hhigh
      omega
  | step action span rest ih =>
      have hhere : is[start]? = some (.of action span) := h.head
      have hne : p ≠ start := by
        rintro rfl
        rcases hbracket with hbegins | hends
        · rw [Begins, hhere] at hbegins
          cases hbegins
        · rw [Ends, hhere] at hends
          cases hends
      rw [Code.toInstructions, List.length_cons] at hhigh
      exact ih h.tail (by omega) (by omega)
  | loop opening array body closing rest ihBody ihRest =>
      rcases h.loop with ⟨_, hbody, _, hrest⟩
      rw [Code.toInstructions, List.length_cons, List.length_append, List.length_cons] at hhigh
      simp only [Code.table, List.mem_append, List.mem_cons]
      rcases Nat.lt_trichotomy p (start + 1 + body.toInstructions.length) with
        hbefore | hclose | hafter
      · rcases Nat.eq_or_lt_of_le hlow with hbegin | hinside
        · exact ⟨_, _, .inr (.inl rfl), .inl hbegin.symm⟩
        · rcases ihBody hbody hinside hbefore with ⟨b, e, hmem, hp⟩
          exact ⟨b, e, .inr (.inr hmem), hp⟩
      · exact ⟨_, _, .inr (.inl rfl), .inr hclose⟩
      · rcases ihRest hrest hafter (by omega) with ⟨b, e, hmem, hp⟩
        exact ⟨b, e, .inl hmem, hp⟩

theorem mem_table_of_begins (h : PartAt is start code.toInstructions) (hlow : start ≤ b)
    (hhigh : b < start + code.toInstructions.length) (hbegins : Begins is b) :
    ∃ e, (b, e) ∈ code.table start := by
  rcases mem_table_of_bracket h hlow hhigh (.inl hbegins) with ⟨b, e, hmem, rfl | rfl⟩
  · exact ⟨e, hmem⟩
  · exact absurd (closes_of_mem_table h hmem).2.2.ends hbegins.not_ends

theorem mem_table_of_ends (h : PartAt is start code.toInstructions) (hlow : start ≤ e)
    (hhigh : e < start + code.toInstructions.length) (hends : Ends is e) :
    ∃ b, (b, e) ∈ code.table start := by
  rcases mem_table_of_bracket h hlow hhigh (.inr hends) with ⟨b, e, hmem, rfl | rfl⟩
  · exact absurd hends (closes_of_mem_table h hmem).2.2.begins.not_ends
  · exact ⟨b, hmem⟩

theorem mem_of_lookup {table : List (Nat × Nat)} (h : table.lookup b = some e) :
    (b, e) ∈ table := by
  rcases List.lookup_eq_some_iff.mp h with ⟨before, after, htable, _⟩
  rw [htable]
  exact List.mem_append_right before List.mem_cons_self

theorem lookup_of_mem_table (h : PartAt is start code.toInstructions)
    (hmem : (b, e) ∈ code.table start) : (code.table start).lookup b = some e := by
  cases hlookup : (code.table start).lookup b with
  | none =>
      have hne := List.lookup_eq_none_iff.mp hlookup (b, e) hmem
      simp at hne
  | some e' =>
      have hcloses' := (closes_of_mem_table h (mem_of_lookup hlookup)).2.2
      rw [hcloses'.end_unique (closes_of_mem_table h hmem).2.2]

theorem closes_of_lookup (h : (code.table 0).lookup b = some e) :
    Closes code.toInstructions b e :=
  (closes_of_mem_table (partAt_zero code.toInstructions) (mem_of_lookup h)).2.2

theorem lookup_of_begins (h : Begins code.toInstructions b) :
    ∃ e, (code.table 0).lookup b = some e := by
  have hpart := partAt_zero code.toInstructions
  have hinside := lt_length_of_bracket h
  rcases mem_table_of_begins hpart (Nat.zero_le b) (by omega) h with ⟨e, hmem⟩
  exact ⟨e, lookup_of_mem_table hpart hmem⟩

theorem lookup_of_ends (h : Ends code.toInstructions e) :
    ∃ b, (code.table 0).lookup b = some e := by
  have hpart := partAt_zero code.toInstructions
  have hinside := lt_length_of_bracket h
  rcases mem_table_of_ends hpart (Nat.zero_le e) (by omega) h with ⟨b, hmem⟩
  exact ⟨b, lookup_of_mem_table hpart hmem⟩

theorem lookup_of_closes (h : Closes code.toInstructions b e) :
    (code.table 0).lookup b = some e := by
  rcases lookup_of_begins h.begins with ⟨e', hlookup⟩
  rw [h.end_unique (closes_of_lookup hlookup)]
  exact hlookup

theorem matches_table (code : Code) : Matches code.toInstructions (code.table 0) where
  closes _ _ := ⟨closes_of_lookup, lookup_of_closes⟩
  ended _ := lookup_of_begins
  begun _ := lookup_of_ends
  apart _ _ _ _ h h' := (closes_of_lookup h).apart (closes_of_lookup h')

/-! ## Instructions in which iterations are left open -/

/-- Every end has its beginning.  The positions are those of the beginnings that are left
open, innermost first. -/
inductive Unclosed : List Instruction → List Nat → Prop where
  | code (code : Code) : Unclosed code.toInstructions []
  | begun {is : List Instruction} {opened : List Nat} (h : Unclosed is opened)
      (array : String) (opening : Option Span) (body : Code) :
      Unclosed (is ++ ⟨.beginArrayIter array, opening⟩ :: body.toInstructions)
        (is.length :: opened)

variable {opened : List Nat}

theorem Unclosed.append (h : Unclosed is opened) (next : Code) :
    Unclosed (is ++ next.toInstructions) opened := by
  cases h with
  | code code =>
      rw [← Code.toInstructions_append]
      exact .code _
  | begun h array opening body =>
      rw [List.append_assoc, List.cons_append, ← Code.toInstructions_append]
      exact .begun h array opening _

/-- Instruction by instruction from the left. -/
theorem unclosed_or_ended (is : List Instruction) :
    (∃ opened, Unclosed is opened) ∨
      ∃ (code : Code) (span : Option Span) (rest : List Instruction),
        is = code.toInstructions ++ ⟨.endArrayIter, span⟩ :: rest := by
  induction is using List.reverseRecOn with
  | nil => exact .inl ⟨[], .code .done⟩
  | append_singleton is i ih =>
      rcases ih with ⟨opened, h⟩ | ⟨code, span, rest, rfl⟩
      · rcases i with ⟨operation, span⟩
        cases operation with
        | act action => exact .inl ⟨opened, h.append (.step action span .done)⟩
        | beginArrayIter array => exact .inl ⟨is.length :: opened, .begun h array span .done⟩
        | endArrayIter =>
            cases h with
            | code code => exact .inr ⟨code, span, [], rfl⟩
            | @begun outer opened h array opening body =>
                left
                have hclosed := h.append (.loop opening array body span .done)
                exact ⟨opened, by simpa [Code.toInstructions] using hclosed⟩
      · exact .inr ⟨code, span, rest ++ [i], by simp⟩

theorem Unclosed.depth (h : Unclosed is opened) : depth is = opened.length := by
  induction h with
  | code code => exact (balanced_iff.mp (balanced_toInstructions code)).1
  | @begun is opened h array opening body ih =>
      have hbegin : Brackets.depth [⟨.beginArrayIter array, opening⟩] = 1 := rfl
      rw [List.append_cons, depth_append, depth_append, ih, hbegin,
        (balanced_iff.mp (balanced_toInstructions body)).1, List.length_cons]
      omega

theorem not_strayEnd_of_closes (h : Closes is b e) : ¬StrayEnd is e := by
  intro hstray
  refine hstray.none b ⟨h.begins, h.before, ?_⟩
  intro e' hlt h'
  exact Nat.ne_of_lt hlt (h'.end_unique h)

/-- In the part every end has its beginning. -/
theorem Unclosed.exists_closes (h : Unclosed part opened) (hpart : PartAt is 0 part)
    (hinside : e < part.length) (hends : Ends is e) : ∃ b, Closes is b e := by
  induction h with
  | code code =>
      rcases mem_table_of_ends hpart (Nat.zero_le e) (by omega) hends with ⟨b, hmem⟩
      exact ⟨b, (closes_of_mem_table hpart hmem).2.2⟩
  | @begun before opened h array opening body ih =>
      have hbegin := hpart.right
      rw [Nat.zero_add] at hbegin
      rw [List.length_append, List.length_cons] at hinside
      rcases Nat.lt_trichotomy e before.length with hbefore | rfl | hafter
      · exact ih hpart.left hbefore
      · rw [Ends, hbegin.head] at hends
        cases hends
      · rcases mem_table_of_ends hbegin.tail hafter (by omega) hends with ⟨b, hmem⟩
        exact ⟨b, (closes_of_mem_table hbegin.tail hmem).2.2⟩

/-! ## What is wrong with brackets -/

theorem faulty_of_ended (code : Code) (span : Option Span) (rest : List Instruction) :
    Faulty (code.toInstructions ++ ⟨.endArrayIter, span⟩ :: rest) (.endWithoutBegin span) := by
  have hwhole := partAt_zero (code.toInstructions ++ ⟨.endArrayIter, span⟩ :: rest)
  have hend := hwhole.right.head
  rw [Nat.zero_add] at hend
  refine .strayEnd hend ⟨?_, ?_⟩ ?_
  · rw [Ends, hend]
    rfl
  · intro b hopen
    have hinside := hopen.before
    rcases mem_table_of_begins hwhole.left (Nat.zero_le b) (by omega) hopen.begins with
      ⟨e, hmem⟩
    rcases closes_of_mem_table hwhole.left hmem with ⟨_, hlt, hcloses⟩
    exact hopen.pending e (by omega) hcloses
  · intro q hq hstray
    rcases (Unclosed.code code).exists_closes hwhole.left hq hstray.ends with ⟨b, hcloses⟩
    exact not_strayEnd_of_closes hcloses hstray

theorem not_balanced_of_ended (code : Code) (span : Option Span) (rest : List Instruction) :
    ¬Balanced (code.toInstructions ++ ⟨.endArrayIter, span⟩ :: rest) := by
  intro h
  have hnonneg := (balanced_iff.mp h).2 (code.toInstructions.length + 1)
  have hend : depth [⟨.endArrayIter, span⟩] = -1 := rfl
  rw [List.take_length_add_append, List.take_succ_cons, List.take_zero, depth_append, hend,
    (balanced_iff.mp (balanced_toInstructions code)).1] at hnonneg
  omega

theorem Unclosed.not_balanced {innermost : Nat} (h : Unclosed is (innermost :: opened)) :
    ¬Balanced is := by
  intro hbalanced
  have hdepth := h.depth
  rw [(balanced_iff.mp hbalanced).1, List.length_cons] at hdepth
  omega

theorem Unclosed.faulty {innermost : Nat} (h : Unclosed is (innermost :: opened)) :
    Faulty is (.beginWithoutEnd (is[innermost]?.bind Instruction.span)) := by
  have hwhole := partAt_zero is
  have hnone : ∀ q, ¬StrayEnd is q := by
    intro q hstray
    rcases h.exists_closes hwhole (lt_length_of_bracket hstray.ends) hstray.ends with ⟨b, hcloses⟩
    exact not_strayEnd_of_closes hcloses hstray
  cases h with
  | @begun before opened h array opening body =>
      have hbegin := hwhole.right
      rw [Nat.zero_add] at hbegin
      rw [hbegin.head]
      refine .leftOpen (i := ⟨.beginArrayIter array, opening⟩) hbegin.head ⟨?_, ?_⟩ ?_ hnone
      · rw [Begins, hbegin.head]
        rfl
      · -- An end behind it is that of an iteration of the body.
        intro e hcloses
        have hlast := lt_length_of_bracket hcloses.ends
        rw [List.length_append, List.length_cons] at hlast
        rcases mem_table_of_ends hbegin.tail hcloses.before (by omega) hcloses.ends with
          ⟨b, hmem⟩
        rcases closes_of_mem_table hbegin.tail hmem with ⟨hlow, _, hinside⟩
        have hsame := hcloses.begin_unique hinside
        omega
      · intro q hq hopen
        have hlast := lt_length_of_bracket hopen.begins
        rw [List.length_append, List.length_cons] at hlast
        rcases mem_table_of_begins hbegin.tail hq (by omega) hopen.begins with ⟨e, hmem⟩
        exact hopen.unclosed e (closes_of_mem_table hbegin.tail hmem).2.2

end Brackets

open Brackets

/-! ## From left to right -/

namespace Matching

theorem readAll_append (m : Matching) (position : Nat) (first second : List Instruction) :
    m.readAll position (first ++ second) =
      (m.readAll position first >>= fun m => m.readAll (position + first.length) second) := by
  induction first generalizing m position with
  | nil => rfl
  | cons i first ih =>
      rw [List.cons_append, readAll, readAll, bind_assoc]
      apply bind_congr
      intro m
      rw [ih, List.length_cons, Nat.add_assoc, Nat.add_comm 1]

/-- Code adds its table, and leaves open what was open. -/
theorem readAll_code (m : Matching) (position : Nat) (code : Code) :
    m.readAll position code.toInstructions =
      .ok { m with table := code.table position ++ m.table } := by
  induction code generalizing m position with
  | done => rfl
  | step action span rest ih => exact ih m (position + 1)
  | loop opening array body closing rest ihBody ihRest =>
      change readAll ⟨m.table, position :: m.opened⟩ (position + 1)
        (body.toInstructions ++ ⟨.endArrayIter, closing⟩ :: rest.toInstructions) = _
      rw [readAll_append, ihBody]
      change readAll ⟨_ :: (body.table (position + 1) ++ m.table), m.opened⟩ _ _ = _
      rw [ihRest]
      simp [Code.table]

theorem readAll_unclosed {is : List Instruction} {opened : List Nat} (h : Unclosed is opened) :
    ∃ table, readAll ⟨[], []⟩ 0 is = .ok ⟨table, opened⟩ := by
  induction h with
  | code code => exact ⟨_, readAll_code _ _ code⟩
  | @begun before opened h array opening body ih =>
      rcases ih with ⟨table, hbefore⟩
      refine ⟨body.table (before.length + 1) ++ table, ?_⟩
      rw [readAll_append, hbefore, Nat.zero_add]
      exact readAll_code ⟨table, before.length :: opened⟩ (before.length + 1) body

theorem ofInstructions_code (code : Code) :
    ofInstructions code.toInstructions = .ok (code.table 0) := by
  rw [ofInstructions, readAll_code, List.append_nil]
  rfl

theorem ofInstructions_ended (code : Code) (span : Option Span) (rest : List Instruction) :
    ofInstructions (code.toInstructions ++ ⟨.endArrayIter, span⟩ :: rest) =
      .error (.endWithoutBegin span) := by
  rw [ofInstructions, readAll_append, readAll_code]
  rfl

theorem ofInstructions_unclosed {is : List Instruction} {innermost : Nat} {outer : List Nat}
    (h : Unclosed is (innermost :: outer)) :
    ofInstructions is =
      .error (.beginWithoutEnd (is[innermost]?.bind Instruction.span)) := by
  rcases readAll_unclosed h with ⟨table, hread⟩
  rw [ofInstructions, hread]
  rfl

end Matching

/-! ## From right to left -/

namespace Code

theorem foldr_unclosed (code : Code) (lastOpen : Option Span) (pending : List (Option Span)) :
    code.toInstructions.foldr Suffix.prepend (.unclosed lastOpen pending) =
      .unclosed lastOpen pending := by
  induction code generalizing pending with
  | done => rfl
  | step action span rest ih =>
      rw [toInstructions, List.foldr_cons, ih]
      rfl
  | loop opening array body closing rest ihBody ihRest =>
      rw [toInstructions, List.foldr_cons, List.foldr_append, List.foldr_cons, ihRest]
      change Suffix.prepend _ (List.foldr Suffix.prepend
        (.unclosed lastOpen (closing :: pending)) body.toInstructions) = _
      rw [ihBody]
      rfl

theorem ofInstructions_ended (code : Code) (span : Option Span) (rest : List Instruction) :
    ofInstructions (code.toInstructions ++ ⟨.endArrayIter, span⟩ :: rest) =
      .error (.endWithoutBegin span) := by
  rw [ofInstructions, suffix, List.foldr_append, List.foldr_cons, ← suffix]
  cases suffix rest with
  | closed next pending =>
      change (List.foldr Suffix.prepend (.closed .done ((span, next) :: pending))
        code.toInstructions).finish = _
      rw [foldr_toInstructions]
      rfl
  | unclosed lastOpen pending =>
      change (List.foldr Suffix.prepend (.unclosed lastOpen (span :: pending))
        code.toInstructions).finish = _
      rw [foldr_unclosed]
      rfl

/-- A beginning that is left open stays the last of these. -/
theorem foldr_of_unclosed {is : List Instruction} {opened : List Nat} (h : Unclosed is opened)
    (lastOpen : Option Span) :
    is.foldr Suffix.prepend (.unclosed lastOpen []) = .unclosed lastOpen [] := by
  induction h with
  | code code => exact foldr_unclosed code lastOpen []
  | begun h array opening body ih =>
      rw [List.foldr_append, List.foldr_cons, foldr_unclosed]
      exact ih

theorem ofInstructions_unclosed {is : List Instruction} {innermost : Nat} {outer : List Nat}
    (h : Unclosed is (innermost :: outer)) :
    ofInstructions is =
      .error (.beginWithoutEnd (is[innermost]?.bind Instruction.span)) := by
  cases h with
  | @begun before outer h array opening body =>
      have hbody : suffix body.toInstructions = .closed body [] := by
        rw [suffix, foldr_toInstructions, append_done]
      have hbegin : (suffix body.toInstructions).prepend ⟨.beginArrayIter array, opening⟩ =
          .unclosed opening [] := by
        rw [hbody]
        rfl
      rw [ofInstructions, suffix, List.foldr_append, List.foldr_cons, ← suffix, hbegin,
        foldr_of_unclosed h, List.getElem?_append_right (Nat.le_refl _), Nat.sub_self]
      rfl

end Code

/-! ## Both ways -/

namespace Matching

variable {is : List Instruction}

/-- Matched from the left, instructions give the table of the code that they give from the
right, or the same fault. -/
theorem ofInstructions_eq (is : List Instruction) :
    ofInstructions is = Code.table 0 <$> Code.ofInstructions is := by
  rcases unclosed_or_ended is with ⟨opened, h⟩ | ⟨code, span, rest, rfl⟩
  · cases opened with
    | nil =>
        cases h with
        | code code =>
            rw [ofInstructions_code, Code.ofInstructions_toInstructions]
            rfl
    | cons innermost outer =>
        rw [ofInstructions_unclosed h, Code.ofInstructions_unclosed h]
        rfl
  · rw [ofInstructions_ended, Code.ofInstructions_ended]
    rfl

/-- Instructions have a table if their brackets are balanced, and a fault otherwise. -/
theorem balanced_or_faulty (is : List Instruction) :
    (∃ code : Code, is = code.toInstructions) ∨
      ¬Balanced is ∧ ∃ fault, ofInstructions is = .error fault ∧ Faulty is fault := by
  rcases unclosed_or_ended is with ⟨opened, h⟩ | ⟨code, span, rest, rfl⟩
  · cases opened with
    | nil =>
        cases h with
        | code code => exact .inl ⟨code, rfl⟩
    | cons innermost outer =>
        exact .inr ⟨h.not_balanced, _, ofInstructions_unclosed h, h.faulty⟩
  · exact .inr ⟨not_balanced_of_ended code span rest, _, ofInstructions_ended code span rest,
      faulty_of_ended code span rest⟩

theorem exists_table_iff : (∃ table, ofInstructions is = .ok table) ↔ Balanced is := by
  rcases balanced_or_faulty is with ⟨code, rfl⟩ | ⟨hunbalanced, fault, herror, _⟩
  · exact ⟨fun _ => balanced_toInstructions code, fun _ => ⟨_, ofInstructions_code code⟩⟩
  · constructor
    · rintro ⟨table, htable⟩
      rw [herror] at htable
      cases htable
    · exact fun hbalanced => absurd hbalanced hunbalanced

theorem matches_of_ok {table : List (Nat × Nat)} (h : ofInstructions is = .ok table) :
    Matches is table := by
  rcases balanced_or_faulty is with ⟨code, rfl⟩ | ⟨_, fault, herror, _⟩
  · rw [ofInstructions_code] at h
    cases h
    exact matches_table code
  · rw [herror] at h
    cases h

theorem code_of_error {fault : IterationFault} (h : ofInstructions is = .error fault) :
    Code.ofInstructions is = .error fault := by
  rw [ofInstructions_eq] at h
  exact error_of_map h

theorem faulty_of_error {fault : IterationFault} (h : ofInstructions is = .error fault) :
    Faulty is fault := by
  rcases balanced_or_faulty is with ⟨code, rfl⟩ | ⟨_, fault', herror, hfaulty⟩
  · rw [ofInstructions_code] at h
    cases h
  · rw [herror] at h
    cases h
    exact hfaulty

end Matching

instance (is : List Instruction) : Decidable (Balanced is) :=
  decidable_of_iff ((Matching.ofInstructions is).isOk = true) <| by
    rw [← Matching.exists_table_iff]
    constructor
    · exact exists_of_isOk
    · rintro ⟨table, htable⟩
      rw [htable]
      rfl

/-- As many ends as beginnings are not enough. -/
example : ¬Balanced [⟨.endArrayIter, none⟩, ⟨.beginArrayIter "a", none⟩] := by decide

end Stencil
