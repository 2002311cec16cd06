import Mathlib.Data.List.Chain
import Stencil.Proofs.Placement

/-!
# Strings, segment by segment

From left to right, the inside of a string literal is read in segments: a backslash with
the character after it, an interpolated name with its dollar sign and its parentheses, and
any other character by itself.  All but the names are units, and have a meaning.

A literal is lowered to one instruction for each name, and one for each run of units
between names, which emits what the units mean.  Lowering fails at the first dollar sign
with a parenthesis that begins no name, and only there.
-/

namespace Stencil
namespace StringBody

/-! ## Reading a body -/

inductive Segment where
  /-- A character, or a backslash and the character after it. -/
  | unit (text : List Char)
  | name (letters : List Char)

def Segment.text : Segment → List Char
  | unit text => text
  | name letters => '$' :: '(' :: (letters ++ [')'])

/-- An identifier and a closing parenthesis come next. -/
def Closes (cs : List Char) : Prop :=
  ∃ letters after, cs = letters ++ ')' :: after ∧ Text.isIdentifier letters = true

/-- The first segment of a text, and what stands after it. -/
inductive First : List Char → Segment → List Char → Prop where
  | escape (c : Char) (rest : List Char) : First ('\\' :: c :: rest) (.unit ['\\', c]) rest
  | name {letters : List Char} (rest : List Char) (h : Text.isIdentifier letters = true) :
      First ('$' :: '(' :: (letters ++ ')' :: rest)) (.name letters) rest
  | single {c : Char} {rest : List Char} (hescape : c = '\\' → rest = [])
      (hname : ∀ more, c = '$' → rest = '(' :: more → ¬Closes more) :
      First (c :: rest) (.unit [c]) rest

/-- Segments are read from the front of a text, and the rest is left. -/
inductive Reads : List Char → List Segment → List Char → Prop where
  | nil (cs : List Char) : Reads cs [] cs
  | cons {cs between rest : List Char} {segment : Segment} {segments : List Segment}
      (hfirst : First cs segment between) (htail : Reads between segments rest) :
      Reads cs (segment :: segments) rest

/-- How many characters segments take. -/
def width (segments : List Segment) : Nat :=
  (segments.flatMap Segment.text).length

variable {cs rest between : List Char} {segment : Segment} {segments front : List Segment}

theorem width_cons (segment : Segment) (segments : List Segment) :
    width (segment :: segments) = segment.text.length + width segments := by
  rw [width, List.flatMap_cons, List.length_append]
  rfl

theorem First.text (h : First cs segment between) : cs = segment.text ++ between := by
  cases h with
  | escape c rest => rfl
  | name rest h => simp [Segment.text]
  | single _ _ => rfl

theorem Reads.text (h : Reads cs segments rest) :
    cs = segments.flatMap Segment.text ++ rest := by
  induction h with
  | nil cs => rfl
  | cons hfirst _ ih => rw [List.flatMap_cons, List.append_assoc, ← ih, ← hfirst.text]

theorem notMem_of_isIdentifier {letters : List Char} (h : Text.isIdentifier letters = true) :
    ')' ∉ letters := by
  intro hmem
  exact absurd (Text.isIdentPart_of_isIdentifier h _ hmem) (by decide)

theorem takeWhile_append_of_notMem {letters : List Char} (h : ')' ∉ letters)
    (after : List Char) : (letters ++ ')' :: after).takeWhile (· != ')') = letters := by
  rw [List.takeWhile_append_of_pos, List.takeWhile_cons_of_neg (by simp), List.append_nil]
  intro c hc
  exact bne_iff_ne.mpr (ne_of_mem_of_not_mem hc h)

/-- Up to the first closing parenthesis there is one text. -/
theorem letters_unique {letters letters' after after' : List Char} (h : ')' ∉ letters)
    (h' : ')' ∉ letters') (heq : letters ++ ')' :: after = letters' ++ ')' :: after') :
    letters = letters' ∧ after = after' := by
  have hletters : letters = letters' := by
    rw [← takeWhile_append_of_notMem h after, heq, takeWhile_append_of_notMem h']
  subst hletters
  exact ⟨rfl, (List.cons.inj (List.append_cancel_left heq)).2⟩

theorem First.unique {other : Segment} {between' : List Char} (h : First cs segment between)
    (h' : First cs other between') : other = segment ∧ between' = between := by
  cases h with
  | escape c rest =>
      cases h' with
      | escape => exact ⟨rfl, rfl⟩
      | single hescape _ => exact absurd (hescape rfl) (List.cons_ne_nil _ _)
  | @name letters _ hletters =>
      generalize hcs : '$' :: '(' :: (letters ++ ')' :: between) = cs at h'
      cases h' with
      | escape => cases hcs
      | @name letters' rest' hletters' =>
          have hrest := (List.cons.inj (List.cons.inj hcs).2).2
          rcases letters_unique (notMem_of_isIdentifier hletters)
            (notMem_of_isIdentifier hletters') hrest with ⟨rfl, rfl⟩
          exact ⟨rfl, rfl⟩
      | single _ hname =>
          cases hcs
          exact absurd ⟨letters, between, rfl, hletters⟩ (hname _ rfl rfl)
  | single hescape hname =>
      cases h' with
      | escape => exact absurd (hescape rfl) (List.cons_ne_nil _ _)
      | name _ hletters' => exact absurd ⟨_, between', rfl, hletters'⟩ (hname _ rfl rfl)
      | single => exact ⟨rfl, rfl⟩

/-! ## What units mean -/

/-- The letters that mean something after a backslash. -/
def escapes : List (Char × Char) :=
  [('"', '"'), ('\\', '\\'), ('n', '\n'), ('t', '\t'), ('r', '\r'), ('$', '$')]

/-- A backslash with any other letter, or with none, stays as it is. -/
def meaning : List Char → List Char
  | ['\\', c] => ((escapes.lookup c).map fun d => [d]).getD ['\\', c]
  | text => text

theorem meaning_escape (c : Char) : meaning ['\\', c] = decode c := by
  unfold decode
  split
  · rfl
  · rfl
  · rfl
  · rfl
  · rfl
  · rfl
  · rename_i hquote hbackslash hn ht hr hdollar
    have hnone : escapes.lookup c = none := by
      rw [List.lookup_eq_none_iff]
      simpa [escapes] using ⟨hquote, hbackslash, hn, ht, hr, hdollar⟩
    rw [meaning, hnone]
    rfl

theorem meaning_single (c : Char) : meaning [c] = [c] := by
  unfold meaning
  split
  · rename_i heq
    cases heq
  · rfl

theorem decode_ne_nil (c : Char) : decode c ≠ [] := by
  unfold decode
  split <;> exact List.cons_ne_nil _ _

/-! ## Pieces -/

/-- Segments from offset `i` on are cut into pieces: names by themselves, and runs of
units, which stand for what their units mean. -/
inductive Cut : Nat → List Segment → List Piece → Prop where
  | done (i : Nat) : Cut i [] []
  | name {i : Nat} {letters : List Char} {segments : List Segment} {ps : List Piece}
      (htail : Cut (i + (letters.length + 3)) segments ps) :
      Cut i (.name letters :: segments)
        (.interpolation i (i + (letters.length + 3)) letters :: ps)
  | text {i : Nat} {units : List (List Char)} {segments : List Segment} {ps : List Piece}
      (hne : units.flatMap meaning ≠ [])
      (htail : Cut (i + units.flatten.length) segments ps) :
      Cut i (units.map .unit ++ segments)
        (.text i (i + units.flatten.length) (units.flatMap meaning) :: ps)

/-- A unit in front of pieces joins a text that stands first. -/
theorem Cut.prepend {i : Nat} {unit : List Char} {ps : List Piece} (hne : meaning unit ≠ [])
    (h : Cut (i + unit.length) segments ps) :
    Cut i (.unit unit :: segments) (prepend i (i + unit.length) (meaning unit) ps) := by
  have halone : ∀ {segments ps}, Cut (i + unit.length) segments ps →
      Cut i (.unit unit :: segments) (.text i (i + unit.length) (meaning unit) :: ps) := by
    intro segments ps htail
    have hunit : [unit].flatMap meaning = meaning unit := List.flatMap_singleton _ _
    have hflat : [unit].flatten = unit := List.flatten_singleton
    rw [← hflat] at htail
    have hcut := Cut.text (hunit ▸ hne) htail
    rwa [hunit, hflat] at hcut
  cases h with
  | done => exact halone (.done _)
  | name htail => exact halone (.name htail)
  | @text _ units segments ps _ htail =>
      have hwidth : i + unit.length + units.flatten.length =
          i + (unit :: units).flatten.length := by
        rw [List.flatten_cons, List.length_append, Nat.add_assoc]
      rw [hwidth] at htail ⊢
      have hunits : (unit :: units).flatMap meaning ≠ [] := by
        rw [List.flatMap_cons]
        exact List.append_ne_nil_of_left_ne_nil hne _
      exact .text hunits htail

theorem flatten_ne_nil_of_meaning {units : List (List Char)} (h : units.flatMap meaning ≠ []) :
    units.flatten ≠ [] := by
  intro hnil
  apply h
  rw [List.flatMap_eq_nil_iff]
  intro unit hunit
  rw [List.flatten_eq_nil_iff.mp hnil unit hunit]
  rfl

theorem text_of_units (units : List (List Char)) :
    (units.map Segment.unit).flatMap Segment.text = units.flatten := by
  rw [List.flatMap_map, ← List.flatMap_id]
  rfl

/-- No text stands next to another. -/
def Apart : Piece → Piece → Prop
  | .text .., .text .. => False
  | _, _ => True

theorem apart_prepend {start stop : Nat} {value : List Char} {ps : List Piece}
    (h : ps.IsChain Apart) : (prepend start stop value ps).IsChain Apart := by
  unfold prepend
  split
  · cases h with
    | singleton => exact .singleton _
    | @cons_cons _ next _ hnext htail =>
        cases next with
        | text => exact hnext.elim
        | interpolation => exact .cons_cons trivial htail
  · rename_i hfirst
    refine h.cons ?_
    intro piece hpiece
    cases piece with
    | text start' stop' value' =>
        rcases List.head?_eq_some_iff.mp hpiece with ⟨more, hps⟩
        exact hfirst start' stop' value' more hps
    | interpolation => exact trivial

theorem apart_of_pieces {i : Nat} {ps : List Piece} (h : pieces i cs = .ok ps) :
    ps.IsChain Apart := by
  fun_induction pieces i cs generalizing ps with
  | case1 =>
      cases h
      exact .nil
  | case2 i c rest ih =>
      rcases ok_of_map h with ⟨more, hmore, rfl⟩
      exact apart_prepend (ih hmore)
  | case3 => cases h
  | case4 i rest letters stop c after hdrop hname =>
      rename_i ih
      rcases ok_of_map h with ⟨more, hmore, rfl⟩
      exact (ih hmore).cons fun piece _ => trivial
  | case5 => cases h
  | case6 i c rest hescape hname ih =>
      rcases ok_of_map h with ⟨more, hmore, rfl⟩
      exact apart_prepend (ih hmore)

/-! ## Faults -/

/-- A dollar sign with a parenthesis comes next after `front`, and begins no name. -/
structure Faulty (cs : List Char) (front : List Segment) (rest : List Char) : Prop where
  reads : Reads cs front ('$' :: '(' :: rest)
  unclosed : ¬Closes rest

/-- A text that begins with no fault has its faults after its first segment. -/
theorem Faulty.after (hfirst : First cs segment between)
    (hcloses : ∀ more, cs = '$' :: '(' :: more → Closes more) (h : Faulty cs front rest) :
    ∃ later, front = segment :: later ∧ Faulty between later rest := by
  rcases h with ⟨hreads, hunclosed⟩
  cases hreads with
  | nil => exact absurd (hcloses rest rfl) hunclosed
  | cons hother htail =>
      rcases hfirst.unique hother with ⟨rfl, rfl⟩
      exact ⟨_, rfl, htail, hunclosed⟩

/-- Any character that begins neither an escape nor an interpolation is a unit. -/
theorem first_single {c : Char} (hescape : ∀ d more, c = '\\' → rest = d :: more → False)
    (hname : ∀ more, c = '$' → rest = '(' :: more → False) :
    First (c :: rest) (.unit [c]) rest := by
  apply First.single
  · intro hc
    cases rest with
    | nil => rfl
    | cons d more => exact (hescape d more hc rfl).elim
  · intro more hc hrest
    exact (hname more hc hrest).elim

/-- The name that is looked for is the first segment if it is an identifier. -/
theorem first_name {after : List Char} {c : Char}
    (hdrop : rest.drop (rest.takeWhile (· != ')')).length = c :: after)
    (hname : Text.isIdentifier (rest.takeWhile (· != ')')) = true) :
    First ('$' :: '(' :: rest) (.name (rest.takeWhile (· != ')'))) after ∧
      ∀ more, '$' :: '(' :: rest = '$' :: '(' :: more → Closes more := by
  have hrest := takeWhile_append_of_drop hdrop
  constructor
  · have hfirst := First.name after hname
    rwa [← hrest] at hfirst
  · rintro more ⟨⟩
    exact ⟨_, after, hrest, hname⟩

theorem closes_of_escape (c : Char) (rest : List Char) :
    ∀ more, '\\' :: c :: rest = '$' :: '(' :: more → Closes more := by
  intro more heq
  exact absurd (List.cons.inj heq).1 (by decide)

theorem closes_of_ne {c : Char} (hname : ∀ more, c = '$' → rest = '(' :: more → False) :
    ∀ more, c :: rest = '$' :: '(' :: more → Closes more := by
  intro more heq
  cases heq
  exact (hname more rfl rfl).elim

/-! ## Lowering that succeeds -/

/-- What the pieces of a text are, and that nothing in it is at fault. -/
structure Yields (i : Nat) (cs : List Char) (segments : List Segment) (ps : List Piece) :
    Prop where
  reads : Reads cs segments []
  cut : Cut i segments ps
  faultless : ∀ front rest, ¬Faulty cs front rest

theorem faultless_cons (hfirst : First cs segment between)
    (hcloses : ∀ more, cs = '$' :: '(' :: more → Closes more)
    (h : ∀ front rest, ¬Faulty between front rest) (front : List Segment) (rest : List Char) :
    ¬Faulty cs front rest := by
  intro hfaulty
  rcases hfaulty.after hfirst hcloses with ⟨later, _, hlater⟩
  exact h later rest hlater

theorem Yields.unit {i : Nat} {unit : List Char} {ps : List Piece}
    (hfirst : First cs (.unit unit) between) (hne : meaning unit ≠ [])
    (hcloses : ∀ more, cs = '$' :: '(' :: more → Closes more)
    (h : Yields (i + unit.length) between segments ps) :
    Yields i cs (.unit unit :: segments) (prepend i (i + unit.length) (meaning unit) ps) where
  reads := .cons hfirst h.reads
  cut := h.cut.prepend hne
  faultless := faultless_cons hfirst hcloses h.faultless

theorem yields_of_pieces {i : Nat} {ps : List Piece} (h : pieces i cs = .ok ps) :
    ∃ segments, Yields i cs segments ps := by
  fun_induction pieces i cs generalizing ps with
  | case1 i =>
      cases h
      refine ⟨[], .nil [], .done i, ?_⟩
      rintro front rest ⟨hreads, _⟩
      cases hreads with
      | cons hfirst _ => cases hfirst
  | case2 i c rest ih =>
      rcases ok_of_map h with ⟨more, hmore, rfl⟩
      rcases ih hmore with ⟨segments, hyields⟩
      have hne : meaning ['\\', c] ≠ [] := by
        rw [meaning_escape]
        exact decode_ne_nil c
      rw [← meaning_escape]
      exact ⟨_, hyields.unit (.escape c rest) hne (closes_of_escape c rest)⟩
  | case3 => cases h
  | case4 i rest letters stop c after hdrop hname =>
      rename_i ih
      rcases ok_of_map h with ⟨more, hmore, rfl⟩
      rcases ih hmore with ⟨segments, hreads, hcut, hfaultless⟩
      rcases first_name hdrop hname with ⟨hfirst, hcloses⟩
      exact ⟨_, .cons hfirst hreads, .name hcut, faultless_cons hfirst hcloses hfaultless⟩
  | case5 => cases h
  | case6 i c rest hescape hname ih =>
      rcases ok_of_map h with ⟨more, hmore, rfl⟩
      rcases ih hmore with ⟨segments, hyields⟩
      have hne : meaning [c] ≠ [] := by
        rw [meaning_single]
        exact List.cons_ne_nil c []
      rw [← meaning_single]
      exact ⟨_, hyields.unit (first_single hescape hname) hne (closes_of_ne hname)⟩

/-! ## Lowering that fails -/

/-- The error for a dollar sign with a parenthesis at offset `i`, before `rest`. -/
inductive Blames (i : Nat) : List Char → MalformedInterpolation → Prop where
  | unclosed {rest : List Char} (h : ')' ∉ rest) :
      Blames i rest ⟨.unclosed, i, i + rest.length + 2⟩
  | notIdentifier {letters : List Char} (after : List Char) (hletters : ')' ∉ letters) :
      Blames i (letters ++ ')' :: after)
        ⟨.notIdentifier (String.ofList letters), i, i + letters.length + 3⟩

/-- The error is about a fault that no other fault stands before. -/
structure Leftmost (i : Nat) (cs : List Char) (front : List Segment) (rest : List Char)
    (e : MalformedInterpolation) : Prop where
  faulty : Faulty cs front rest
  first : ∀ front' rest', Faulty cs front' rest' → width front ≤ width front'
  blames : Blames (i + width front) rest e

theorem Leftmost.here {i : Nat} {e : MalformedInterpolation} (hunclosed : ¬Closes rest)
    (hblames : Blames i rest e) : Leftmost i ('$' :: '(' :: rest) [] rest e where
  faulty := ⟨.nil _, hunclosed⟩
  first := fun front' _ _ => Nat.zero_le (width front')
  blames := hblames

theorem Leftmost.cons {i : Nat} {e : MalformedInterpolation} (hfirst : First cs segment between)
    (hcloses : ∀ more, cs = '$' :: '(' :: more → Closes more)
    (h : Leftmost (i + segment.text.length) between front rest e) :
    Leftmost i cs (segment :: front) rest e where
  faulty := ⟨.cons hfirst h.faulty.reads, h.faulty.unclosed⟩
  first := by
    intro front' rest' hfaulty
    rcases hfaulty.after hfirst hcloses with ⟨later, rfl, hlater⟩
    rw [width_cons, width_cons]
    exact Nat.add_le_add_left (h.first later rest' hlater) _
  blames := by
    rw [width_cons, ← Nat.add_assoc]
    exact h.blames

theorem leftmost_of_pieces {i : Nat} {e : MalformedInterpolation} (h : pieces i cs = .error e) :
    ∃ front rest, Leftmost i cs front rest e := by
  fun_induction pieces i cs with
  | case1 => cases h
  | case2 i c rest ih =>
      rcases ih (error_of_map h) with ⟨front, last, hleftmost⟩
      exact ⟨_, last, Leftmost.cons (.escape c rest) (closes_of_escape c rest) hleftmost⟩
  | case3 i rest letters hdrop =>
      cases h
      have hnone : ')' ∉ rest := by
        have hall : letters = rest :=
          (List.takeWhile_prefix _).eq_of_length_le (List.drop_eq_nil_iff.mp hdrop)
        rw [← hall]
        exact Lexeme.notMem_takeWhile_ne _ rest
      refine ⟨[], rest, .here ?_ (.unclosed hnone)⟩
      rintro ⟨letters', after, rfl, _⟩
      exact hnone (List.mem_append_right _ List.mem_cons_self)
  | case4 i rest letters stop c after hdrop hname =>
      rename_i ih
      rcases ih (error_of_map h) with ⟨front, last, hleftmost⟩
      rcases first_name hdrop hname with ⟨hfirst, hcloses⟩
      have hstop : stop = i + (Segment.name letters).text.length := by
        simp only [Segment.text, List.length_cons, List.length_append, List.length_nil, stop]
        omega
      rw [hstop] at hleftmost
      exact ⟨_, last, Leftmost.cons hfirst hcloses hleftmost⟩
  | case5 i rest letters stop c after hdrop hname =>
      cases h
      have hrest : rest = letters ++ ')' :: after := takeWhile_append_of_drop hdrop
      have hletters : ')' ∉ letters := Lexeme.notMem_takeWhile_ne _ rest
      have hblames : Blames i rest ⟨.notIdentifier (String.ofList letters), i, stop⟩ := by
        rw [hrest]
        exact .notIdentifier after hletters
      refine ⟨[], rest, .here ?_ hblames⟩
      rintro ⟨letters', after', heq, hidentifier⟩
      rcases letters_unique hletters (notMem_of_isIdentifier hidentifier) (hrest.symm.trans heq)
        with ⟨rfl, _⟩
      exact hname hidentifier
  | case6 i c rest hescape hname ih =>
      rcases ih (error_of_map h) with ⟨front, last, hleftmost⟩
      exact ⟨_, last, Leftmost.cons (first_single hescape hname) (closes_of_ne hname) hleftmost⟩

/-! ## Instructions -/

/-- Instructions cover the source from one offset to another, each from where the one
before it ends. -/
inductive Abut : Nat → List Instruction → Nat → Prop where
  | nil (i : Nat) : Abut i [] i
  | cons {stop : Nat} {instruction : Instruction} {span : Span} {is : List Instruction}
      (hspan : instruction.span = some span) (hlt : span.start < span.stop)
      (htail : Abut span.stop is stop) : Abut span.start (instruction :: is) stop

/-- The span of what stands inside of a literal from one place to another.  A literal is
written on one line, and its inside begins after the opening quote. -/
def insideSpan (literal : Span) (start stop : Nat) : Span where
  start := literal.start + 1 + start
  stop := literal.start + 1 + stop
  line := literal.line
  column := literal.column + 1 + start

theorem slice_eq_insideSpan (literal : Span) (start stop : Nat) :
    literal.slice (start + 1) (stop + 1) = insideSpan literal start stop := by
  rw [Span.slice, insideSpan]
  congr 1 <;> omega

/-- What segments from offset `i` on are emitted by, and where: a name by the variable of that
name, and a run of units by the text that they mean. -/
inductive EmittedBy (literal : Span) : Nat → List Segment → List Instruction → Prop where
  | done (i : Nat) : EmittedBy literal i [] []
  | name {i : Nat} {letters : List Char} {segments : List Segment} {is : List Instruction}
      (htail : EmittedBy literal (i + (letters.length + 3)) segments is) :
      EmittedBy literal i (.name letters :: segments)
        (⟨.act (.emitVar (String.ofList letters)),
          insideSpan literal i (i + (letters.length + 3))⟩ :: is)
  | text {i : Nat} {units : List (List Char)} {segments : List Segment}
      {is : List Instruction} (hne : units.flatMap meaning ≠ [])
      (htail : EmittedBy literal (i + units.flatten.length) segments is) :
      EmittedBy literal i (units.map .unit ++ segments)
        (⟨.act (.emitLiteral (String.ofList (units.flatMap meaning))),
          insideSpan literal i (i + units.flatten.length)⟩ :: is)

theorem Cut.emittedBy {i : Nat} {ps : List Piece} (literal : Span) (h : Cut i segments ps) :
    EmittedBy literal i segments (ps.map (Piece.lower literal)) := by
  induction h with
  | done i => exact .done i
  | name _ ih =>
      rw [List.map_cons, Piece.lower, slice_eq_insideSpan]
      exact .name ih
  | text hne _ ih =>
      rw [List.map_cons, Piece.lower, slice_eq_insideSpan]
      exact .text hne ih

theorem Abut.inside {literal : Span} {start stop finish : Nat} {operation : Operation}
    {is : List Instruction} (hlt : start < stop)
    (htail : Abut (literal.start + 1 + stop) is finish) :
    Abut (literal.start + 1 + start) (⟨operation, insideSpan literal start stop⟩ :: is) finish :=
  have hspan : (Instruction.mk operation (insideSpan literal start stop)).span =
      some (insideSpan literal start stop) := rfl
  .cons hspan (Nat.add_lt_add_left hlt _) htail

theorem EmittedBy.abut {literal : Span} {i : Nat} {is : List Instruction}
    (h : EmittedBy literal i segments is) :
    Abut (literal.start + 1 + i) is (literal.start + 1 + (i + width segments)) := by
  induction h with
  | done i => exact .nil _
  | @name i letters segments is _ ih =>
      have hwidth : i + width (.name letters :: segments) =
          i + (letters.length + 3) + width segments := by
        simp only [width_cons, Segment.text, List.length_cons, List.length_append,
          List.length_nil]
        omega
      rw [hwidth]
      exact .inside (by omega) ih
  | @text i units segments is hne _ ih =>
      have hpos := List.length_pos_iff.mpr (flatten_ne_nil_of_meaning hne)
      have hwidth : i + width (units.map Segment.unit ++ segments) =
          i + units.flatten.length + width segments := by
        rw [width, List.flatMap_append, text_of_units, List.length_append, width, Nat.add_assoc]
      rw [hwidth]
      exact .inside (by omega) ih

end StringBody

namespace Operand

open StringBody

/-- How a string is lowered, when it is: its segments are emitted one after another, and the
instructions cover it without gaps. -/
structure LowersTo (literal : Span) (body : List Char) (is : List Instruction) : Prop where
  emitted : ∃ segments, Reads body segments [] ∧ EmittedBy literal 0 segments is
  abut : Abut (literal.start + 1) is (literal.start + 1 + body.length)
  apart : is.IsChain fun first second => ∀ text text',
    ¬(first.operation = .act (.emitLiteral text) ∧ second.operation = .act (.emitLiteral text'))

/-- How a string is refused, when it is: for the leftmost fault, which stands from its
dollar sign up to a closing parenthesis, or to the end of the string if there is none. -/
structure RefusedFor (literal : Span) (body : List Char) (front : List Segment)
    (rest : List Char) (e : SemanticError) : Prop where
  faulty : Faulty body front rest
  leftmost : ∀ front' rest', Faulty body front' rest' → width front ≤ width front'
  unclosed : ')' ∉ rest → ∃ fault : InterpolationFault, fault.reason = "missing ')'" ∧
    e = .malformedInterpolation fault (insideSpan literal (width front) body.length)
  notIdentifier : ∀ letters after, rest = letters ++ ')' :: after → ')' ∉ letters →
    ∃ fault : InterpolationFault,
      fault.reason = "'" ++ String.ofList letters ++ "' is not an identifier" ∧
      e = .malformedInterpolation fault
        (insideSpan literal (width front) (width front + (letters.length + 3)))

variable {raw : String}

theorem lowersTo_of_pieces (literal : Span) {ps : List Piece}
    (h : pieces 0 raw.toList = .ok ps) :
    LowersTo literal raw.toList (ps.map (Piece.lower literal)) := by
  rcases yields_of_pieces h with ⟨segments, hreads, hcut, _⟩
  have hwidth : width segments = raw.toList.length := by
    rw [width, hreads.text, List.append_nil]
  have hemitted := hcut.emittedBy literal
  have habut := hemitted.abut
  rw [hwidth, Nat.zero_add, Nat.add_zero] at habut
  refine ⟨⟨segments, hreads, hemitted⟩, habut, ?_⟩
  refine List.isChain_map_of_isChain _ ?_ (apart_of_pieces h)
  rintro first second hapart text text' ⟨hfirst, hsecond⟩
  cases first with
  | text =>
      cases second with
      | text => exact hapart
      | interpolation => cases hsecond
  | interpolation => cases hfirst

theorem refusedFor_of_pieces (literal : Span) {e : MalformedInterpolation}
    (h : pieces 0 raw.toList = .error e) :
    ∃ front rest, RefusedFor literal raw.toList front rest (e.inLiteral literal) := by
  rcases leftmost_of_pieces h with ⟨front, rest, hfaulty, hfirst, hblames⟩
  rw [Nat.zero_add] at hblames
  refine ⟨front, rest, hfaulty, hfirst, ?_, ?_⟩
  · intro hnone
    cases hblames with
    | unclosed _ =>
        refine ⟨.unclosed, rfl, ?_⟩
        have hlength : raw.toList.length = width front + rest.length + 2 := by
          rw [hfaulty.reads.text, List.length_append, width]
          rfl
        rw [hlength, ← slice_eq_insideSpan]
        rfl
    | notIdentifier after hletters =>
        exact absurd (List.mem_append_right _ List.mem_cons_self) hnone
  · intro letters after hrest hletters
    cases hblames with
    | unclosed hnone =>
        rw [hrest] at hnone
        exact absurd (List.mem_append_right _ List.mem_cons_self) hnone
    | notIdentifier after' hletters' =>
        rcases letters_unique hletters hletters' hrest.symm with ⟨rfl, _⟩
        rw [← slice_eq_insideSpan]
        exact ⟨_, rfl, rfl⟩

/-- A string is lowered if each dollar sign with a parenthesis begins a name, whatever its
units mean, and its instructions emit its segments in order; else it is refused for the
first dollar sign that does not. -/
theorem lower_string_exact (literal : Span) (raw : String) :
    ((∃ is, (string literal raw).lower = .ok is) ↔
      ∀ front rest, Reads raw.toList front ('$' :: '(' :: rest) → Closes rest) ∧
    (∀ is, (string literal raw).lower = .ok is → LowersTo literal raw.toList is) ∧
    ∀ e, (string literal raw).lower = .error e →
      ∃ front rest, RefusedFor literal raw.toList front rest e := by
  simp only [lower]
  split
  · rename_i ps hps
    rcases yields_of_pieces hps with ⟨_, _, _, hfaultless⟩
    refine ⟨iff_of_true ⟨_, rfl⟩ ?_, ?_, ?_⟩
    · intro front rest hreads
      exact Classical.byContradiction fun hunclosed =>
        hfaultless front rest ⟨hreads, hunclosed⟩
    · intro is his
      cases his
      exact lowersTo_of_pieces literal hps
    · intro e he
      cases he
  · rename_i e he
    rcases refusedFor_of_pieces literal he with ⟨front, rest, hrefused⟩
    refine ⟨iff_of_false ?_ ?_, ?_, ?_⟩
    · rintro ⟨is, his⟩
      cases his
    · intro hcloses
      exact hrefused.faulty.unclosed (hcloses front rest hrefused.faulty.reads)
    · intro is his
      cases his
    · intro error herror
      cases herror
      exact ⟨front, rest, hrefused⟩

/-- Escapes that mean something, one that does not, two names side by side, and a backslash
with nothing after it; and a name that is none, behind an escaped dollar sign. -/
theorem lower_string_of_escapes :
    let literal : Span := ⟨10, 30, 2, 5⟩
    let raw := "a\\n\\q$(x)$(y_1)\\\\\\"
    let bad := "\\$(u)$(1)$("
    (string literal raw).lower = .ok
        [⟨.act (.emitLiteral "a\n\\q"), some ⟨11, 16, 2, 6⟩⟩,
          ⟨.act (.emitVar "x"), some ⟨16, 20, 2, 11⟩⟩,
          ⟨.act (.emitVar "y_1"), some ⟨20, 26, 2, 15⟩⟩,
          ⟨.act (.emitLiteral "\\\\"), some ⟨26, 29, 2, 21⟩⟩] ∧
      (∀ front rest, Reads raw.toList front ('$' :: '(' :: rest) → Closes rest) ∧
      (∃ is, LowersTo literal raw.toList is) ∧
      (string literal bad).lower =
        .error (.malformedInterpolation (.notIdentifier "1") ⟨16, 20, 2, 11⟩) ∧
      ∃ front rest, RefusedFor literal bad.toList front rest
        (.malformedInterpolation (.notIdentifier "1") ⟨16, 20, 2, 11⟩) := by
  intro literal raw bad
  have hlowers : (string literal raw).lower = .ok
      [⟨.act (.emitLiteral "a\n\\q"), some ⟨11, 16, 2, 6⟩⟩,
        ⟨.act (.emitVar "x"), some ⟨16, 20, 2, 11⟩⟩,
        ⟨.act (.emitVar "y_1"), some ⟨20, 26, 2, 15⟩⟩,
        ⟨.act (.emitLiteral "\\\\"), some ⟨26, 29, 2, 21⟩⟩] := by
    decide +kernel
  have hrefuses : (string literal bad).lower =
      .error (.malformedInterpolation (.notIdentifier "1") ⟨16, 20, 2, 11⟩) := by
    decide +kernel
  rcases lower_string_exact literal raw with ⟨hiff, hlowersTo, _⟩
  rcases lower_string_exact literal bad with ⟨_, _, hrefused⟩
  exact ⟨hlowers, hiff.mp ⟨_, hlowers⟩, ⟨_, hlowersTo _ hlowers⟩, hrefuses, hrefused _ hrefuses⟩

end Operand
end Stencil
