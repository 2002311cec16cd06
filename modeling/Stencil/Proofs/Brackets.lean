import Mathlib.Combinatorics.Enumerative.DyckWord
import Stencil.Machine.Ranges

/-!
# Iterations as brackets

The beginnings and the ends of iterations are the brackets of a list of instructions, and
all else between them does not count.  Which end closes which beginning is said without
any matching: what stands between the two is balanced.  So is what a table of iterations
has to hold, and what is wrong where there is none.

How deep the brackets are nested decides whether they are balanced.
-/

namespace Stencil

def Instruction.bracket? (i : Instruction) : Option DyckStep :=
  match i.operation with
  | .act _ => none
  | .beginArrayIter _ => some .U
  | .endArrayIter => some .D

namespace Brackets

def word (is : List Instruction) : List DyckStep :=
  is.filterMap Instruction.bracket?

/-- Read in order, the brackets form a balanced word. -/
def Balanced (is : List Instruction) : Prop :=
  ∃ w : DyckWord, w.toList = word is

def Begins (is : List Instruction) (position : Nat) : Prop :=
  is[position]?.bind Instruction.bracket? = some .U

def Ends (is : List Instruction) (position : Nat) : Prop :=
  is[position]?.bind Instruction.bracket? = some .D

/-- The iteration that begins at position `b` has its end at position `e`. -/
structure Closes (is : List Instruction) (b e : Nat) : Prop where
  begins : Begins is b
  ends : Ends is e
  before : b < e
  balanced : Balanced (is.extract (b + 1) e)

/-- The table sends each beginning to the end that closes it, so that what is between them is
balanced, and has nothing else.  Of two iterations the one that begins later is after the
other or inside of it. -/
structure Matches (is : List Instruction) (table : List (Nat × Nat)) : Prop where
  closes : ∀ b e, table.lookup b = some e ↔ Closes is b e
  ended : ∀ b, Begins is b → ∃ e, table.lookup b = some e
  begun : ∀ e, Ends is e → ∃ b, table.lookup b = some e
  apart : ∀ b e b' e', table.lookup b = some e → table.lookup b' = some e' → b < b' →
    e < b' ∨ e' < e

/-- What every end has before it: an iteration that began and is not ended yet. -/
structure Open (is : List Instruction) (b position : Nat) : Prop where
  begins : Begins is b
  before : b < position
  pending : ∀ e < position, ¬Closes is b e

/-- An end at which no iteration is open. -/
structure StrayEnd (is : List Instruction) (position : Nat) : Prop where
  ends : Ends is position
  none : ∀ b, ¬Open is b position

/-- An iteration that no end closes. -/
structure LeftOpen (is : List Instruction) (position : Nat) : Prop where
  begins : Begins is position
  unclosed : ∀ e, ¬Closes is position e

/-- What is wrong with brackets that are not balanced: the first end at which no iteration
is open, or else the last iteration that is left open. -/
inductive Faulty (is : List Instruction) : IterationFault → Prop where
  | strayEnd {p : Nat} {i : Instruction} (hi : is[p]? = some i) (hstray : StrayEnd is p)
      (hfirst : ∀ q < p, ¬StrayEnd is q) : Faulty is (.endWithoutBegin i.span)
  | leftOpen {p : Nat} {i : Instruction} (hi : is[p]? = some i) (hopen : LeftOpen is p)
      (hlast : ∀ q > p, ¬LeftOpen is q) (hnone : ∀ q, ¬StrayEnd is q) :
      Faulty is (.beginWithoutEnd i.span)

variable {is : List Instruction} {b b' e e' p : Nat} {step : DyckStep}

/-! ## Depth -/

/-- How many more beginnings than ends there are. -/
def depth (is : List Instruction) : Int :=
  (word is).count .U - (word is).count .D

theorem depth_append (is js : List Instruction) : depth (is ++ js) = depth is + depth js := by
  simp only [depth, word, List.filterMap_append, List.count_append]
  omega

theorem depth_take_succ (is : List Instruction) (p : Nat) :
    depth (is.take (p + 1)) = depth (is.take p) + depth is[p]?.toList := by
  rw [List.take_add_one, depth_append]

theorem depth_of_bracket (h : is[p]?.bind Instruction.bracket? = some step) :
    depth is[p]?.toList = [step].count .U - [step].count .D := by
  rcases Option.bind_eq_some_iff.mp h with ⟨i, hi, hbracket⟩
  rw [hi, depth, word, Option.toList_some, List.filterMap_cons, hbracket]
  rfl

theorem Begins.depth (h : Begins is p) : depth is[p]?.toList = 1 :=
  depth_of_bracket h

theorem Ends.depth (h : Ends is p) : depth is[p]?.toList = -1 :=
  depth_of_bracket h

/-- The depth comes back to nothing, and is never below. -/
theorem balanced_iff : Balanced is ↔ depth is = 0 ∧ ∀ p, 0 ≤ depth (is.take p) := by
  constructor
  · rintro ⟨w, hw⟩
    constructor
    · have hcount := w.count_U_eq_count_D
      rw [hw] at hcount
      rw [depth]
      omega
    · intro p
      have hprefix : word (is.take p) <+: word is := (List.take_prefix p is).filterMap _
      have hcount := w.count_D_le_count_U (word (is.take p)).length
      rw [hw, ← List.prefix_iff_eq_take.mp hprefix] at hcount
      rw [depth]
      omega
  · rintro ⟨htotal, hprefixes⟩
    rw [depth] at htotal
    refine ⟨⟨word is, by omega, ?_⟩, rfl⟩
    intro n
    rcases List.prefix_filterMap_iff.mp (List.take_prefix n (word is)) with ⟨js, hjs, htake⟩
    have hdepth := hprefixes js.length
    rw [← List.prefix_iff_eq_take.mp hjs, depth] at hdepth
    rw [htake]
    change (word js).count .D ≤ (word js).count .U
    omega

theorem depth_extract (h : b ≤ p) :
    depth (is.take p) = depth (is.take b) + depth (is.extract b p) := by
  rw [← depth_append, List.extract_eq_take_drop, ← List.take_add, Nat.add_sub_cancel' h]

/-! ## Ends and their beginnings -/

/-- Inside of an iteration all is deeper than before it. -/
theorem Closes.above (h : Closes is b e) (hb : b < p) (he : p ≤ e) :
    depth (is.take b) < depth (is.take p) := by
  have hinside := (balanced_iff.mp h.balanced).2 (p - (b + 1))
  have hextract : (is.extract (b + 1) e).take (p - (b + 1)) = is.extract (b + 1) p := by
    rw [List.extract_eq_take_drop, List.extract_eq_take_drop, List.take_take]
    congr 1
    omega
  have hstart : b + 1 ≤ p := hb
  rw [hextract] at hinside
  rw [depth_extract hstart, depth_take_succ, h.begins.depth]
  omega

/-- After an iteration all is as deep as before it. -/
theorem Closes.after (h : Closes is b e) :
    depth (is.take (e + 1)) = depth (is.take b) := by
  have hstart : b + 1 ≤ e := h.before
  rw [depth_take_succ, h.ends.depth, depth_extract hstart, depth_take_succ, h.begins.depth,
    (balanced_iff.mp h.balanced).1]
  omega

theorem Closes.end_not_lt (h : Closes is b e) (h' : Closes is b e') : ¬e < e' := by
  intro hlt
  have habove := h'.above (Nat.lt_succ_of_lt h.before) hlt
  rw [h.after] at habove
  exact lt_irrefl _ habove

/-- A beginning has one end only. -/
theorem Closes.end_unique (h : Closes is b e) (h' : Closes is b e') : e = e' :=
  Nat.le_antisymm (Nat.not_lt.mp (h'.end_not_lt h)) (Nat.not_lt.mp (h.end_not_lt h'))

/-- Of two iterations the second is after the first or inside of it. -/
theorem Closes.apart (h : Closes is b e) (h' : Closes is b' e') (hlt : b < b') :
    e < b' ∨ e' < e := by
  by_cases hdisjoint : e < b'
  · exact .inl hdisjoint
  · right
    by_contra hnested
    have hinside := h.above hlt (Nat.not_lt.mp hdisjoint)
    have hafter := h.after
    rcases Nat.lt_or_eq_of_le (Nat.not_lt.mp hnested) with hcross | rfl
    · have habove := h'.above (p := e + 1) (by omega) hcross
      omega
    · have hafter' := h'.after
      omega

theorem Closes.begin_not_lt (h : Closes is b e) (h' : Closes is b' e) : ¬b < b' := by
  intro hlt
  have hbefore := h'.before
  rcases h.apart h' hlt with hafter | hinside
  · omega
  · omega

/-- An end has one beginning only. -/
theorem Closes.begin_unique (h : Closes is b e) (h' : Closes is b' e) : b = b' :=
  Nat.le_antisymm (Nat.not_lt.mp (h'.begin_not_lt h)) (Nat.not_lt.mp (h.begin_not_lt h'))

end Brackets

end Stencil
