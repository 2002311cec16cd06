import Stencil.Proofs.Groups
import Stencil.Program.Listing

/-!
# Listings as outlines

A listing indents an instruction by two blanks for each bracket around it.  It keeps count
of the brackets with a number that does not go below zero.  As brackets are nested in
compiled code, the count is that of the brackets in fact open: it never comes to where it
could not go down, and at the end of a fragment it is what it was at the beginning.
-/

namespace Stencil

namespace Operation

variable {opening closing : Operation}

theorem Pairs.opens_left (h : opening.Pairs closing) : opening.opens = true := by
  cases h <;> rfl

theorem Pairs.closes_left (h : opening.Pairs closing) : opening.closes = false := by
  cases h <;> rfl

theorem Pairs.opens_right (h : opening.Pairs closing) : closing.opens = false := by
  cases h <;> rfl

theorem Pairs.closes_right (h : opening.Pairs closing) : closing.closes = true := by
  cases h <;> rfl

end Operation

namespace Listing

/-- The count of open brackets after instructions, as listings keep it. -/
def depthAfter (depth : Nat) : List Instruction → Nat
  | [] => depth
  | i :: rest =>
      let depth := if i.operation.closes then depth - 1 else depth
      depthAfter (if i.operation.opens then depth + 1 else depth) rest

/-- The line of an instruction: two blanks for each bracket around it, then the opcode, and
behind another blank the operand, if there is one. -/
def Line (depth : Nat) (i : Instruction) (line : String) : Prop :=
  line.toList = List.replicate (2 * depth) ' ' ++ i.opcode.toList ++
    if i.operand = "" then [] else ' ' :: i.operand.toList

/-- One line for each instruction, indented by the brackets that it stands in.  The two
sides of a bracket stand outside of it. -/
inductive Outlined : Nat → List Instruction → List String → Prop where
  | nil (depth : Nat) : Outlined depth [] []
  | plain {depth : Nat} {i : Instruction} {rest : List Instruction} {line : String}
      {ls : List String} (hopens : i.operation.opens = false)
      (hcloses : i.operation.closes = false) (hline : Line depth i line)
      (hrest : Outlined depth rest ls) : Outlined depth (i :: rest) (line :: ls)
  | pair {depth : Nat} {opening closing : Instruction} {body rest : List Instruction}
      {first last : String} {inner ls : List String}
      (hpairs : opening.operation.Pairs closing.operation) (hfirst : Line depth opening first)
      (hbody : Outlined (depth + 1) body inner) (hlast : Line depth closing last)
      (hrest : Outlined depth rest ls) :
      Outlined depth (opening :: (body ++ closing :: rest)) (first :: (inner ++ last :: ls))

theorem line_iff {depth : Nat} {i : Instruction} {line : String} :
    Line depth i line ↔ line = indent depth i.text := by
  have htext : i.text.toList =
      i.opcode.toList ++ if i.operand = "" then [] else ' ' :: i.operand.toList := by
    rw [Instruction.text]
    split
    · rw [List.append_nil]
    · rw [String.toList_append, String.toList_append, List.append_assoc]
      rfl
  rw [Line, List.append_assoc, ← htext, ← String.toList_inj, indent, String.toList_append,
    String.toList_ofList]

/-! ## One instruction after another -/

variable {depth : Nat} {is xs ys : List Instruction} {i opening closing : Instruction}

theorem lines_append (depth : Nat) (xs ys : List Instruction) :
    lines depth (xs ++ ys) = lines depth xs ++ lines (depthAfter depth xs) ys := by
  induction xs generalizing depth with
  | nil => rfl
  | cons i xs ih => exact congrArg _ (ih _)

theorem depthAfter_append (depth : Nat) (xs ys : List Instruction) :
    depthAfter depth (xs ++ ys) = depthAfter (depthAfter depth xs) ys := by
  induction xs generalizing depth with
  | nil => rfl
  | cons i xs ih => exact ih _

theorem lines_plain (hopens : i.operation.opens = false) (hcloses : i.operation.closes = false)
    (rest : List Instruction) :
    lines depth (i :: rest) = indent depth i.text :: lines depth rest := by
  rw [lines, hopens, hcloses]
  rfl

theorem depthAfter_plain (hopens : i.operation.opens = false)
    (hcloses : i.operation.closes = false) (rest : List Instruction) :
    depthAfter depth (i :: rest) = depthAfter depth rest := by
  rw [depthAfter, hopens, hcloses]
  rfl

section Pair

variable (hpairs : opening.operation.Pairs closing.operation)

include hpairs

theorem lines_opening (rest : List Instruction) :
    lines depth (opening :: rest) = indent depth opening.text :: lines (depth + 1) rest := by
  rw [lines, hpairs.opens_left, hpairs.closes_left]
  rfl

theorem depthAfter_opening (rest : List Instruction) :
    depthAfter depth (opening :: rest) = depthAfter (depth + 1) rest := by
  rw [depthAfter, hpairs.opens_left, hpairs.closes_left]
  rfl

theorem lines_closing (rest : List Instruction) :
    lines (depth + 1) (closing :: rest) = indent depth closing.text :: lines depth rest := by
  rw [lines, hpairs.opens_right, hpairs.closes_right]
  rfl

theorem depthAfter_closing (rest : List Instruction) :
    depthAfter (depth + 1) (closing :: rest) = depthAfter depth rest := by
  rw [depthAfter, hpairs.opens_right, hpairs.closes_right]
  rfl

end Pair

/-! ## Nested brackets -/

/-- Behind nested brackets the count is what it was before. -/
theorem depthAfter_of_nested (h : Nested is) (depth : Nat) : depthAfter depth is = depth := by
  induction h generalizing depth with
  | nil => rfl
  | plain hopens hcloses _ ih => rw [depthAfter_plain hopens hcloses, ih]
  | pair hpairs _ _ ihBody ihRest =>
      rw [depthAfter_opening hpairs, depthAfter_append, ihBody, depthAfter_closing hpairs, ihRest]

theorem outlined_of_nested (h : Nested is) (depth : Nat) :
    Outlined depth is (lines depth is) := by
  induction h generalizing depth with
  | nil => exact .nil depth
  | plain hopens hcloses _ ih =>
      rw [lines_plain hopens hcloses]
      exact .plain hopens hcloses (line_iff.mpr rfl) (ih depth)
  | @pair opening closing body rest hpairs hbody _ ihBody ihRest =>
      rw [lines_opening hpairs, lines_append, depthAfter_of_nested hbody, lines_closing hpairs]
      exact .pair hpairs (line_iff.mpr rfl) (ihBody (depth + 1)) (line_iff.mpr rfl) (ihRest depth)

/-- Where a bracket closes, the count is above what it was at the beginning. -/
theorem lt_depthAfter_of_closes (h : Nested is) {before after : List Instruction}
    (hsplit : is = before ++ i :: after) (hi : i.operation.closes = true) :
    depth < depthAfter depth before := by
  induction h generalizing depth before after with
  | nil => exact absurd hsplit.symm (List.append_ne_nil_of_right_ne_nil _ (List.cons_ne_nil _ _))
  | plain hopens hcloses _ ih =>
      cases before with
      | nil =>
          cases hsplit
          rw [hcloses] at hi
          cases hi
      | cons first before =>
          cases hsplit
          rw [depthAfter_plain hopens hcloses]
          exact ih rfl
  | @pair opening closing body rest hpairs hbody hrest ihBody ihRest =>
      cases before with
      | nil =>
          cases hsplit
          rw [hpairs.closes_left] at hi
          cases hi
      | cons first before =>
          rcases List.cons.inj hsplit with ⟨rfl, hinner⟩
          rw [depthAfter_opening hpairs]
          rcases List.append_eq_append_iff.mp hinner with ⟨mid, rfl, hmid⟩ | ⟨mid, rfl, hmid⟩
          · rw [depthAfter_append, depthAfter_of_nested hbody]
            cases mid with
            | nil => exact Nat.lt_succ_self depth
            | cons first mid =>
                cases hmid
                rw [depthAfter_closing hpairs]
                exact ihRest rfl
          · cases mid with
            | nil =>
                rw [List.append_nil] at hbody
                rw [depthAfter_of_nested hbody]
                exact Nat.lt_succ_self depth
            | cons first mid =>
                cases hmid
                exact Nat.lt_of_succ_lt (ihBody rfl)

/-! ## Lines of outlines -/

/-- The line of an instruction is indented at least as far as the fragment. -/
theorem mem_of_outlined {ls : List String} (h : Outlined depth is ls) {line : String}
    (hline : line ∈ ls) : ∃ i ∈ is, ∃ around, depth ≤ around ∧ line = indent around i.text := by
  induction h with
  | nil depth => cases hline
  | @plain depth i rest _ ls _ _ hfirst _ ih =>
      rcases List.mem_cons.mp hline with rfl | hline
      · exact ⟨i, List.mem_cons_self, depth, Nat.le_refl depth, line_iff.mp hfirst⟩
      · rcases ih hline with ⟨j, hj, around, hle, hindent⟩
        exact ⟨j, List.mem_cons_of_mem i hj, around, hle, hindent⟩
  | @pair depth opening closing body rest _ _ inner ls _ hfirst _ hlast _ ihBody ihRest =>
      rcases List.mem_cons.mp hline with rfl | hline
      · exact ⟨opening, List.mem_cons_self, depth, Nat.le_refl depth, line_iff.mp hfirst⟩
      · rcases List.mem_append.mp hline with hline | hline
        · rcases ihBody hline with ⟨j, hj, around, hle, hindent⟩
          exact ⟨j, by simp [hj], around, Nat.le_of_succ_le hle, hindent⟩
        · rcases List.mem_cons.mp hline with rfl | hline
          · exact ⟨closing, by simp, depth, Nat.le_refl depth, line_iff.mp hlast⟩
          · rcases ihRest hline with ⟨j, hj, around, hle, hindent⟩
            exact ⟨j, by simp [hj], around, hle, hindent⟩

/-- A fragment is displayed as an outline, one line for each of its instructions, and the
count of brackets is never held at zero and ends where it began. -/
structure Displays (depth : Nat) (is : List Instruction) (ls : List String) : Prop where
  outlined : Outlined depth is ls
  oneLine : ∀ line ∈ ls, '\n' ∉ line.toList
  unclamped : ∀ before i after, is = before ++ i :: after → i.operation.closes = true →
    0 < depthAfter depth before
  restored : depthAfter depth is = depth

theorem displays_of_nested (h : Nested is) (hlines : ∀ i ∈ is, '\n' ∉ i.text.toList)
    (depth : Nat) : Displays depth is (lines depth is) where
  outlined := outlined_of_nested h depth
  oneLine := by
    intro line hline
    rcases mem_of_outlined (outlined_of_nested h depth) hline with ⟨i, hi, around, _, rfl⟩
    rw [indent, String.toList_append, String.toList_ofList, List.mem_append]
    rintro (hblank | htext)
    · exact absurd (List.eq_of_mem_replicate hblank) (by decide)
    · exact hlines i hi htext
  unclamped _ _ _ hsplit hcloses := Nat.zero_lt_of_lt (lt_depthAfter_of_closes h hsplit hcloses)
  restored := depthAfter_of_nested h depth

end Listing

end Stencil
