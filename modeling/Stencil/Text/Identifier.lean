/-!
# Identifiers

Names are ASCII: a letter or an underscore, then letters, digits and
underscores.
-/

namespace Stencil
namespace Text

def isIdentStart (c : Char) : Bool :=
  c.isAlpha || c == '_'

def isIdentPart (c : Char) : Bool :=
  c.isAlphanum || c == '_'

def isIdentifier : List Char → Bool
  | [] => false
  | c :: cs => isIdentStart c && cs.all isIdentPart

theorem isIdentPart_of_isIdentStart {c : Char} (h : isIdentStart c = true) :
    isIdentPart c = true := by
  simp only [isIdentStart, isIdentPart, Char.isAlphanum, Bool.or_eq_true] at h ⊢
  rcases h with h | h
  · exact Or.inl (Or.inl h)
  · exact Or.inr h

theorem isIdentPart_of_isIdentifier {name : List Char} (h : isIdentifier name = true) :
    ∀ c ∈ name, isIdentPart c := by
  cases name with
  | nil => simp
  | cons c name =>
      rw [isIdentifier, Bool.and_eq_true, List.all_eq_true] at h
      exact List.forall_mem_cons.mpr ⟨isIdentPart_of_isIdentStart h.1, h.2⟩

end Text
end Stencil
