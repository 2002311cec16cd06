/-!
# Lines

A text is split where a line ends, and the last line need not be ended.
-/

namespace Stencil
namespace Text

/-- The lines of a text, without the characters that end them. -/
def linesBy (endsLine : Char → Bool) : List Char → List (List Char)
  | [] => []
  | c :: rest =>
      if endsLine c then [] :: linesBy endsLine rest
      else
        match linesBy endsLine rest with
        | [] => [[c]]
        | line :: lines => (c :: line) :: lines

/-- No line holds a character that ends lines. -/
theorem endsLine_of_mem_linesBy (endsLine : Char → Bool) (cs : List Char) :
    ∀ line ∈ linesBy endsLine cs, ∀ c ∈ line, endsLine c = false := by
  induction cs with
  | nil => simp [linesBy]
  | cons d rest ih =>
      simp only [linesBy]
      split
      · intro line hline
        rcases List.mem_cons.1 hline with rfl | hline
        · simp
        · exact ih line hline
      · rename_i hd
        cases hl : linesBy endsLine rest with
        | nil =>
            intro line hline c hc
            simp only [List.mem_singleton] at hline
            subst hline
            simp only [List.mem_singleton] at hc
            subst hc
            simpa using hd
        | cons first others =>
            rw [hl] at ih
            intro line hline c hc
            rcases List.mem_cons.1 hline with rfl | hline
            · rcases List.mem_cons.1 hc with rfl | hc
              · simpa using hd
              · exact ih first List.mem_cons_self c hc
            · exact ih line (List.mem_cons_of_mem _ hline) c hc

/-- Line ends of all three kinds (a carriage return, a line feed, and both in this
order) made line feeds. -/
def unifyLineEnds : List Char → List Char
  | [] => []
  | '\r' :: '\n' :: rest => '\n' :: unifyLineEnds rest
  | '\r' :: rest => '\n' :: unifyLineEnds rest
  | c :: rest => c :: unifyLineEnds rest

theorem return_notMem_unifyLineEnds (cs : List Char) : '\r' ∉ unifyLineEnds cs := by
  fun_induction unifyLineEnds cs with
  | case1 => exact List.not_mem_nil
  | case2 rest ih => simp [ih]
  | case3 rest _ ih => simp [ih]
  | case4 c rest _ hc ih =>
      intro hmem
      rcases List.mem_cons.1 hmem with h | h
      · exact hc h.symm
      · exact ih h

/-- A line without the carriage return at its end. -/
def dropReturn (line : List Char) : List Char :=
  if line.getLast? = some '\r' then line.dropLast else line

/-- The items of an array given as text, one a line. -/
def splitItems (text : String) : List String :=
  (linesBy (· == '\n') text.toList).map fun line => String.ofList (dropReturn line)

end Text
end Stencil
