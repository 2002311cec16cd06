/-!
# White space

The characters that count as white space at the ends of comments, of entries in
a list file and of shown source lines: the Unicode white space characters
together with the four information separators.
-/

namespace Stencil
namespace Text

def isBlank (c : Char) : Bool :=
  let n := c.toNat
  (0x09 ≤ n && n ≤ 0x0D) || (0x1C ≤ n && n ≤ 0x20) || n == 0x85 || n == 0xA0 ||
    n == 0x1680 || (0x2000 ≤ n && n ≤ 0x200A) || n == 0x2028 || n == 0x2029 ||
    n == 0x202F || n == 0x205F || n == 0x3000

theorem isBlank_of_isWhitespace (c : Char) (h : c.isWhitespace = true) :
    isBlank c = true := by
  simp only [Char.isWhitespace, Bool.or_eq_true, decide_eq_true_eq] at h
  rcases h with ((rfl | rfl) | rfl) | rfl <;> decide

/-- A text without the characters of a class at its end. -/
def dropWhileEnd (p : Char → Bool) (cs : List Char) : List Char :=
  (cs.reverse.dropWhile p).reverse

/-- A text without the white space at its two ends. -/
def strip (cs : List Char) : List Char :=
  dropWhileEnd isBlank (cs.dropWhile isBlank)

end Text
end Stencil
