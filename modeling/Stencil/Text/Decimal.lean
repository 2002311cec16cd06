/-!
# Padded numbers
-/

namespace Stencil
namespace Text

/-- A number with zeros in front, up to a width. -/
def padded (width n : Nat) : String :=
  let digits := toString n
  String.ofList (List.replicate (width - digits.length) '0') ++ digits

end Text
end Stencil
