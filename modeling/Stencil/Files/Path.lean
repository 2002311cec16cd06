/-!
# Paths

Paths are normalized without a look at the file system: empty and dot components
are dropped, and a double dot takes the component before it away.  One leading
slash means the root, and so do three or more; exactly two are kept.
-/

namespace Stencil
namespace Path

/-- The components of a path, empty ones included. -/
def split : List Char → List (List Char)
  | [] => [[]]
  | c :: rest =>
      if c = '/' then [] :: split rest
      else
        match split rest with
        | [] => [[c]]
        | component :: components => (c :: component) :: components

def join : List (List Char) → List Char
  | [] => []
  | [component] => component
  | component :: components => component ++ '/' :: join components

theorem split_ne_nil (path : List Char) : split path ≠ [] := by
  cases path with
  | nil => exact List.cons_ne_nil _ _
  | cons c rest =>
      simp only [split]
      split
      · exact List.cons_ne_nil _ _
      · split
        · exact List.cons_ne_nil _ _
        · exact List.cons_ne_nil _ _

theorem join_split (path : List Char) : join (split path) = path := by
  induction path with
  | nil => rfl
  | cons c rest ih =>
      simp only [split]
      cases hs : split rest with
      | nil => exact absurd hs (split_ne_nil rest)
      | cons component components =>
          rw [hs] at ih
          split
          · rename_i hc
            rw [hc, join, ih]
            · rfl
            · exact List.cons_ne_nil _ _
          · cases components with
            | nil =>
                rw [join] at ih ⊢
                rw [ih]
            | cons next others =>
                simp only [join, List.cons_append] at ih ⊢
                rw [ih]

/-- No component has a slash in it. -/
theorem slash_notMem_split (path : List Char) :
    ∀ component ∈ split path, '/' ∉ component := by
  induction path with
  | nil => simp [split]
  | cons c rest ih =>
      simp only [split]
      split
      · intro component hmem
        rcases List.mem_cons.1 hmem with rfl | hmem
        · exact List.not_mem_nil
        · exact ih component hmem
      · rename_i hc
        cases hs : split rest with
        | nil => exact absurd hs (split_ne_nil rest)
        | cons first others =>
            rw [hs] at ih
            intro component hmem
            rcases List.mem_cons.1 hmem with rfl | hmem
            · intro hslash
              rcases List.mem_cons.1 hslash with h | h
              · exact hc h.symm
              · exact ih first List.mem_cons_self h
            · exact ih component (List.mem_cons_of_mem _ hmem)

def leadingSlashes : List Char → Nat
  | '/' :: '/' :: '/' :: _ => 1
  | '/' :: '/' :: _ => 2
  | '/' :: _ => 1
  | _ => 0

def parent : List Char := ['.', '.']

/-- Adds a component to those before it, the last of which stands first.  At the
root a double dot stays where it is. -/
def push (rooted : Bool) (before : List (List Char)) (component : List Char) :
    List (List Char) :=
  if component = [] ∨ component = ['.'] then before
  else if component = parent then
    match before with
    | [] => if rooted then [] else [parent]
    | last :: rest => if last = parent then parent :: before else rest
  else component :: before

def normalize (path : List Char) : List Char :=
  let slashes := leadingSlashes path
  let components := (split path).foldl (push (slashes != 0)) []
  match List.replicate slashes '/' ++ join components.reverse with
  | [] => ['.']
  | normal => normal

/-- A path as seen from a directory. -/
def resolve (directory path : List Char) : List Char :=
  if path.head? = some '/' then path
  else if directory = [] ∨ directory.getLast? = some '/' then directory ++ path
  else directory ++ '/' :: path

def absolute (directory path : List Char) : List Char :=
  normalize (resolve directory path)

/-- What stands before the last component, without slashes at its end unless it
consists of slashes. -/
def directoryOf (path : List Char) : List Char :=
  let head := (path.reverse.dropWhile (· != '/')).reverse
  if head.all (· == '/') then head else (head.reverse.dropWhile (· == '/')).reverse

def lastComponent (path : List Char) : List Char :=
  (path.reverse.takeWhile (· != '/')).reverse

/-- The last component without its extension.  Dots in front begin none. -/
def stem (path : List Char) : List Char :=
  let name := lastComponent path
  let dots := name.takeWhile (· == '.')
  let rest := name.drop dots.length
  if rest.contains '.' then
    dots ++ ((rest.reverse.dropWhile (· != '.')).drop 1).reverse
  else name

end Path
end Stencil
