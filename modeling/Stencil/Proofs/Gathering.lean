import Mathlib.Data.List.TakeWhile
import Stencil.Extension.Gather
import Stencil.Proofs.Places
import Stencil.Proofs.Success

/-!
# What is gathered

An argument that names a list file stands for the lines of the file that give something, each
followed from the place where the file lies; any other stands for itself, followed from the
working directory.  What is gathered are the paths of these places, in order: they are
absolute and in normal form, and gathering them once more changes nothing.
-/

namespace Stencil

/-! ## Entries -/

namespace Text

theorem dropWhileEnd_eq_nil_iff {p : Char → Bool} {cs : List Char} :
    dropWhileEnd p cs = [] ↔ ∀ c ∈ cs, p c = true := by
  rw [dropWhileEnd, List.reverse_eq_nil_iff, List.dropWhile_eq_nil_iff]
  simp only [List.mem_reverse]

theorem strip_eq_nil_iff {cs : List Char} : strip cs = [] ↔ ∀ c ∈ cs, isBlank c = true := by
  rw [strip, dropWhileEnd_eq_nil_iff]
  constructor
  · intro h c hc
    rw [← List.takeWhile_append_dropWhile (p := isBlank) (l := cs)] at hc
    rcases List.mem_append.mp hc with hc | hc
    · exact List.mem_takeWhile_imp hc
    · exact h c hc
  · exact fun h c hc => h c ((List.dropWhile_suffix _).subset hc)

end Text

namespace ListFile

/-- Whether something stands in a line before a hash sign. -/
def isGiven (line : List Char) : Bool :=
  (line.takeWhile (· != '#')).any fun c => !Text.isBlank c

theorem isEmpty_entry (line : List Char) : (!(entry line).isEmpty) = isGiven line := by
  rw [Bool.eq_iff_iff, isGiven, List.any_eq_true, Bool.not_eq_true', List.isEmpty_eq_false_iff,
    entry, ne_eq, Text.strip_eq_nil_iff]
  simp

/-- The lines that give something. -/
def givenLines (text : String) : List (List Char) :=
  (Text.linesBy endsLine text.toList).filter isGiven

theorem entries_eq_map (text : String) : entries text = (givenLines text).map entry := by
  rw [entries, List.filter_map, givenLines]
  congr 2
  exact funext isEmpty_entry

end ListFile

/-! ## One argument -/

namespace FileSystem

/-- The working directory. -/
def place (fs : FileSystem) : FilePlace :=
  .ofPath fs.directory.toList

end FileSystem

namespace Extension

open ListFile (isListFile givenLines entry)

/-- What an argument stands for: itself, or the lines of a list file, seen from where the file
lies. -/
inductive Expands (fs : FileSystem) (path : String) : List String → Prop where
  | extension (h : isListFile path = false) :
      Expands fs path [String.ofList (fs.place.follow path.toList).path]
  | list {text : String} (h : isListFile path = true) (hread : fs.readText path = .ok text) :
      Expands fs path ((givenLines text).map fun line =>
        String.ofList ((fs.place.follow path.toList).parent.follow (entry line)).path)

variable {fs : FileSystem} {path : String} {paths part : List String}

theorem expand_of_expands (hdirectory : fs.directory.toList.head? = some '/')
    (h : Expands fs path part) : expand fs path = .ok part := by
  have habsolute := FilePlace.absolute_eq_path hdirectory path.toList
  cases h with
  | extension hlist =>
      rw [expand, hlist, habsolute]
      rfl
  | @list text hlist hread =>
      have hfile : (fs.place.follow path.toList).Proper :=
        (FilePlace.proper_ofPath fs.directory.toList).follow path.toList
      -- the directory of the file is written, and read again as the same place
      have hentry : ∀ e, Path.absolute (Path.directoryOf (fs.place.follow path.toList).path) e =
          ((fs.place.follow path.toList).parent.follow e).path := by
        intro e
        rw [hfile.directoryOf_path, FilePlace.absolute_eq_path hfile.parent.head?_path,
          hfile.parent.ofPath_path]
      rw [expand, hlist, ListFile.paths, hread]
      change Except.ok ((ListFile.entries text).map _) = _
      rw [habsolute, ListFile.entries_eq_map, List.map_map]
      congr 2
      funext line
      exact congrArg String.ofList (hentry (entry line))

theorem exists_expands
    (h : isListFile path = true → ∃ text, fs.readText path = .ok text) :
    ∃ part, Expands fs path part := by
  cases hlist : isListFile path with
  | false => exact ⟨_, .extension hlist⟩
  | true =>
      rcases h hlist with ⟨text, hread⟩
      exact ⟨_, .list hlist hread⟩

/-- A path that leads to a place and is written as the place is. -/
def IsNormal (path : String) : Prop :=
  ∃ p : FilePlace, p.Proper ∧ path.toList = p.path

theorem isNormal_of_expands (h : Expands fs path part) : ∀ result ∈ part, IsNormal result := by
  have hplace : fs.place.Proper := FilePlace.proper_ofPath fs.directory.toList
  cases h with
  | extension hlist =>
      intro result hresult
      rw [List.mem_singleton.mp hresult]
      exact ⟨_, hplace.follow path.toList, String.toList_ofList⟩
  | list hlist hread =>
      intro result hresult
      rcases List.mem_map.mp hresult with ⟨line, _, rfl⟩
      exact ⟨_, (hplace.follow path.toList).parent.follow (entry line), String.toList_ofList⟩

theorem expand_of_isNormal (h : IsNormal path) (hlist : isListFile path = false) :
    expand fs path = .ok [path] := by
  rcases h with ⟨p, hp, hpath⟩
  rw [expand, hlist, hpath, hp.absolute_path, ← hpath, String.ofList_toList]
  rfl

/-! ## All arguments -/

theorem gather_of_forall₂ {parts : List (List String)}
    (h : List.Forall₂ (fun path part => expand fs path = .ok part) paths parts) :
    gather fs paths = .ok parts.flatten := by
  induction h with
  | nil => rfl
  | cons hfirst _ ih =>
      rw [gather, hfirst, ih]
      rfl

theorem gather_of_isNormal (h : ∀ path ∈ paths, IsNormal path)
    (hlist : ∀ path ∈ paths, isListFile path = false) (fs : FileSystem) :
    gather fs paths = .ok paths := by
  have hparts : List.Forall₂ (fun path part => expand fs path = .ok part) paths
      (paths.map fun path => [path]) := by
    rw [List.forall₂_map_right_iff, List.forall₂_same]
    exact fun path hpath => expand_of_isNormal (h path hpath) (hlist path hpath)
  rw [gather_of_forall₂ hparts, ← List.flatMap_def, List.flatMap_singleton']

/-- Arguments are gathered in order, each with all that it stands for.  What is gathered is
absolute and in normal form, and ends in a slash only if it is a root.  A list file in a list
file is gathered as it is; where there is none, gathering once more changes nothing. -/
theorem gathers_places (fs : FileSystem) (hdirectory : fs.directory.toList.head? = some '/')
    (paths : List String)
    (hlists : ∀ path ∈ paths, isListFile path = true → ∃ text, fs.readText path = .ok text) :
    ∃ parts, List.Forall₂ (Expands fs) paths parts ∧ gather fs paths = .ok parts.flatten ∧
      (∀ result ∈ parts.flatten, ∃ p : FilePlace, p.Proper ∧ result.toList = p.path ∧
        (result.toList.getLast? = some '/' → p.names = [])) ∧
      ((∀ result ∈ parts.flatten, isListFile result = false) →
        ∀ other, gather other parts.flatten = .ok parts.flatten) := by
  have hparts : ∃ parts, List.Forall₂ (Expands fs) paths parts := by
    induction paths with
    | nil => exact ⟨[], .nil⟩
    | cons path paths ih =>
        rcases List.forall_mem_cons.mp hlists with ⟨hpath, hrest⟩
        rcases exists_expands hpath with ⟨part, hpart⟩
        rcases ih hrest with ⟨parts, hparts⟩
        exact ⟨part :: parts, .cons hpart hparts⟩
  rcases hparts with ⟨parts, hparts⟩
  have hnormal : ∀ result ∈ parts.flatten, IsNormal result := by
    intro result hresult
    rcases List.mem_flatten.mp hresult with ⟨part, hpart, hmem⟩
    rcases exists_of_mem_of_forall₂ hparts hpart with ⟨path, _, hexpands⟩
    exact isNormal_of_expands hexpands result hmem
  refine ⟨parts, hparts, ?_, ?_, ?_⟩
  · exact gather_of_forall₂ (hparts.imp fun path part => expand_of_expands hdirectory)
  · intro result hresult
    rcases hnormal result hresult with ⟨p, hp, hpath⟩
    exact ⟨p, hp, hpath, fun hlast => hp.names_of_getLast? (hpath ▸ hlast)⟩
  · exact fun hlist other => gather_of_isNormal hnormal hlist other

/-- A list file in another directory, with a comment, a blank line, a root of two slashes and
a list file in it. -/
theorem gathers_places_of_list :
    let listing := "../x.py # one\r\n \t# none\n//y/./z/..\x0bmore.PiPaX"
    let fs : FileSystem :=
      { directory := "/w/d"
        contents := fun name =>
          if name = "s//L.PIPAX" then .ok listing.toUTF8.toList else .error .notFound }
    let paths := ["../a.py", "s//L.PIPAX", "///b/../.."]
    fs.directory.toList.head? = some '/' ∧
      (∀ path ∈ paths, isListFile path = true → ∃ text, fs.readText path = .ok text) ∧
      gather fs paths = .ok ["/w/a.py", "/w/d/x.py", "//y", "/w/d/s/more.PiPaX", "/"] ∧
      ∃ parts, List.Forall₂ (Expands fs) paths parts ∧ gather fs paths = .ok parts.flatten := by
  intro listing fs paths
  have hdirectory : fs.directory.toList.head? = some '/' := by decide
  have hread : fs.readText "s//L.PIPAX" =
      .ok "../x.py # one\n \t# none\n//y/./z/..\x0bmore.PiPaX" := by
    decide +kernel
  have hlists : ∀ path ∈ paths, isListFile path = true → ∃ text, fs.readText path = .ok text := by
    intro path hpath hlist
    simp only [paths, List.mem_cons, List.not_mem_nil, or_false] at hpath
    rcases hpath with rfl | rfl | rfl
    · exact absurd hlist (by decide)
    · exact ⟨_, hread⟩
    · exact absurd hlist (by decide)
  rcases gathers_places fs hdirectory paths hlists with ⟨parts, hparts, hgather, _⟩
  exact ⟨hdirectory, hlists, by decide +kernel, parts, hparts, hgather⟩

end Extension

end Stencil
