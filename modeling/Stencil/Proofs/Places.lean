import Mathlib.Data.List.Basic
import Stencil.Files.Path

/-!
# Places

An absolute path leads to a place: it begins at a root, and each of its components leads on
from where those before it led, back, or nowhere.  A relative path is followed from a place.
Normalizing an absolute path writes down the place that it leads to; the path that is written
leads there again, and is its own normal form.
-/

namespace Stencil

/-- A root, written with so many slashes, and the names that lead from it. -/
structure FilePlace where
  root : Nat
  names : List (List Char)

/-! ## Splitting and joining -/

namespace Path

theorem split_append_slash (before after : List Char) :
    split (before ++ '/' :: after) = split before ++ split after := by
  induction before with
  | nil => simp [split]
  | cons c before ih =>
      rw [List.cons_append, split, split, ih]
      cases hsplit : split before with
      | nil => exact absurd hsplit (split_ne_nil before)
      | cons component components =>
          split
          · rfl
          · rfl

theorem split_of_notMem {component : List Char} (h : '/' ∉ component) :
    split component = [component] := by
  induction component with
  | nil => rfl
  | cons c component ih =>
      rcases not_or.mp (List.mem_cons.not.mp h) with ⟨hc, hrest⟩
      rw [split, if_neg (Ne.symm hc), ih hrest]

theorem join_cons {components : List (List Char)} (h : components ≠ [])
    (component : List Char) :
    join (component :: components) = component ++ '/' :: join components := by
  cases components with
  | nil => exact absurd rfl h
  | cons next components => rfl

theorem join_concat {components : List (List Char)} (h : components ≠ [])
    (last : List Char) : join (components ++ [last]) = join components ++ '/' :: last := by
  induction components with
  | nil => exact absurd rfl h
  | cons component components ih =>
      rw [List.cons_append, join_cons (List.concat_ne_nil last components)]
      cases components with
      | nil => rfl
      | cons next components =>
          rw [ih (List.cons_ne_nil next components), join_cons (List.cons_ne_nil next components)]
          simp

theorem split_join {components : List (List Char)} (h : components ≠ [])
    (hslash : ∀ component ∈ components, '/' ∉ component) :
    split (join components) = components := by
  induction components with
  | nil => exact absurd rfl h
  | cons component components ih =>
      rcases List.forall_mem_cons.mp hslash with ⟨hcomponent, hrest⟩
      cases components with
      | nil => exact split_of_notMem hcomponent
      | cons next components =>
          rw [join_cons (List.cons_ne_nil next components), split_append_slash,
            split_of_notMem hcomponent, ih (List.cons_ne_nil next components) hrest]
          rfl

end Path

namespace FilePlace

/-- A component leads on to a name, unless it is empty, a dot or a double dot. -/
def enter (names : List (List Char)) (component : List Char) : List (List Char) :=
  if component = [] ∨ component = ['.'] then names
  else if component = Path.parent then names.dropLast
  else names ++ [component]

/-- Exactly two slashes make a root of their own; one means the same root as three or more. -/
def rootOf (path : List Char) : Nat :=
  if (path.takeWhile (· == '/')).length = 2 then 2 else 1

/-- The place that an absolute path leads to. -/
def ofPath (path : List Char) : FilePlace :=
  ⟨rootOf path, (Path.split path).foldl enter []⟩

/-- The place that a path leads to, if it is relative from `p` on. -/
def follow (p : FilePlace) (path : List Char) : FilePlace :=
  if path.head? = some '/' then ofPath path
  else ⟨p.root, (Path.split path).foldl enter p.names⟩

def parent (p : FilePlace) : FilePlace :=
  ⟨p.root, p.names.dropLast⟩

/-- How the place is written. -/
def path (p : FilePlace) : List Char :=
  List.replicate p.root '/' ++ Path.join p.names

/-- A component that is the name of something. -/
structure Named (component : List Char) : Prop where
  ne_nil : component ≠ []
  ne_dot : component ≠ ['.']
  ne_parent : component ≠ Path.parent
  slash : '/' ∉ component

/-- The root has one slash or two, and all the names are names. -/
structure Proper (p : FilePlace) : Prop where
  root : p.root = 1 ∨ p.root = 2
  names : ∀ name ∈ p.names, Named name

variable {p : FilePlace} {names components : List (List Char)}
  {component text directory : List Char}

/-! ## Where paths lead -/

theorem named_enter (h : ∀ name ∈ names, Named name) (hslash : '/' ∉ component) :
    ∀ name ∈ enter names component, Named name := by
  rw [enter]
  split
  · exact h
  · rename_i hplain
    rcases not_or.mp hplain with ⟨hnil, hdot⟩
    split
    · exact fun name hname => h name (List.dropLast_subset names hname)
    · rename_i hparent
      exact List.forall_mem_append.mpr
        ⟨h, List.forall_mem_singleton.mpr ⟨hnil, hdot, hparent, hslash⟩⟩

theorem named_foldl_enter (h : ∀ name ∈ names, Named name)
    (hslash : ∀ component ∈ components, '/' ∉ component) :
    ∀ name ∈ components.foldl enter names, Named name := by
  induction components generalizing names with
  | nil => exact h
  | cons component components ih =>
      rcases List.forall_mem_cons.mp hslash with ⟨hcomponent, hrest⟩
      exact ih (named_enter h hcomponent) hrest

theorem proper_ofPath (path : List Char) : (ofPath path).Proper where
  root := by
    rw [ofPath, rootOf]
    split
    · exact .inr rfl
    · exact .inl rfl
  names := named_foldl_enter (List.forall_mem_nil _) (Path.slash_notMem_split path)

theorem Proper.follow (h : p.Proper) (path : List Char) : (p.follow path).Proper := by
  rw [FilePlace.follow]
  split
  · exact proper_ofPath path
  · exact ⟨h.root, named_foldl_enter h.names (Path.slash_notMem_split path)⟩

theorem Proper.parent (h : p.Proper) : p.parent.Proper :=
  ⟨h.root, fun name hname => h.names name (List.dropLast_subset p.names hname)⟩

/-- A name leads on, and all names together lead to where they are the names. -/
theorem foldl_enter_of_named (h : ∀ name ∈ components, Named name) :
    components.foldl enter names = names ++ components := by
  induction components generalizing names with
  | nil => exact (List.append_nil names).symm
  | cons component components ih =>
      rcases List.forall_mem_cons.mp h with ⟨hcomponent, hrest⟩
      have henter : enter names component = names ++ [component] := by
        rw [enter, if_neg (not_or.mpr ⟨hcomponent.ne_nil, hcomponent.ne_dot⟩),
          if_neg hcomponent.ne_parent]
      rw [List.foldl_cons, henter, ih hrest, List.append_assoc]
      rfl

/-! ## Roots -/

theorem rootOf_cons_of_ne {c : Char} (h : c ≠ '/') (text : List Char) (n : Nat) :
    rootOf (List.replicate n '/' ++ c :: text) = if n = 2 then 2 else 1 := by
  have hslashes : (List.replicate n '/' ++ c :: text).takeWhile (· == '/') =
      List.replicate n '/' := by
    rw [List.takeWhile_append_of_pos (by simp), List.takeWhile_cons_of_neg (by simpa using h),
      List.append_nil]
  rw [rootOf, hslashes, List.length_replicate]

theorem rootOf_replicate (n : Nat) : rootOf (List.replicate n '/') = if n = 2 then 2 else 1 := by
  have hslashes : (List.replicate n '/').takeWhile (· == '/') = List.replicate n '/' := by
    rw [List.takeWhile_replicate]
    rfl
  rw [rootOf, hslashes, List.length_replicate]

/-- Slashes, and what stands after them. -/
theorem exists_slashes (path : List Char) : ∃ n,
    path = List.replicate n '/' ∨ ∃ c text, c ≠ '/' ∧ path = List.replicate n '/' ++ c :: text := by
  induction path with
  | nil => exact ⟨0, .inl rfl⟩
  | cons c path ih =>
      by_cases hc : c = '/'
      · subst hc
        rcases ih with ⟨n, rfl | ⟨c, text, hc, rfl⟩⟩
        · exact ⟨n + 1, .inl rfl⟩
        · exact ⟨n + 1, .inr ⟨c, text, hc, rfl⟩⟩
      · exact ⟨0, .inr ⟨c, path, hc, rfl⟩⟩

theorem rootOf_append (h : text.head? ≠ some '/') (directory : List Char) :
    rootOf (directory ++ text) = rootOf directory := by
  rcases exists_slashes directory with ⟨n, rfl | ⟨c, rest, hc, rfl⟩⟩
  · cases text with
    | nil => rw [List.append_nil]
    | cons c text =>
        have hc : c ≠ '/' := fun heq => h (congrArg some heq)
        rw [rootOf_cons_of_ne hc, rootOf_replicate]
  · rw [List.append_assoc, List.cons_append, rootOf_cons_of_ne hc, rootOf_cons_of_ne hc]

/-- A slash after something else does not belong to the root. -/
theorem rootOf_append_slash (h : directory.getLast? ≠ some '/') (hne : directory ≠ [])
    (text : List Char) : rootOf (directory ++ '/' :: text) = rootOf directory := by
  rcases exists_slashes directory with ⟨n, rfl | ⟨c, rest, hc, rfl⟩⟩
  · cases n with
    | zero => exact absurd rfl hne
    | succ n => simp [List.getLast?_replicate] at h
  · rw [List.append_assoc, List.cons_append, rootOf_cons_of_ne hc, rootOf_cons_of_ne hc]

theorem leadingSlashes_eq_rootOf (h : text.head? = some '/') :
    Path.leadingSlashes text = rootOf text := by
  rcases exists_slashes text with ⟨n, rfl | ⟨c, rest, hc, rfl⟩⟩
  · rw [rootOf_replicate]
    match n with
    | 0 => cases h
    | 1 => rfl
    | 2 => rfl
    | _ + 3 => rfl
  · rw [rootOf_cons_of_ne hc]
    match n with
    | 0 => exact absurd (Option.some.inj h) hc
    | 1 => simp [Path.leadingSlashes, List.replicate, hc]
    | 2 => simp [Path.leadingSlashes, List.replicate, hc]
    | n + 3 => rfl

/-! ## Normal forms -/

/-- At the root the components are pushed as they are entered, the last one first. -/
theorem foldl_push (h : ∀ name ∈ names, name ≠ Path.parent) :
    components.foldl (Path.push true) names.reverse = (components.foldl enter names).reverse := by
  induction components generalizing names with
  | nil => rfl
  | cons component components ih =>
      simp only [List.foldl_cons, Path.push, enter]
      split
      · exact ih h
      · split
        · -- a double dot takes the last name away, which is none itself
          have hdrop : ∀ name ∈ names.dropLast, name ≠ Path.parent :=
            fun name hname => h name (List.dropLast_subset names hname)
          rw [← ih hdrop]
          rcases List.eq_nil_or_concat' names with rfl | ⟨front, last, rfl⟩
          · rfl
          · have hlast : last ≠ Path.parent := h last (by simp)
            simp only [List.reverse_append, List.reverse_cons, List.reverse_nil, List.nil_append,
              List.cons_append, if_neg hlast, List.dropLast_concat]
        · rename_i hparent
          rw [← ih (List.forall_mem_append.mpr ⟨h, List.forall_mem_singleton.mpr hparent⟩)]
          simp

theorem Proper.exists_root (h : p.Proper) : ∃ n, p.root = n + 1 := by
  rcases h.root with hone | htwo
  · exact ⟨0, hone⟩
  · exact ⟨1, htwo⟩

theorem Proper.head?_path (h : p.Proper) : p.path.head? = some '/' := by
  rcases h.exists_root with ⟨n, hn⟩
  rw [path, hn]
  rfl

theorem normalize_eq_path (h : text.head? = some '/') :
    Path.normalize text = (ofPath text).path := by
  have hroot : Path.leadingSlashes text = (ofPath text).root := leadingSlashes_eq_rootOf h
  rcases (proper_ofPath text).exists_root with ⟨n, hn⟩
  have hnames : ((Path.split text).foldl (Path.push true) []).reverse = (ofPath text).names := by
    rw [← List.reverse_nil, foldl_push (List.forall_mem_nil _), List.reverse_reverse]
    rfl
  have hrooted : ((ofPath text).root != 0) = true := by
    rw [hn]
    rfl
  rw [Path.normalize, path]
  simp only [hroot, hrooted, hnames]
  rw [hn]
  rfl

/-- A path seen from a directory leads where it leads from the place of the directory. -/
theorem ofPath_resolve (h : directory.head? = some '/') (text : List Char) :
    ofPath (Path.resolve directory text) = (ofPath directory).follow text := by
  have hne : directory ≠ [] := by
    rintro rfl
    cases h
  rw [Path.resolve, follow]
  split
  · rfl
  · rename_i hrelative
    split
    · rename_i hends
      rcases List.eq_nil_or_concat' directory with rfl | ⟨front, last, rfl⟩
      · exact absurd rfl hne
      · have hlast : last = '/' := by simpa using hends
        subst hlast
        have hjoined : front ++ ['/'] ++ text = front ++ '/' :: text := by simp
        rw [ofPath, rootOf_append hrelative, hjoined, Path.split_append_slash, ofPath,
          Path.split_append_slash, List.foldl_append, List.foldl_append]
        rfl
    · rename_i hends
      rcases not_or.mp hends with ⟨_, hlast⟩
      rw [ofPath, rootOf_append_slash hlast hne, Path.split_append_slash, List.foldl_append]
      rfl

theorem head?_resolve (h : directory.head? = some '/') (text : List Char) :
    (Path.resolve directory text).head? = some '/' := by
  rw [Path.resolve]
  split
  · assumption
  · split
    · rw [List.head?_append, h]
      rfl
    · rw [List.head?_append, h]
      rfl

theorem absolute_eq_path (h : directory.head? = some '/') (text : List Char) :
    Path.absolute directory text = ((ofPath directory).follow text).path := by
  rw [Path.absolute, normalize_eq_path (head?_resolve h text), ofPath_resolve h]

/-! ## Written places -/

theorem head?_join (h : ∀ name ∈ names, Named name) : (Path.join names).head? ≠ some '/' := by
  cases names with
  | nil => simp [Path.join]
  | cons name names =>
      have hname := h name List.mem_cons_self
      cases name with
      | nil => exact absurd rfl hname.ne_nil
      | cons c name =>
          have hc : c ≠ '/' := fun heq => hname.slash (heq ▸ List.mem_cons_self)
          cases names with
          | nil => simpa [Path.join] using hc
          | cons next names => simpa [Path.join] using hc

theorem foldl_enter_slashes (n : Nat) (text : List Char) :
    (Path.split (List.replicate n '/' ++ text)).foldl enter names =
      (Path.split text).foldl enter names := by
  induction n with
  | zero => rfl
  | succ n ih =>
      have hsplit := Path.split_append_slash [] (List.replicate n '/' ++ text)
      rw [List.nil_append] at hsplit
      rw [List.replicate_succ, List.cons_append, hsplit, List.foldl_append, ← ih]
      rfl

/-- A place that is written is found again. -/
theorem Proper.ofPath_path (h : p.Proper) : ofPath p.path = p := by
  have hroot : rootOf p.path = p.root := by
    have hslashes := rootOf_replicate p.root
    rw [path, rootOf_append (head?_join h.names), hslashes]
    rcases h.root with hone | htwo
    · rw [hone]
      rfl
    · rw [htwo]
      rfl
  have hnames : (Path.split p.path).foldl enter [] = p.names := by
    rw [path, foldl_enter_slashes]
    by_cases hne : p.names = []
    · rw [hne]
      rfl
    · rw [Path.split_join hne fun name hname => (h.names name hname).slash,
        foldl_enter_of_named h.names, List.nil_append]
  rw [ofPath, hroot, hnames]

/-- A written place stays as it is, whatever directory it is seen from. -/
theorem Proper.absolute_path (h : p.Proper) (directory : List Char) :
    Path.absolute directory p.path = p.path := by
  have hresolve : Path.resolve directory p.path = p.path := if_pos h.head?_path
  rw [Path.absolute, hresolve, normalize_eq_path h.head?_path, h.ofPath_path]

/-! ## Last names -/

theorem Named.getLast? (h : Named component) : component.getLast? ≠ some '/' :=
  fun hlast => h.slash (List.mem_of_getLast? hlast)

theorem getLast?_join (h : ∀ name ∈ names, Named name) :
    (Path.join names).getLast? ≠ some '/' := by
  rcases List.eq_nil_or_concat' names with rfl | ⟨front, last, rfl⟩
  · simp [Path.join]
  · have hlast : Named last := h last (by simp)
    by_cases hfront : front = []
    · subst hfront
      exact hlast.getLast?
    · rw [Path.join_concat hfront, List.getLast?_append_of_ne_nil _ (List.cons_ne_nil _ _),
        List.getLast?_cons_of_ne_nil hlast.ne_nil]
      exact hlast.getLast?

theorem join_ne_nil (h : ∀ name ∈ names, Named name) (hne : names ≠ []) :
    Path.join names ≠ [] := by
  intro hnil
  have hsplit := Path.split_join hne fun name hname => (h name hname).slash
  rw [hnil] at hsplit
  exact (h [] (hsplit ▸ List.mem_singleton_self [])).ne_nil rfl

/-- Only a root ends in a slash. -/
theorem Proper.names_of_getLast? (h : p.Proper) (hlast : p.path.getLast? = some '/') :
    p.names = [] := by
  by_contra hne
  rw [path, List.getLast?_append_of_ne_nil _ (join_ne_nil h.names hne)] at hlast
  exact getLast?_join h.names hlast

/-- What stands before the last component, with the slash that ends it. -/
theorem dropWhile_reverse_append_slash (before : List Char) {last : List Char}
    (h : '/' ∉ last) :
    ((before ++ '/' :: last).reverse.dropWhile (· != '/')).reverse = before ++ ['/'] := by
  have hlast : ∀ c ∈ last.reverse, (c != '/') = true := fun c hc =>
    bne_iff_ne.mpr (ne_of_mem_of_not_mem (List.mem_reverse.mp hc) h)
  rw [List.reverse_append, List.reverse_cons, List.append_assoc,
    List.dropWhile_append_of_pos hlast]
  simp

theorem directoryOf_root (n : Nat) {last : List Char} (h : '/' ∉ last) :
    Path.directoryOf (List.replicate (n + 1) '/' ++ last) = List.replicate (n + 1) '/' := by
  have hslashes : List.replicate (n + 1) '/' = List.replicate n '/' ++ ['/'] :=
    List.replicate_succ'
  rw [hslashes, List.append_assoc]
  change Path.directoryOf (List.replicate n '/' ++ '/' :: last) = _
  rw [Path.directoryOf, dropWhile_reverse_append_slash _ h]
  simp

theorem directoryOf_append_slash {before last : List Char} (hne : before ≠ [])
    (hbefore : before.getLast? ≠ some '/') (h : '/' ∉ last) :
    Path.directoryOf (before ++ '/' :: last) = before := by
  rcases List.eq_nil_or_concat' before with rfl | ⟨front, c, rfl⟩
  · exact absurd rfl hne
  · have hc : c ≠ '/' := by simpa using hbefore
    rw [Path.directoryOf, dropWhile_reverse_append_slash _ h]
    simp [hc]

/-- The directory of a written place is the place that its last name leads from. -/
theorem Proper.directoryOf_path (h : p.Proper) : Path.directoryOf p.path = p.parent.path := by
  rcases h.exists_root with ⟨n, hn⟩
  rcases List.eq_nil_or_concat' p.names with hnil | ⟨front, last, hnames⟩
  · have hdirectory : Path.directoryOf (List.replicate (n + 1) '/' ++ []) = _ :=
      directoryOf_root n List.not_mem_nil
    rw [path, path, FilePlace.parent, hnil, hn]
    simpa [Path.join] using hdirectory
  · have hlast : Named last := h.names last (by simp [hnames])
    have hparent : p.parent = ⟨n + 1, front⟩ := by
      rw [FilePlace.parent, hnames, hn, List.dropLast_concat]
    rw [hparent, path, path, hnames, hn]
    by_cases hfront : front = []
    · have hdirectory := directoryOf_root n hlast.slash
      subst hfront
      simpa [Path.join] using hdirectory
    · have hnamed : ∀ name ∈ front, Named name :=
        fun name hname => h.names name (by simp [hnames, hname])
      have hjoin := join_ne_nil hnamed hfront
      rw [Path.join_concat hfront, ← List.append_assoc]
      apply directoryOf_append_slash _ _ hlast.slash
      · exact List.append_ne_nil_of_right_ne_nil _ hjoin
      · rw [List.getLast?_append_of_ne_nil _ hjoin]
        exact getLast?_join hnamed

end FilePlace

end Stencil
