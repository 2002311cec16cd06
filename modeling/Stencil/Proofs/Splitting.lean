import Stencil.Proofs.LineEnds
import Stencil.Text.Lines

/-!
# Splitting and joining lines

The items of an array are the lines of a text.  Lines that are joined, each with a line end
of its own kind, are split into the same items again, and the last one needs no line end
unless it is empty.  Every text is joined of lines with line feeds and a last one without,
so that the items of a text without carriage returns can be joined to the text again.
-/

namespace Stencil

namespace Text

/-! ## Joining -/

/-- How a line is ended. -/
inductive LineEnd where
  | feed
  | returnAndFeed

def LineEnd.text : LineEnd → String
  | feed => "\n"
  | returnAndFeed => "\r\n"

/-- An item that no line end changes. -/
def IsItem (item : String) : Prop :=
  '\n' ∉ item.toList ∧ item.toList.getLast? ≠ some '\r'

instance : DecidablePred IsItem := fun item =>
  inferInstanceAs (Decidable ('\n' ∉ item.toList ∧ item.toList.getLast? ≠ some '\r'))

/-- Items with their line ends, one after the other. -/
def joined (items : List (String × LineEnd)) : String :=
  String.join (items.map fun (item, lineEnd) => item ++ lineEnd.text)

/-- Items that all have the same line end. -/
def joinedBy (lineEnd : LineEnd) (items : List String) : String :=
  joined (items.map fun item => (item, lineEnd))

theorem joined_cons (item : String) (lineEnd : LineEnd) (items : List (String × LineEnd)) :
    joined ((item, lineEnd) :: items) = item ++ lineEnd.text ++ joined items :=
  String.join_cons

theorem joinedBy_concat (lineEnd : LineEnd) (items : List String) (last : String) :
    joinedBy lineEnd (items ++ [last]) = joinedBy lineEnd items ++ last ++ lineEnd.text := by
  rw [joinedBy, joined, List.map_append, List.map_append, String.join_append, String.append_assoc]
  simp [joinedBy, joined]

theorem joinedBy_cons (lineEnd : LineEnd) (item : String) (items : List String) :
    joinedBy lineEnd (item :: items) = item ++ lineEnd.text ++ joinedBy lineEnd items :=
  joined_cons item lineEnd _

/-- Between items there is one line feed less than behind them. -/
theorem intercalate_concat (items : List String) (last : String) :
    String.intercalate "\n" (items ++ [last]) = joinedBy .feed items ++ last := by
  induction items with
  | nil => simp [joinedBy, joined]
  | cons item items ih =>
      rw [joinedBy_cons, String.append_assoc, ← ih]
      cases items with
      | nil => exact String.intercalate_cons_cons
      | cons next items => exact String.intercalate_cons_cons

/-! ## Splitting -/

section Lines

variable {endsLine : Char → Bool} {line : List Char}

theorem linesBy_append_break (hline : ∀ c ∈ line, endsLine c = false) {c : Char}
    (hc : endsLine c = true) (rest : List Char) :
    linesBy endsLine (line ++ c :: rest) = line :: linesBy endsLine rest := by
  induction line with
  | nil => rw [List.nil_append, linesBy, if_pos hc]
  | cons d line ih =>
      rcases List.forall_mem_cons.mp hline with ⟨hd, hline⟩
      rw [List.cons_append, linesBy, if_neg (by simp [hd]), ih hline]

theorem linesBy_unbroken (hline : ∀ c ∈ line, endsLine c = false) (hne : line ≠ []) :
    linesBy endsLine line = [line] := by
  induction line with
  | nil => exact absurd rfl hne
  | cons d line ih =>
      rcases List.forall_mem_cons.mp hline with ⟨hd, hline⟩
      rw [linesBy, if_neg (by simp [hd])]
      cases line with
      | nil => rfl
      | cons c line => rw [ih hline (List.cons_ne_nil c line)]

end Lines

theorem dropReturn_concat (line : List Char) : dropReturn (line ++ ['\r']) = line := by
  rw [dropReturn, if_pos List.getLast?_concat, List.dropLast_concat]

theorem splitItems_eq (text : String) : splitItems text =
    (linesBy (· == '\n') text.toList).map fun line => String.ofList (dropReturn line) := rfl

section Items

variable {item last : String} {items : List String}

theorem IsItem.dropReturn (h : IsItem item) :
    String.ofList (Text.dropReturn item.toList) = item := by
  rw [Text.dropReturn, if_neg h.2, String.ofList_toList]

/-- A line with its end is one item. -/
theorem splitItems_line (h : IsItem item) (lineEnd : LineEnd) (rest : String) :
    splitItems (item ++ lineEnd.text ++ rest) = item :: splitItems rest := by
  have hunbroken : ∀ c ∈ item.toList, (c == '\n') = false := fun c hc =>
    beq_false_of_ne (ne_of_mem_of_not_mem hc h.1)
  cases lineEnd with
  | feed =>
      have hchars : (item ++ LineEnd.feed.text ++ rest).toList =
          item.toList ++ '\n' :: rest.toList := by
        simp [LineEnd.text]
      rw [splitItems_eq, hchars, linesBy_append_break hunbroken rfl, List.map_cons, h.dropReturn,
        splitItems_eq]
  | returnAndFeed =>
      have hchars : (item ++ LineEnd.returnAndFeed.text ++ rest).toList =
          item.toList ++ ['\r'] ++ '\n' :: rest.toList := by
        simp [LineEnd.text]
      have hreturn : ∀ c ∈ item.toList ++ ['\r'], (c == '\n') = false :=
        List.forall_mem_append.mpr ⟨hunbroken, by simp⟩
      rw [splitItems_eq, hchars, linesBy_append_break hreturn rfl, List.map_cons,
        dropReturn_concat, String.ofList_toList, splitItems_eq]

/-- A last line without its end is an item unless it is empty. -/
theorem splitItems_last (h : IsItem last) :
    splitItems last = if last = "" then [] else [last] := by
  split
  · rename_i hempty
    rw [hempty]
    rfl
  · rename_i hne
    have hunbroken : ∀ c ∈ last.toList, (c == '\n') = false := fun c hc =>
      beq_false_of_ne (ne_of_mem_of_not_mem hc h.1)
    rw [splitItems_eq, linesBy_unbroken hunbroken (mt String.toList_eq_nil_iff.mp hne),
      List.map_singleton, h.dropReturn]

theorem splitItems_joined_append (items : List (String × LineEnd))
    (h : ∀ item ∈ items.map Prod.fst, IsItem item) (rest : String) :
    splitItems (joined items ++ rest) = items.map Prod.fst ++ splitItems rest := by
  induction items with
  | nil => simp [joined]
  | cons entry items ih =>
      rcases List.forall_mem_cons.mp h with ⟨hitem, hitems⟩
      rw [joined_cons, String.append_assoc, splitItems_line hitem, ih hitems]
      rfl

/-- How the lines are ended does not show in the items. -/
theorem splitItems_joinedBy (h : ∀ line ∈ last :: items, IsItem line) (lineEnd : LineEnd) :
    splitItems (joinedBy lineEnd items ++ last) = items ++ if last = "" then [] else [last] := by
  rcases List.forall_mem_cons.mp h with ⟨hlast, hitems⟩
  have hfst : (items.map fun item => (item, lineEnd)).map Prod.fst = items := by
    rw [List.map_map]
    exact List.map_id items
  rw [joinedBy, splitItems_joined_append _ (by rwa [hfst]), hfst, splitItems_last hlast]

theorem isItem_of_notMem (hline : '\n' ∉ item.toList) (hreturn : '\r' ∉ item.toList) :
    IsItem item :=
  ⟨hline, fun h => hreturn (List.mem_of_getLast? h)⟩

end Items

/-- Every text is joined of lines with line feeds and of a last line without. -/
theorem exists_joinedBy (cs : List Char) :
    ∃ items last, String.ofList cs = joinedBy .feed items ++ last ∧
      ∀ line ∈ last :: items, '\n' ∉ line.toList ∧ line.toList ⊆ cs := by
  induction cs with
  | nil => exact ⟨[], "", rfl, by simp⟩
  | cons c cs ih =>
      rcases ih with ⟨items, last, hcs, hlines⟩
      rcases List.forall_mem_cons.mp hlines with ⟨hlast, hitems⟩
      have hcons : String.ofList (c :: cs) = String.ofList [c] ++ String.ofList cs := by
        rw [← String.ofList_append, List.singleton_append]
      have hlater : ∀ line ∈ items, '\n' ∉ line.toList ∧ line.toList ⊆ c :: cs := fun line hline =>
        ⟨(hitems line hline).1, List.subset_cons_of_subset c (hitems line hline).2⟩
      -- a line feed ends an empty line, and any other character goes on the first line
      by_cases hc : c = '\n'
      · refine ⟨"" :: items, last, ?_, ?_⟩
        · rw [hcons, hcs, hc, joinedBy_cons, String.append_assoc, String.append_assoc]
          rfl
        · exact List.forall_mem_cons.mpr ⟨⟨hlast.1, List.subset_cons_of_subset c hlast.2⟩,
            List.forall_mem_cons.mpr ⟨by simp, hlater⟩⟩
      · have hlonger (line : String) (hline : '\n' ∉ line.toList ∧ line.toList ⊆ cs) :
            '\n' ∉ (String.ofList [c] ++ line).toList ∧
              (String.ofList [c] ++ line).toList ⊆ c :: cs := by
          rw [String.toList_append, String.toList_ofList, List.singleton_append, List.mem_cons,
            not_or]
          exact ⟨⟨Ne.symm hc, hline.1⟩, List.cons_subset_cons c hline.2⟩
        cases items with
        | nil =>
            refine ⟨[], String.ofList [c] ++ last, ?_, ?_⟩
            · rw [hcons, hcs]
              rfl
            · exact List.forall_mem_singleton.mpr (hlonger last hlast)
        | cons item items =>
            rcases List.forall_mem_cons.mp hitems with ⟨hitem, _⟩
            refine ⟨(String.ofList [c] ++ item) :: items, last, ?_, ?_⟩
            · rw [hcons, hcs, joinedBy_cons, joinedBy_cons]
              simp only [String.append_assoc]
            · exact List.forall_mem_cons.mpr ⟨⟨hlast.1, List.subset_cons_of_subset c hlast.2⟩,
                List.forall_mem_cons.mpr ⟨hlonger item hitem,
                  (List.forall_mem_cons.mp hlater).2⟩⟩

/-- With a carriage return before every line feed, the lines stay. -/
theorem returned_joinedBy {items : List String} {last : String}
    (h : ∀ line ∈ last :: items, '\n' ∉ line.toList) :
    returned (joinedBy .feed items ++ last) = joinedBy .returnAndFeed items ++ last := by
  have happend (first second : String) :
      returned (first ++ second) = returned first ++ returned second := by
    rw [returned, String.toList_append, withReturns_append, String.ofList_append]
    rfl
  have hline : ∀ line ∈ last :: items, returned line = line := fun line hline => by
    rw [returned, withReturns_of_notMem (h line hline), String.ofList_toList]
  rcases List.forall_mem_cons.mp hline with ⟨hlast, hitems⟩
  rw [happend, hlast]
  congr 1
  clear h hline
  induction items with
  | nil => rfl
  | cons item items ih =>
      rcases List.forall_mem_cons.mp hitems with ⟨hitem, hitems⟩
      rw [joinedBy_cons, joinedBy_cons, happend, happend, hitem, ih hitems]
      rfl

section WithoutReturns

variable {text : String} (h : '\r' ∉ text.toList)
include h

theorem exists_items :
    ∃ items last, text = joinedBy .feed items ++ last ∧ ∀ line ∈ last :: items, IsItem line := by
  rcases exists_joinedBy text.toList with ⟨items, last, htext, hlines⟩
  rw [String.ofList_toList] at htext
  exact ⟨items, last, htext, fun line hline =>
    isItem_of_notMem (hlines line hline).1 fun hmem => h ((hlines line hline).2 hmem)⟩

/-- Joining its items gives a text again, but for a line feed at its end. -/
theorem intercalate_splitItems :
    String.intercalate "\n" (splitItems text) ++
      (if text.toList.getLast? = some '\n' then "\n" else "") = text := by
  rcases exists_items h with ⟨items, last, htext, hitems⟩
  rw [htext, splitItems_joinedBy hitems]
  by_cases hempty : last = ""
  · rw [if_pos hempty, hempty, List.append_nil, String.append_empty]
    rcases List.eq_nil_or_concat items with rfl | ⟨init, final, rfl⟩
    · rfl
    · rw [List.concat_eq_append, intercalate_concat, joinedBy_concat,
        if_pos (by simp [LineEnd.text])]
      rfl
  · have hlast := (hitems last List.mem_cons_self).1
    have hend : (joinedBy .feed items ++ last).toList.getLast? ≠ some '\n' := by
      rw [String.toList_append, List.getLast?_append_of_ne_nil _
        (mt String.toList_eq_nil_iff.mp hempty)]
      exact fun hfeed => hlast (List.mem_of_getLast? hfeed)
    rw [if_neg hempty, intercalate_concat, if_neg hend, String.append_empty]

theorem splitItems_returned : splitItems (returned text) = splitItems text := by
  rcases exists_items h with ⟨items, last, htext, hitems⟩
  rw [htext, returned_joinedBy fun line hline => (hitems line hline).1,
    splitItems_joinedBy hitems, splitItems_joinedBy hitems]

end WithoutReturns

/-- Joining and splitting undo each other.  Items are found again in the text that they are
joined to, whichever line ends they are given, and a last line that is not empty may go
without.  A text without carriage returns is its items, joined by line feeds, but for a line
feed at its end; and a carriage return before each of its line feeds leaves its items alone. -/
theorem splitItems_undoes_joining :
    (∀ items : List (String × LineEnd), (∀ item ∈ items.map Prod.fst, IsItem item) →
      splitItems (joined items) = items.map Prod.fst ∧
      ∀ last, IsItem last → last ≠ "" →
        splitItems (joined items ++ last) = items.map Prod.fst ++ [last]) ∧
    ∀ text : String, '\r' ∉ text.toList →
      String.intercalate "\n" (splitItems text) ++
          (if text.toList.getLast? = some '\n' then "\n" else "") = text ∧
      splitItems (returned text) = splitItems text := by
  constructor
  · intro items hitems
    have hjoined := splitItems_joined_append items hitems
    constructor
    · rw [← String.append_empty (s := joined items), hjoined, splitItems_last (by decide),
        if_pos rfl, List.append_nil]
    · intro last hlast hne
      rw [hjoined, splitItems_last hlast, if_neg hne]
  · intro text h
    exact ⟨intercalate_splitItems h, splitItems_returned h⟩

/-- An empty line, a carriage return inside of an item, a last line without an end, and a
text that ends in an empty line. -/
theorem splitItems_undoes_joining_mixed :
    (∀ item ∈ ["a", "", "b\rc"], IsItem item) ∧ (IsItem "d" ∧ "d" ≠ "") ∧
      splitItems "a\n\r\nb\rc\nd" = ["a", "", "b\rc", "d"] ∧
      '\r' ∉ "a\n\n".toList ∧ splitItems "a\r\n\r\n" = splitItems "a\n\n" ∧
      String.intercalate "\n" (splitItems "a\n\n") ++ "\n" = "a\n\n" := by
  have hitems : ∀ item ∈ ["a", "", "b\rc"], IsItem item := by decide
  have hlast : IsItem "d" ∧ "d" ≠ "" := by decide
  have hreturn : '\r' ∉ "a\n\n".toList := by decide
  rcases splitItems_undoes_joining with ⟨hjoined, htext⟩
  refine ⟨hitems, hlast, ?_, hreturn, (htext _ hreturn).2, (htext _ hreturn).1⟩
  exact (hjoined [("a", .feed), ("", .returnAndFeed), ("b\rc", .feed)] hitems).2 "d" hlast.1 hlast.2

end Text

end Stencil
