import Mathlib.Data.List.Nodup
import Stencil.Compile
import Stencil.Document.Evaluation
import Stencil.Proofs.Reading

/-!
# Macros are resolved

In a document that lowers, the names of the macros of one block are distinct, and
every macro that a block calls is defined in it.  As the blocks are numbered, no
two definitions go to the same place of the macro table, and a call finds there
what the definition in its own block was lowered to.
-/

namespace Stencil

/-! ## Tables of distinct macros -/

namespace Macro

/-- What a table knows a macro by. -/
def key (m : Macro) : Nat × String :=
  (m.block, m.name)

theorem hasKey_iff {m : Macro} {block : Nat} {name : String} :
    m.hasKey block name = true ↔ m.key = (block, name) := by
  simp [hasKey, key]

end Macro

namespace MacroTable

theorem get?_foldl_define (table : MacroTable) (ms : List Macro) (block : Nat)
    (name : String) :
    (ms.foldl define table).get? block name =
      (ms.reverse.find? (Macro.hasKey block name)).or (table.get? block name) := by
  induction ms generalizing table with
  | nil => simp
  | cons m ms ih =>
      rw [List.foldl_cons, ih, get?_define, List.reverse_cons, List.find?_append,
        Option.or_assoc]
      congr 1
      by_cases h : m.block = block ∧ m.name = name
      · have hkey : m.hasKey block name = true := by
          simp [Macro.hasKey, h.1, h.2]
        simp [h, hkey]
      · have hkey : m.hasKey block name = false := by
          rw [← Bool.not_eq_true, Macro.hasKey_iff]
          simpa [Macro.key] using h
        simp [h, hkey]

/-- Where no two macros are known by the same key, each is found by its own. -/
theorem get?_ofList_of_mem {ms : List Macro} (hkeys : (ms.map Macro.key).Nodup)
    {m : Macro} (hm : m ∈ ms) : (ofList ms).get? m.block m.name = some m := by
  rw [ofList, get?_foldl_define]
  have hsome : (ms.reverse.find? (Macro.hasKey m.block m.name)).isSome = true := by
    rw [List.find?_isSome]
    exact ⟨m, List.mem_reverse.mpr hm, Macro.hasKey_iff.mpr rfl⟩
  rcases Option.isSome_iff_exists.mp hsome with ⟨found, hfound⟩
  have hmem : found ∈ ms := List.mem_reverse.mp (List.mem_of_find?_eq_some hfound)
  have hkey : found.key = m.key := Macro.hasKey_iff.mp (List.find?_some hfound)
  rw [hfound, List.inj_on_of_nodup_map hkeys hmem hm hkey]
  rfl

end MacroTable

/-! ## Blocks -/

namespace Statement

/-- The macro of a definition has its name, the block it stands in, and the code
of its operands. -/
def Defines (index : Nat) (name : String) (pattern body : Operand) (m : Macro) : Prop :=
  m.name = name ∧ m.block = index ∧ pattern.lower = .ok m.pattern ∧ body.lower = .ok m.body

theorem defines_of_toMacro {index : Nat} {span : Span} {name : String}
    {pattern body : Operand} {found : Option Macro}
    (h : (definition span name pattern body).toMacro index = .ok found) :
    ∃ m, found = some m ∧ Defines index name pattern body m := by
  rcases ok_of_bind h with ⟨patternCode, hpattern, hrest⟩
  rcases ok_of_bind hrest with ⟨bodyCode, hbody, hend⟩
  cases hend
  exact ⟨⟨name, index, span, patternCode, bodyCode⟩, rfl, rfl, rfl, hpattern, hbody⟩

theorem keys_of_toMacro {index : Nat} {ss : List Statement} {found : List (Option Macro)}
    (h : List.Forall₂ (fun s m => s.toMacro index = .ok m) ss found) :
    (found.filterMap id).map Macro.key =
      (ss.filterMap definition?).map fun d => (index, d.1) := by
  induction h with
  | nil => rfl
  | @cons s m ss found hs _ ih =>
      cases s with
      | comment span text =>
          cases hs
          exact ih
      | expression e =>
          cases hs
          exact ih
      | definition span name pattern body =>
          rcases defines_of_toMacro hs with ⟨m, rfl, hname, hblock, _, _⟩
          change m.key :: (found.filterMap id).map Macro.key =
            (index, name) :: (ss.filterMap definition?).map fun d => (index, d.1)
          rw [ih, Macro.key, hname, hblock]

theorem exists_macro_of_mem {index : Nat} {ss : List Statement}
    {found : List (Option Macro)}
    (h : List.Forall₂ (fun s m => s.toMacro index = .ok m) ss found) {span : Span}
    {name : String} {pattern body : Operand}
    (hmem : definition span name pattern body ∈ ss) :
    ∃ m ∈ found.filterMap id, Defines index name pattern body m := by
  induction h with
  | nil => cases hmem
  | @cons s m ss found hs _ ih =>
      rcases List.mem_cons.mp hmem with rfl | hmem
      · rcases defines_of_toMacro hs with ⟨m, rfl, hm⟩
        exact ⟨m, by simp, hm⟩
      · rcases ih hmem with ⟨m', hm', hdefines⟩
        refine ⟨m', ?_, hdefines⟩
        rw [List.filterMap_cons]
        split
        · exact hm'
        · exact List.mem_cons_of_mem _ hm'

end Statement

namespace Block

theorem nodup_of_checkDistinct {seen rest : List (String × Span)}
    (h : checkDistinct seen rest = .ok ()) :
    (rest.map Prod.fst).Nodup ∧ ∀ name ∈ rest.map Prod.fst, seen.lookup name = none := by
  induction rest generalizing seen with
  | nil => exact ⟨List.nodup_nil, fun _ hmem => absurd hmem (List.not_mem_nil)⟩
  | cons d rest ih =>
      rcases d with ⟨name, span⟩
      simp only [checkDistinct] at h
      split at h
      · cases h
      · rename_i hnone
        rcases ih h with ⟨hnodup, hfresh⟩
        have hne : ∀ other ∈ rest.map Prod.fst, other ≠ name ∧ seen.lookup other = none := by
          intro other hmem
          have hlookup := hfresh other hmem
          rw [Entries.lookup_cons] at hlookup
          split at hlookup
          · cases hlookup
          · rename_i hother
            exact ⟨hother, hlookup⟩
        constructor
        · rw [List.map_cons, List.nodup_cons]
          exact ⟨fun hmem => (hne name hmem).1 rfl, hnodup⟩
        · intro other hmem
          rcases List.mem_cons.mp hmem with rfl | hmem
          · exact hnone
          · exact (hne other hmem).2

theorem mem_of_checkCalls {definitions : List (String × Span)} {calls : List MacroRef}
    (h : checkCalls definitions calls = .ok ()) {target : MacroRef}
    (hmem : target ∈ calls) : ∃ span, (target.name, span) ∈ definitions := by
  induction calls with
  | nil => cases hmem
  | cons t rest ih =>
      simp only [checkCalls] at h
      split at h
      · rename_i hfound
        rcases List.mem_cons.mp hmem with rfl | hmem
        · rcases Option.isSome_iff_exists.mp hfound with ⟨span, hspan⟩
          rcases List.lookup_eq_some_iff.mp hspan with ⟨before, after, hsplit, _⟩
          exact ⟨span, by rw [hsplit]; simp⟩
        · exact ih h hmem
      · cases h

/-- A block that lowers, its macros and its instructions. -/
structure Lowered (b : Block) (ms : List Macro) (is : List Instruction) : Prop where
  distinct : (b.definitions.map Prod.fst).Nodup
  defined : ∀ target ∈ b.calls, ∃ span, (target.name, span) ∈ b.definitions
  macros : ∃ found, List.Forall₂ (fun s m => s.toMacro b.index = .ok m) b.statements found ∧
    ms = found.filterMap id
  code : ∃ parts, List.Forall₂ (fun s part => s.lower b.index = .ok part) b.statements parts ∧
    is = parts.flatten

theorem lowered_of_lower {b : Block} {ms : List Macro} {is : List Instruction}
    (h : b.lower = .ok (ms, is)) : b.Lowered ms is := by
  rcases ok_of_bind h with ⟨_, hdistinct, h1⟩
  rcases ok_of_bind h1 with ⟨_, hcalls, h2⟩
  rcases ok_of_bind h2 with ⟨found, hfound, h3⟩
  rcases ok_of_bind h3 with ⟨parts, hparts, hend⟩
  cases hend
  exact
    { distinct := (nodup_of_checkDistinct hdistinct).1
      defined := fun _ hmem => mem_of_checkCalls hcalls hmem
      macros := ⟨found, forall₂_of_mapM hfound, rfl⟩
      code := ⟨parts, forall₂_of_mapM hparts, rfl⟩ }

theorem findMacro_of_mem_definitions {b : Block} {name : String} {span : Span}
    (h : (name, span) ∈ b.definitions) :
    ∃ pattern body, b.findMacro name = some (pattern, body) ∧
      ∃ span, Statement.definition span name pattern body ∈ b.statements := by
  unfold findMacro
  unfold definitions at h
  generalize b.statements = ss at h ⊢
  induction ss with
  | nil => cases h
  | cons s ss ih =>
      rw [List.findSome?_cons]
      split
      · rename_i found hfound
        split at hfound
        · split at hfound
          · rename_i pattern body hname
            cases hfound
            rw [← hname]
            exact ⟨pattern, body, rfl, _, List.mem_cons_self⟩
          · cases hfound
        · cases hfound
      · rename_i hnone
        have hrest : (name, span) ∈ ss.filterMap Statement.definition? := by
          rcases List.mem_filterMap.mp h with ⟨s', hmem, hs'⟩
          rcases List.mem_cons.mp hmem with rfl | hmem
          · cases s' with
            | comment _ _ => cases hs'
            | expression _ => cases hs'
            | definition _ _ _ _ =>
                cases hs'
                simp at hnone
          · exact List.mem_filterMap.mpr ⟨s', hmem, hs'⟩
        rcases ih hrest with ⟨pattern, body, hfind, place, hplace⟩
        exact ⟨pattern, body, hfind, place, List.mem_cons_of_mem _ hplace⟩

/-- The table holds what the block defines under a name. -/
def Resolves (b : Block) (macros : MacroTable) (name : String) : Prop :=
  ∃ pattern body m, b.findMacro name = some (pattern, body) ∧
    macros.get? b.index name = some m ∧ Statement.Defines b.index name pattern body m

/-- So it does for every call of the block. -/
def Resolved (b : Block) (macros : MacroTable) : Prop :=
  ∀ s ∈ b.statements, ∀ target, s.call? = some target → b.Resolves macros target.name

end Block

/-! ## Documents -/

namespace Document

theorem parts_of_lower {document : Document} {p : Program} (h : document.lower = .ok p) :
    ∃ parts, List.Forall₂ (fun item part => item.lower = .ok part) document.items parts ∧
      p.instructions = (parts.map Prod.snd).flatten ∧
      p.macros = MacroTable.ofList (parts.map Prod.fst).flatten := by
  rcases ok_of_bind h with ⟨parts, hparts, hend⟩
  cases hend
  exact ⟨parts, forall₂_of_mapM hparts, rfl, rfl⟩

theorem mem_items_of_mem_blocks {document : Document} {b : Block}
    (h : b ∈ document.blocks) : Item.block b ∈ document.items := by
  rcases List.mem_filterMap.mp h with ⟨item, hmem, hitem⟩
  cases item with
  | hostText _ _ => cases hitem
  | block b' =>
      cases hitem
      exact hmem

theorem lowered_of_mem {items : List Item} {parts : List (List Macro × List Instruction)}
    (h : List.Forall₂ (fun item part => item.lower = .ok part) items parts) {b : Block}
    (hb : Item.block b ∈ items) :
    ∃ ms is, b.Lowered ms is ∧ ms ⊆ (parts.map Prod.fst).flatten := by
  induction h with
  | nil => cases hb
  | @cons item part items parts hitem _ ih =>
      rcases List.mem_cons.mp hb with rfl | hb
      · exact ⟨part.1, part.2, Block.lowered_of_lower hitem, List.subset_append_left _ _⟩
      · rcases ih hb with ⟨ms, is, hlowered, hsubset⟩
        exact ⟨ms, is, hlowered, fun m hm => List.mem_append_right _ (hsubset hm)⟩

/-- The macros of a program are known by the blocks and the names of the
definitions. -/
theorem keys_of_lower {items : List Item} {parts : List (List Macro × List Instruction)}
    (h : List.Forall₂ (fun item part => item.lower = .ok part) items parts) (span : Span) :
    (parts.map Prod.fst).flatten.map Macro.key =
      (Document.mk span items).blocks.flatMap fun b =>
        b.definitions.map fun d => (b.index, d.1) := by
  induction h with
  | nil => rfl
  | @cons item part items parts hitem _ ih =>
      rw [List.map_cons, List.flatten_cons, List.map_append, ih]
      cases item with
      | hostText place text =>
          cases hitem
          rfl
      | block b =>
          rcases part with ⟨ms, is⟩
          rcases (Block.lowered_of_lower hitem).macros with ⟨found, hfound, rfl⟩
          rw [Statement.keys_of_toMacro hfound]
          rfl

theorem nodup_keys {items : List Item} {parts : List (List Macro × List Instruction)}
    (h : List.Forall₂ (fun item part => item.lower = .ok part) items parts) (span : Span)
    (hindex : ((Document.mk span items).blocks.map Block.index).Nodup) :
    ((parts.map Prod.fst).flatten.map Macro.key).Nodup := by
  rw [keys_of_lower h span, List.nodup_flatMap]
  constructor
  · intro b hb
    rcases lowered_of_mem h (mem_items_of_mem_blocks hb) with ⟨_, _, hlowered, _⟩
    have hnames : (b.definitions.map fun d => (b.index, d.1)) =
        (b.definitions.map Prod.fst).map fun name => (b.index, name) := by
      rw [List.map_map]
      rfl
    rw [hnames]
    exact hlowered.distinct.map (fun _ _ heq => (Prod.mk.inj heq).2)
  · refine (List.pairwise_map.mp hindex).imp ?_
    intro b b' hne
    change List.Disjoint _ _
    rw [List.disjoint_left]
    intro key hkey hkey'
    rcases List.mem_map.mp hkey with ⟨d, _, rfl⟩
    rcases List.mem_map.mp hkey' with ⟨d', _, hd'⟩
    exact hne (congrArg Prod.fst hd').symm

theorem resolves_of_definition {document : Document} {p : Program} (h : document.lower = .ok p)
    (hindex : (document.blocks.map Block.index).Nodup) {b : Block}
    (hb : b ∈ document.blocks) {name : String} {span : Span}
    (hdefinition : (name, span) ∈ b.definitions) : b.Resolves p.macros name := by
  rcases parts_of_lower h with ⟨parts, hparts, _, htable⟩
  rcases lowered_of_mem hparts (mem_items_of_mem_blocks hb) with ⟨ms, is, hlowered, hsubset⟩
  rcases Block.findMacro_of_mem_definitions hdefinition with
    ⟨pattern, body, hfind, place, hplace⟩
  rcases hlowered.macros with ⟨found, hfound, rfl⟩
  rcases Statement.exists_macro_of_mem hfound hplace with ⟨m, hm, hdefines⟩
  refine ⟨pattern, body, m, hfind, ?_, hdefines⟩
  rw [htable, ← hdefines.2.1, ← hdefines.1]
  exact MacroTable.get?_ofList_of_mem (nodup_keys hparts document.span hindex) (hsubset hm)

theorem resolves_of_lower {document : Document} {p : Program} (h : document.lower = .ok p)
    (hindex : (document.blocks.map Block.index).Nodup) {b : Block}
    (hb : b ∈ document.blocks) {target : MacroRef} (htarget : target ∈ b.calls) :
    b.Resolves p.macros target.name := by
  rcases parts_of_lower h with ⟨parts, hparts, _, _⟩
  rcases lowered_of_mem hparts (mem_items_of_mem_blocks hb) with ⟨ms, is, hlowered, _⟩
  rcases hlowered.defined target htarget with ⟨_, hdefinition⟩
  exact resolves_of_definition h hindex hb hdefinition

theorem resolved_of_lower {document : Document} {p : Program} (h : document.lower = .ok p)
    (hindex : (document.blocks.map Block.index).Nodup) {b : Block}
    (hb : Item.block b ∈ document.items) : b.Resolved p.macros := by
  intro s hs target htarget
  have hblock : b ∈ document.blocks := List.mem_filterMap.mpr ⟨.block b, hb, rfl⟩
  have hcall : target ∈ b.calls := List.mem_filterMap.mpr ⟨s, hs, htarget⟩
  exact resolves_of_lower h hindex hblock hcall

theorem nodup_index_of_ofTokens {tokens : List Token} {document : Document}
    (h : ofTokens tokens = .ok document) : (document.blocks.map Block.index).Nodup := by
  rw [index_of_read (read_of_ofTokens h)]
  exact List.nodup_range

end Document

namespace Program

theorem document_of_compile {source : String} {p : Program} (h : compile source = .ok p) :
    ∃ document, Document.ofTokens (tokenize source) = .ok document ∧
      document.lower = .ok p := by
  unfold compile ofTokens at h
  split at h
  · cases h
  · rename_i document hdocument
    split at h
    · cases h
    · rename_i hlower
      cases h
      exact ⟨document, hdocument, hlower⟩

end Program

end Stencil
