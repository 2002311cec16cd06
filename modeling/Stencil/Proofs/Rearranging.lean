import Mathlib.Data.List.Perm.Basic
import Mathlib.Data.Set.Function
import Stencil.Proofs.Calls
import Stencil.Proofs.Refusal
import Stencil.Proofs.Renaming

/-!
# Where macros are defined, and what they are called

Definitions may stand anywhere in their block, before the calls of what they define or after
them: they leave no instructions, and the table is asked by block and name, not by order.
The macros of a block may have any names as long as these are different, whatever macros are
called in other blocks.  Either way the document lowers as before, and the program runs as
before.
-/

namespace Stencil

variable {ρ : Renaming}

/-! ## Documents that lower -/

namespace Block

variable {b : Block} {ms : List Macro} {is : List Instruction}

theorem lower_of_lowered (h : b.Lowered ms is) : b.lower = .ok (ms, is) := by
  rcases (decides_checkDistinct b.definitions).ok.mpr h.distinct with ⟨_, hdistinct⟩
  rcases (screens_checkCalls b b.calls).ok.mpr h.defined with ⟨_, hcalls⟩
  rcases h.macros with ⟨found, hfound, rfl⟩
  rcases h.code with ⟨parts, hparts, rfl⟩
  rw [lower, bind_of_eq_ok hdistinct, bind_of_eq_ok hcalls,
    bind_of_eq_ok (mapM_of_forall₂ hfound), bind_of_eq_ok (mapM_of_forall₂ hparts)]
  rfl

end Block

namespace Document

theorem lower_of_parts {document : Document} {parts : List (List Macro × List Instruction)}
    (h : List.Forall₂ (fun item part => item.lower = .ok part) document.items parts) :
    document.lower = .ok ⟨(parts.map Prod.snd).flatten,
      MacroTable.ofList (parts.map Prod.fst).flatten⟩ := by
  rw [lower, bind_of_eq_ok (mapM_of_forall₂ h)]
  rfl

end Document

/-! ### Their calls -/

namespace Part

variable {part : Part} {is : List Instruction}

/-- What a part calls, it calls by a statement of its block. -/
theorem calls_of_code (h : part.code = .ok is) {i : Instruction} (hi : i ∈ is) {name : String}
    {block : Nat} (hcalls : i.Calls name block) :
    ∃ b s target, part = .statement b s ∧ s.call? = some target ∧ name = target.name ∧
      block = b.index := by
  cases part with
  | hostText span text =>
      cases h
      split at hi
      · cases hi
      · cases List.mem_singleton.mp hi
        cases hcalls
  | statement b s =>
      cases s with
      | comment span text =>
          cases h
          cases List.mem_singleton.mp hi
          cases hcalls
      | definition span other pattern body =>
          cases h
          cases hi
      | expression e =>
          rcases Expression.callsOnly_of_lower h i hi name block hcalls with
            ⟨target, hcall, hname, hblock⟩
          exact ⟨b, _, target, rfl, hcall, hname, hblock⟩

theorem emits_of_toMacro {m : Macro} (h : part.toMacro = .ok (some m)) :
    (∀ i ∈ m.pattern, i.Emits) ∧ ∀ i ∈ m.body, i.Emits := by
  cases part with
  | hostText span text => cases h
  | statement b s =>
      cases s with
      | comment span text => cases h
      | expression e => cases h
      | definition span name pattern body =>
          rcases Statement.defines_of_toMacro h with ⟨m, heq, _, _, hpattern, hbody⟩
          cases heq
          exact ⟨Operand.emits_of_lower hpattern, Operand.emits_of_lower hbody⟩

end Part

/-- Instructions that only emit call no macro. -/
theorem MacroTable.knows_of_emits (macros : MacroTable) {is : List Instruction}
    (h : ∀ i ∈ is, i.Emits) : macros.Knows is :=
  fun i hi name block hcalls => absurd hcalls (not_calls_of_emits (h i hi) name block)

/-! ### Their tables -/

namespace MacroTable

variable {ms ms' : List Macro}

/-- A table of distinct macros holds these and nothing else. -/
theorem get?_ofList_eq_some_iff (hkeys : (ms.map Macro.key).Nodup) {block : Nat} {name : String}
    {m : Macro} : (ofList ms).get? block name = some m ↔ m ∈ ms ∧ m.key = (block, name) := by
  constructor
  · intro h
    have hmem := mem_entries_of_get? h
    rw [entries_ofList hkeys] at hmem
    exact ⟨hmem, Macro.hasKey_iff.mp (List.find?_some h)⟩
  · intro h
    rcases h with ⟨hmem, hkey⟩
    cases hkey
    exact get?_ofList_of_mem hkeys hmem

/-- The order in which distinct macros are defined makes no difference to what is found. -/
theorem get?_ofList_of_perm (hkeys : (ms.map Macro.key).Nodup) (hperm : ms'.Perm ms)
    (block : Nat) (name : String) : (ofList ms').get? block name = (ofList ms).get? block name := by
  have hkeys' : (ms'.map Macro.key).Nodup := (hperm.map Macro.key).nodup_iff.mpr hkeys
  ext m
  rw [get?_ofList_eq_some_iff hkeys, get?_ofList_eq_some_iff hkeys', hperm.mem_iff]

/-- Where macros are distinct under either names, each is found by its new name. -/
theorem get?_ofList_rename (hkeys : (ms.map Macro.key).Nodup)
    (hkeys' : ((ms.map (Macro.rename ρ)).map Macro.key).Nodup) {block : Nat} {name : String}
    {m : Macro} (h : (ofList ms).get? block name = some m) :
    (ofList (ms.map (Macro.rename ρ))).get? block (ρ block name) = some (m.rename ρ) := by
  rw [get?_ofList_eq_some_iff hkeys] at h
  rw [get?_ofList_eq_some_iff hkeys']
  rcases h with ⟨hmem, hkey⟩
  cases hkey
  exact ⟨List.mem_map_of_mem hmem, rfl⟩

theorem size_ofList (hkeys : (ms.map Macro.key).Nodup) : (ofList ms).size = ms.length := by
  rw [size, entries_ofList hkeys]

end MacroTable

namespace Document

variable {d d' : Document} {p : Program}

theorem closed_of_lower (h : d.lower = .ok p) (hindex : (d.blocks.map Block.index).Nodup) :
    p.Closed := by
  rcases parts_of_lower h with ⟨parts, hparts, hinstructions, hmacros⟩
  constructor
  · rcases groups_of_lower hparts with ⟨groups, hcodes, hgroups⟩
    intro i hi name block hcalls
    rw [hinstructions, hcodes] at hi
    rcases List.mem_flatten.mp hi with ⟨group, hgroup, hi⟩
    rcases exists_of_mem_of_forall₂ hgroups hgroup with ⟨part, hpart, hcode⟩
    rcases Part.calls_of_code hcode hi hcalls with ⟨b, s, target, rfl, hcall, rfl, rfl⟩
    rcases mem_parts.mp (List.mem_of_mem_filter hpart) with ⟨hb, hs⟩
    rcases resolves_of_lower h hindex hb (List.mem_filterMap.mpr ⟨s, hs, hcall⟩) with
      ⟨_, _, m, _, hm, _⟩
    exact ⟨m, hm⟩
  · intro block name m hm
    rw [hmacros, MacroTable.get?_ofList_eq_some_iff (nodup_keys hparts d.span hindex)] at hm
    rcases exists_of_mem_of_forall₂ (macros_of_lower hparts) hm.1 with ⟨part, _, hpart⟩
    rcases Part.emits_of_toMacro hpart with ⟨hpattern, hbody⟩
    exact ⟨p.macros.knows_of_emits hpattern, p.macros.knows_of_emits hbody⟩

end Document

/-! ## Definitions that are moved -/

namespace Statement

def isDefinition : Statement → Bool
  | definition _ _ _ _ => true
  | _ => false

end Statement

/-- The definitions of the second block stand elsewhere among its statements.  All others
keep their order. -/
structure Block.Rearranged (b b' : Block) : Prop where
  span : b'.span = b.span
  index : b'.index = b.index
  statements : b'.statements.Perm b.statements
  others : b'.statements.filter (!·.isDefinition) = b.statements.filter (!·.isDefinition)

inductive Item.Rearranged : Item → Item → Prop where
  | hostText (span : Span) (text : String) : Rearranged (.hostText span text) (.hostText span text)
  | block {b b' : Block} (h : b.Rearranged b') : Rearranged (.block b) (.block b')

/-- Definitions are moved in any of the blocks, or in none. -/
structure Document.Rearranged (d d' : Document) : Prop where
  span : d'.span = d.span
  items : List.Forall₂ Item.Rearranged d.items d'.items

/-- The programs have the same instructions, and the same macros under the same names. -/
structure Program.Same (p p' : Program) : Prop where
  instructions : p'.instructions = p.instructions
  size : p'.macros.size = p.macros.size
  macros : ∀ block name, p'.macros.get? block name = p.macros.get? block name

/-- The block with its definitions before everything else. -/
def Block.definitionsFirst (b : Block) : Block :=
  { b with
    statements := b.statements.filter Statement.isDefinition ++
      b.statements.filter (!·.isDefinition) }

def Item.definitionsFirst : Item → Item
  | .hostText span text => .hostText span text
  | .block b => .block b.definitionsFirst

def Document.definitionsFirst (d : Document) : Document :=
  { d with items := d.items.map Item.definitionsFirst }

theorem Block.rearranged_definitionsFirst (b : Block) : b.Rearranged b.definitionsFirst where
  span := rfl
  index := rfl
  statements := List.filter_append_perm _ _
  others := by
    rw [definitionsFirst, List.filter_append, List.filter_filter, List.filter_filter]
    simp

theorem Document.rearranged_definitionsFirst (d : Document) :
    d.Rearranged d.definitionsFirst := by
  refine ⟨rfl, List.forall₂_map_right_iff.mpr (List.forall₂_same.mpr ?_)⟩
  intro item _
  cases item with
  | hostText span text => exact .hostText span text
  | block b => exact .block b.rearranged_definitionsFirst

theorem Program.Same.renamed {p p' : Program} (h : p.Same p') : p.Renamed .none p' where
  instructions := by rw [Instruction.map_rename_none, h.instructions]
  size := h.size
  macros := by
    intro block name m hm
    rw [m.rename_none]
    exact (h.macros block name).trans hm

theorem Block.Rearranged.symm {b b' : Block} (h : b.Rearranged b') : b'.Rearranged b :=
  ⟨h.span.symm, h.index.symm, h.statements.symm, h.others.symm⟩

theorem Document.Rearranged.symm {d d' : Document} (h : d.Rearranged d') : d'.Rearranged d := by
  refine ⟨h.span.symm, h.items.flip.imp ?_⟩
  intro item item' hitem
  cases hitem with
  | hostText span text => exact .hostText span text
  | block hblock => exact .block hblock.symm

/-- The code of statements is that of those that are no definitions. -/
theorem Statement.flatten_of_lower {index : Nat} {ss : List Statement}
    {parts : List (List Instruction)}
    (h : List.Forall₂ (fun s part => s.lower index = .ok part) ss parts) :
    ∃ others, (ss.filter (!·.isDefinition)).mapM (lower index) = .ok others ∧
      parts.flatten = others.flatten := by
  induction h with
  | nil => exact ⟨[], List.mapM_nil, rfl⟩
  | @cons s part ss parts hs _ ih =>
      rcases ih with ⟨others, hothers, hflatten⟩
      have hkept (hother : s.isDefinition = false) :
          ((s :: ss).filter (!·.isDefinition)).mapM (lower index) = .ok (part :: others) := by
        rw [List.filter_cons_of_pos (by simp [hother]), List.mapM_cons, bind_of_eq_ok hs,
          bind_of_eq_ok hothers]
        rfl
      rw [List.flatten_cons, hflatten]
      cases s with
      | comment span text => exact ⟨part :: others, hkept rfl, rfl⟩
      | expression e => exact ⟨part :: others, hkept rfl, rfl⟩
      | definition span name pattern body =>
          cases hs
          exact ⟨others, hothers, rfl⟩

namespace Block

variable {b b' : Block} {ms : List Macro} {is : List Instruction}

theorem Lowered.rearranged (h : b.Lowered ms is) (hb : b.Rearranged b') :
    ∃ ms', b'.Lowered ms' is ∧ ms'.Perm ms := by
  have hdefinitions : b'.definitions.Perm b.definitions := hb.statements.filterMap _
  rcases h.macros with ⟨found, hfound, rfl⟩
  rcases h.code with ⟨parts, hparts, rfl⟩
  rcases List.perm_comp_forall₂ hb.statements hfound with ⟨found', hfound', hfoundPerm⟩
  rcases List.perm_comp_forall₂ hb.statements hparts with ⟨parts', hparts', _⟩
  have hflatten : parts'.flatten = parts.flatten := by
    rcases Statement.flatten_of_lower hparts with ⟨others, hothers, hflatten⟩
    rcases Statement.flatten_of_lower hparts' with ⟨others', hothers', hflatten'⟩
    rw [hb.others, hothers] at hothers'
    cases hothers'
    rw [hflatten, hflatten']
  rw [← hb.index] at hfound' hparts'
  refine ⟨found'.filterMap id, ⟨?_, ?_, ⟨found', hfound', rfl⟩, ⟨parts', hparts', hflatten.symm⟩⟩,
    hfoundPerm.filterMap id⟩
  · exact (hdefinitions.map Prod.fst).nodup_iff.mpr h.distinct
  · intro target htarget
    have hcall : target ∈ b.calls := (hb.statements.filterMap _).mem_iff.mp htarget
    rcases h.defined target hcall with ⟨span, hdefined⟩
    exact ⟨span, hdefinitions.mem_iff.mpr hdefined⟩

end Block

namespace Document

variable {d d' : Document} {p : Program}

theorem parts_rearranged {items items' : List Item}
    {parts : List (List Macro × List Instruction)}
    (hitems : List.Forall₂ Item.Rearranged items items')
    (hparts : List.Forall₂ (fun item part => item.lower = .ok part) items parts) :
    ∃ parts', List.Forall₂ (fun item part => item.lower = .ok part) items' parts' ∧
      (parts'.map Prod.snd).flatten = (parts.map Prod.snd).flatten ∧
      (parts'.map Prod.fst).flatten.Perm (parts.map Prod.fst).flatten := by
  induction hitems generalizing parts with
  | nil =>
      cases hparts
      exact ⟨[], .nil, rfl, .refl _⟩
  | cons hitem _ ih =>
      cases hparts with
      | @cons _ part _ parts hpart hparts =>
          rcases ih hparts with ⟨parts', hparts', hcode, hmacros⟩
          cases hitem with
          | hostText span text =>
              exact ⟨part :: parts', .cons hpart hparts', congrArg (part.2 ++ ·) hcode,
                hmacros.append_left part.1⟩
          | block hblock =>
              rcases (Block.lowered_of_lower hpart).rearranged hblock with
                ⟨ms, hlowered, hperm⟩
              exact ⟨(ms, part.2) :: parts', .cons (Block.lower_of_lowered hlowered) hparts',
                congrArg (part.2 ++ ·) hcode, hperm.append hmacros⟩

theorem lower_rearranged (h : d.lower = .ok p) (hindex : (d.blocks.map Block.index).Nodup)
    (hd : d.Rearranged d') : ∃ p', d'.lower = .ok p' ∧ p.Same p' := by
  rcases parts_of_lower h with ⟨parts, hparts, hinstructions, hmacros⟩
  rcases parts_rearranged hd.items hparts with ⟨parts', hparts', hcode, hperm⟩
  have hkeys := nodup_keys hparts d.span hindex
  have hkeys' := (hperm.map Macro.key).nodup_iff.mpr hkeys
  refine ⟨_, lower_of_parts hparts', hcode.trans hinstructions.symm, ?_, ?_⟩
  · rw [hmacros, MacroTable.size_ofList hkeys, MacroTable.size_ofList hkeys', hperm.length_eq]
  · rw [hmacros]
    exact MacroTable.get?_ofList_of_perm hkeys hperm

theorem index_rearranged (hd : d.Rearranged d') :
    d'.blocks.map Block.index = d.blocks.map Block.index := by
  have hitems := hd.items
  unfold blocks
  generalize d.items = items at hitems
  generalize d'.items = items' at hitems
  induction hitems with
  | nil => rfl
  | cons hitem _ ih =>
      cases hitem with
      | hostText span text => exact ih
      | block hblock => exact congrArg₂ List.cons hblock.index ih

theorem lowers_iff_of_rearranged (hindex : (d.blocks.map Block.index).Nodup)
    (hd : d.Rearranged d') : (∃ p, d.lower = .ok p) ↔ ∃ p, d'.lower = .ok p := by
  constructor
  · intro h
    rcases h with ⟨p, hp⟩
    rcases lower_rearranged hp hindex hd with ⟨p', hp', _⟩
    exact ⟨p', hp'⟩
  · intro h
    rcases h with ⟨p', hp'⟩
    rw [← index_rearranged hd] at hindex
    rcases lower_rearranged hp' hindex hd.symm with ⟨p, hp, _⟩
    exact ⟨p, hp⟩

end Document

/-! ## Macros that are renamed -/

section Definitions

def Statement.rename (f : String → String) : Statement → Statement
  | .definition span name pattern body => .definition span (f name) pattern body
  | .expression (.pipe source target) => .expression (.pipe source ⟨target.span, f target.name⟩)
  | s => s

variable (ρ : Renaming)

def Block.rename (b : Block) : Block :=
  { b with statements := b.statements.map (Statement.rename (ρ b.index)) }

def Item.rename : Item → Item
  | .hostText span text => .hostText span text
  | .block b => .block (b.rename ρ)

def Document.rename (d : Document) : Document :=
  { d with items := d.items.map (Item.rename ρ) }

/-- The macros that a block defines get different names. -/
def Renaming.Separates (b : Block) : Prop :=
  Set.InjOn (ρ b.index) {name | name ∈ b.definitions.map Prod.fst}

end Definitions

theorem Operand.rename_of_lower {o : Operand} {is : List Instruction} (h : o.lower = .ok is) :
    is.map (Instruction.rename ρ) = is := by
  have hsame : ∀ i ∈ is, i.rename ρ = i := by
    intro i hi
    rcases i with ⟨operation, span⟩
    rcases emits_of_lower h _ hi with ⟨text, heq⟩ | ⟨name, heq⟩
    · cases heq
      rfl
    · cases heq
      rfl
  rw [List.map_congr_left hsame, List.map_id']

namespace Statement

variable {s : Statement} {index : Nat}

theorem lower_rename {is : List Instruction} (h : s.lower index = .ok is) :
    (s.rename (ρ index)).lower index = .ok (is.map (Instruction.rename ρ)) := by
  cases s with
  | comment span text =>
      cases h
      rfl
  | definition span name pattern body =>
      cases h
      rfl
  | expression e =>
      cases e with
      | plain source =>
          cases source with
          | operand o =>
              rw [Operand.rename_of_lower h]
              exact h
          | array span name =>
              cases h
              rfl
      | pipe source target =>
          cases source with
          | array span name =>
              cases h
              rfl
          | operand o =>
              rcases ok_of_bind h with ⟨value, hvalue, hend⟩
              cases hend
              rw [List.map_append, List.map_append, List.map_append, List.map_append,
                Operand.rename_of_lower hvalue]
              exact bind_of_eq_ok hvalue _

theorem toMacro_rename {found : Option Macro} (h : s.toMacro index = .ok found) :
    (s.rename (ρ index)).toMacro index = .ok (found.map (Macro.rename ρ)) := by
  cases s with
  | comment span text =>
      cases h
      rfl
  | expression e =>
      cases h
      cases e with
      | plain source => rfl
      | pipe source target => rfl
  | definition span name pattern body =>
      rcases ok_of_bind h with ⟨patternCode, hpattern, hrest⟩
      rcases ok_of_bind hrest with ⟨bodyCode, hbody, hend⟩
      cases hend
      rw [Option.map_some, Macro.rename, Operand.rename_of_lower hpattern,
        Operand.rename_of_lower hbody]
      exact (bind_of_eq_ok hpattern _).trans (bind_of_eq_ok hbody _)

theorem definition?_rename (f : String → String) (s : Statement) :
    (s.rename f).definition? = s.definition?.map fun d => (f d.1, d.2) := by
  cases s with
  | comment span text => rfl
  | definition span name pattern body => rfl
  | expression e => cases e <;> rfl

theorem call?_rename (f : String → String) (s : Statement) :
    (s.rename f).call? = s.call?.map fun target => ⟨target.span, f target.name⟩ := by
  cases s with
  | comment span text => rfl
  | definition span name pattern body => rfl
  | expression e => cases e <;> rfl

end Statement

namespace Block

variable {b : Block} {ms : List Macro} {is : List Instruction}

theorem definitions_rename (ρ : Renaming) (b : Block) :
    (b.rename ρ).definitions = b.definitions.map fun d => (ρ b.index d.1, d.2) := by
  rw [definitions, definitions, rename, List.filterMap_map, List.map_filterMap]
  exact List.filterMap_congr fun s _ => s.definition?_rename _

theorem calls_rename (ρ : Renaming) (b : Block) :
    (b.rename ρ).calls = b.calls.map fun target => ⟨target.span, ρ b.index target.name⟩ := by
  rw [calls, calls, rename, List.filterMap_map, List.map_filterMap]
  exact List.filterMap_congr fun s _ => s.call?_rename _

/-- A block lowers to the same under other names, as long as these are different. -/
theorem Lowered.rename (h : b.Lowered ms is) (hseparates : ρ.Separates b) :
    (b.rename ρ).Lowered (ms.map (Macro.rename ρ)) (is.map (Instruction.rename ρ)) where
  distinct := by
    have hnames : (b.rename ρ).definitions.map Prod.fst =
        (b.definitions.map Prod.fst).map (ρ b.index) := by
      rw [definitions_rename, List.map_map, List.map_map]
      rfl
    rw [hnames]
    exact h.distinct.map_on fun name hname other hother heq => hseparates hname hother heq
  defined := by
    rw [calls_rename, definitions_rename, List.forall_mem_map]
    intro target htarget
    rcases h.defined target htarget with ⟨span, hspan⟩
    exact ⟨span, List.mem_map.mpr ⟨_, hspan, rfl⟩⟩
  macros := by
    rcases h.macros with ⟨found, hfound, rfl⟩
    refine ⟨found.map (Option.map (Macro.rename ρ)), ?_, ?_⟩
    · rw [Block.rename, List.forall₂_map_left_iff, List.forall₂_map_right_iff]
      exact hfound.imp fun s m hs => Statement.toMacro_rename hs
    · rw [List.map_filterMap, List.filterMap_map]
      rfl
  code := by
    rcases h.code with ⟨parts, hparts, rfl⟩
    refine ⟨parts.map (List.map (Instruction.rename ρ)), ?_, List.map_flatten⟩
    rw [Block.rename, List.forall₂_map_left_iff, List.forall₂_map_right_iff]
    exact hparts.imp fun s part hs => Statement.lower_rename hs

end Block

theorem Item.lower_rename {item : Item} {part : List Macro × List Instruction}
    (h : item.lower = .ok part) (hseparates : ∀ b, item = .block b → ρ.Separates b) :
    (item.rename ρ).lower =
      .ok (part.1.map (Macro.rename ρ), part.2.map (Instruction.rename ρ)) := by
  cases item with
  | block b =>
      exact Block.lower_of_lowered ((Block.lowered_of_lower h).rename (hseparates b rfl))
  | hostText span text =>
      cases h
      rw [rename, lower]
      split
      · rfl
      · rfl

namespace Document

variable {d : Document} {p : Program}

theorem index_rename (ρ : Renaming) (d : Document) :
    (d.rename ρ).blocks.map Block.index = d.blocks.map Block.index := by
  unfold blocks rename
  induction d.items with
  | nil => rfl
  | cons item items ih =>
      cases item with
      | hostText span text => exact ih
      | block b => exact congrArg (b.index :: ·) ih

theorem parts_renamed {items : List Item} {parts : List (List Macro × List Instruction)}
    (hparts : List.Forall₂ (fun item part => item.lower = .ok part) items parts)
    (hseparates : ∀ b, Item.block b ∈ items → ρ.Separates b) :
    ∃ parts', List.Forall₂ (fun item part => item.lower = .ok part)
        (items.map (Item.rename ρ)) parts' ∧
      (parts'.map Prod.snd).flatten =
        (parts.map Prod.snd).flatten.map (Instruction.rename ρ) ∧
      (parts'.map Prod.fst).flatten = (parts.map Prod.fst).flatten.map (Macro.rename ρ) := by
  induction hparts with
  | nil => exact ⟨[], .nil, rfl, rfl⟩
  | @cons item part items parts hitem _ ih =>
      rcases ih fun b hb => hseparates b (List.mem_cons_of_mem _ hb) with
        ⟨parts', hparts', hcode, hmacros⟩
      have hfirst := Item.lower_rename hitem fun b hb =>
        hseparates b (hb ▸ List.mem_cons_self)
      refine ⟨_ :: parts', .cons hfirst hparts', ?_, ?_⟩
      · rw [List.map_cons, List.flatten_cons, hcode, List.map_cons, List.flatten_cons,
          List.map_append]
      · rw [List.map_cons, List.flatten_cons, hmacros, List.map_cons, List.flatten_cons,
          List.map_append]

theorem lower_rename (h : d.lower = .ok p) (hindex : (d.blocks.map Block.index).Nodup)
    (hseparates : ∀ b ∈ d.blocks, ρ.Separates b) :
    ∃ p', (d.rename ρ).lower = .ok p' ∧ p.Renamed ρ p' := by
  rcases parts_of_lower h with ⟨parts, hparts, hinstructions, hmacros⟩
  have hitems : ∀ b, Item.block b ∈ d.items → ρ.Separates b :=
    fun b hb => hseparates b (List.mem_filterMap.mpr ⟨_, hb, rfl⟩)
  rcases parts_renamed hparts hitems with ⟨parts', hparts', hcode, htable⟩
  have hkeys := nodup_keys hparts d.span hindex
  rw [← index_rename ρ d] at hindex
  have hkeys' := nodup_keys hparts' d.span hindex
  refine ⟨_, lower_of_parts hparts', ?_, ?_, ?_⟩
  · rw [hinstructions, hcode]
  · rw [hmacros, MacroTable.size_ofList hkeys, MacroTable.size_ofList hkeys', htable,
      List.length_map]
  · rw [htable] at hkeys' ⊢
    rw [hmacros]
    exact fun block name m => MacroTable.get?_ofList_rename hkeys hkeys'

end Document

/-! ## Runs -/

namespace Program

variable {σ : Type} {c : Setting σ} {p p' : Program}

theorem run_same (hsame : p.Same p') (hclosed : p.Closed)
    (hstart : c.registry.Overlooks c.machine (.programStart p) (.programStart p')) (world : σ) :
    (p.run c world).Same (p'.run c world) := by
  have hlisteners : ∀ call : MacroCall,
      c.registry.Overlooks c.machine (.macroCall call) (.macroCall (call.rename .none)) :=
    fun call => c.registry.overlooks_self c.machine (.macroCall call)
  exact (run_renamed hsame.renamed hclosed hstart hlisteners world).same

end Program

namespace Document

/-- Where the definitions of a block stand makes no difference to what a document is lowered
to, and none to a run unless a listener looks at the table.  Nor does it make a difference
what the macros of a block are called, or of several blocks at once, as long as no two of one
block get the same name, and unless a listener looks at names. -/
theorem macros_placed_and_named_freely {tokens : List Token} {d : Document}
    (hdocument : ofTokens tokens = .ok d) :
    (∀ d', d.Rearranged d' →
      ((∃ p, d.lower = .ok p) ↔ ∃ p', d'.lower = .ok p') ∧
      ∀ p, d.lower = .ok p → ∃ p', d'.lower = .ok p' ∧ p.Same p' ∧
        ∀ (σ : Type) (c : Setting σ) (world : σ),
          c.registry.Overlooks c.machine (.programStart p) (.programStart p') →
          (p.run c world).Same (p'.run c world)) ∧
    ∀ ρ : Renaming, (∀ b ∈ d.blocks, ρ.Separates b) →
      ∀ p, d.lower = .ok p → ∃ p', (d.rename ρ).lower = .ok p' ∧ p.Renamed ρ p' ∧
        ∀ (σ : Type) (c : Setting σ) (world : σ),
          c.registry.Overlooks c.machine (.programStart p) (.programStart p') →
          (∀ call : MacroCall,
            c.registry.Overlooks c.machine (.macroCall call) (.macroCall (call.rename ρ))) →
          (p.run c world).Renamed ρ (p'.run c world) := by
  have hindex := nodup_index_of_ofTokens hdocument
  constructor
  · intro d' hd
    refine ⟨lowers_iff_of_rearranged hindex hd, ?_⟩
    intro p hlower
    rcases lower_rearranged hlower hindex hd with ⟨p', hlower', hsame⟩
    refine ⟨p', hlower', hsame, ?_⟩
    intro σ c world hstart
    exact Program.run_same hsame (closed_of_lower hlower hindex) hstart world
  · intro ρ hseparates p hlower
    rcases lower_rename hlower hindex hseparates with ⟨p', hlower', hrenamed⟩
    refine ⟨p', hlower', hrenamed, ?_⟩
    intro σ c world hstart hlisteners
    exact Program.run_renamed hrenamed (closed_of_lower hlower hindex) hstart hlisteners world

/-- Definitions are moved before the calls of what they define, and the two macros of the
first block change their names, of which one is also used in the second block. -/
theorem macros_placed_and_named_freely_swapped :
    let c : Setting Unit := ⟨"m", ⟨[], []⟩, Registry.empty, Sink.accepting, false⟩
    let tokens := tokenize
      ("\x7b\x7b \"v\" | ?m; \"w\" | ?n; @m \"a\" | \"$(_)\"; @n \"b\" | \"$(_)\" \x7d\x7d" ++
        "\x7b\x7b \"x\" | ?m; @m \"c\" | \"$(_)\" \x7d\x7d")
    let ρ : Renaming := fun block name => if block = 0 then Equiv.swap "m" "n" name else name
    ∃ d p moved renamed, ofTokens tokens = .ok d ∧ d.lower = .ok p ∧ d.definitionsFirst ≠ d ∧
      d.definitionsFirst.lower = .ok moved ∧ (d.rename ρ).lower = .ok renamed ∧
      (p.run c ()).state.host.written = #["a", "b", "c"] ∧
      (p.run c ()).Same (moved.run c ()) ∧ (p.run c ()).Renamed ρ (renamed.run c ()) := by
  intro c tokens ρ
  have hmoved : (ofTokens tokens).map (fun d => decide (d.definitionsFirst ≠ d)) = .ok true := by
    decide +kernel
  have hwritten : (Program.ofTokens tokens).map (fun p => (p.run c ()).state.host.written) =
      .ok #["a", "b", "c"] := by
    decide +kernel
  have hseparates (b : Block) : ρ.Separates b := by
    apply Function.Injective.injOn
    intro name other heq
    simp only [ρ] at heq
    split at heq
    · exact (Equiv.swap "m" "n").injective heq
    · exact heq
  cases hdocument : ofTokens tokens with
  | error e =>
      rw [hdocument] at hmoved
      cases hmoved
  | ok d =>
      rw [hdocument] at hmoved
      cases hlower : d.lower with
      | error e =>
          simp only [Program.ofTokens, hdocument, hlower] at hwritten
          cases hwritten
      | ok p =>
          simp only [Program.ofTokens, hdocument, hlower] at hwritten
          rcases macros_placed_and_named_freely hdocument with ⟨hplaced, hnamed⟩
          rcases (hplaced _ d.rearranged_definitionsFirst).2 p hlower with
            ⟨moved, hmovedLower, _, hmovedRuns⟩
          rcases hnamed ρ (fun b _ => hseparates b) p hlower with
            ⟨renamed, hrenamedLower, _, hrenamedRuns⟩
          have hstart (p' : Program) :
              c.registry.Overlooks c.machine (.programStart p) (.programStart p') :=
            ⟨rfl, nofun⟩
          have hlisteners (call : MacroCall) :
              c.registry.Overlooks c.machine (.macroCall call) (.macroCall (call.rename ρ)) :=
            ⟨rfl, nofun⟩
          exact ⟨d, p, moved, renamed, rfl, hlower, of_decide_eq_true (Except.ok.inj hmoved),
            hmovedLower, hrenamedLower, Except.ok.inj hwritten,
            hmovedRuns Unit c () (hstart moved),
            hrenamedRuns Unit c () (hstart renamed) hlisteners⟩

end Document

end Stencil
