import Stencil.Proofs.ReadingAlike

/-!
# Reading on

A reader that leaves some tokens has seen where to stop, so that it takes the same if
more tokens come after them.  A document that is read goes on to be one when more items
follow: their blocks are numbered after its own.
-/

namespace Stencil
namespace Parse

variable {fin : Span} {tokens left : List Token}

theorem expect_append {kind : TokenKind} {expected : Expected} {token : Token}
    (h : expect fin kind expected tokens = .ok (token, left)) (fin' : Span) (after : List Token) :
    expect fin' kind expected (tokens ++ after) = .ok (token, left ++ after) := by
  rcases of_expect_ok h with ⟨rfl, hkind⟩
  exact expect_of_kind hkind _

theorem operand_append {expected : Expected} {o : Operand}
    (h : operand fin expected tokens = .ok (o, left)) (fin' : Span) (after : List Token) :
    operand fin' expected (tokens ++ after) = .ok (o, left ++ after) := by
  unfold operand at h
  split at h
  · cases h
    rfl
  · cases h
    rfl
  · cases h

theorem source_append {s : Source} (h : source fin tokens = .ok (s, left)) (hleft : left ≠ [])
    (fin' : Span) (after : List Token) :
    source fin' (tokens ++ after) = .ok (s, left ++ after) := by
  unfold source at h
  split at h
  · rcases ok_of_bind h with ⟨⟨colon, afterColon⟩, hcolon, hrest⟩
    rcases ok_of_bind hrest with ⟨⟨closing, rest⟩, hclosing, hend⟩
    cases hend
    have hcolon' := expect_append hcolon fin' after
    have hclosing' := expect_append hclosing fin' after
    rw [List.cons_append, List.cons_append, source]
    exact (bind_of_eq_ok hcolon' _).trans (bind_of_eq_ok hclosing' _)
  · rename_i hbracket
    rcases ok_of_bind h with ⟨⟨o, rest⟩, ho, hend⟩
    cases hend
    have ho' := operand_append ho fin' after
    unfold source
    split
    · rename_i heq
      -- A bracket that follows was there before, as something is left.
      cases tokens with
      | nil => cases ho
      | cons token others =>
          cases others with
          | nil =>
              have hnone : left.length = 0 := Nat.lt_one_iff.mp (operand_shorter ho)
              exact absurd (List.length_eq_zero_iff.mp hnone) hleft
          | cons bracket others =>
              cases heq
              exact (hbracket _ _ _ _ _ rfl).elim
    · exact bind_of_eq_ok ho' _

theorem expression_append {e : Expression} (h : expression fin tokens = .ok (e, left))
    (hleft : left ≠ []) (fin' : Span) (after : List Token) :
    expression fin' (tokens ++ after) = .ok (e, left ++ after) := by
  rcases ok_of_bind h with ⟨⟨s, rest⟩, hs, hrest⟩
  dsimp only at hrest
  split at hrest
  · rcases ok_of_bind hrest with ⟨⟨target, others⟩, htarget, hend⟩
    cases hend
    have hs' := source_append hs (List.cons_ne_nil _ _) fin' after
    exact (bind_of_eq_ok hs' _).trans (bind_of_eq_ok (expect_append htarget fin' after) _)
  · rename_i hpipe
    cases hrest
    refine (bind_of_eq_ok (source_append hs hleft fin' after) _).trans ?_
    dsimp only
    split
    · rename_i heq
      cases left with
      | nil => exact absurd rfl hleft
      | cons token others =>
          cases heq
          exact (hpipe _ _ _ rfl).elim
    · rfl

theorem statement_append {s : Statement} (h : statement fin tokens = .ok (s, left))
    (hleft : left ≠ []) (fin' : Span) (after : List Token) :
    statement fin' (tokens ++ after) = .ok (s, left ++ after) := by
  unfold statement at h
  split at h
  · cases h
    rfl
  · rcases ok_of_bind h with ⟨⟨pattern, rest⟩, hpattern, hrest⟩
    rcases ok_of_bind hrest with ⟨⟨bar, rest⟩, hbar, hrest⟩
    rcases ok_of_bind hrest with ⟨⟨body, rest⟩, hbody, hend⟩
    cases hend
    have hpattern' := operand_append hpattern fin' after
    have hbar' := expect_append hbar fin' after
    have hbody' := operand_append hbody fin' after
    exact (bind_of_eq_ok hpattern' _).trans
      ((bind_of_eq_ok hbar' _).trans (bind_of_eq_ok hbody' _))
  · rename_i hcomment hdefinition
    rcases ok_of_bind h with ⟨⟨e, rest⟩, he, hend⟩
    cases hend
    exact statement_of_expression (expression_append he hleft fin' after)

theorem statements_append {opening closing : Span} {ss : List Statement}
    (h : statements fin opening tokens = .ok (ss, closing, left)) (fin' : Span)
    (after : List Token) :
    statements fin' opening (tokens ++ after) = .ok (ss, closing, left ++ after) := by
  fun_induction statements fin opening tokens generalizing ss with
  | case1 => cases h
  | case2 value span rest ih =>
      rw [List.cons_append, statements]
      exact ih h
  | case3 value span rest =>
      cases h
      rw [List.cons_append, statements]
  | case4 => cases h
  | case5 token tokens hnewline hclose s rest hs hends ih =>
      rcases ok_of_bind h with ⟨⟨more, last, others⟩, hmore, hend⟩
      cases hend
      have hne : rest ≠ [] := by
        rintro rfl
        rw [statements] at hmore
        cases hmore
      have hs' := statement_append hs hne fin' after
      have hends' : endsStatement (rest ++ after) = true := by
        cases rest with
        | nil => exact absurd rfl hne
        | cons next rest => exact hends
      rw [statements_of_statement hs' hends']
      exact bind_of_eq_ok (ih hmore) _
  | case6 => cases h

/-- How many blocks there are among some items. -/
def blockCount : List Item → Nat
  | [] => 0
  | .hostText _ _ :: is => blockCount is
  | .block _ :: is => blockCount is + 1

theorem items_append {index : Nat} {is : List Item} (h : items fin index tokens = .ok is)
    (fin' : Span) (after : List Token) :
    items fin' index (tokens ++ after) =
      (is ++ ·) <$> items fin' (index + blockCount is) after := by
  fun_induction items fin index tokens generalizing is with
  | case1 index =>
      cases h
      exact (id_map _).symm
  | case2 index text span rest ih =>
      rcases ok_of_bind h with ⟨more, hmore, hend⟩
      cases hend
      rw [List.cons_append, items, ih hmore, blockCount]
      cases items fin' (index + blockCount more) after with
      | error r => rfl
      | ok others => rfl
  | case3 index value opening tokens r hss => cases h
  | case4 index value opening tokens ss closing rest hss ih =>
      rcases ok_of_bind h with ⟨more, hmore, hend⟩
      cases hend
      have hss' := statements_append hss fin' after
      rw [List.cons_append, items_of_block, hss']
      change (items fin' (index + 1) (rest ++ after) >>= _) = _
      rw [ih hmore, blockCount, Nat.add_right_comm index 1, Nat.add_assoc index]
      cases items fin' (index + (blockCount more + 1)) after with
      | error r => rfl
      | ok others => rfl
  | case5 => cases h

/-- Blocks are numbered below the one that comes next. -/
theorem index_lt_of_items {index : Nat} {is : List Item} (h : items fin index tokens = .ok is)
    {b : Block} (hb : .block b ∈ is) : index ≤ b.index ∧ b.index < index + blockCount is := by
  fun_induction items fin index tokens generalizing is with
  | case1 index =>
      cases h
      cases hb
  | case2 index text span rest ih =>
      rcases ok_of_bind h with ⟨more, hmore, hend⟩
      cases hend
      rcases List.mem_cons.mp hb with hb | hb
      · cases hb
      · rw [blockCount]
        exact ih hmore hb
  | case3 index value opening tokens r hss => cases h
  | case4 index value opening tokens ss closing rest hss ih =>
      rcases ok_of_bind h with ⟨more, hmore, hend⟩
      cases hend
      rw [blockCount]
      rcases List.mem_cons.mp hb with hb | hb
      · cases hb
        exact ⟨Nat.le_refl index, Nat.lt_add_of_pos_right (Nat.succ_pos _)⟩
      · have hrange := ih hmore hb
        omega
  | case5 => cases h

end Parse

/-! ## The end of a document -/

namespace Grammar

theorem ClosesBlock.ends {word : List TokenKind} (h : ClosesBlock word) :
    word.getLast? = some .blockClose := by
  induction h with
  | close => rfl
  | newline hrest ih =>
      rw [← ih, List.getLast?_cons_of_ne_nil hrest.ne_nil]
  | statement hword hnext hrest ih =>
      rw [← ih, List.getLast?_append_of_ne_nil _ hrest.ne_nil]

/-- Without the host text at its end, a document is one still. -/
theorem IsDocument.of_hostText {word : List TokenKind}
    (h : IsDocument (word ++ [.hostText])) : IsDocument word := by
  generalize hall : word ++ [.hostText] = all at h
  induction h generalizing word with
  | empty => simp at hall
  | @hostText rest hrest ih =>
      cases word with
      | nil => exact .empty
      | cons kind word =>
          cases hall
          exact .hostText (ih rfl)
  | @block inside rest hinside hrest ih =>
      cases word with
      | nil => cases hall
      | cons kind word =>
          rw [List.cons_append] at hall
          rcases List.cons.inj hall with ⟨rfl, htail⟩
          rcases List.eq_nil_or_concat rest with rfl | ⟨rest, last, rfl⟩
          · have hends := hinside.ends
            rw [List.append_nil] at htail
            rw [← htail, List.getLast?_concat] at hends
            cases hends
          · rw [List.concat_eq_append] at htail ih
            rw [← List.append_assoc] at htail
            rcases List.append_inj' htail rfl with ⟨rfl, hlast⟩
            cases hlast
            exact .block hinside (ih rfl)

end Grammar
end Stencil
