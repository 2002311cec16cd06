import Stencil.Program

/-!
# Code with matched iterations

Before instructions are executed, the beginning of each array iteration is
matched with its end.  Code is a list of instructions in which this is done: an
iteration is one element with a body of its own.  All other brackets are left as
the plain actions they are.
-/

namespace Stencil

inductive Code where
  | done
  | step (action : Action) (span : Option Span) (rest : Code)
  | loop (opening : Option Span) (array : String) (body : Code) (closing : Option Span)
      (rest : Code)

/-- An end that no iteration is open at, or an iteration that is never ended. -/
inductive IterationFault where
  | endWithoutBegin (span : Option Span)
  | beginWithoutEnd (span : Option Span)
  deriving DecidableEq

namespace Code

/-- The end of an instruction list, read from the right.

While every beginning seen has found its end, the suffix is code, followed by
ends that wait for their beginning, each with the code after it.  Once some
beginning has found none, only the spans that a fault may name are kept. -/
inductive Suffix where
  | closed (code : Code) (pending : List (Option Span × Code))
  | unclosed (lastOpen : Option Span) (pending : List (Option Span))

namespace Suffix

def prepend (i : Instruction) : Suffix → Suffix
  | closed code pending =>
      match i.operation, pending with
      | .act action, _ => closed (.step action i.span code) pending
      | .endArrayIter, _ => closed .done ((i.span, code) :: pending)
      | .beginArrayIter array, (closing, rest) :: pending =>
          closed (.loop i.span array code closing rest) pending
      | .beginArrayIter _, [] => unclosed i.span []
  | unclosed lastOpen pending =>
      match i.operation with
      | .act _ => unclosed lastOpen pending
      | .endArrayIter => unclosed lastOpen (i.span :: pending)
      | .beginArrayIter _ => unclosed lastOpen pending.tail

/-- An end without a beginning is reported before a beginning without an end. -/
def finish : Suffix → Except IterationFault Code
  | closed code [] => .ok code
  | closed _ ((span, _) :: _) => .error (.endWithoutBegin span)
  | unclosed _ (span :: _) => .error (.endWithoutBegin span)
  | unclosed lastOpen [] => .error (.beginWithoutEnd lastOpen)

end Suffix

def suffix (instructions : List Instruction) : Suffix :=
  instructions.foldr Suffix.prepend (.closed .done [])

def ofInstructions (instructions : List Instruction) : Except IterationFault Code :=
  (suffix instructions).finish

/-- The instructions that code stands for. -/
def toInstructions : Code → List Instruction
  | done => []
  | step action span rest => .of action span :: toInstructions rest
  | loop opening array body closing rest =>
      ⟨.beginArrayIter array, opening⟩ ::
        (toInstructions body ++ ⟨.endArrayIter, closing⟩ :: toInstructions rest)

/-- Code followed by other code. -/
def append : Code → Code → Code
  | done, next => next
  | step action span rest, next => step action span (append rest next)
  | loop opening array body closing rest, next =>
      loop opening array body closing (append rest next)

theorem append_done (code : Code) : code.append done = code := by
  induction code with
  | done => rfl
  | step action span rest ih => rw [append, ih]
  | loop opening array body closing rest _ ih => rw [append, ih]

theorem toInstructions_append (first second : Code) :
    (first.append second).toInstructions = first.toInstructions ++ second.toInstructions := by
  induction first with
  | done => rfl
  | step action span rest ih =>
      rw [append, toInstructions, ih]
      rfl
  | loop opening array body closing rest _ ih =>
      rw [append, toInstructions, ih, toInstructions]
      simp

theorem foldr_toInstructions (code next : Code) (pending : List (Option Span × Code)) :
    code.toInstructions.foldr Suffix.prepend (.closed next pending) =
      .closed (code.append next) pending := by
  induction code generalizing next pending with
  | done => rfl
  | step action span rest ih =>
      rw [toInstructions, List.foldr_cons, ih]
      rfl
  | loop opening array body closing rest ihBody ihRest =>
      rw [toInstructions, List.foldr_cons, List.foldr_append, List.foldr_cons, ihRest]
      change Suffix.prepend _ (List.foldr Suffix.prepend
        (.closed done ((closing, rest.append next) :: pending)) body.toInstructions) = _
      rw [ihBody, append_done]
      rfl

/-- Every code is found again in its instructions. -/
theorem ofInstructions_toInstructions (code : Code) :
    ofInstructions code.toInstructions = .ok code := by
  rw [ofInstructions, suffix, foldr_toInstructions, append_done]
  rfl

namespace Suffix

/-- The instructions that a suffix was read from, while all beginnings in it have
found their ends. -/
def instructions : Code → List (Option Span × Code) → List Instruction
  | code, [] => code.toInstructions
  | code, (closing, rest) :: pending =>
      code.toInstructions ++ ⟨.endArrayIter, closing⟩ :: instructions rest pending

theorem instructions_step (action : Action) (span : Option Span) (code : Code)
    (pending : List (Option Span × Code)) :
    instructions (.step action span code) pending =
      .of action span :: instructions code pending := by
  cases pending with
  | nil => rfl
  | cons p pending => rfl

theorem instructions_loop (opening closing : Option Span) (array : String) (body rest : Code)
    (pending : List (Option Span × Code)) :
    instructions (.loop opening array body closing rest) pending =
      ⟨.beginArrayIter array, opening⟩ :: instructions body ((closing, rest) :: pending) := by
  cases pending with
  | nil => rfl
  | cons p pending => simp [instructions, toInstructions]

end Suffix

theorem instructions_of_suffix {is : List Instruction} {code : Code}
    {pending : List (Option Span × Code)} (h : suffix is = .closed code pending) :
    Suffix.instructions code pending = is := by
  induction is generalizing code pending with
  | nil =>
      cases h
      rfl
  | cons i is ih =>
      rw [suffix, List.foldr_cons, ← suffix] at h
      cases hs : suffix is with
      | unclosed lastOpen pending' =>
          rw [hs] at h
          simp only [Suffix.prepend] at h
          split at h <;> cases h
      | closed code' pending' =>
          rw [hs] at h
          rcases i with ⟨operation, span⟩
          cases operation with
          | act action =>
              cases h
              rw [Suffix.instructions_step, ih hs]
              rfl
          | endArrayIter =>
              cases h
              rw [Suffix.instructions, ih hs]
              rfl
          | beginArrayIter array =>
              cases pending' with
              | nil => cases h
              | cons p pending' =>
                  rcases p with ⟨closing, rest⟩
                  cases h
                  rw [Suffix.instructions_loop, ih hs]

/-- Code stands for exactly the instructions it was read from. -/
theorem toInstructions_of_ofInstructions {is : List Instruction} {code : Code}
    (h : ofInstructions is = .ok code) : code.toInstructions = is := by
  cases hs : suffix is with
  | unclosed lastOpen pending =>
      rw [ofInstructions, hs] at h
      cases pending <;> cases h
  | closed code' pending =>
      rw [ofInstructions, hs] at h
      cases pending with
      | cons p pending => cases h
      | nil =>
          cases h
          exact instructions_of_suffix hs

end Code

end Stencil
