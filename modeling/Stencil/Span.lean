/-!
# Positions and spans

A position counts the characters, the line ends and the columns before a point
of the source.  A span is a stretch of the source: its two offsets, and the line
and column at which it begins.  Offsets and columns count code points; lines and
columns begin at one.
-/

namespace Stencil

structure Position where
  offset : Nat
  line : Nat
  column : Nat
  deriving DecidableEq

structure Span where
  start : Nat
  stop : Nat
  line : Nat
  column : Nat
  deriving DecidableEq, Inhabited

namespace Position

def origin : Position := ⟨0, 1, 1⟩

/-- Only a line feed begins a new line. -/
def advance (p : Position) (c : Char) : Position :=
  if c = '\n' then ⟨p.offset + 1, p.line + 1, 1⟩
  else ⟨p.offset + 1, p.line, p.column + 1⟩

def advanceOver (p : Position) (cs : List Char) : Position :=
  cs.foldl advance p

/-- The span from one position up to a later one. -/
def upTo (p q : Position) : Span :=
  ⟨p.offset, q.offset, p.line, p.column⟩

theorem advance_offset (p : Position) (c : Char) :
    (p.advance c).offset = p.offset + 1 := by
  unfold advance
  split <;> rfl

theorem advanceOver_append (p : Position) (cs ds : List Char) :
    p.advanceOver (cs ++ ds) = (p.advanceOver cs).advanceOver ds :=
  List.foldl_append

theorem advanceOver_offset (p : Position) (cs : List Char) :
    (p.advanceOver cs).offset = p.offset + cs.length := by
  induction cs generalizing p with
  | nil => rfl
  | cons c cs ih =>
      rw [advanceOver, List.foldl_cons, ← advanceOver, ih, advance_offset,
        List.length_cons]
      omega

end Position

namespace Span

/-- The span from the beginning of one span to the end of another. -/
def join (first last : Span) : Span :=
  { first with stop := last.stop }

/-- A piece of a span that lies on one line, given by offsets from the start of
the span. -/
def slice (s : Span) (start stop : Nat) : Span :=
  ⟨s.start + start, s.start + stop, s.line, s.column + start⟩

end Span

end Stencil
