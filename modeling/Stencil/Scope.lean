import Stencil.Entries
import Stencil.Span
import Stencil.Text.Decimal

/-!
# Scopes

Names are bound in frames, and frames lie on a stack.  A name means its binding
in the innermost frame that has one.  Stacks are lists with the innermost frame
first.
-/

namespace Stencil

/-- Bound names with their values, in the order in which they were first bound. -/
abbrev Bindings := List (String × String)

namespace Bindings

/-- The bindings of `outer`, with those of `inner` over them. -/
def override (outer inner : Bindings) : Bindings :=
  inner.foldl (fun bindings (name, value) => Entries.set name value bindings) outer

end Bindings

inductive FrameId where
  | root
  | numbered (n : Nat)
  | custom (text : String)
  deriving DecidableEq

inductive FrameKind where
  | iteration
  | call
  | scope
  | custom (text : String)
  deriving DecidableEq

structure Frame where
  name : String
  kind : FrameKind
  id : FrameId
  span : Option Span
  values : Bindings
  deriving DecidableEq

inductive ScopeFault where
  | underflow
  | bindOutside (name : String)
  deriving DecidableEq

namespace FrameId

def text : FrameId → String
  | root => "f_root"
  | numbered n => "f_" ++ Text.padded 6 n
  | custom text => text

end FrameId

namespace FrameKind

def text : FrameKind → String
  | iteration => "iteration"
  | call => "macro"
  | scope => "scope"
  | custom text => text

end FrameKind

namespace ScopeFault

def message : ScopeFault → String
  | underflow => "scope stack underflow"
  | bindOutside name => "cannot bind '" ++ name ++ "' outside a scope"

end ScopeFault

abbrev ScopeStack := List Frame

namespace ScopeStack

def pop : ScopeStack → Except ScopeFault (Frame × ScopeStack)
  | [] => .error .underflow
  | frame :: outer => .ok (frame, outer)

/-- Binds a name in the innermost frame. -/
def bind (name value : String) : ScopeStack → Except ScopeFault ScopeStack
  | [] => .error (.bindOutside name)
  | frame :: outer =>
      .ok ({ frame with values := Entries.set name value frame.values } :: outer)

def lookup (name : String) : ScopeStack → Option String
  | [] => none
  | frame :: outer =>
      match List.lookup name frame.values with
      | some value => some value
      | none => lookup name outer

theorem lookup_bind {name value : String} {stack result : ScopeStack}
    (h : bind name value stack = .ok result) (other : String) :
    lookup other result = if other = name then some value else lookup other stack := by
  cases stack with
  | nil => cases h
  | cons frame outer =>
      cases h
      simp only [lookup, Entries.lookup_set]
      by_cases hn : other = name
      · simp [hn]
      · simp [hn]

/-- Every name that can be seen, with its value.  A name stands where it first
appears from the outermost frame inwards. -/
def visible : ScopeStack → Bindings
  | [] => []
  | frame :: outer => Bindings.override (visible outer) frame.values

end ScopeStack

end Stencil
