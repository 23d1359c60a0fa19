import Std.Data.ExtTreeMap
import Std.Data.ExtTreeSet

/-! # Source spans and the numbers that name things

Nodes, scopes, units, classes and blocks are named by their position in the table that lists them.
A span is the source range of a node. Spans are ordered by their four coordinates in turn. -/

namespace PointsTo

/-- Position of a node in the preorder listing of its tree. -/
abbrev NodeId := Nat

abbrev ScopeId := Nat

abbrev UnitId := Nat

abbrev ClassId := Nat

abbrev BlockId := Nat

/-- Source range of a node. Line 0 marks a span that stands in for a missing one. -/
structure Span where
  line : Nat
  column : Nat
  endLine : Nat
  endColumn : Nat
deriving DecidableEq, Inhabited, Repr

namespace Span

/-- The span of a node without a source position, which no other such node has. -/
def synthetic (id : NodeId) : Span := ⟨0, id, 0, id⟩

def zero : Span := ⟨0, 0, 0, 0⟩

def isSynthetic (s : Span) : Bool := s.line == 0

/-- Line and column, or the node's number when the position is made up. -/
def render (s : Span) : String :=
  if s.isSynthetic then s!"<node {s.column}>" else s!"{s.line}:{s.column}"

def cmp (a b : Span) : Ordering :=
  (compare a.line b.line).then <| (compare a.column b.column).then <|
    (compare a.endLine b.endLine).then (compare a.endColumn b.endColumn)

instance : Ord Span := ⟨cmp⟩

instance : Std.TransOrd Span :=
  inferInstanceAs (Std.TransCmp (compareLex (compareOn line) (compareLex (compareOn column)
    (compareLex (compareOn endLine) (compareOn endColumn)))))

instance : Std.LawfulEqOrd Span where
  eq_of_compare {a b} h := by
    have h : cmp a b = .eq := h
    simp only [cmp, Ordering.then_eq_eq, Nat.compare_eq_eq] at h
    obtain ⟨h₁, h₂, h₃, h₄⟩ := h
    cases a; cases b; simp_all

end Span
end PointsTo
