import PointsTo.Value.TypeSet

/-! # Locations

The storage cells that are tracked: variables, values of hoisted expressions, the elements, keys and
attributes of abstract objects, and what functions return. `universal` stands for anything that
cannot be named. -/

namespace PointsTo

inductive Location where
  | var (scope : ScopeId) (name : String)
  | temp (node : NodeId)
  | element (site : AllocSite)
  | key (site : AllocSite)
  | field (site : AllocSite) (name : String)
  | ret (node : NodeId)
  | universal
deriving DecidableEq, Inhabited, Repr

namespace Location

def isHeap : Location → Bool
  | .element _ | .key _ | .field _ _ => true
  | _ => false

def site? : Location → Option AllocSite
  | .element s | .key s | .field s _ => some s
  | _ => none

/-- The same slot of the object at another site. -/
def rebased (l : Location) (site : AllocSite) : Location :=
  match l with
  | .element _ => .element site
  | .key _ => .key site
  | .field _ name => .field site name
  | l => l

/-- What a location holds before it is written: a variable is unbound, anything may be in a place
without a name, and every other location is empty. -/
def initial : Location → TypeSet
  | .var _ _ => .unbound
  | .universal => .top
  | _ => .bottom

def rank : Location → Nat
  | .var _ _ => 0
  | .temp _ => 1
  | .element _ => 2
  | .key _ => 3
  | .field _ _ => 4
  | .ret _ => 5
  | .universal => 6

def number : Location → Nat
  | .var scope _ => scope
  | .temp node => node
  | .ret node => node
  | _ => 0

def site (l : Location) : AllocSite := l.site?.getD ⟨Span.zero, 0, none, 0⟩

def text : Location → String
  | .var _ name => name
  | .field _ name => name
  | _ => ""

def cmp (a b : Location) : Ordering :=
  (compare a.rank b.rank).then <| (compare a.number b.number).then <|
    (compare a.site b.site).then (compare a.text b.text)

instance : Ord Location := ⟨cmp⟩

instance : Std.TransOrd Location :=
  inferInstanceAs (Std.TransCmp (compareLex (compareOn rank) (compareLex (compareOn number)
    (compareLex (compareOn site) (compareOn text)))))

instance : Std.LawfulEqOrd Location where
  eq_of_compare {a b} h := by
    have h : cmp a b = .eq := h
    simp only [cmp, Ordering.then_eq_eq, Std.LawfulEqOrd.compare_eq_iff_eq] at h
    obtain ⟨h₁, h₂, h₃, h₄⟩ := h
    cases a <;> cases b <;> simp_all [rank, number, site, site?, text]

end Location

namespace HeapRef

def elements (r : HeapRef) : Location := .element r.site

def keys (r : HeapRef) : Location := .key r.site

def field (r : HeapRef) (name : String) : Location := .field r.site name

/-- Where iteration over the object reads: keys of a mapping, elements of anything else. -/
def items (r : HeapRef) : Location := if r.kind.isMapping then r.keys else r.elements

end HeapRef
end PointsTo
