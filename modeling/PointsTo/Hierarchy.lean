import PointsTo.Tree.Span

/-! # Class hierarchies

Linear orders of a class and everything it inherits from. The preferred order keeps every class
before its bases and every list of bases in order; a hierarchy that admits none falls back on
depth-first order. -/

namespace PointsTo

abbrev Hierarchy := Array (List ClassId)

namespace Hierarchy

def basesOf (h : Hierarchy) (c : ClassId) : List ClassId := h[c]?.getD []

/-- The first head that stands in no tail. -/
def goodHead? (seqs : List (List ClassId)) : Option ClassId :=
  (seqs.filterMap List.head?).find? fun c => !seqs.any fun s => s.tail.contains c

/-- Removes a class from the front of the sequence it heads. -/
def dropHead (c : ClassId) : List ClassId → List ClassId
  | [] => []
  | d :: rest => if d == c then rest else d :: rest

/-- Merges sequences by taking good heads while any is left; `fuel` bounds the number of heads. -/
def merge : Nat → List (List ClassId) → Option (List ClassId)
  | fuel, seqs =>
    let seqs := seqs.filter (!·.isEmpty)
    if seqs.isEmpty then some []
    else match fuel with
      | 0 => none
      | fuel + 1 => do
        let c ← goodHead? seqs
        some (c :: (← merge fuel (seqs.map (dropHead c))))

def mergeAll (seqs : List (List ClassId)) : Option (List ClassId) :=
  merge seqs.flatten.length seqs

/-- The order of a class below the classes on the path; a class on its own path has none. -/
def linearizeBelow (h : Hierarchy) : Nat → List ClassId → ClassId → Option (List ClassId)
  | 0, _, _ => none
  | fuel + 1, path, c => do
    if path.contains c then none
    else
      let bases := h.basesOf c
      let seqs ← bases.mapM (h.linearizeBelow fuel (c :: path))
      some (c :: (← mergeAll (seqs ++ [bases])))

def linearize? (h : Hierarchy) (c : ClassId) : Option (List ClassId) :=
  h.linearizeBelow (h.size + 1) [] c

/-- Depth-first, left to right, each class once. -/
def depthFirst (h : Hierarchy) : Nat → List ClassId → List ClassId → List ClassId
  | 0, _, order => order
  | _, [], order => order
  | fuel + 1, c :: stack, order =>
    if order.contains c then h.depthFirst fuel stack order
    else h.depthFirst fuel (h.basesOf c ++ stack) (order ++ [c])

/-- The order used where there is no preferred one. -/
def fallback (h : Hierarchy) (c : ClassId) : List ClassId :=
  h.depthFirst (1 + h.toList.flatten.length) [c] []

def resolutionOrder (h : Hierarchy) (c : ClassId) : List ClassId :=
  (h.linearize? c).getD (h.fallback c)

end Hierarchy
end PointsTo
