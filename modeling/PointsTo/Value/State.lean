import PointsTo.Value.Location

/-! # Abstract states

What every location may hold at one point of a program. A location without an entry holds its
initial value, so a join with a state that lacks a variable leaves it possibly unbound. -/

namespace PointsTo

structure AbstractState where
  slots : Std.ExtTreeMap Location TypeSet
deriving DecidableEq

namespace AbstractState

def empty : AbstractState := ⟨∅⟩

instance : Inhabited AbstractState := ⟨empty⟩

def get? (s : AbstractState) (l : Location) : Option TypeSet := s.slots[l]?

def read (s : AbstractState) (l : Location) : TypeSet := (s.get? l).getD l.initial

def set (s : AbstractState) (l : Location) (v : TypeSet) : AbstractState := ⟨s.slots.insert l v⟩

/-- Joins a value into the entry. A location without one counts as empty here, not as unbound. -/
def weakUpdate (s : AbstractState) (l : Location) (v : TypeSet) : AbstractState :=
  ⟨s.slots.insert l (match s.get? l with
    | some old => old.join v
    | none => v)⟩

def weakUpdateGrows (s : AbstractState) (l : Location) (v : TypeSet) : Bool :=
  match s.get? l with
  | some old => old.joinGrows v
  | none => !v.isBottom

/-- Removes `unbound` from an entry; a location without one stays without. -/
def discardUnbound (s : AbstractState) (l : Location) : AbstractState :=
  match s.get? l with
  | some v => s.set l (v.without .unbound)
  | none => s

/-- The join at every location that either state has an entry for. -/
def join (a b : AbstractState) : AbstractState :=
  ⟨(a.slots.map fun l v => v.join (b.read l)) ∪ (b.slots.map fun l v => (a.read l).join v)⟩

/-- Whether joining `b` into `a` adds an entry or a tag. -/
def joinGrows (a b : AbstractState) : Bool :=
  (a.slots.any fun l v => v.joinGrows (b.read l)) || (b.slots.any fun l _ => !a.slots.contains l)

/-- Weak updates by all entries of `b`, for summaries that ignore order. -/
def accumulate (a b : AbstractState) : AbstractState :=
  b.slots.foldl (fun s l v => s.weakUpdate l v) a

/-- Whether one of those updates adds a tag. -/
def accumulateGrows (a b : AbstractState) : Bool := b.slots.any fun l v => a.weakUpdateGrows l v

/-- Pointwise order, with initial values filled in. -/
def le (a b : AbstractState) : Bool :=
  (a.slots.all fun l _ => (a.read l).le (b.read l)) && (b.slots.all fun l _ => (a.read l).le (b.read l))

def toList (s : AbstractState) : List (Location × TypeSet) := s.slots.toList

def ofList (entries : List (Location × TypeSet)) : AbstractState :=
  entries.foldl (fun s (l, v) => s.set l v) empty

def size (s : AbstractState) : Nat := s.slots.size

def isEmpty (s : AbstractState) : Bool := s.slots.isEmpty

def filter (s : AbstractState) (keep : Location → Bool) : AbstractState :=
  ⟨s.slots.filter fun l _ => keep l⟩

end AbstractState
end PointsTo
