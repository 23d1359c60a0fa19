import PointsTo.Evaluation.Machine
import PointsTo.Value.Operator

/-! # Type hints

The text beside a parameter that says what it holds. Containers are modelled one level deep, each as
an object of its own; a container inside a container may be anything, and so may whatever is not
known. -/

namespace PointsTo

inductive Hint where
  | named (name : String)
  | optional (inner : Hint)
  | union (options : List Hint)
  /-- A container that says nothing of its contents. -/
  | bare (kind : ObjKind)
  | container (kind : ObjKind) (keys contents : List Hint)
deriving Inhabited

namespace Hint

def pieces (separator : Char) (depth : Int) (piece : List Char) : List Char → List (List Char)
  | [] => [piece.reverse]
  | c :: cs =>
    if c = '[' ∨ c = '(' then pieces separator (depth + 1) (c :: piece) cs
    else if c = ']' ∨ c = ')' then pieces separator (depth - 1) (c :: piece) cs
    else if c = separator ∧ depth = 0 then piece.reverse :: pieces separator depth [] cs
    else pieces separator depth (c :: piece) cs

/-- The trimmed pieces of text; blank text has none. -/
def split (separator : Char) (cs : List Char) : List (List Char) :=
  match (pieces separator 0 [] cs).map Text.trim with
  | [[]] => []
  | parts => parts

def lastPart (cs : List Char) : String := String.ofList (cs.reverse.takeWhile (· != '.')).reverse

/-- The text before the first opening bracket and what stands in the brackets. -/
def application? (cs : List Char) : Option (List Char × List Char) :=
  match cs.dropWhile (· != '[') with
  | [] => none
  | _ :: inside =>
    some (cs.takeWhile (· != '['), if inside.getLast? = some ']' then inside.dropLast else inside)

def containerNamed? (name : String) : Option ObjKind :=
  if ["list", "List", "Sequence", "MutableSequence", "Iterable", "Iterator", "Collection"].contains name
    then some .list
  else if ["set", "Set", "frozenset", "FrozenSet", "AbstractSet"].contains name then some .set
  else if ["tuple", "Tuple"].contains name then some .tuple
  else if ["dict", "Dict", "Mapping", "MutableMapping"].contains name then some .dict
  else none

/-- A container with the given arguments. An ellipsis stands for more of the same. -/
def ofContainer (read : List Char → Hint) (kind : ObjKind) (args : List (List Char)) : Hint :=
  let contents (args : List (List Char)) := (args.filter (· != ['.', '.', '.'])).map read
  match args with
  | [] => .bare kind
  | first :: rest =>
    if kind.isMapping then .container kind [read first] (contents rest)
    else .container kind [] (contents args)

def ofApplication (read : List Char → Hint) (name : String) (args : List (List Char)) : Hint :=
  if name = "Optional" then .optional ((args.head?.map read).getD (.named "Any"))
  else if name = "Union" then .union (args.map read)
  else match containerNamed? name with
    | some kind => ofContainer read kind args
    | none => .named name

/-- Reads a hint no longer than the given number. -/
def read : Nat → List Char → Hint
  | 0, _ => .named ""
  | n + 1, cs =>
    let cs := Text.strip (fun c => c = '"' ∨ c = '\x27') (Text.trim cs)
    match split '|' cs with
    | a :: b :: rest => .union ((a :: b :: rest).map (read n))
    | _ => match application? cs with
      | some (name, args) => ofApplication (read n) (lastPart (Text.trim name)) (split ',' args)
      | none => ofApplication (read n) (lastPart cs) []

/-- Reads a hint. What is inside brackets or between bars is shorter than the whole. -/
def ofString (text : String) : Hint := read (text.toList.length + 1) text.toList

end Hint

namespace Frame

variable (f : Frame)

/-- What a name in a hint stands for: a scalar type, or the first class of that name. -/
def namedValue (name : String) : TypeSet :=
  match TypeSet.ofScalarName? name with
  | some v => v
  | none => match f.program.classes.toList.find? (·.name == name) with
    | some c => .single (f.inst c.id)
    | none => .top

mutual

def hintInside : Hint → TypeSet
  | .named name => f.namedValue name
  | .optional inner => (hintInside inner).join (.single .none)
  | .union options => hintsInside options
  | .bare _ | .container _ _ _ => .top

def hintsInside : List Hint → TypeSet
  | [] => .bottom
  | h :: rest => (hintInside h).join (hintsInside rest)

end

end Frame

namespace Eval

variable (f : Frame) (span : Span)

/-- The object for the container of a hint. The containers of one unit are told apart by a number that
stops at 255. -/
def hintContainer (part : Nat) (kind : ObjKind) (keys contents : TypeSet) : Eval (TypeSet × Nat) := do
  let r : HeapRef := ⟨{ span, scope := f.unit.scope, part }, kind⟩
  if kind.isMapping then writeSlot f r.keys keys
  writeSlot f r.elements contents
  return (.single (.object r), min 255 (part + 1))

mutual

/-- The value of a hint, and the number of the next container. -/
def hintValue (part : Nat) : Hint → Eval (TypeSet × Nat)
  | .named name => pure (f.namedValue name, part)
  | .optional inner => do
    let (v, part) ← hintValue part inner
    return (v.join (.single .none), part)
  | .union options => hintValues part options
  | .bare kind => hintContainer f span part kind .top .top
  | .container kind keys contents =>
    hintContainer f span part kind (f.hintsInside keys) (f.hintsInside contents)

def hintValues (part : Nat) : List Hint → Eval (TypeSet × Nat)
  | [] => pure (.bottom, part)
  | h :: rest => do
    let (v, part) ← hintValue part h
    let (w, part) ← hintValues part rest
    return (v.join w, part)

end

end Eval
end PointsTo
