import PointsTo.Text.Hidden
import PointsTo.Value.Tag

/-! # Type sets

An abstract value: a finite set of tags ordered by inclusion, or `top` above all of them. The empty
set is the bottom. Membership in a join is membership in one of its parts. -/

namespace PointsTo

inductive TypeSet where
  | tags (members : Std.ExtTreeSet TypeTag)
  | top
deriving DecidableEq

namespace TypeSet

def bottom : TypeSet := .tags ∅

instance : Inhabited TypeSet := ⟨bottom⟩

def ofList (ts : List TypeTag) : TypeSet := .tags (.ofList ts)

def single (t : TypeTag) : TypeSet := ofList [t]

/-- The value of a variable that was never assigned. -/
def unbound : TypeSet := single .unbound

def isBottom : TypeSet → Bool
  | .tags s => s.isEmpty
  | .top => false

def isTop : TypeSet → Bool
  | .tags _ => false
  | .top => true

def contains (v : TypeSet) (t : TypeTag) : Bool :=
  match v with
  | .tags s => s.contains t
  | .top => true

instance : Membership TypeTag TypeSet := ⟨fun v t => v.contains t = true⟩

/-- The tags in ascending order; `top` lists none. -/
def toList : TypeSet → List TypeTag
  | .tags s => s.toList
  | .top => []

/-- How many tags there are; `top` has no number. -/
def size? : TypeSet → Option Nat
  | .tags s => some s.size
  | .top => none

def objects (v : TypeSet) : List HeapRef := v.toList.filterMap TypeTag.object?

def insert (v : TypeSet) (t : TypeTag) : TypeSet :=
  match v with
  | .tags s => .tags (s.insert t)
  | .top => .top

def insertGrows (v : TypeSet) (t : TypeTag) : Bool := !v.contains t

def join : TypeSet → TypeSet → TypeSet
  | .tags a, .tags b => .tags (a ∪ b)
  | _, _ => .top

def joinGrows (a b : TypeSet) : Bool :=
  match a, b with
  | .top, _ => false
  | .tags _, .top => true
  | .tags a, .tags b => (a ∪ b).size != a.size

/-- Inclusion, with `top` above everything. -/
def le (a b : TypeSet) : Bool :=
  match a, b with
  | _, .top => true
  | .top, .tags _ => false
  | .tags a, .tags b => a.all b.contains

def joinAll (vs : List TypeSet) : TypeSet := vs.foldl join bottom

def flatMap (v : TypeSet) (f : TypeTag → TypeSet) : TypeSet :=
  match v with
  | .tags s => s.foldl (fun acc t => acc.join (f t)) bottom
  | .top => .top

def without (v : TypeSet) (t : TypeTag) : TypeSet :=
  match v with
  | .tags s => .tags (s.erase t)
  | .top => .top

@[simp] theorem mem_top (t : TypeTag) : t ∈ top := rfl

@[simp] theorem mem_tags {s : Std.ExtTreeSet TypeTag} {t : TypeTag} : t ∈ tags s ↔ t ∈ s := Iff.rfl

@[simp] theorem mem_join {a b : TypeSet} {t : TypeTag} : t ∈ a.join b ↔ t ∈ a ∨ t ∈ b := by
  cases a <;> cases b <;> simp [join, Std.ExtTreeSet.mem_union_iff]

def hexDigits (n : Nat) : String := String.ofList (Nat.toDigits 16 n)

/-- A character between quotes. Quotes, backslashes and the characters that do not show are escaped. -/
def escape (c : Char) : String :=
  match c with
  | '"' => "\\\""
  | '\\' => "\\\\"
  | '\n' => "\\n"
  | '\r' => "\\r"
  | '\t' => "\\t"
  | '\x00' => "\\0"
  | c =>
    if Text.isHidden c then
      "\\u\x7b" ++ hexDigits c.toNat ++ "\x7d"
    else c.toString

def quoted (s : String) : String := "\"" ++ String.join (s.toList.map escape) ++ "\""

def braced (name : String) (fields : List (String × String)) : String :=
  name ++ " \x7b " ++ ", ".intercalate (fields.map fun (k, v) => k ++ ": " ++ v) ++ " \x7d"

end TypeSet

def applied (name arg : String) : String := name ++ "(" ++ arg ++ ")"

def Span.inspect (s : Span) : String :=
  TypeSet.braced "Span" [("line", toString s.line), ("column", toString s.column),
    ("end_line", toString s.endLine), ("end_column", toString s.endColumn)]

def AllocSite.inspect (s : AllocSite) : String :=
  TypeSet.braced "AllocSite" [("span", s.span.inspect), ("scope", applied "ScopeId" (toString s.scope)),
    ("context", match s.context with
      | none => "None"
      | some call => applied "Some" (applied "NodeId" (toString call))),
    ("part", toString s.part)]

def ObjKind.inspect : ObjKind → String
  | .list => "List"
  | .tuple => "Tuple"
  | .set => "Set"
  | .dict => "Dict"
  | .inst c => applied "Instance" (applied "ClassId" (toString c))
  | .builtin n => applied "Builtin" (TypeSet.quoted n)

def TypeTag.inspect : TypeTag → String
  | .scalar s => s.name
  | .module n => applied "Module" (TypeSet.quoted n)
  | .builtin n => applied "Builtin" (TypeSet.quoted n)
  | .function n => applied "Function" (applied "NodeId" (toString n))
  | .cls c => applied "Class" (applied "ClassId" (toString c))
  | .object r =>
    applied "Object" (TypeSet.braced "HeapRef" [("site", r.site.inspect), ("kind", r.kind.inspect)])
  | .method r n => TypeSet.braced "Method" [("receiver", r.inspect), ("name", TypeSet.quoted n)]

def TypeSet.inspect : TypeSet → String
  | .top => "⊤"
  | .tags s => "\x7b" ++ ", ".intercalate (s.toList.map TypeTag.inspect) ++ "\x7d"

end PointsTo
