import PointsTo.Tree.Span

/-! # Type tags

One possible type of a value: a scalar type, a module, a builtin, a function, a class, an abstract
heap object, or a builtin method bound to its receiver. An abstract object is named by the site that
allocates it and by its kind. All of these are linearly ordered, by constructor first and then by
their fields in turn. -/

namespace PointsTo

/-- A comparison that is antisymmetric, tells equal things apart and is transitive where it is strict
is a lawful linear order. -/
theorem transCmp_of_lt {α : Type} {cmp : α → α → Ordering}
    (swap : ∀ a b, cmp a b = (cmp b a).swap) (eq : ∀ a b, cmp a b = .eq → a = b)
    (lt : ∀ a b c, cmp a b = .lt → cmp b c = .lt → cmp a c = .lt) : Std.TransCmp cmp where
  eq_swap {a b} := swap a b
  isLE_trans {a b c} hab hbc := by
    rcases h₁ : cmp a b with _ | _ | _
    · rcases h₂ : cmp b c with _ | _ | _
      · simp [lt a b c h₁ h₂]
      · rw [← eq b c h₂, h₁]; rfl
      · simp [h₂] at hbc
    · rwa [eq a b h₁]
    · simp [h₁] at hab

/-- Where an abstract object is created: a source span in a scope. `context` is the call when sites
are told apart by call, and `part` separates several objects made by one node. -/
structure AllocSite where
  span : Span
  scope : ScopeId
  context : Option NodeId := none
  part : Nat := 0
deriving DecidableEq, Inhabited, Repr

namespace AllocSite

/-- A number for the context, with no context before every call. -/
def contextRank (s : AllocSite) : Nat :=
  match s.context with
  | none => 0
  | some call => call + 1

def cmp (a b : AllocSite) : Ordering :=
  (compare a.span b.span).then <| (compare a.scope b.scope).then <|
    (compare a.contextRank b.contextRank).then (compare a.part b.part)

instance : Ord AllocSite := ⟨cmp⟩

instance : Std.TransOrd AllocSite :=
  inferInstanceAs (Std.TransCmp (compareLex (compareOn span) (compareLex (compareOn scope)
    (compareLex (compareOn contextRank) (compareOn part)))))

instance : Std.LawfulEqOrd AllocSite where
  eq_of_compare {a b} h := by
    have h : cmp a b = .eq := h
    simp only [cmp, Ordering.then_eq_eq, Std.LawfulEqOrd.compare_eq_iff_eq] at h
    obtain ⟨h₁, h₂, h₃, h₄⟩ := h
    obtain ⟨_, _, c, _⟩ := a
    obtain ⟨_, _, d, _⟩ := b
    cases c <;> cases d <;> simp_all [contextRank]

def inContext (s : AllocSite) (call : NodeId) : AllocSite := { s with context := some call }

def base (s : AllocSite) : AllocSite := { s with context := none }

def withPart (s : AllocSite) (part : Nat) : AllocSite := { s with part }

end AllocSite

inductive ObjKind where
  | list | tuple | set | dict
  | inst (cls : ClassId)
  | builtin (name : String)
deriving DecidableEq, Inhabited, Repr

namespace ObjKind

def generator : ObjKind := .builtin "generator"

def isMapping (k : ObjKind) : Bool := k == .dict

def rank : ObjKind → Nat
  | .list => 0
  | .tuple => 1
  | .set => 2
  | .dict => 3
  | .inst _ => 4
  | .builtin _ => 5

def number : ObjKind → Nat
  | .inst c => c
  | _ => 0

def text : ObjKind → String
  | .builtin n => n
  | _ => ""

def cmp (a b : ObjKind) : Ordering :=
  (compare a.rank b.rank).then <| (compare a.number b.number).then (compare a.text b.text)

instance : Ord ObjKind := ⟨cmp⟩

instance : Std.TransOrd ObjKind :=
  inferInstanceAs (Std.TransCmp (compareLex (compareOn rank) (compareLex (compareOn number)
    (compareOn text))))

instance : Std.LawfulEqOrd ObjKind where
  eq_of_compare {a b} h := by
    have h : cmp a b = .eq := h
    simp only [cmp, Ordering.then_eq_eq, Std.LawfulEqOrd.compare_eq_iff_eq] at h
    obtain ⟨h₁, h₂, h₃⟩ := h
    cases a <;> cases b <;> simp_all [rank, number, text]

end ObjKind

structure HeapRef where
  site : AllocSite
  kind : ObjKind
deriving DecidableEq, Inhabited, Repr

namespace HeapRef

def cmp (a b : HeapRef) : Ordering := (compare a.site b.site).then (compare a.kind b.kind)

instance : Ord HeapRef := ⟨cmp⟩

instance : Std.TransOrd HeapRef :=
  inferInstanceAs (Std.TransCmp (compareLex (compareOn site) (compareOn kind)))

instance : Std.LawfulEqOrd HeapRef where
  eq_of_compare {a b} h := by
    have h : cmp a b = .eq := h
    simp only [cmp, Ordering.then_eq_eq, Std.LawfulEqOrd.compare_eq_iff_eq] at h
    cases a; cases b; simp_all

end HeapRef

/-- Types without contents. `unbound` marks a variable that may not have been assigned yet. -/
inductive Scalar where
  | int | float | complex | bool | str | bytes | none | ellipsis | unbound
deriving DecidableEq, Inhabited, Repr

namespace Scalar

def rank : Scalar → Nat
  | .int => 0
  | .float => 1
  | .complex => 2
  | .bool => 3
  | .str => 4
  | .bytes => 5
  | .none => 6
  | .ellipsis => 7
  | .unbound => 8

def name : Scalar → String
  | .int => "Int"
  | .float => "Float"
  | .complex => "Complex"
  | .bool => "Bool"
  | .str => "Str"
  | .bytes => "Bytes"
  | .none => "None"
  | .ellipsis => "Ellipsis"
  | .unbound => "Unbound"

theorem rank_lt (s : Scalar) : s.rank < 9 := by cases s <;> decide

theorem rank_injective {s t : Scalar} (h : s.rank = t.rank) : s = t := by
  cases s <;> cases t <;> simp_all [rank]

end Scalar

inductive TypeTag where
  | scalar (s : Scalar)
  | module (name : String)
  | builtin (name : String)
  | function (node : NodeId)
  | cls (id : ClassId)
  | object (ref : HeapRef)
  | method (receiver : TypeTag) (name : String)
deriving DecidableEq, Inhabited, Repr

namespace TypeTag

@[match_pattern] abbrev int : TypeTag := .scalar .int
@[match_pattern] abbrev float : TypeTag := .scalar .float
@[match_pattern] abbrev complex : TypeTag := .scalar .complex
@[match_pattern] abbrev bool : TypeTag := .scalar .bool
@[match_pattern] abbrev str : TypeTag := .scalar .str
@[match_pattern] abbrev bytes : TypeTag := .scalar .bytes
@[match_pattern] abbrev none : TypeTag := .scalar .none
@[match_pattern] abbrev ellipsis : TypeTag := .scalar .ellipsis
@[match_pattern] abbrev unbound : TypeTag := .scalar .unbound

def object? : TypeTag → Option HeapRef
  | .object ref => some ref
  | _ => .none

def isMethod : TypeTag → Bool
  | .method _ _ => true
  | _ => false

def instanceOf? : TypeTag → Option ClassId
  | .object ⟨_, .inst c⟩ => some c
  | _ => .none

def rank : TypeTag → Nat
  | .scalar s => s.rank
  | .module _ => 9
  | .builtin _ => 10
  | .function _ => 11
  | .cls _ => 12
  | .object _ => 13
  | .method _ _ => 14

def number : TypeTag → Nat
  | .function n => n
  | .cls c => c
  | _ => 0

def text : TypeTag → String
  | .module n => n
  | .builtin n => n
  | _ => ""

def ref : TypeTag → HeapRef
  | .object r => r
  | _ => ⟨⟨Span.zero, 0, .none, 0⟩, .list⟩

def flatCmp (a b : TypeTag) : Ordering :=
  (compare a.rank b.rank).then <| (compare a.number b.number).then <|
    (compare a.text b.text).then (compare a.ref b.ref)

instance : Std.TransCmp flatCmp :=
  inferInstanceAs (Std.TransCmp (compareLex (compareOn rank) (compareLex (compareOn number)
    (compareLex (compareOn text) (compareOn ref)))))

/-- Methods come last and compare by receiver and then by name. -/
def cmp : TypeTag → TypeTag → Ordering
  | .method r n, .method s m => (cmp r s).then (compare n m)
  | a, b => flatCmp a b

instance : Ord TypeTag := ⟨cmp⟩

theorem cmp_eq_flatCmp {a b : TypeTag} (h : a.isMethod = false ∨ b.isMethod = false) : cmp a b = flatCmp a b := by
  cases a <;> cases b <;> first | rfl | simp [isMethod] at h

theorem flatCmp_swap (a b : TypeTag) : flatCmp a b = (flatCmp b a).swap :=
  Std.OrientedCmp.eq_swap

private theorem rank_of_not_method {a : TypeTag} (h : a.isMethod = false) : a.rank < 14 := by
  cases a with
  | scalar s => have := s.rank_lt; simp only [rank]; omega
  | method => simp [isMethod] at h
  | _ => simp [rank]

private theorem flatCmp_lt_of_rank {a b : TypeTag} (h : a.rank < b.rank) : flatCmp a b = .lt := by
  simp [flatCmp, Nat.compare_eq_lt.2 h]

private theorem method_of_lt {a b : TypeTag} (ha : a.isMethod = true) (h : cmp a b = .lt) : b.isMethod = true := by
  rcases hb : b.isMethod with _ | _
  · have hr := rank_of_not_method hb
    have ha' : a.rank = 14 := by cases a <;> simp_all [isMethod, rank]
    have hba : flatCmp b a = .lt := flatCmp_lt_of_rank (by omega)
    rw [cmp_eq_flatCmp (.inr hb), flatCmp_swap, hba] at h
    cases h
  · rfl

theorem cmp_swap (a b : TypeTag) : cmp a b = (cmp b a).swap := by
  induction a generalizing b with
  | method r n ih =>
    cases b with
    | method s m =>
      simp only [cmp, Ordering.swap_then]
      rw [← ih s, Std.OrientedOrd.eq_swap (a := m) (b := n), Ordering.swap_swap]
    | _ => exact flatCmp_swap _ _
  | _ => cases b <;> exact flatCmp_swap _ _

theorem eq_of_cmp (a b : TypeTag) (h : cmp a b = .eq) : a = b := by
  induction a generalizing b with
  | method r n ih =>
    cases b with
    | method s m =>
      simp only [cmp, Ordering.then_eq_eq, Std.LawfulEqOrd.compare_eq_iff_eq] at h
      rw [ih s h.1, h.2]
    | scalar s =>
      have := s.rank_lt
      simp only [cmp, flatCmp, Ordering.then_eq_eq, Std.LawfulEqOrd.compare_eq_iff_eq, rank] at h
      omega
    | _ => simp [cmp, flatCmp, Ordering.then_eq_eq, rank] at h
  | scalar s =>
    have hs := s.rank_lt
    cases b with
    | scalar t =>
      simp only [cmp, flatCmp, Ordering.then_eq_eq, Std.LawfulEqOrd.compare_eq_iff_eq, rank] at h
      rw [Scalar.rank_injective h.1]
    | _ =>
      simp only [cmp, flatCmp, Ordering.then_eq_eq, Std.LawfulEqOrd.compare_eq_iff_eq, rank] at h
      omega
  | _ =>
    cases b with
    | scalar t =>
      have := t.rank_lt
      simp only [cmp, flatCmp, Ordering.then_eq_eq, Std.LawfulEqOrd.compare_eq_iff_eq, rank] at h
      omega
    | _ => simp_all [cmp, flatCmp, Ordering.then_eq_eq, rank, number, text, ref]

theorem cmp_lt_trans (a b c : TypeTag) (hab : cmp a b = .lt) (hbc : cmp b c = .lt) : cmp a c = .lt := by
  induction a generalizing b c with
  | method r n ih =>
    have hb := method_of_lt rfl hab
    have hc := method_of_lt hb hbc
    cases b with
    | method s m =>
      cases c with
      | method t k =>
        simp only [cmp, Ordering.then_eq_lt] at hab hbc ⊢
        rcases hab with h₁ | ⟨e₁, h₁⟩ <;> rcases hbc with h₂ | ⟨e₂, h₂⟩
        · exact .inl (ih s t h₁ h₂)
        · exact .inl (eq_of_cmp _ _ e₂ ▸ h₁)
        · exact .inl (eq_of_cmp _ _ e₁ ▸ h₂)
        · exact .inr ⟨by rw [eq_of_cmp _ _ e₁, e₂], Std.TransCmp.lt_trans h₁ h₂⟩
      | _ => simp [isMethod] at hc
    | _ => simp [isMethod] at hb
  | _ =>
    rcases hc : (isMethod c) with _ | _
    · have hb : b.isMethod = false := by
        rcases hb : b.isMethod with _ | _
        · rfl
        · rw [method_of_lt hb hbc] at hc; cases hc
      rw [cmp_eq_flatCmp (.inl rfl)] at hab ⊢
      rw [cmp_eq_flatCmp (.inl hb)] at hbc
      exact Std.TransCmp.lt_trans hab hbc
    · have hr : c.rank = 14 := by cases c <;> simp_all [isMethod, rank]
      rw [cmp_eq_flatCmp (.inl rfl)]
      exact flatCmp_lt_of_rank (by rw [hr]; exact rank_of_not_method rfl)

instance : Std.TransOrd TypeTag := transCmp_of_lt cmp_swap eq_of_cmp cmp_lt_trans

instance : Std.LawfulEqOrd TypeTag where
  eq_of_compare {a b} h := eq_of_cmp a b h
  compare_self {a} := by
    have h := cmp_swap a a
    show cmp a a = .eq
    rcases h' : cmp a a with _ | _ | _ <;> simp_all

end TypeTag
end PointsTo
