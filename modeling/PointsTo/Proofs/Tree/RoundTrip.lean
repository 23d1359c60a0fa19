import Mathlib.Data.List.Induction
import PointsTo.Proofs.Tree.Arena
import PointsTo.Tree.Build

/-! # Raw trees read back as written

The attributes of a node stand beside its fields in one object, where empty children and a missing span have no entry. A
raw tree is read back exactly if no attribute in it goes by the name of a field and its spans are made of words. -/

namespace PointsTo

open Std (ExtTreeMap)
open Option (bind_eq_bind bind_eq_some_iff)
open Json (valuesOf)

namespace Json

variable {fields rest : List (String × Json)} {key : String}

theorem valuesOf_append : valuesOf (fields ++ rest) key = valuesOf fields key ++ valuesOf rest key := by
  simp [valuesOf]

theorem get?_obj : (obj fields).get? key = (valuesOf fields key).getLast? := by
  simp [get?, valuesOf]

theorem valuesOf_toList (m : ExtTreeMap String Json) : valuesOf m.toList key = m[key]?.toList := by
  have hmem : ∀ e, e ∈ m.toList.filter (·.1 == key) ↔ m[key]? = some e.2 ∧ e.1 = key := by
    rintro ⟨k, j⟩
    rw [List.mem_filter, ExtTreeMap.mem_toList_iff_getElem?_eq_some]
    grind
  have hnodup : (m.toList.filter (·.1 == key)).Nodup := by
    refine List.Pairwise.filter _ (ExtTreeMap.distinct_keys_toList.imp ?_)
    rintro e _ hne rfl
    exact hne Std.ReflCmp.compare_self
  unfold valuesOf
  cases hj : m[key]? with
  | none =>
    have hnil : m.toList.filter (·.1 == key) = [] :=
      List.eq_nil_iff_forall_not_mem.2 fun e he => by simpa [hj] using (hmem e).1 he
    rw [hnil]
    rfl
  | some j =>
    have hone : (m.toList.filter (·.1 == key)).Perm [(key, j)] :=
      (List.perm_ext_iff_of_nodup hnodup (by simp)).2 fun e => by rw [hmem, hj]; grind
    rw [List.perm_singleton.1 hone]
    rfl

theorem word32?_ofNat {n : Nat} (h : n < 0x100000000) : (ofNat n).word32? = some n :=
  if_pos h

theorem lt_of_word32? {j : Json} {n : Nat} (h : j.word32? = some n) : n < 0x100000000 := by
  unfold word32? natBelow? at h
  split at h <;> grind

end Json

namespace Span

@[mk_iff] structure InWords (s : Span) : Prop where
  line : s.line < 0x100000000
  column : s.column < 0x100000000
  endLine : s.endLine < 0x100000000
  endColumn : s.endColumn < 0x100000000

instance (s : Span) : Decidable s.InWords := decidable_of_iff' _ (inWords_iff s)

theorem ofJson?_toJson {s : Span} (h : s.InWords) : ofJson? s.toJson = some s := by
  simp [toJson, ofJson?, Json.atMostOne?, valuesOf, Json.word32?_ofNat, h.line, h.column, h.endLine, h.endColumn]

theorem inWords_of_ofJson? {j : Json} {s : Span} (h : ofJson? j = some s) : s.InWords := by
  cases j with
  | arr items =>
    rw [ofJson?] at h
    unfold ofCoordinates? at h
    split at h
    case h_4 => cases h
    all_goals
      simp only [bind_eq_bind, bind_eq_some_iff] at h
      grind [InWords, Json.lt_of_word32?]
  | obj fields =>
    simp only [ofJson?, bind_eq_bind, bind_eq_some_iff] at h
    grind [InWords, Json.lt_of_word32?]
  | _ => cases h

end Span

namespace RawNode

variable {n : RawNode} {key : String}

theorem getElem?_attrsOf (fields : List (String × Json)) :
    (attrsOf fields)[key]? = if key ∈ fieldNames then none else (Json.obj fields).get? key := by
  rw [Json.get?_obj]
  induction fields using List.reverseRecOn with
  | nil => simp [attrsOf, valuesOf]
  | append_singleton fields e ih =>
    have hstep : attrsOf (fields ++ [e]) =
        if e.1 ∈ fieldNames then attrsOf fields else (attrsOf fields).insert e.1 e.2 := by
      simp [attrsOf]
    rw [hstep, Json.valuesOf_append]
    by_cases hkey : e.1 = key
    · subst hkey
      by_cases hfield : e.1 ∈ fieldNames <;> simp [hfield, ih, valuesOf]
    · have hnil : valuesOf [e] key = [] := by simp [valuesOf, hkey]
      rw [hnil, List.append_nil, ← ih]
      split
      · rfl
      · rw [ExtTreeMap.getElem?_insert, if_neg (by simpa using hkey)]

theorem childrenOf?_eq (fields : List (String × Json)) :
    childrenOf? fields = match valuesOf fields "children" with
      | [] => some []
      | .arr items :: _ => ofItems? items
      | _ => none := by
  induction fields with
  | nil => simp [childrenOf?, valuesOf]
  | cons e rest ih =>
    obtain ⟨k, j⟩ := e
    by_cases hk : k = "children"
    · cases j <;> simp [childrenOf?, valuesOf, hk]
    · unfold childrenOf?
      simpa [valuesOf, hk] using ih

def field? (n : RawNode) (key : String) : Option Json :=
  if key = "kind" then some (.str n.kind)
  else if key = "children" then (if n.children.isEmpty then none else some (.arr (toItems n.children)))
  else if key = "span" then n.span.map Span.toJson
  else none

theorem isSome_field?_iff : (n.field? key).isSome ↔
    key = "kind" ∨ key = "children" ∧ n.children ≠ [] ∨ key = "span" ∧ n.span ≠ none := by
  obtain ⟨kind, children, span, attrs⟩ := n
  cases children <;> cases span <;> grind [field?]

theorem exists_entries (n : RawNode) : ∃ fields, n.toJson = .obj fields ∧
    ∀ key, valuesOf fields key = (n.field? key).toList ++ n.attrs[key]?.toList := by
  obtain ⟨kind, children, span, attrs⟩ := n
  unfold toJson
  refine ⟨_, rfl, fun key => ?_⟩
  rw [Json.valuesOf_append, Json.valuesOf_toList]
  cases children <;> cases span <;> grind [valuesOf, field?]

theorem get?_toJson (n : RawNode) : n.toJson.get? key = n.attrs[key]?.or (n.field? key) := by
  obtain ⟨fields, htoJson, hvalues⟩ := n.exists_entries
  rw [htoJson, Json.get?_obj, hvalues]
  cases n.attrs[key]? <;> cases n.field? key <;> rfl

/-- No attribute of the node goes by the name of a field, and its span is made of words. -/
@[mk_iff] structure Admissible (n : RawNode) : Prop where
  attrs : ∀ key ∈ fieldNames, key ∉ n.attrs
  span : ∀ s ∈ n.span, s.InWords

instance (n : RawNode) : Decidable n.Admissible := decidable_of_iff' _ (admissible_iff n)

theorem admissible_of_ofJson? {j : Json} (h : ofJson? j = some n) : n.Admissible := by
  cases j with
  | obj fields =>
    simp only [ofJson?, spanOf?, bind_eq_bind, bind_eq_some_iff] at h
    obtain ⟨_, _, _, _, _, _, kind, _, children, _, span, ⟨o, _, hspan⟩, h⟩ := h
    cases h
    refine ⟨fun key hkey => ?_, ?_⟩
    · rw [← getElem?_eq_none_iff, getElem?_attrsOf, if_pos hkey]
    · rintro s rfl
      grind [bind_eq_some_iff, Span.inWords_of_ofJson?]
  | _ => simp [ofJson?] at h

/-- The attributes stay out of the way of the fields, so each field is read from its own entry. -/
theorem Admissible.ofJson?_toJson (h : n.Admissible) :
    ofJson? n.toJson = (ofItems? (toItems n.children)).map fun children => { n with children } := by
  obtain ⟨fields, htoJson, hvalues⟩ := n.exists_entries
  -- Under the name of a field there is nothing but the field, and under any other name nothing but an attribute.
  have hattr : ∀ key ∈ fieldNames, n.attrs[key]? = none := fun key hkey =>
    ExtTreeMap.getElem?_eq_none (h.attrs key hkey)
  have hfield : ∀ key ∈ fieldNames, valuesOf fields key = (n.field? key).toList := fun key hkey => by
    rw [hvalues, hattr key hkey, Option.toList_none, List.append_nil]
  have hone : ∀ key ∈ fieldNames, Json.atMostOne? fields key = some (n.field? key) := fun key hkey => by
    rw [Json.atMostOne?, hfield key hkey]
    cases n.field? key <;> rfl
  have hattrs : attrsOf fields = n.attrs := by
    refine ExtTreeMap.ext_getElem? fun key => ?_
    rw [getElem?_attrsOf, ← htoJson, get?_toJson]
    split
    case isTrue hkey => exact (hattr key hkey).symm
    case isFalse hkey =>
      have hfree : n.field? key = none := by grind [fieldNames, field?]
      rw [hfree, Option.or_none]
  have hchildren : childrenOf? fields = ofItems? (toItems n.children) := by
    rw [childrenOf?_eq, hfield _ (by decide)]
    cases hc : n.children <;> simp [field?, hc, toItems, ofItems?]
  have hspan : spanOf? fields = some n.span := by
    rw [spanOf?, hone _ (by decide)]
    cases hs : n.span with
    | none => simp [field?, hs]
    | some s =>
      have hread := Span.ofJson?_toJson (h.span s hs)
      rw [Span.toJson] at hread
      simp [field?, hs, Span.toJson, hread]
  rw [htoJson, ofJson?, hone _ (by decide), hone _ (by decide), hchildren, hspan, hattrs]
  cases ofItems? (toItems n.children) <;> simp [field?, Json.str?]

mutual

theorem ofJson?_toJson_iff : ∀ n : RawNode, ofJson? n.toJson = some n ↔ ∀ m ∈ n.preorder, m.Admissible
  | ⟨kind, children, span, attrs⟩ => by
    rw [preorder, List.forall_mem_cons, ← ofItems?_toItems_iff children]
    refine ⟨fun h => ?_, fun ⟨hn, h⟩ => by rw [hn.ofJson?_toJson, h]; rfl⟩
    -- Reading gives admissible nodes only, so the node that comes back was one already.
    have hn := admissible_of_ofJson? h
    rw [hn.ofJson?_toJson, Option.map_eq_some_iff] at h
    obtain ⟨_, hread, heq⟩ := h
    cases heq
    exact ⟨hn, hread⟩

theorem ofItems?_toItems_iff : ∀ ns : List RawNode,
    ofItems? (toItems ns) = some ns ↔ ∀ m ∈ preorderAll ns, m.Admissible
  | [] => by simp [toItems, ofItems?, preorderAll]
  | n :: rest => by
    rw [preorderAll, List.forall_mem_append, ← ofJson?_toJson_iff n, ← ofItems?_toItems_iff rest, toItems, ofItems?]
    simp [bind_eq_some_iff]

end

/-- A raw tree is read back exactly if all its nodes are admissible. Each node is written with its kind, its attributes,
and the children and the span that it has. -/
theorem written_and_read_back (n : RawNode) : (ofJson? n.toJson = some n ↔ ∀ m ∈ n.preorder, m.Admissible) ∧
      ∀ key, (n.toJson.get? key).isSome ↔
        key ∈ n.attrs ∨ key = "kind" ∨ key = "children" ∧ n.children ≠ [] ∨ key = "span" ∧ n.span ≠ none := by
  refine ⟨ofJson?_toJson_iff n, fun key => ?_⟩
  rw [get?_toJson, Option.isSome_or, Bool.or_eq_true, isSome_field?_iff, ExtTreeMap.mem_iff_isSome_getElem?]

open Build in
/-- A call in a module, with a span and with attributes below it. -/
def spannedCall : RawNode := module [expr ((call (name "f") [int]).atLine 3)]

theorem read_back_spannedCall : ofJson? spannedCall.toJson = some spannedCall :=
  (written_and_read_back spannedCall).1.2 (by decide +kernel)

end RawNode
end PointsTo
