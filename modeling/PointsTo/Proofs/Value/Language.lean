import PointsTo.Proofs.Value.Vocabulary

/-! # Languages

A language says which numbers, words, spans and counts of parts may be put into tags and locations, and what methods may
be bound to. A state is in a language if all its locations and tags are; joins and updates by such states and values
keep it so. Every vocabulary is a language, and there is one that has everything. -/

namespace PointsTo

open Option

/-- What tags and locations are put together from. -/
structure Language where
  numbers : Set Nat
  words : Set String
  spans : Set Span
  parts : Set Nat
  receivers : Set TypeTag

section Membership

variable (L : Language)

structure AllocSite.In (s : AllocSite) : Prop where
  span : s.span ∈ L.spans
  scope : s.scope ∈ L.numbers
  context : ∀ call, s.context = some call → call ∈ L.numbers
  part : s.part ∈ L.parts

def ObjKind.In : ObjKind → Prop
  | .inst c => c ∈ L.numbers
  | .builtin n => n ∈ L.words
  | .list | .tuple | .set | .dict => True

structure HeapRef.In (r : HeapRef) : Prop where
  site : r.site.In L
  kind : r.kind.In L

def TypeTag.In : TypeTag → Prop
  | .scalar _ => True
  | .module n | .builtin n => n ∈ L.words
  | .function d => d ∈ L.numbers
  | .cls c => c ∈ L.numbers
  | .object r => r.In L
  | .method r n => r ∈ L.receivers ∧ r.In ∧ n ∈ L.words

def Location.In : Location → Prop
  | .var scope name => scope ∈ L.numbers ∧ name ∈ L.words
  | .temp node | .ret node => node ∈ L.numbers
  | .element s | .key s => s.In L
  | .field s name => s.In L ∧ name ∈ L.words
  | .universal => True

/-- A value that may be anything has no tags to look at. -/
def TypeSet.In : TypeSet → Prop
  | .tags s => ∀ t ∈ s, t.In L
  | .top => True

def AbstractState.In (s : AbstractState) : Prop :=
  ∀ l v, s.get? l = some v → l.In L ∧ v.In L

end Membership

/-! ## Vocabularies as languages -/

section Vocabularies

/-- What a vocabulary spells: parts are counted up to a bound, and no method is bound to a method. -/
def Vocabulary.language (V : Vocabulary) : Language :=
  ⟨V.numbers, V.words, V.spans, {n | n ≤ 255}, {t | t.isMethod = false}⟩

variable {V : Vocabulary}

theorem AllocSite.in_language_iff {s : AllocSite} : s.In V.language ↔ s.Spelt V :=
  ⟨fun h => ⟨h.span, h.scope, h.context, h.part⟩, fun h => ⟨h.span, h.scope, h.context, h.part⟩⟩

theorem HeapRef.in_language_iff {r : HeapRef} : r.In V.language ↔ r.Spelt V := by
  have hkind : r.kind.In V.language ↔ r.kind.Spelt V := by cases r.kind <;> rfl
  exact ⟨fun h => ⟨AllocSite.in_language_iff.1 h.site, hkind.1 h.kind⟩,
    fun h => ⟨AllocSite.in_language_iff.2 h.site, hkind.2 h.kind⟩⟩

theorem TypeTag.in_language_iff {t : TypeTag} : t.In V.language ↔ t.Spelt V := by
  induction t with
  | object r => exact HeapRef.in_language_iff
  | method r n ih => exact and_congr_right' (and_congr_left' ih)
  | _ => rfl

theorem AbstractState.in_language_iff {s : AbstractState} : s.In V.language ↔ s.Spelt V := by
  have hlocation : ∀ l : Location, l.In V.language ↔ l.Spelt V := fun l => by
    cases l with
    | element | key => exact AllocSite.in_language_iff
    | field => exact and_congr_left' AllocSite.in_language_iff
    | _ => rfl
  have hvalue : ∀ v : TypeSet, v.In V.language ↔ v.Spelt V := fun v => by
    cases v with
    | top => rfl
    | tags members => exact forall₂_congr fun t _ => TypeTag.in_language_iff
  exact forall₃_congr fun l v _ => and_congr (hlocation l) (hvalue v)

end Vocabularies

/-! ## The language of everything -/

section Everything

def Language.all : Language := ⟨.univ, .univ, .univ, .univ, .univ⟩

theorem AllocSite.in_all (s : AllocSite) : s.In .all := ⟨trivial, trivial, fun _ _ => trivial, trivial⟩

theorem HeapRef.in_all (r : HeapRef) : r.In .all := ⟨r.site.in_all, by cases r.kind <;> trivial⟩

theorem TypeTag.in_all (t : TypeTag) : t.In .all := by
  induction t with
  | object r => exact r.in_all
  | method r n ih => exact ⟨trivial, ih, trivial⟩
  | _ => trivial

theorem Location.in_all (l : Location) : l.In .all := by
  cases l with
  | element s | key s => exact s.in_all
  | field s name => exact ⟨s.in_all, trivial⟩
  | var scope name => exact ⟨trivial, trivial⟩
  | _ => trivial

theorem TypeSet.in_all (v : TypeSet) : v.In .all := by
  cases v with
  | top => trivial
  | tags members => exact fun t _ => t.in_all

theorem AbstractState.in_all (s : AbstractState) : s.In .all := fun l v _ => ⟨l.in_all, v.in_all⟩

end Everything

variable {L : Language}

/-! ## Sites and locations -/

/-- The context of a site is replaced, never extended. -/
theorem AllocSite.In.inContext {s : AllocSite} (h : s.In L) {call : NodeId} (hcall : call ∈ L.numbers) :
    (s.inContext call).In L :=
  ⟨h.span, h.scope, fun _ hsome => some.inj hsome ▸ hcall, h.part⟩

theorem Location.In.site {l : Location} (h : l.In L) {s : AllocSite} (hs : l.site? = some s) : s.In L := by
  cases l with
  | element | key => exact some.inj hs ▸ h
  | field => exact some.inj hs ▸ h.1
  | _ => cases hs

theorem Location.In.rebased {l : Location} (h : l.In L) {s : AllocSite} (hs : s.In L) : (l.rebased s).In L := by
  cases l with
  | element | key => exact hs
  | field => exact ⟨hs, h.2⟩
  | _ => exact h

namespace HeapRef.In

variable {r : HeapRef}

theorem elements (h : r.In L) : r.elements.In L := h.site

theorem keys (h : r.In L) : r.keys.In L := h.site

theorem field (h : r.In L) {name : String} (hname : name ∈ L.words) : (r.field name).In L := ⟨h.site, hname⟩

end HeapRef.In

/-! ## Values -/

namespace TypeSet

variable {v w : TypeSet}

@[simp] theorem in_top : top.In L := trivial

@[simp] theorem in_bottom : bottom.In L := fun t ht => by simp at ht

@[simp] theorem in_ofList {ts : List TypeTag} : (ofList ts).In L ↔ ∀ t ∈ ts, t.In L := by
  simp [ofList, In, Std.ExtTreeSet.mem_ofList]

@[simp] theorem in_single {t : TypeTag} : (single t).In L ↔ t.In L := by simp [single]

theorem in_scalar (s : Scalar) : (single (.scalar s)).In L := in_single.2 trivial

theorem in_object {r : HeapRef} (h : r.In L) : (single (.object r)).In L := in_single.2 h

theorem insert_eq_join (v : TypeSet) (t : TypeTag) : v.insert t = v.join (single t) := by
  cases v with
  | top => rfl
  | tags a =>
    refine congrArg tags (Std.ExtTreeSet.ext_mem fun x => ?_)
    simp [or_comm, eq_comm]

theorem In.join (hv : v.In L) (hw : w.In L) : (v.join w).In L := by
  cases v with
  | top => trivial
  | tags a =>
    cases w with
    | top => trivial
    | tags b => exact fun t ht => (Std.ExtTreeSet.mem_union_iff.1 ht).elim (hv t) (hw t)

theorem in_foldl_join {vs : List TypeSet} (hvs : ∀ v ∈ vs, v.In L) (hv : v.In L) : (vs.foldl TypeSet.join v).In L :=
  List.foldlRecOn vs _ hv fun _ hv w hw => hv.join (hvs w hw)

theorem in_joinAll {vs : List TypeSet} (hvs : ∀ v ∈ vs, v.In L) : (joinAll vs).In L :=
  in_foldl_join hvs in_bottom

theorem In.without (hv : v.In L) (t : TypeTag) : (v.without t).In L := by
  cases v with
  | top => trivial
  | tags a => exact fun u hu => hv u (Std.ExtTreeSet.mem_erase.1 hu).2

theorem In.of_mem_toList (hv : v.In L) {t : TypeTag} (ht : t ∈ v.toList) : t.In L := by
  cases v with
  | top => cases ht
  | tags a => exact hv t (Std.ExtTreeSet.mem_toList.1 ht)

theorem In.of_mem_objects (hv : v.In L) {r : HeapRef} (hr : r ∈ v.objects) : r.In L := by
  obtain ⟨t, ht, hobject⟩ := List.mem_filterMap.1 hr
  cases t with
  | object r' => exact some.inj hobject ▸ hv.of_mem_toList ht
  | _ => cases hobject

theorem In.flatMap (hv : v.In L) {g : TypeTag → TypeSet} (hg : ∀ t, t.In L → (g t).In L) : (v.flatMap g).In L := by
  cases v with
  | top => trivial
  | tags a =>
    change (a.foldl (fun acc t => acc.join (g t)) bottom).In L
    rw [Std.ExtTreeSet.foldl_eq_foldl_toList, ← List.foldl_map]
    refine in_foldl_join (fun w hw => ?_) in_bottom
    obtain ⟨t, ht, rfl⟩ := List.mem_map.1 hw
    exact hg t (hv t (Std.ExtTreeSet.mem_toList.1 ht))

theorem in_initial (l : Location) : l.initial.In L := by
  cases l with
  | var => exact in_scalar _
  | universal => trivial
  | _ => exact in_bottom

theorem in_getD {o : Option TypeSet} (h : ∀ v, o = some v → v.In L) (hw : w.In L) : (o.getD w).In L := by
  cases o with
  | none => exact hw
  | some v => exact h v rfl

end TypeSet

/-! ## States -/

namespace AbstractState

variable {s s' : AbstractState} {l : Location} {v : TypeSet}

theorem in_empty : empty.In L := fun l v h => by simp [empty, get?] at h

namespace In

variable (h : s.In L)
include h

theorem read (l : Location) : (s.read l).In L :=
  TypeSet.in_getD (fun v hv => (h l v hv).2) (TypeSet.in_initial l)

theorem stored (l : Location) : ((s.get? l).getD .bottom).In L :=
  TypeSet.in_getD (fun v hv => (h l v hv).2) TypeSet.in_bottom

theorem set (hl : l.In L) (hv : v.In L) : (s.set l v).In L := by
  intro m w hw
  rw [get?_set] at hw
  split at hw
  next hm => exact ⟨hm ▸ hl, some.inj hw ▸ hv⟩
  next => exact h m w hw

theorem weakUpdate (hl : l.In L) (hv : v.In L) : (s.weakUpdate l v).In L := by
  intro m w hw
  rw [get?_weakUpdate] at hw
  split at hw
  next hm => exact ⟨hm ▸ hl, some.inj hw ▸ (h.stored l).join hv⟩
  next => exact h m w hw

theorem discardUnbound : (s.discardUnbound l).In L := by
  intro m w hw
  rw [get?_discardUnbound] at hw
  split at hw
  next hm =>
    obtain ⟨u, hu, rfl⟩ := Option.map_eq_some_iff.1 hw
    exact ⟨hm ▸ (h l u hu).1, (h l u hu).2.without _⟩
  next => exact h m w hw

theorem join (h' : s'.In L) : (s.join s').In L := by
  intro m w hw
  constructor
  · rcases isSome_get?_join.1 (Option.isSome_of_eq_some hw) with hm | hm
    · obtain ⟨u, hu⟩ := Option.isSome_iff_exists.1 hm
      exact (h m u hu).1
    · obtain ⟨u, hu⟩ := Option.isSome_iff_exists.1 hm
      exact (h' m u hu).1
  · have hread : (s.join s').read m = w := by simp [AbstractState.read, hw]
    exact hread ▸ read_join s s' m ▸ (h.read m).join (h'.read m)

theorem of_mem_toList {e : Location × TypeSet} (he : e ∈ s.toList) : e.1.In L ∧ e.2.In L :=
  h e.1 e.2 (Std.ExtTreeMap.mem_toList_iff_getElem?_eq_some.1 he)

theorem accumulate (h' : s'.In L) : (s.accumulate s').In L := by
  unfold AbstractState.accumulate
  rw [Std.ExtTreeMap.foldl_eq_foldl_toList]
  refine List.foldlRecOn _ _ h fun acc hacc e he => ?_
  obtain ⟨hl, hv⟩ := h'.of_mem_toList he
  exact hacc.weakUpdate hl hv

end In
end AbstractState
end PointsTo
