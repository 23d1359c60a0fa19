import Mathlib.Data.Finite.Prod
import Mathlib.Data.Set.Finite.Lattice
import PointsTo.Proofs.Value.Accumulate

/-! # Vocabularies

Tags and locations are put together from numbers, words and spans. A site may carry one call as its context and
no more, and a method may be bound to anything but a method, so finitely many numbers, words and spans spell
finitely many tags and locations. A state is spelt in a vocabulary if all its locations and tags are. -/

namespace PointsTo

/-- The numbers, words and spans that tags and locations are put together from. -/
structure Vocabulary where
  numbers : Set Nat
  words : Set String
  spans : Set Span

structure Vocabulary.IsFinite (V : Vocabulary) : Prop where
  numbers : V.numbers.Finite
  words : V.words.Finite
  spans : V.spans.Finite

section Spelling

variable (V : Vocabulary)

/-- A site of the vocabulary, seen from no call or from one. -/
structure AllocSite.Spelt (s : AllocSite) : Prop where
  span : s.span ∈ V.spans
  scope : s.scope ∈ V.numbers
  context : ∀ call, s.context = some call → call ∈ V.numbers
  part : s.part ≤ 255

def ObjKind.Spelt : ObjKind → Prop
  | .inst c => c ∈ V.numbers
  | .builtin n => n ∈ V.words
  | .list | .tuple | .set | .dict => True

structure HeapRef.Spelt (r : HeapRef) : Prop where
  site : r.site.Spelt V
  kind : r.kind.Spelt V

/-- A tag of the vocabulary. What a method is bound to is no method. -/
def TypeTag.Spelt : TypeTag → Prop
  | .scalar _ => True
  | .module n | .builtin n => n ∈ V.words
  | .function d => d ∈ V.numbers
  | .cls c => c ∈ V.numbers
  | .object r => r.Spelt V
  | .method r n => r.isMethod = false ∧ r.Spelt ∧ n ∈ V.words

def Location.Spelt : Location → Prop
  | .var scope name => scope ∈ V.numbers ∧ name ∈ V.words
  | .temp node | .ret node => node ∈ V.numbers
  | .element s | .key s => s.Spelt V
  | .field s name => s.Spelt V ∧ name ∈ V.words
  | .universal => True

/-- A value that may be anything has no tags to spell. -/
def TypeSet.Spelt : TypeSet → Prop
  | .tags s => ∀ t ∈ s, t.Spelt V
  | .top => True

def AbstractState.Spelt (s : AbstractState) : Prop :=
  ∀ l v, s.get? l = some v → l.Spelt V ∧ v.Spelt V

end Spelling

variable {V : Vocabulary}

/-! ## Finitely many spellings -/

namespace Vocabulary.IsFinite

variable (h : V.IsFinite)
include h

theorem sites : {s : AllocSite | s.Spelt V}.Finite := by
  have hcontexts : (insert none (some '' V.numbers)).Finite := (h.numbers.image some).insert none
  refine Set.Finite.subset ((h.spans.prod (h.numbers.prod (hcontexts.prod (Set.finite_le_nat 255)))).image
    fun x => (⟨x.1, x.2.1, x.2.2.1, x.2.2.2⟩ : AllocSite)) ?_
  rintro ⟨span, scope, context, part⟩ ⟨hspan, hscope, hcontext, hpart⟩
  refine ⟨(span, scope, context, part), ⟨hspan, hscope, ?_, hpart⟩, rfl⟩
  cases context with
  | none => exact .inl rfl
  | some call => exact .inr ⟨call, hcontext call rfl, rfl⟩

theorem kinds : {k : ObjKind | k.Spelt V}.Finite := by
  refine Set.Finite.subset ((Set.toFinite {ObjKind.list, .tuple, .set, .dict}).union
    ((h.numbers.image .inst).union (h.words.image .builtin))) ?_
  rintro k hk
  cases k with
  | inst c => exact .inr (.inl ⟨c, hk, rfl⟩)
  | builtin n => exact .inr (.inr ⟨n, hk, rfl⟩)
  | _ => simp

theorem refs : {r : HeapRef | r.Spelt V}.Finite := by
  refine Set.Finite.subset ((h.sites.prod h.kinds).image fun x => (⟨x.1, x.2⟩ : HeapRef)) ?_
  rintro ⟨site, kind⟩ ⟨hsite, hkind⟩
  exact ⟨(site, kind), ⟨hsite, hkind⟩, rfl⟩

theorem plainTags : {t : TypeTag | t.isMethod = false ∧ t.Spelt V}.Finite := by
  have hscalars : (Set.range TypeTag.scalar).Finite := by
    have : Finite Scalar :=
      .of_injective (fun s => (⟨s.rank, s.rank_lt⟩ : Fin 9)) fun a b hab =>
        Scalar.rank_injective (Fin.mk.inj hab)
    exact Set.finite_range _
  refine Set.Finite.subset (hscalars.union ((h.words.image .module).union ((h.words.image .builtin).union
    ((h.numbers.image .function).union ((h.numbers.image .cls).union (h.refs.image .object)))))) ?_
  rintro t ⟨hflat, ht⟩
  cases t with
  | scalar s => exact .inl ⟨s, rfl⟩
  | module n => exact .inr (.inl ⟨n, ht, rfl⟩)
  | builtin n => exact .inr (.inr (.inl ⟨n, ht, rfl⟩))
  | function d => exact .inr (.inr (.inr (.inl ⟨d, ht, rfl⟩)))
  | cls c => exact .inr (.inr (.inr (.inr (.inl ⟨c, ht, rfl⟩))))
  | object r => exact .inr (.inr (.inr (.inr (.inr ⟨r, ht, rfl⟩))))
  | method r n => cases hflat

theorem tags : {t : TypeTag | t.Spelt V}.Finite := by
  refine Set.Finite.subset (h.plainTags.union ((h.plainTags.prod h.words).image
    fun x => TypeTag.method x.1 x.2)) ?_
  rintro t ht
  cases t with
  | method r n => exact .inr ⟨(r, n), ⟨⟨ht.1, ht.2.1⟩, ht.2.2⟩, rfl⟩
  | _ => exact .inl ⟨rfl, ht⟩

theorem locations : {l : Location | l.Spelt V}.Finite := by
  refine Set.Finite.subset (((h.numbers.prod h.words).image fun x => Location.var x.1 x.2).union
    ((h.numbers.image .temp).union ((h.numbers.image .ret).union ((h.sites.image .element).union
      ((h.sites.image .key).union (((h.sites.prod h.words).image fun x => Location.field x.1 x.2).union
        (Set.finite_singleton .universal))))))) ?_
  rintro l hl
  cases l with
  | var scope name => exact .inl ⟨(scope, name), hl, rfl⟩
  | temp node => exact .inr (.inl ⟨node, hl, rfl⟩)
  | ret node => exact .inr (.inr (.inl ⟨node, hl, rfl⟩))
  | element s => exact .inr (.inr (.inr (.inl ⟨s, hl, rfl⟩)))
  | key s => exact .inr (.inr (.inr (.inr (.inl ⟨s, hl, rfl⟩))))
  | field s name => exact .inr (.inr (.inr (.inr (.inr (.inl ⟨(s, name), hl, rfl⟩)))))
  | universal => exact .inr (.inr (.inr (.inr (.inr (.inr rfl)))))

end Vocabulary.IsFinite

end PointsTo
