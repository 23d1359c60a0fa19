import PointsTo.Proofs.Evaluation.Limits
import PointsTo.Proofs.Evaluation.Writes
import PointsTo.Proofs.Scope.Visibility

/-! # Copies for a call

A function returns objects that it has made itself, and these may hold others of its own. Where objects are told apart
by call, the caller gets a copy of all that can be reached this way. An object is copied slot by slot, and what a slot
holds is copied before the slot of the copy is filled, down to objects that are copied already or are being copied.
The slots of the copies lie at sites in the context of the call and the originals lie at sites without a context, so
no copy disturbs what is still to be copied. An object may be met again before its copy is complete, but by the end
every object that was met has all its slots filled, whatever cycles there are. -/

namespace PointsTo

open List TypeSet

/-! ## Filling slots -/

namespace AbstractState

variable {s : AbstractState} {ws : List (Location × TypeSet)} {l : Location} {x : Option TypeTag}

/-- Adds values to slots one after the other. Nothing in a slot is unbound. -/
def fill (s : AbstractState) (ws : List (Location × TypeSet)) : AbstractState :=
  ws.foldl (fun s e => s.weakUpdate e.1 (e.2.without .unbound)) s

theorem holds_fill : (s.fill ws).Holds l x ↔ s.Holds l x ∨ ∃ v, (l, v) ∈ ws ∧ (v.without .unbound).Holds x := by
  induction ws generalizing s with
  | nil => simp [fill]
  | cons e ws ih =>
    rw [fill, foldl_cons, ← fill, ih, holds_weakUpdate, or_assoc]
    refine or_congr_right ?_
    constructor
    · rintro (⟨rfl, hx⟩ | ⟨v, hv, hx⟩)
      · exact ⟨e.2, mem_cons_self, hx⟩
      · exact ⟨v, mem_cons_of_mem _ hv, hx⟩
    · rintro ⟨v, hv, hx⟩
      rcases mem_cons.1 hv with rfl | hv
      · exact .inl ⟨rfl, hx⟩
      · exact .inr ⟨v, hv, hx⟩

theorem get?_fill (h : ∀ e ∈ ws, e.1 ≠ l) : (s.fill ws).get? l = s.get? l := by
  induction ws generalizing s with
  | nil => rfl
  | cons e ws ih =>
    rw [fill, foldl_cons, ← fill, ih fun e' he' => h e' (mem_cons_of_mem _ he'), get?_weakUpdate,
      if_neg (h e mem_cons_self)]

theorem fits_fill (s : AbstractState) (ws : List (Location × TypeSet)) : s.Fits (s.fill ws) := by
  induction ws generalizing s with
  | nil => exact .refl s
  | cons e ws ih => exact (fits_weakUpdate s _ _).trans (ih _)

theorem covers_fill {v : TypeSet} (h : (l, v) ∈ ws) : (s.fill ws).Covers l v := by
  induction ws generalizing s with
  | nil => cases h
  | cons e ws ih =>
    rcases mem_cons.1 h with rfl | h
    · have hwritten := covers_weakUpdate s l (v.without .unbound)
      rw [covers_iff] at hwritten
      refine Covers.fits (covers_iff.2 ⟨hwritten.1, fun x hx hv => ?_⟩) (fits_fill _ ws)
      exact hwritten.2 x hx (holds_without_of_ne hv hx)
    · exact ih h

end AbstractState

namespace Eval

variable (f : Frame) {ws : List (Location × TypeSet)}

def writeAll (ws : List (Location × TypeSet)) (m : Machine) : Machine :=
  ws.foldl (fun m e => ((writeSlot f e.1 e.2).run m).2) m

theorem writeAll_append (ws ws' : List (Location × TypeSet)) (m : Machine) :
    writeAll f (ws ++ ws') m = writeAll f ws' (writeAll f ws m) := foldl_append

theorem writeAll_eq_fill (h : ∀ e ∈ ws, e.1.isHeap = true) (m : Machine) :
    (writeAll f ws m).state = m.state.fill ws ∧
      (writeAll f ws m).recorder.map (·.effects) = (m.recorder.map (·.effects)).map (·.fill ws) := by
  induction ws generalizing m with
  | nil => obtain ⟨s, _ | r⟩ := m <;> exact ⟨rfl, rfl⟩
  | cons e ws ih =>
    obtain ⟨l, v⟩ := e
    have hl : l.isHeap = true := h _ mem_cons_self
    have huniversal : l ≠ .universal := by
      rintro rfl
      cases hl
    have hwrite : (Deed.write l v).onState m.state = m.state.weakUpdate l (v.without .unbound) := by
      cases l <;> first | rfl | cases hl
    have hstored : Deed.stored l v = v.without .unbound := by
      cases l <;> first | rfl | cases hl
    obtain ⟨hstate, heffects⟩ := ih (fun e' he' => h e' (mem_cons_of_mem _ he')) ((writeSlot f l v).run m).2
    rw [state_writeSlot f huniversal, hwrite] at hstate
    rw [effects_writeSlot f huniversal, hstored] at heffects
    refine ⟨hstate, heffects.trans ?_⟩
    simp only [Option.map_map]
    rfl

variable {f} {m : Machine} {l : Location}

theorem stores_writeAll (h : ∀ e ∈ ws, e.1.isHeap = true) {v : TypeSet} (hl : (l, v) ∈ ws) :
    (writeAll f ws m).Stores l v := by
  obtain ⟨hstate, heffects⟩ := writeAll_eq_fill f h m
  constructor
  · rw [hstate]
    exact AbstractState.covers_fill hl
  · intro e he
    rw [heffects] at he
    obtain ⟨e₀, -, rfl⟩ := Option.map_eq_some_iff.1 he
    exact AbstractState.covers_fill hl

theorem get?_writeAll (h : ∀ e ∈ ws, e.1.isHeap = true) (hl : ∀ e ∈ ws, e.1 ≠ l) :
    (writeAll f ws m).state.get? l = m.state.get? l ∧
      (writeAll f ws m).recorder.map (·.effects.get? l) = m.recorder.map (·.effects.get? l) := by
  obtain ⟨hstate, heffects⟩ := writeAll_eq_fill f h m
  refine ⟨by rw [hstate, AbstractState.get?_fill hl], ?_⟩
  have hget : ((writeAll f ws m).recorder.map (·.effects)).map (·.get? l) =
      (m.recorder.map (·.effects)).map (·.get? l) := by
    rw [heffects, Option.map_map]
    exact Option.map_congr fun e _ => AbstractState.get?_fill hl
  simpa only [Option.map_map, Function.comp_def] using hget

end Eval

/-! ## What is copied -/

namespace Frame

variable (f : Frame) (s : AbstractState) (call : NodeId) (scope : ScopeId) (v : TypeSet)

/-- A location has an entry that can be read: in the state or among what is published. -/
def Has (l : Location) (stored : TypeSet) : Prop := s.get? l = some stored ∨ f.env.get? l = some stored

def localsAt (site : AllocSite) : List AllocSite := (f.slotsAt s site).flatMap fun e => f.localSites scope e.2

/-- A local object can be reached from a value through slots of local objects. -/
inductive Reaches : HeapRef → Prop where
  | start {r : HeapRef} : r ∈ v.objects → f.isLocal scope r = true → Reaches r
  | slot {r r' : HeapRef} {l : Location} {stored : TypeSet} : Reaches r → l.site? = some r.site → f.Has s l stored →
      r' ∈ stored.objects → f.isLocal scope r' = true → Reaches r'

variable {f s call scope v}

theorem mem_entries {l : Location} {stored : TypeSet} : (l, stored) ∈ f.entries s ↔ f.Has s l stored := by
  rw [entries, mem_append]
  exact or_congr Std.ExtTreeMap.mem_toList_iff_getElem?_eq_some Std.ExtTreeMap.mem_toList_iff_getElem?_eq_some

variable {site : AllocSite}

theorem mem_slotsAt {l : Location} {stored : TypeSet} :
    (l, stored) ∈ f.slotsAt s site ↔ f.Has s l stored ∧ l.site? = some site := by
  rw [slotsAt, mem_filter, mem_entries, beq_iff_eq]

theorem mem_localSites :
    site ∈ f.localSites scope v ↔ ∃ r ∈ v.objects, f.isLocal scope r = true ∧ r.site = site := by
  simp only [localSites, List.mem_map, mem_filter, and_assoc]

def localSitesOf (f : Frame) (scope : ScopeId) (t : TypeTag) : List AllocSite :=
  (t.object?.toList.filter (f.isLocal scope)).map (·.site)

theorem localSites_eq_flatMap : f.localSites scope v = v.toList.flatMap (f.localSitesOf scope) := by
  rw [localSites, objects]
  induction v.toList with
  | nil => rfl
  | cons t ts ih =>
    rw [flatMap_cons, ← ih, localSitesOf]
    cases ht : t.object? with
    | none => rw [filterMap_cons_none ht]; rfl
    | some r =>
      rw [filterMap_cons_some ht, ← map_append, ← filter_append]
      rfl

theorem context_of_isLocal {r : HeapRef} (h : f.isLocal scope r = true) : r.site.context = none := by
  simp only [isLocal, Bool.and_eq_true, Option.isNone_iff_eq_none] at h
  exact h.1.1

/-- Objects are copied if they belong to no call yet, are no instances, and were made in the scope of the callee or
somewhere inside it. -/
theorem isLocal_iff (hscopes : f.program.scopes.Ordered) {r : HeapRef} (hr : r.site.scope < f.program.scopes.size) :
    f.isLocal scope r = true ↔ r.site.context = none ∧ (∀ cls, r.kind ≠ .inst cls) ∧
      Relation.ReflTransGen f.program.scopes.Around r.site.scope scope := by
  have hinstance : (TypeTag.object r).instanceOf? = none ↔ ∀ cls, r.kind ≠ .inst cls := by
    obtain ⟨site, kind⟩ := r
    cases kind <;> simp [TypeTag.instanceOf?]
  rw [Frame.isLocal, Bool.and_eq_true, Bool.and_eq_true, Option.isNone_iff_eq_none, Option.isNone_iff_eq_none,
    hinstance, ScopeTree.isWithin, contains_iff_mem, ScopeTree.mem_ancestry hscopes hr, and_assoc]

theorem reachedFrom_iff :
    ReachedFrom (f.localsAt s scope) (f.localSites scope v) site ↔ ∃ r, f.Reaches s scope v r ∧ r.site = site := by
  constructor
  · rintro ⟨root, hroot, hreach⟩
    induction hreach with
    | refl =>
      obtain ⟨r, hr, hlocal, hsite⟩ := mem_localSites.1 hroot
      exact ⟨r, .start hr hlocal, hsite⟩
    | tail _ hstep ih =>
      obtain ⟨r, hr, rfl⟩ := ih
      obtain ⟨⟨l, stored⟩, hslot, hmem⟩ := mem_flatMap.1 hstep
      obtain ⟨hhas, hl⟩ := mem_slotsAt.1 hslot
      obtain ⟨r', hr', hlocal, hsite⟩ := mem_localSites.1 hmem
      exact ⟨r', .slot hr hl hhas hr' hlocal, hsite⟩
  · rintro ⟨r, hr, rfl⟩
    induction hr with
    | start hr hlocal => exact ⟨_, mem_localSites.2 ⟨_, hr, hlocal, rfl⟩, .refl⟩
    | slot _ hl hhas hr' hlocal ih =>
      obtain ⟨root, hroot, hreach⟩ := ih
      refine ⟨root, hroot, hreach.tail (mem_flatMap.2 ⟨_, mem_slotsAt.2 ⟨hhas, hl⟩, ?_⟩)⟩
      exact mem_localSites.2 ⟨_, hr', hlocal, rfl⟩

theorem holds_cloneSet {x : Option TypeTag} :
    (f.cloneSet call scope v).Holds x ↔ v = .top ∨ ∃ t ∈ v.toList, x = some (f.cloneTag call scope t) := by
  simp only [cloneSet, holds_flatMap, holds_single]

end Frame

/-! ## Copies that stay apart -/

def Location.InContext (call : NodeId) (l : Location) : Prop := ∃ site, l.site? = some site ∧ site.context = some call

theorem Location.inContext_rebased {l : Location} {call : NodeId} (h : l.site?.isSome = true) {site : AllocSite}
    (hsite : site.context = some call) : (l.rebased site).InContext call := by
  cases l <;> first | exact ⟨site, rfl, hsite⟩ | cases h

theorem Location.InContext.isHeap {l : Location} {call : NodeId} (h : l.InContext call) : l.isHeap = true := by
  obtain ⟨site, hsite, -⟩ := h
  cases l <;> first | rfl | cases hsite

/-- The objects that belong to no call are as in a state. -/
def Machine.KeepsOriginals (m : Machine) (s : AbstractState) : Prop :=
  ∀ l site, l.site? = some site → site.context = none → m.state.get? l = s.get? l

theorem Machine.KeepsOriginals.writeAll {f : Frame} {m : Machine} {s : AbstractState} (h : m.KeepsOriginals s)
    {call : NodeId} {ws : List (Location × TypeSet)} (hws : ∀ e ∈ ws, e.1.InContext call) :
    (Eval.writeAll f ws m).KeepsOriginals s := by
  intro l site hl hsite
  refine (Eval.get?_writeAll (fun e he => (hws e he).isHeap) ?_).1.trans (h l site hl hsite)
  rintro e he rfl
  obtain ⟨site', hl', hcontext⟩ := hws e he
  rw [Option.some.inj (hl'.symm.trans hl), hsite] at hcontext
  cases hcontext

theorem Machine.KeepsOriginals.mem_slotsAt {f : Frame} {m : Machine} {s : AbstractState} (h : m.KeepsOriginals s)
    {site : AllocSite} (hsite : site.context = none) {e : Location × TypeSet} :
    e ∈ f.slotsAt m.state site ↔ e ∈ f.slotsAt s site := by
  rw [Frame.mem_slotsAt, Frame.mem_slotsAt]
  refine and_congr_left fun hl => ?_
  rw [Frame.Has, Frame.Has, h _ _ hl hsite]

namespace Frame

variable (f : Frame) (s : AbstractState) (call : NodeId) (scope : ScopeId)

/-- What goes into the slots of the copy of an object. -/
def copiesAt (site : AllocSite) : List (Location × TypeSet) :=
  (f.slotsAt s site).map fun e => (e.1.rebased (site.inContext call), f.cloneSet call scope e.2)

/-- What a copy achieves. It starts with some objects copied already and ends with more. Those it starts from are among
them. Each one that is new can be reached from these, and all that it leads to is copied in the end. The writes
are those for the slots of the new ones, besides some of its own. -/
structure Copied (roots : List AllocSite) (own : List (Location × TypeSet)) (before after : List AllocSite)
    (ws : List (Location × TypeSet)) : Prop where
  kept : before ⊆ after
  nodup : before.Nodup → after.Nodup
  started : roots ⊆ after
  fresh : ∀ site ∈ after, site ∉ before →
    ReachedFrom (f.localsAt s scope) roots site ∧ f.localsAt s scope site ⊆ after
  writes : ∀ e, e ∈ ws ↔ e ∈ own ∨ ∃ site ∈ after, site ∉ before ∧ e ∈ f.copiesAt s call scope site
  apart : ∀ e ∈ ws, e.1.InContext call

variable {f s call scope} {roots roots' before between after : List AllocSite}
  {own own' ws ws' : List (Location × TypeSet)} {v : TypeSet}

namespace Copied

theorem nothing (h : roots ⊆ before) : f.Copied s call scope roots [] before before [] where
  kept := List.Subset.refl _
  nodup := id
  started := h
  fresh _ hsite hnew := absurd hsite hnew
  writes e := by
    simp only [not_mem_nil, false_or, false_iff]
    rintro ⟨site, hsite, hnew, -⟩
    exact hnew hsite
  apart e he := by simp at he

theorem write {e : Location × TypeSet} (he : e.1.InContext call) : f.Copied s call scope [] [e] before before [e] where
  kept := List.Subset.refl _
  nodup := id
  started := nil_subset _
  fresh _ hsite hnew := absurd hsite hnew
  writes e' := by
    refine ⟨.inl, fun he' => he'.resolve_right ?_⟩
    rintro ⟨site, hsite, hnew, -⟩
    exact hnew hsite
  apart e' he' := mem_singleton.1 he' ▸ he

theorem trans (h : f.Copied s call scope roots own before between ws)
    (h' : f.Copied s call scope roots' own' between after ws') :
    f.Copied s call scope (roots ++ roots') (own ++ own') before after (ws ++ ws') where
  kept := List.Subset.trans h.kept h'.kept
  nodup hnodup := h'.nodup (h.nodup hnodup)
  started := append_subset.2 ⟨List.Subset.trans h.started h'.kept, h'.started⟩
  fresh site hsite hnew := by
    by_cases hbetween : site ∈ between
    · obtain ⟨⟨root, hroot, hreach⟩, hlocals⟩ := h.fresh site hbetween hnew
      exact ⟨⟨root, mem_append_left _ hroot, hreach⟩, List.Subset.trans hlocals h'.kept⟩
    · obtain ⟨⟨root, hroot, hreach⟩, hlocals⟩ := h'.fresh site hsite hbetween
      exact ⟨⟨root, mem_append_right _ hroot, hreach⟩, hlocals⟩
  writes e := by
    rw [mem_append, h.writes, h'.writes, mem_append]
    constructor
    · rintro ((he | ⟨site, hsite, hnew, he⟩) | he | ⟨site, hsite, hnew, he⟩)
      · exact .inl (.inl he)
      · exact .inr ⟨site, h'.kept hsite, hnew, he⟩
      · exact .inl (.inr he)
      · exact .inr ⟨site, hsite, fun hbefore => hnew (h.kept hbefore), he⟩
    · rintro ((he | he) | ⟨site, hsite, hnew, he⟩)
      · exact .inl (.inl he)
      · exact .inr (.inl he)
      · by_cases hbetween : site ∈ between
        · exact .inl (.inr ⟨site, hbetween, hnew, he⟩)
        · exact .inr (.inr ⟨site, hsite, hbetween, he⟩)
  apart e he := (mem_append.1 he).elim (h.apart e) (h'.apart e)

theorem object {site : AllocSite} (hsite : site ∉ before)
    (h : f.Copied s call scope roots own (site :: before) after ws)
    (hroots : ∀ x, x ∈ roots ↔ x ∈ f.localsAt s scope site)
    (hown : ∀ e, e ∈ own ↔ e ∈ f.copiesAt s call scope site) : f.Copied s call scope [site] [] before after ws where
  kept := List.Subset.trans (subset_cons_self site before) h.kept
  nodup hnodup := h.nodup (nodup_cons.2 ⟨hsite, hnodup⟩)
  started x hx := h.kept (mem_singleton.1 hx ▸ mem_cons_self)
  fresh x hx hnew := by
    by_cases heq : x = site
    · subst heq
      exact ⟨⟨x, mem_singleton_self x, .refl⟩, fun y hy => h.started ((hroots y).2 hy)⟩
    · obtain ⟨⟨root, hroot, hreach⟩, hlocals⟩ := h.fresh x hx (by simp [heq, hnew])
      exact ⟨⟨site, mem_singleton_self site, .head ((hroots root).1 hroot) hreach⟩, hlocals⟩
  writes e := by
    rw [h.writes, hown]
    simp only [not_mem_nil, false_or, mem_cons, not_or]
    constructor
    · rintro (he | ⟨x, hx, ⟨-, hnew⟩, he⟩)
      · exact ⟨site, h.kept mem_cons_self, hsite, he⟩
      · exact ⟨x, hx, hnew, he⟩
    · rintro ⟨x, hx, hnew, he⟩
      by_cases heq : x = site
      · exact .inl (heq ▸ he)
      · exact .inr ⟨x, hx, ⟨heq, hnew⟩, he⟩
  apart := h.apart

theorem mem_iff (h : f.Copied s call scope roots own [] after ws) {site : AllocSite} :
    site ∈ after ↔ ReachedFrom (f.localsAt s scope) roots site := by
  constructor
  · exact fun hsite => (h.fresh site hsite not_mem_nil).1
  · rintro ⟨root, hroot, hreach⟩
    induction hreach with
    | refl => exact h.started hroot
    | tail _ hstep ih => exact (h.fresh _ ih not_mem_nil).2 hstep

/-- What is written for the copies: for each slot of an object that can be reached, the copy of its contents goes to the
same slot of the copy of the object. -/
theorem mem_writes (h : f.Copied s call scope (f.localSites scope v) [] [] after ws) {l : Location} {w : TypeSet} :
    (l, w) ∈ ws ↔ ∃ r k stored, f.Reaches s scope v r ∧ k.site? = some r.site ∧ f.Has s k stored ∧
      l = k.rebased (r.site.inContext call) ∧ w = f.cloneSet call scope stored := by
  simp only [h.writes, h.mem_iff, reachedFrom_iff, copiesAt, List.mem_map, Prod.exists, Prod.mk.injEq, mem_slotsAt,
    not_mem_nil, false_or, not_false_eq_true, true_and]
  constructor
  · rintro ⟨_, ⟨r, hr, rfl⟩, k, stored, ⟨hhas, hk⟩, hl, hw⟩
    exact ⟨r, k, stored, hr, hk, hhas, hl.symm, hw.symm⟩
  · rintro ⟨r, k, stored, hr, hk, hhas, hl, hw⟩
    exact ⟨_, ⟨r, hr, rfl⟩, k, stored, ⟨hhas, hk⟩, hl.symm, hw.symm⟩

end Copied

/-! ## How far a copy goes down -/

/-- How many entries belong to objects that are not copied yet. -/
def uncopied (f : Frame) (s : AbstractState) (cloned : List AllocSite) : Nat :=
  ((f.entries s).filter fun e => e.1.site?.any fun site => !cloned.contains site).length

theorem uncopied_le (h : before ⊆ after) : f.uncopied s after ≤ f.uncopied s before := by
  refine (monotone_filter_right _ fun e he => ?_).length_le
  simp only [Option.any_eq_true_iff_get, Bool.not_eq_true', contains_eq_mem, decide_eq_false_iff_not] at he ⊢
  exact he.imp fun _ hnew hbefore => hnew (h hbefore)

theorem uncopied_lt {site : AllocSite} {e : Location × TypeSet} (he : e ∈ f.slotsAt s site) (hsite : site ∉ before) :
    f.uncopied s (site :: before) < f.uncopied s before := by
  obtain ⟨hentry, hl⟩ := mem_filter.1 he
  rw [beq_iff_eq] at hl
  have hmem : e ∈ (f.entries s).filter fun e => e.1.site?.any fun x => !before.contains x :=
    mem_filter.2 ⟨hentry, by simp [hl, hsite]⟩
  have hsplit : (f.entries s).filter (fun e => e.1.site?.any fun x => !(site :: before).contains x) =
      ((f.entries s).filter fun e => e.1.site?.any fun x => !before.contains x).filter fun e =>
        decide (e.1.site? ≠ some site) := by
    rw [List.filter_filter]
    refine filter_congr fun e _ => ?_
    cases e.1.site? with
    | none => rfl
    | some x => simp [Bool.not_or]
  rw [uncopied, uncopied, hsplit]
  exact length_filter_lt_length_iff_exists.2 ⟨e, hmem, by simp [hl]⟩

theorem uncopied_lt_copyDepth : f.uncopied s before < f.copyDepth s :=
  Nat.lt_succ_of_le (length_filter_le _ _)

end Frame

namespace Eval

section Runs

variable {f : Frame} {s : AbstractState} {call : NodeId} {scope : ScopeId} {ι : Type}
  {copy : ι → TypeSet → List AllocSite → Eval (TypeSet × List AllocSite)} {bound : Nat}

/-- Ways to copy values that all do the same as long as less than a bound is not copied yet. -/
def Copies (f : Frame) (s : AbstractState) (call : NodeId) (scope : ScopeId)
    (copy : ι → TypeSet → List AllocSite → Eval (TypeSet × List AllocSite)) (bound : Nat) : Prop :=
  ∀ v cloned m, m.KeepsOriginals s → f.uncopied s cloned < bound →
    ∃ cloned' ws, f.Copied s call scope (f.localSites scope v) [] cloned cloned' ws ∧
      ∀ i, (copy i v cloned).run m = ((f.cloneSet call scope v, cloned'), writeAll f ws m)

variable {cloned : List AllocSite} {m : Machine}
variable (h : Copies f s call scope copy bound)
include h

theorem Copies.copySlots {site : AllocSite} (hsite : site.context = some call)
    {slots : List (Location × TypeSet)} (hslots : ∀ e ∈ slots, e.1.site?.isSome = true)
    (hleft : slots ≠ [] → f.uncopied s cloned < bound) (hm : m.KeepsOriginals s) :
    ∃ cloned' ws, f.Copied s call scope (slots.flatMap fun e => f.localSites scope e.2)
        (slots.map fun e => (e.1.rebased site, f.cloneSet call scope e.2)) cloned cloned' ws ∧
      ∀ i, (Eval.copySlots f (copy i) site slots cloned).run m = (cloned', writeAll f ws m) := by
  induction slots generalizing cloned m with
  | nil => exact ⟨cloned, [], .nothing (nil_subset _), fun _ => rfl⟩
  | cons e slots ih =>
    obtain ⟨l, stored⟩ := e
    have hbelow := hleft (cons_ne_nil _ _)
    obtain ⟨between, ws, hcopied, hrun⟩ := h stored cloned m hm hbelow
    have hwrite : f.Copied s call scope [] [(l.rebased site, f.cloneSet call scope stored)] between between _ :=
      .write (Location.inContext_rebased (hslots _ mem_cons_self) hsite)
    have hfirst := hcopied.trans hwrite
    rw [append_nil] at hfirst
    obtain ⟨cloned', ws', hrest, hruns⟩ := ih (fun e he => hslots e (mem_cons_of_mem _ he))
      (fun _ => (Frame.uncopied_le hcopied.kept).trans_lt hbelow) (hm.writeAll (f := f) hfirst.apart)
    refine ⟨cloned', _, hfirst.trans hrest, fun i => ?_⟩
    rw [writeAll_append, ← hruns i, writeAll_append]
    change (Eval.copySlots f (copy i) site slots ((copy i stored cloned).run m).1.2).run
      ((writeSlot f (l.rebased site) ((copy i stored cloned).run m).1.1).run ((copy i stored cloned).run m).2).2 = _
    rw [hrun i]
    rfl

theorem Copies.copyObject (hleft : f.uncopied s cloned ≤ bound) (t : TypeTag) (hm : m.KeepsOriginals s) :
    ∃ cloned' ws, f.Copied s call scope (f.localSitesOf scope t) [] cloned cloned' ws ∧
      ∀ i, (Eval.copyObject f call scope (copy i) cloned t).run m = (cloned', writeAll f ws m) := by
  cases t with
  | object r =>
    have hrun : ∀ i, Eval.copyObject f call scope (copy i) cloned (.object r) =
        if f.isLocal scope r && !cloned.contains r.site then
          get >>= fun m => Eval.copySlots f (copy i) (r.site.inContext call) (f.slotsAt m.state r.site)
            (r.site :: cloned)
        else pure cloned := fun _ => rfl
    simp only [hrun]
    by_cases hlocal : f.isLocal scope r = true
    · have hroots : f.localSitesOf scope (.object r) = [r.site] := by simp [Frame.localSitesOf, TypeTag.object?, hlocal]
      rw [hroots]
      by_cases hmet : r.site ∈ cloned
      · refine ⟨cloned, [], .nothing (by simpa using hmet), fun i => ?_⟩
        rw [if_neg (by simp [hmet])]
        rfl
      · have hslots : ∀ e, e ∈ f.slotsAt m.state r.site ↔ e ∈ f.slotsAt s r.site :=
          fun e => hm.mem_slotsAt (Frame.context_of_isLocal hlocal)
        have hsites : ∀ e ∈ f.slotsAt m.state r.site, e.1.site?.isSome = true := fun e he => by
          rw [beq_iff_eq.1 (mem_filter.1 he).2]
          rfl
        have hbelow : f.slotsAt m.state r.site ≠ [] → f.uncopied s (r.site :: cloned) < bound := fun hne => by
          obtain ⟨e, he⟩ := exists_mem_of_ne_nil _ hne
          exact (Frame.uncopied_lt ((hslots e).1 he) hmet).trans_le hleft
        obtain ⟨cloned', ws, hcopied, hruns⟩ :=
          h.copySlots (show (r.site.inContext call).context = some call from rfl) hsites hbelow hm
        refine ⟨cloned', ws, hcopied.object hmet (fun x => ?_) fun e => ?_, fun i => ?_⟩
        · simp only [Frame.localsAt, mem_flatMap, hslots]
        · simp only [Frame.copiesAt, List.mem_map, hslots]
        · rw [if_pos (by simp [hlocal, hmet])]
          exact hruns i
    · have hroots : f.localSitesOf scope (.object r) = [] := by simp [Frame.localSitesOf, TypeTag.object?, hlocal]
      refine ⟨cloned, [], .nothing (hroots ▸ nil_subset _), fun i => ?_⟩
      rw [if_neg (by simp [hlocal])]
      rfl
  | _ => exact ⟨cloned, [], .nothing (nil_subset _), fun _ => rfl⟩

theorem Copies.copyTags
    (hleft : f.uncopied s cloned ≤ bound) (ts : List TypeTag) (copied : TypeSet) (hm : m.KeepsOriginals s) :
    ∃ cloned' ws, f.Copied s call scope (ts.flatMap (f.localSitesOf scope)) [] cloned cloned' ws ∧
      ∀ i, (Eval.copyTags f call scope (copy i) ts copied cloned).run m =
        ((ts.foldl (fun v t => v.join (.single (f.cloneTag call scope t))) copied, cloned'), writeAll f ws m) := by
  induction ts generalizing copied cloned m with
  | nil => exact ⟨cloned, [], .nothing (nil_subset _), fun _ => rfl⟩
  | cons t ts ih =>
    obtain ⟨between, ws, hcopied, hrun⟩ := h.copyObject hleft t hm
    obtain ⟨cloned', ws', hrest, hruns⟩ := ih ((Frame.uncopied_le hcopied.kept).trans hleft)
      (copied.insert (f.cloneTag call scope t)) (hm.writeAll (f := f) hcopied.apart)
    refine ⟨cloned', _, hcopied.trans hrest, fun i => ?_⟩
    rw [writeAll_append, foldl_cons, ← insert_eq_join, ← hruns i]
    change (Eval.copyTags f call scope (copy i) ts _ ((Eval.copyObject f call scope (copy i) cloned t).run m).1).run
      ((Eval.copyObject f call scope (copy i) cloned t).run m).2 = _
    rw [hrun i]

omit h

/-- Going down once for each entry that is not copied yet is enough: going down further makes no difference. -/
theorem copies_rebase (f : Frame) (s : AbstractState) (call : NodeId) (scope : ScopeId) (n : Nat) :
    Copies f s call scope (fun further => rebase f call scope (further + n)) n := by
  induction n with
  | zero => exact fun _ _ _ _ hleft => absurd hleft (Nat.not_lt_zero _)
  | succ n ih =>
    intro v cloned m hm hleft
    cases v with
    | top => exact ⟨cloned, [], .nothing (nil_subset _), fun _ => rfl⟩
    | tags ts =>
      obtain ⟨cloned', ws, hcopied, hrun⟩ := ih.copyTags (Nat.le_of_lt_succ hleft) (TypeSet.tags ts).toList .bottom hm
      rw [← Frame.localSites_eq_flatMap] at hcopied
      refine ⟨cloned', ws, hcopied, fun i => ?_⟩
      rw [Frame.cloneSet, TypeSet.flatMap, Std.ExtTreeSet.foldl_eq_foldl_toList]
      exact hrun i

theorem exists_copied (f : Frame) (call : NodeId) (scope : ScopeId) (v : TypeSet) (m : Machine) :
    ∃ cloned ws, f.Copied m.state call scope (f.localSites scope v) [] [] cloned ws ∧
      ∀ depth, f.copyDepth m.state ≤ depth →
        (rebase f call scope depth v []).run m = ((f.cloneSet call scope v, cloned), writeAll f ws m) := by
  obtain ⟨cloned, ws, hcopied, hrun⟩ := copies_rebase f m.state call scope (f.copyDepth m.state) v [] m
    (fun _ _ _ _ => rfl) Frame.uncopied_lt_copyDepth
  refine ⟨cloned, ws, hcopied, fun depth hdepth => ?_⟩
  obtain ⟨further, rfl⟩ := Nat.exists_eq_add_of_le' hdepth
  exact hrun further

theorem settles_rebase (f : Frame) (call : NodeId) (scope : ScopeId) (v : TypeSet) (m : Machine) :
    Settles (fun n => (rebase f call scope n v []).run m)
      ((rebase f call scope (f.copyDepth m.state) v []).run m) := by
  obtain ⟨_, _, -, hrun⟩ := exists_copied f call scope v m
  exact ⟨f.copyDepth m.state, fun n hn => (hrun n hn).trans (hrun _ le_rfl).symm⟩

theorem run_contextualize {f : Frame} (hf : f.granularity = .perCall) (call : NodeId) (scope : ScopeId) (v : TypeSet)
    (m : Machine) : (contextualize f call scope v).run m =
      (((rebase f call scope (f.copyDepth m.state) v []).run m).1.1,
        ((rebase f call scope (f.copyDepth m.state) v []).run m).2) := by
  rw [contextualize, if_pos hf]
  rfl

theorem fst_contextualize {f : Frame} (hf : f.granularity = .perCall) (call : NodeId) (scope : ScopeId) (v : TypeSet)
    (m : Machine) : ((contextualize f call scope v).run m).1 = f.cloneSet call scope v := by
  obtain ⟨_, _, -, hrun⟩ := exists_copied f call scope v m
  rw [run_contextualize hf, hrun _ le_rfl]

end Runs

/-- Where objects are told apart by call, a call copies the local objects that can be reached from what is returned,
each once and however they refer to each other; how often it may go down is no limit. The result is the returned value
with every local object replaced by its copy. The slots of a copy have the contents of the original, with local
objects replaced again, and they have nothing else than that and what they had before. All other slots, those of the
originals among them, stay as they are. -/
theorem contextualize_copies {f : Frame} (hf : f.granularity = .perCall) (call : NodeId) (scope : ScopeId) (v : TypeSet)
    (m : Machine) :
    let result := ((contextualize f call scope v).run m).1
    let m' := ((contextualize f call scope v).run m).2
    (f.program.scopes.Ordered → ∀ r : HeapRef, r.site.scope < f.program.scopes.size →
      (f.isLocal scope r = true ↔ r.site.context = none ∧ (∀ cls, r.kind ≠ .inst cls) ∧
        Relation.ReflTransGen f.program.scopes.Around r.site.scope scope)) ∧
    (∃ cloned : List AllocSite, cloned.Nodup ∧
      (∀ site, site ∈ cloned ↔ ∃ r, f.Reaches m.state scope v r ∧ r.site = site) ∧
      ∀ depth, f.copyDepth m.state ≤ depth → (rebase f call scope depth v []).run m = ((result, cloned), m')) ∧
    (∀ x, result.Holds x ↔ v = .top ∨ ∃ t ∈ v.toList, x = some (f.cloneTag call scope t)) ∧
    (∀ r l stored, f.Reaches m.state scope v r → l.site? = some r.site → f.Has m.state l stored →
      m'.Stores (l.rebased (r.site.inContext call)) (f.cloneSet call scope stored)) ∧
    (∀ l x, m'.state.Holds l x ↔ m.state.Holds l x ∨ ∃ r k stored, f.Reaches m.state scope v r ∧
      k.site? = some r.site ∧ f.Has m.state k stored ∧ l = k.rebased (r.site.inContext call) ∧
      ((f.cloneSet call scope stored).without .unbound).Holds x) ∧
    ∀ l : Location, l.site?.bind (·.context) ≠ some call → m'.state.get? l = m.state.get? l ∧
      m'.recorder.map (·.effects.get? l) = m.recorder.map (·.effects.get? l) := by
  intro result m'
  obtain ⟨cloned, ws, hcopied, hruns⟩ := exists_copied f call scope v m
  have hresult : result = f.cloneSet call scope v := fst_contextualize hf call scope v m
  have hm' : m' = writeAll f ws m := by
    have hrun := run_contextualize hf call scope v m
    rw [hruns _ le_rfl] at hrun
    exact congrArg Prod.snd hrun
  have hwrites : ∀ {l w}, (l, w) ∈ ws ↔ ∃ r k stored, f.Reaches m.state scope v r ∧ k.site? = some r.site ∧
      f.Has m.state k stored ∧ l = k.rebased (r.site.inContext call) ∧ w = f.cloneSet call scope stored :=
    hcopied.mem_writes
  have hheap : ∀ e ∈ ws, e.1.isHeap = true := fun e he => (hcopied.apart e he).isHeap
  refine ⟨fun hscopes r hr => Frame.isLocal_iff hscopes hr, ?_, fun x => ?_, fun r l stored hr hl hhas => ?_,
    fun l x => ?_, fun l hl => ?_⟩
  · refine ⟨cloned, hcopied.nodup nodup_nil, fun site => hcopied.mem_iff.trans Frame.reachedFrom_iff,
      fun depth hdepth => ?_⟩
    rw [hruns depth hdepth, hresult, hm']
  · rw [hresult, Frame.holds_cloneSet]
  · rw [hm']
    exact stores_writeAll hheap (hwrites.2 ⟨r, l, stored, hr, hl, hhas, rfl, rfl⟩)
  · rw [hm', (writeAll_eq_fill f hheap m).1, AbstractState.holds_fill]
    refine or_congr_right ?_
    constructor
    · rintro ⟨w, hw, hx⟩
      obtain ⟨r, k, stored, hr, hk, hhas, hl, rfl⟩ := hwrites.1 hw
      exact ⟨r, k, stored, hr, hk, hhas, hl, hx⟩
    · rintro ⟨r, k, stored, hr, hk, hhas, hl, hx⟩
      exact ⟨_, hwrites.2 ⟨r, k, stored, hr, hk, hhas, hl, rfl⟩, hx⟩
  · rw [hm']
    refine get?_writeAll hheap ?_
    rintro e he rfl
    obtain ⟨site, hsite, hcontext⟩ := hcopied.apart e he
    exact hl (by rw [hsite, Option.bind_some, hcontext])

open Build in
def emptyFunction : RawNode := module [function "g" [] [pass]]

def madeList (line : Nat) : HeapRef := ⟨{ span := ⟨line, 0, line, 2⟩, scope := 1 }, .list⟩

def circularState : AbstractState := AbstractState.empty.set (madeList 1).elements (.single (.object (madeList 2)))

def circularEnv : AbstractState :=
  AbstractState.empty.set (madeList 2).elements (.ofList [.object (madeList 1), .int])

/-- One list is in the state and the other one is published, and each holds the other one. The copies hold each other,
and the originals are as before. -/
theorem contextualize_copies_on_circularState : ∃ p u m, firstUnit? emptyFunction .reversePostorder = some (p, u) ∧
      (contextualize { u.frame p (Preparation.ofProgram p).facts circularEnv with granularity := .perCall } 7 1
        (.single (.object (madeList 1)))).run ⟨circularState, none⟩ =
          (.single (.object ⟨(madeList 1).site.inContext 7, .list⟩), m) ∧
      m.Stores (.element ((madeList 1).site.inContext 7)) (.single (.object ⟨(madeList 2).site.inContext 7, .list⟩)) ∧
      m.Stores (.element ((madeList 2).site.inContext 7))
        (.ofList [.object ⟨(madeList 1).site.inContext 7, .list⟩, .int]) ∧
      m.state.get? (.element (madeList 1).site) = some (.single (.object (madeList 2))) := by
  have h : ((firstUnit? emptyFunction .reversePostorder).map fun (p, u) =>
      let f := { u.frame p (Preparation.ofProgram p).facts circularEnv with granularity := .perCall }
      (f.isLocal 1 (madeList 1), f.isLocal 1 (madeList 2), f.cloneSet 7 1 (.single (.object (madeList 1))),
        f.cloneSet 7 1 (.single (.object (madeList 2))), f.cloneSet 7 1 (.ofList [.object (madeList 1), .int]))) =
      some (true, true, .single (.object ⟨(madeList 1).site.inContext 7, .list⟩),
        .single (.object ⟨(madeList 2).site.inContext 7, .list⟩),
        .ofList [.object ⟨(madeList 1).site.inContext 7, .list⟩, .int]) := by
    decide +kernel
  obtain ⟨⟨p, u⟩, hu, h⟩ := Option.map_eq_some_iff.1 h
  simp only [Prod.mk.injEq] at h
  obtain ⟨hlocal, hlocal', hresult, hset, hset'⟩ := h
  set f : Frame := { u.frame p (Preparation.ofProgram p).facts circularEnv with granularity := .perCall }
  have hhas : f.Has circularState (.element (madeList 1).site) (.single (.object (madeList 2))) :=
    .inl (by decide +kernel)
  have henv : circularEnv.get? (.element (madeList 2).site) = some (.ofList [.object (madeList 1), .int]) := by
    decide +kernel
  have hhas' : f.Has circularState (.element (madeList 2).site) (.ofList [.object (madeList 1), .int]) := .inr henv
  have hfirst : f.Reaches circularState 1 (.single (.object (madeList 1))) (madeList 1) :=
    .start (by decide +kernel) hlocal
  have hsecond : f.Reaches circularState 1 (.single (.object (madeList 1))) (madeList 2) :=
    .slot hfirst rfl hhas (by decide +kernel) hlocal'
  obtain ⟨-, -, -, hstores, -, hframe⟩ :=
    contextualize_copies (f := f) rfl 7 1 (.single (.object (madeList 1))) ⟨circularState, none⟩
  have hcopy := hstores _ _ _ hfirst rfl hhas
  have hcopy' := hstores _ _ _ hsecond rfl hhas'
  have hkept := (hframe (.element (madeList 1).site) (by decide)).1
  obtain ⟨m, hrun⟩ : ∃ m, (contextualize f 7 1 (.single (.object (madeList 1)))).run ⟨circularState, none⟩ =
      (f.cloneSet 7 1 (.single (.object (madeList 1))), m) := ⟨_, Prod.ext (fst_contextualize rfl 7 1 _ _) rfl⟩
  rw [hrun, hset] at hcopy
  rw [hrun, hset'] at hcopy'
  rw [hrun] at hkept
  refine ⟨p, u, m, hu, hresult ▸ hrun, hcopy, hcopy', hkept.trans ?_⟩
  decide +kernel

end Eval
end PointsTo
