import Mathlib.Data.Finset.Card
import PointsTo.Proofs.Value.Order
import PointsTo.Rendering

/-! # Renderings end

An object is opened only inside objects at other sites, so the objects that are open at a time have sites of their own.
All of them but the innermost one hold something, so there are no more of them than slots, and one more. Here an object
is put on the list of open ones and taken off again; a rendering that is given this depth ends with the text and with
the list it started with. -/

namespace PointsTo

open List

def TypeSet.sites (v : TypeSet) : List AllocSite :=
  v.toList.filterMap fun
    | .object ref => some ref.site
    | _ => none

namespace Renderer

/-- The sites that are open, innermost first, and what was open each time when an object had been opened. -/
structure Desk where
  opened : List AllocSite
  chains : List (List AllocSite)

abbrev Writing := StateT Desk Option

variable (r : Renderer)

def writeContainer (inside : TypeSet → Writing String) (ref : HeapRef) : Writing String := do
  let contents := r.read ref.elements
  let elements ← inside contents
  match ref.kind with
  | .inst cls => return (r.program.cls cls).name
  | .list => return "list[" ++ elements ++ "]"
  | .set => return "set[" ++ elements ++ "]"
  | .tuple => return "tuple[" ++ elements ++ ", ...]"
  | .dict => return "dict[" ++ (← inside (r.read ref.keys)) ++ ", " ++ elements ++ "]"
  | .builtin name => return if contents.isBottom then name else name ++ "[" ++ elements ++ "]"

/-- Writes an object. Its site is put on the open ones while its contents are written. -/
def writeObject (inside : TypeSet → Writing String) (ref : HeapRef) : Writing String :=
  match ref.kind with
  | .inst cls => pure (r.program.cls cls).name
  | _ => do
    if (← get).opened.contains ref.site then
      return "..."
    modify fun d => ⟨ref.site :: d.opened, (ref.site :: d.opened) :: d.chains⟩
    let text ← r.writeContainer inside ref
    modify fun d => { d with opened := d.opened.tail }
    return text

def write : Nat → TypeSet → Writing String
  | 0, _ => failure
  | depth + 1, v =>
    if v.isTop then pure "Any"
    else if v.isBottom then pure "Never"
    else do
      let texts ← v.toList.mapM fun
        | .object ref => r.writeObject (write depth) ref
        | t => pure (r.tag (fun _ _ => "") [] t)
      return " | ".intercalate (Std.ExtTreeSet.ofList texts).toList

/-- The sites of all objects that a value holds or that are held anywhere. -/
def sites (v : TypeSet) : Finset AllocSite :=
  ((v :: (r.env.slots.toList ++ r.state.slots.toList).map (·.2)).flatMap TypeSet.sites).toFinset

/-- The sites of the objects that have a slot. -/
def slotSites : Finset AllocSite :=
  ((r.env.slots.keys ++ r.state.slots.keys).filterMap Location.site?).toFinset

section Ends

variable {S : Set AllocSite} {opened : List AllocSite} {α β : Type}

/-- Writing ends with a result and with the open sites as they were. No site that was opened meanwhile was open already,
and all of them are known. -/
def Ends (S : Set AllocSite) (opened : List AllocSite) (act : Writing α) (x : α) : Prop :=
  ∀ chains, ∃ new, act.run ⟨opened, chains⟩ = some (x, ⟨opened, new ++ chains⟩) ∧
    ∀ c ∈ new, (opened.Nodup → c.Nodup) ∧ ∀ s ∈ c, s ∈ S ∨ s ∈ opened

theorem Ends.pure (x : α) : Ends S opened (pure x) x := fun _ => ⟨[], rfl, nofun⟩

theorem Ends.bind {act : Writing α} {next : α → Writing β} {x : α} {y : β} (h : Ends S opened act x)
    (h' : Ends S opened (next x) y) : Ends S opened (act >>= next) y := by
  intro chains
  obtain ⟨new, hrun, hnew⟩ := h chains
  obtain ⟨new', hrun', hnew'⟩ := h' (new ++ chains)
  refine ⟨new' ++ new, ?_, forall_mem_append.2 ⟨hnew', hnew⟩⟩
  simp [hrun, hrun']

theorem Ends.mapM {xs : List α} {f : α → Writing β} {g : α → β} (h : ∀ x ∈ xs, Ends S opened (f x) (g x)) :
    Ends S opened (xs.mapM f) (xs.map g) := by
  induction xs with
  | nil => exact .pure []
  | cons x xs ih =>
    rw [mapM_cons]
    obtain ⟨hx, hxs⟩ := forall_mem_cons.1 h
    exact hx.bind ((ih hxs).bind (.pure _))

variable {r}

theorem Ends.container {inside : TypeSet → Writing String} {inside' : TypeSet → String} {ref : HeapRef}
    (h : ∀ l ∈ [ref.elements, ref.keys], Ends S opened (inside (r.read l)) (inside' (r.read l)))
    (hkind : ∀ cls, ref.kind ≠ .inst cls) :
    Ends S opened (r.writeContainer inside ref) (r.container inside' ref) := by
  refine (h ref.elements (by simp)).bind ?_
  unfold Renderer.container
  cases hk : ref.kind with
  | inst cls => exact absurd hk (hkind cls)
  | dict => exact (h ref.keys (by simp)).bind (.pure _)
  | list | set | tuple | builtin name => exact .pure _

/-- What is opened in between is closed again. -/
theorem Ends.object {inside : TypeSet → Writing String} {inside' : List AllocSite → TypeSet → String} {ref : HeapRef}
    (hsite : ref.site ∈ S) (h : ref.site ∉ opened → ∀ l ∈ [ref.elements, ref.keys],
      Ends S (ref.site :: opened) (inside (r.read l)) (inside' (ref.site :: opened) (r.read l))) :
    Ends S opened (r.writeObject inside ref) (r.object inside' opened ref) := by
  unfold writeObject Renderer.object
  cases hkind : ref.kind with
  | inst cls => exact .pure _
  | list | set | tuple | dict | builtin name =>
    intro chains
    by_cases hopen : ref.site ∈ opened
    · exact ⟨[], by simp [hopen], nofun⟩
    · have hnone : ∀ cls, ref.kind ≠ .inst cls := by simp [hkind]
      obtain ⟨new, hrun, hnew⟩ := Ends.container (h hopen) hnone ((ref.site :: opened) :: chains)
      refine ⟨new ++ [ref.site :: opened], by simp [hopen, hrun], forall_mem_append.2 ⟨fun c hc => ?_, ?_⟩⟩
      · refine ⟨fun hnodup => (hnew c hc).1 (nodup_cons.2 ⟨hopen, hnodup⟩), fun s hs => ?_⟩
        rcases (hnew c hc).2 s hs with hs | hs
        · exact .inl hs
        · rcases mem_cons.1 hs with rfl | hs
          · exact .inl hsite
          · exact .inr hs
      · simp +contextual [hopen, hsite]

theorem site_mem_slotSites {l : Location} {s : AllocSite} (hl : l.site? = some s) (h : (r.read l).isBottom = false) :
    s ∈ r.slotSites := by
  have hslot : l ∈ r.env.slots ∨ l ∈ r.state.slots := by
    by_contra hnone
    obtain ⟨henv, hstate⟩ := not_or.1 hnone
    have hinitial : l.initial = .bottom := by cases l <;> first | rfl | cases hl
    simp [read, AbstractState.read, AbstractState.get?, henv, hstate, hinitial] at h
    revert h
    decide
  refine List.mem_toFinset.2 (mem_filterMap.2 ⟨l, mem_append.2 ?_, hl⟩)
  simpa using hslot

theorem mem_sites_join {a b : TypeSet} {s : AllocSite} (h : s ∈ (a.join b).sites) : s ∈ a.sites ∨ s ∈ b.sites := by
  obtain ⟨t, ht, hs⟩ := mem_filterMap.1 h
  cases a with
  | top => cases ht
  | tags a =>
    cases b with
    | top => cases ht
    | tags b =>
      rw [TypeSet.join, TypeSet.toList, Std.ExtTreeSet.mem_toList, Std.ExtTreeSet.mem_union_iff] at ht
      refine ht.imp (fun ht => ?_) fun ht => ?_ <;>
        exact mem_filterMap.2 ⟨t, Std.ExtTreeSet.mem_toList.2 ht, hs⟩

theorem mem_sites_of_read {v : TypeSet} {l : Location} {s : AllocSite} (h : s ∈ (r.read l).sites) : s ∈ r.sites v := by
  have hheld : ∀ a ∈ [r.env, r.state], ∀ {w : TypeSet}, a.get? l = some w → s ∈ w.sites → s ∈ r.sites v := by
    intro a ha w hw hs
    have hw := Std.ExtTreeMap.mem_toList_iff_getElem?_eq_some.2 hw
    refine List.mem_toFinset.2 (mem_flatMap.2 ⟨w, mem_cons_of_mem _ (List.mem_map.2 ⟨(l, w), ?_, rfl⟩), hs⟩)
    rcases mem_pair.1 ha with rfl | rfl
    · exact mem_append_left _ hw
    · exact mem_append_right _ hw
  rcases mem_sites_join h with h | h
  · rw [AbstractState.read] at h
    cases hget : r.env.get? l with
    | some w => exact hheld r.env (by simp) hget (by rwa [hget] at h)
    | none =>
      have hinitial : l.initial.sites = [] := by
        cases l <;> simp only [Location.initial] <;> decide +kernel
      simp [hget, hinitial] at h
  · cases hget : r.state.get? l with
    | some w => exact hheld r.state (by simp) hget (by rwa [hget] at h)
    | none => simp [hget, TypeSet.sites, TypeSet.bottom, TypeSet.toList] at h

theorem card_slotSites_le : r.slotSites.card ≤ r.env.size + r.state.size := by
  refine (toFinset_card_le _).trans ((length_filterMap_le ..).trans ?_)
  simp [AbstractState.size]

/-- With room for the objects that have slots and are not open yet, a rendering ends. -/
theorem ends_write (hS : ∀ l, ∀ s ∈ (r.read l).sites, s ∈ S) {n : Nat} {v : TypeSet} {opened : List AllocSite}
    (h : (r.slotSites \ opened.toFinset).card + (if v.isBottom then 0 else 1) ≤ n) (hv : ∀ s ∈ v.sites, s ∈ S) :
    Ends S opened (r.write (n + 1) v) (r.renderUpTo n opened v) := by
  induction n generalizing v opened with
  | zero =>
    have hbottom : v.isBottom = true := by
      by_contra hb
      simp [hb] at h
    have htop : v.isTop = false := by cases v <;> first | rfl | cases hbottom
    simp only [write, renderUpTo, alternatives, hbottom, htop]
    exact .pure _
  | succ n ih =>
    rw [write, renderUpTo, alternatives]
    split
    · exact .pure _
    split
    · exact .pure _
    next hbottom =>
      have hcard : (r.slotSites \ opened.toFinset).card ≤ n := by simpa [hbottom] using h
      refine .bind (.mapM (g := r.tag (r.renderUpTo n) opened) fun t ht => ?_) (.pure _)
      cases t with
      | object ref =>
        refine .object (hv _ (mem_filterMap.2 ⟨_, ht, rfl⟩)) fun hopen l hl => ih ?_ (hS l)
        have hsite : l.site? = some ref.site := by
          rcases mem_pair.1 hl with rfl | rfl <;> rfl
        rw [toFinset_cons, Finset.sdiff_insert]
        split
        next => exact (Finset.card_erase_le).trans hcard
        next hl =>
          have hmem := site_mem_slotSites hsite (by simpa using hl)
          have := Finset.card_erase_lt_of_mem (Finset.mem_sdiff.2 ⟨hmem, mt List.mem_toFinset.1 hopen⟩)
          omega
      | scalar s => cases s <;> exact .pure _
      | _ => exact .pure _

end Ends

/-- A rendering ends. No site is opened while it is open, so renderings are nested no deeper than there are sites, and
after each object the open sites are those before it. A tag with the number of no class is written as if of an empty
one, where a run would stop instead. -/
theorem rendering_ends (r : Renderer) (v : TypeSet) :
    (∃ chains, (r.write (r.env.size + r.state.size + 2) v).run ⟨[], []⟩ = some (r.render v, ⟨[], chains⟩) ∧
      ∀ chain ∈ chains, chain.Nodup ∧ chain.length ≤ (r.sites v).card) ∧
    ∀ ref opened chains, ∃ text new,
      (r.writeObject (r.write (r.env.size + r.state.size + 2)) ref).run ⟨opened, chains⟩ =
        some (text, ⟨opened, new ++ chains⟩) := by
  have hcard : ∀ (w : TypeSet) (opened : List AllocSite), (r.slotSites \ opened.toFinset).card +
      (if w.isBottom then 0 else 1) ≤ r.env.size + r.state.size + 1 := fun w opened => by
    have := (Finset.card_le_card (Finset.sdiff_subset (t := opened.toFinset))).trans (card_slotSites_le (r := r))
    split <;> omega
  constructor
  · obtain ⟨chains, hrun, hchains⟩ := ends_write (S := ↑(r.sites v)) (fun l s => mem_sites_of_read) (hcard v [])
      (fun s hs => List.mem_toFinset.2 (mem_flatMap.2 ⟨v, by simp, hs⟩)) []
    rw [append_nil] at hrun
    refine ⟨chains, hrun, fun chain hc => ?_⟩
    obtain ⟨hnodup, hsites⟩ := hchains chain hc
    refine ⟨hnodup .nil, ?_⟩
    rw [← toFinset_card_of_nodup (hnodup .nil)]
    exact Finset.card_le_card fun s hs => (hsites s (List.mem_toFinset.1 hs)).resolve_right nofun
  · intro ref opened chains
    obtain ⟨new, hrun, -⟩ := Ends.object (r := r) (S := Set.univ) (Set.mem_univ _)
      (fun _ l _ => ends_write (fun _ _ _ => trivial) (hcard _ _) fun _ _ => trivial) chains
    exact ⟨_, new, hrun⟩

end Renderer
end PointsTo
