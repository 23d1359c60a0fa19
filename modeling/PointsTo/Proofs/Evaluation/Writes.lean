import PointsTo.Proofs.Evaluation.Footprint

/-! # What a write leaves behind

A write adds to what the state has at a location, and to what others can see of it if somebody watches. What has been
written stays there whatever is evaluated afterwards, as long as nothing is replaced; only that a variable may be
unbound is forgotten when it is written again. -/

namespace PointsTo

theorem TypeSet.without_le_iff {v w : TypeSet} {t : TypeTag} :
    v.without t ≤ w ↔ ∀ x, x ≠ some t → v.Holds x → w.Holds x := by
  rw [le_iff_holds]
  constructor
  · intro h x hx hv
    exact h x (holds_without_of_ne hv hx)
  · intro h x hx
    by_cases hxt : x = some t
    · -- Only a value that may be anything still holds the tag that has been taken out.
      cases v with
      | top =>
        obtain rfl : w = .top := h none (by simp) rfl
        exact holds_top x
      | tags s =>
        subst hxt
        have hmem : t ∈ s.erase t := hx
        simp at hmem
    · exact h x hxt (holds_without hx)

namespace AbstractState

variable {s s' : AbstractState} {l m : Location} {v w : TypeSet}

/-- The location has an entry, and up to `unbound` the entry contains the value. -/
def Covers (s : AbstractState) (l : Location) (v : TypeSet) : Prop :=
  ∃ w, s.get? l = some w ∧ v.without .unbound ≤ w

instance (s : AbstractState) (l : Location) (v : TypeSet) : Decidable (s.Covers l v) :=
  match h : s.get? l with
  | some w => decidable_of_iff (v.without .unbound ≤ w) (by simp [Covers, h])
  | none => .isFalse (by simp [Covers, h])

theorem covers_iff : s.Covers l v ↔ (s.get? l).isSome ∧ ∀ x, x ≠ some .unbound → v.Holds x → s.Holds l x := by
  simp only [Covers, TypeSet.without_le_iff, Holds]
  cases s.get? l <;> simp

theorem Covers.mono (h : s.Covers l w) (hv : ∀ x, v.Holds x → w.Holds x) : s.Covers l v := by
  rw [covers_iff] at h ⊢
  exact ⟨h.1, fun x hx hvx => h.2 x hx (hv x hvx)⟩

theorem Covers.fits (h : s.Covers l v) (hs : s.Fits s') : s'.Covers l v := by
  rw [covers_iff] at h ⊢
  exact ⟨hs.entries h.1, fun x hx hv => hs.within l x (h.2 x hx hv)⟩

theorem Covers.discardUnbound (h : s.Covers l v) (m : Location) : (s.discardUnbound m).Covers l v := by
  rw [covers_iff] at h ⊢
  refine ⟨?_, fun x hx hv => holds_discardUnbound_of_ne (h.2 x hx hv) hx⟩
  rw [get?_discardUnbound]
  split
  next heq => rw [heq, Option.isSome_map, h.1]
  next => exact h.1

theorem covers_weakUpdate (s : AbstractState) (l : Location) (v : TypeSet) : (s.weakUpdate l v).Covers l v := by
  rw [covers_iff, get?_weakUpdate, if_pos rfl]
  exact ⟨rfl, fun x _ hv => holds_weakUpdate.2 (.inr ⟨rfl, hv⟩)⟩

end AbstractState

namespace Deed

variable {s : AbstractState} {l m : Location} {v w : TypeSet}

theorem holds_stored {x : Option TypeTag} (hx : x ≠ some .unbound) (hv : v.Holds x) : (stored l v).Holds x := by
  unfold stored
  split
  · exact hv
  · exact TypeSet.holds_without_of_ne hv hx

theorem covers_weakUpdate_stored (s : AbstractState) (l : Location) (v : TypeSet) :
    (s.weakUpdate l (stored l v)).Covers l v := by
  have h := AbstractState.covers_weakUpdate s l (stored l v)
  rw [AbstractState.covers_iff] at h ⊢
  exact ⟨h.1, fun x hx hv => h.2 x hx (holds_stored hx hv)⟩

theorem covers_write (s : AbstractState) (l : Location) (v : TypeSet) : ((write l v).onState s).Covers l v := by
  unfold onState
  exact covers_weakUpdate_stored _ l v

theorem covers_of_covers_write (h : s.Covers l v) (m : Location) (w : TypeSet) :
    ((write m w).onState s).Covers l v := by
  unfold onState
  refine AbstractState.Covers.fits ?_ (AbstractState.fits_weakUpdate _ m _)
  split
  · exact h.discardUnbound _
  · exact h

end Deed

namespace Eval

variable (f : Frame)

theorem state_writeSlot {l : Location} (hl : l ≠ .universal) (v : TypeSet) (m : Machine) :
    ((writeSlot f l v).run m).2.state = (Deed.write l v).onState m.state := by
  cases l with
  | universal => exact absurd rfl hl
  | _ => rfl

theorem effects_writeSlot {l : Location} (hl : l ≠ .universal) (v : TypeSet) (m : Machine) :
    ((writeSlot f l v).run m).2.recorder.map (·.effects) =
      m.recorder.map fun r => r.effects.weakUpdate l (Deed.stored l v) := by
  obtain ⟨s, _ | r⟩ := m
  · cases l <;> rfl
  · cases l with
    | universal => exact absurd rfl hl
    | _ => rfl

end Eval

/-- The machine has a value at a location, up to `unbound`: in its state and, if somebody watches, among what others can
see. -/
structure Machine.Stores (m : Machine) (l : Location) (v : TypeSet) : Prop where
  state : m.state.Covers l v
  effects : ∀ e ∈ m.recorder.map (·.effects), e.Covers l v

theorem Machine.Stores.mono {m : Machine} {l : Location} {v w : TypeSet} (h : m.Stores l w)
    (hv : ∀ x, v.Holds x → w.Holds x) : m.Stores l v :=
  ⟨h.state.mono hv, fun e he => (h.effects e he).mono hv⟩

/-- An evaluation after which all that was stored is still there. -/
def Lasting {α : Type} (act : Eval α) : Prop := ∀ m l v, m.Stores l v → (act.run m).2.Stores l v

namespace Eval

variable (f : Frame)

theorem stores_writeSlot {l : Location} (hl : l ≠ .universal) (v : TypeSet) (m : Machine) :
    ((writeSlot f l v).run m).2.Stores l v where
  state := by
    rw [state_writeSlot f hl]
    exact Deed.covers_write _ l v
  effects e he := by
    rw [effects_writeSlot f hl] at he
    obtain ⟨r, -, rfl⟩ := Option.map_eq_some_iff.1 he
    exact Deed.covers_weakUpdate_stored _ l v

theorem lasting_writeSlot (l : Location) (v : TypeSet) : Lasting (writeSlot f l v) := by
  intro m k w h
  by_cases hl : l = .universal
  · subst hl
    exact h
  · refine ⟨?_, fun e he => ?_⟩
    · rw [state_writeSlot f hl]
      exact Deed.covers_of_covers_write h.state l v
    · rw [effects_writeSlot f hl] at he
      obtain ⟨r, hr, rfl⟩ := Option.map_eq_some_iff.1 he
      exact (h.effects r.effects (by simp [hr])).fits (AbstractState.fits_weakUpdate _ l _)

theorem lasting_observe {change : Recorder → Recorder} (h : ∀ r, (change r).effects = r.effects) :
    Lasting (observe change) := by
  intro m l v hm
  refine ⟨hm.state, fun e he => hm.effects e ?_⟩
  change e ∈ (m.recorder.map change).map (·.effects) at he
  simpa only [Option.map_map, Function.comp_def, h] using he

end Eval

/-- The reading that all that was stored outlasts operations on values, since they replace nothing. -/
def Reading.lasting (f : Frame) : Reading f .all .univ where
  cover := f.covered_all
  holds _ _ act good := Lasting act ∧ ∀ m, good (act.run m).1
  quiet _ := True
  pure h := ⟨fun _ _ _ hm => hm, fun _ => h⟩
  bind h hnext := ⟨fun m l v hm => (hnext _ (h.2 m)).1 _ l v (h.1 m l v hm), fun m => (hnext _ (h.2 m)).2 _⟩
  withState {_ next _} hnext h := ⟨fun m l v hm => by
    change ((next m).run m).2.Stores l v
    rw [hnext m.state m.recorder]
    exact (h m.state m.state.in_all).1 m l v hm, fun m => by
    have hgood := (h m.state m.state.in_all).2 m
    rwa [← hnext m.state m.recorder] at hgood⟩
  record _ _ := ⟨Eval.lasting_observe fun _ => rfl, fun _ => trivial⟩
  flag _ _ := ⟨Eval.lasting_observe fun _ => rfl, fun _ => trivial⟩
  write _ _ _ := ⟨Eval.lasting_writeSlot f _ _, fun _ => trivial⟩
  slot _ := trivial
  called _ := trivial

namespace Reading

variable (f : Frame) (scope : ScopeId) (args : CallArgs) (b : Binding)

theorem ready_lasting (span : Span) (name : String) : (lasting f).Ready scope span name :=
  ⟨trivial, ⟨trivial, trivial⟩, trivial⟩

theorem in_lasting : b.In .all ((lasting f).Ready scope) :=
  ⟨fun v _ => v.in_all, fun _ _ _ => ready_lasting f scope _ _, fun _ _ _ => ready_lasting f scope _ _⟩

theorem lasting_bindParams (inline : Bool) (params : List Node) :
    Lasting (Eval.bindParams f scope args inline params b) :=
  (Eval.yields_bindParams (fun v _ => v.in_all) inline (fun _ _ _ _ _ _ => ready_lasting f scope _ _)
    (in_lasting f scope b)).1

theorem lasting_bindRest : Lasting (Eval.bindRest f scope args b) :=
  (Eval.stays_bindRest (fun v _ => v.in_all) trivial (in_lasting f scope b)).1

theorem lasting_bindKeywords : Lasting (Eval.bindKeywords f scope args b) :=
  (Eval.stays_bindKeywords (fun v _ => v.in_all) trivial (in_lasting f scope b)).1

end Reading
end PointsTo
