import PointsTo.Proofs.Evaluation.Expressions

/-! # Definitions that evaluation makes

What the recorder lists as the definitions of a block are the marks of its steps. Only two things are
left to the values: a call may write to parameters, and the lambdas that it runs to what they bind; and
what a store to an attribute defines depends on what the receiver is. So the list may have locations of
these two kinds in between, and none of any other kind. -/

namespace PointsTo

open List

/-- A list with further members in between, all of one kind. -/
inductive Interspersed {α : Type} (P : α → Prop) : List α → List α → Prop
  | nil : Interspersed P [] []
  | keep {a xs ys} : Interspersed P xs ys → Interspersed P (a :: xs) (a :: ys)
  | extra {a xs ys} : P a → Interspersed P xs ys → Interspersed P xs (a :: ys)

namespace Interspersed

variable {α : Type} {P : α → Prop} {xs ys xs' ys' : List α}

theorem refl (xs : List α) : Interspersed P xs xs := by
  induction xs with
  | nil => exact .nil
  | cons a xs ih => exact .keep ih

theorem of_forall (h : ∀ a ∈ ys, P a) : Interspersed P [] ys := by
  induction ys with
  | nil => exact .nil
  | cons a ys ih => exact .extra (h a (by simp)) (ih fun b hb => h b (by simp [hb]))

theorem mono {P' : α → Prop} (hP : ∀ a, P a → P' a) (h : Interspersed P xs ys) : Interspersed P' xs ys := by
  induction h with
  | nil => exact .nil
  | keep _ ih => exact .keep ih
  | extra ha _ ih => exact .extra (hP _ ha) ih

theorem of_cons {a : α} (ha : P a) (h : Interspersed P (a :: xs) ys) : Interspersed P xs ys := by
  generalize hl : a :: xs = l at h
  induction h with
  | nil => cases hl
  | keep h _ =>
    obtain ⟨rfl, rfl⟩ := List.cons.inj hl
    exact .extra ha h
  | extra hb _ ih => exact .extra hb (ih hl)

variable (h : Interspersed P xs ys)
include h

theorem forall_mem {P' : α → Prop} (hxs : ∀ a ∈ xs, P' a) (hP : ∀ a, P a → P' a) : ∀ a ∈ ys, P' a := by
  induction h with
  | nil => exact hxs
  | keep _ ih => simp_all
  | extra ha _ ih => simp_all

theorem append (h' : Interspersed P xs' ys') : Interspersed P (xs ++ xs') (ys ++ ys') := by
  induction h with
  | nil => exact h'
  | keep _ ih => exact .keep ih
  | extra ha _ ih => exact .extra ha ih

theorem sublist : List.Sublist xs ys := by
  induction h with
  | nil => exact .slnil
  | keep _ ih => exact .cons_cons _ ih
  | extra _ _ ih => exact .cons _ ih

theorem eq_of_forall_not (hP : ∀ a, ¬P a) : ys = xs := by
  induction h with
  | nil => rfl
  | keep _ ih => rw [ih]
  | extra ha _ _ => exact absurd ha (hP _)

end Interspersed

def Recorder.noted (r : Recorder) (u : UnitInfo) (b : BlockId) : List Location :=
  (r.definitions[b]?.getD []).filter u.defines

/-- A recorder has got the given definitions of the unit for the block of a frame, perhaps with others of
one kind in between. What it has for other blocks stays the same. -/
structure Recorder.Adds (f : Frame) (P : Location → Prop) (ls : List Location) (r r' : Recorder) : Prop where
  noted : ∃ added, Interspersed P ls added ∧ r'.noted f.unit f.block.id = r.noted f.unit f.block.id ++ added
  others : ∀ b ≠ f.block.id, r'.definitions[b]? = r.definitions[b]?

namespace Recorder.Adds

variable {f : Frame} {P : Location → Prop} {ls ls' : List Location} {r r' r'' : Recorder}

theorem of_eq (h : r'.definitions = r.definitions) : r.Adds f P [] r' :=
  ⟨⟨[], .nil, by simp [Recorder.noted, h]⟩, fun _ _ => by rw [h]⟩

theorem trans (h : r.Adds f P ls r') (h' : r'.Adds f P ls' r'') : r.Adds f P (ls ++ ls') r'' := by
  obtain ⟨added, hadded, hnoted⟩ := h.noted
  obtain ⟨added', hadded', hnoted'⟩ := h'.noted
  refine ⟨⟨added ++ added', hadded.append hadded', ?_⟩, fun b hb => (h'.others b hb).trans (h.others b hb)⟩
  rw [hnoted', hnoted, append_assoc]

theorem imp {P' : Location → Prop} (h : r.Adds f P ls r')
    (himp : ∀ added, Interspersed P ls added → (∀ l ∈ added, f.unit.defines l = true) →
      Interspersed P' ls' added) : r.Adds f P' ls' r' := by
  obtain ⟨added, hadded, hnoted⟩ := h.noted
  refine ⟨⟨added, himp added hadded fun l hl => ?_, hnoted⟩, h.others⟩
  have hmem : l ∈ r'.noted f.unit f.block.id := hnoted ▸ mem_append_right _ hl
  exact (mem_filter.1 hmem).2

theorem mono {P' : Location → Prop} (hP : ∀ l, P l → P' l) (h : r.Adds f P ls r') : r.Adds f P' ls r' :=
  h.imp fun _ hadded _ => hadded.mono hP

end Recorder.Adds

/-- An evaluation that, when it is observed, adds the given definitions to those of the block. -/
def Defines (f : Frame) (P : Location → Prop) (ls : List Location) {α : Type} (act : Eval α) : Prop :=
  ∀ s r, ∃ r', (act.run ⟨s, some r⟩).2.recorder = some r' ∧ r.Adds f P ls r'

namespace Defines

variable {f : Frame} {P : Location → Prop} {ls ls' : List Location} {α β : Type} {act : Eval α}

theorem imp {P' : Location → Prop} (h : Defines f P ls act)
    (himp : ∀ added, Interspersed P ls added → (∀ l ∈ added, f.unit.defines l = true) →
      Interspersed P' ls' added) : Defines f P' ls' act := by
  intro s r
  obtain ⟨r', hrun, hadds⟩ := h s r
  exact ⟨r', hrun, hadds.imp himp⟩

theorem quiet (h : ∀ s r, ∃ r', (act.run ⟨s, some r⟩).2.recorder = some r' ∧ r'.definitions = r.definitions) :
    Defines f P [] act := by
  intro s r
  obtain ⟨r', hrun, hdefs⟩ := h s r
  exact ⟨r', hrun, .of_eq hdefs⟩

theorem pure (v : α) : Defines f P [] (Pure.pure v : Eval α) := quiet fun _ r => ⟨r, rfl, rfl⟩

theorem bindValue {next : α → Eval β} (h : Defines f P ls act)
    (h' : ∀ m, Defines f P ls' (next (act.run m).1)) : Defines f P (ls ++ ls') (act >>= next) := by
  intro s r
  obtain ⟨r', hrun, hadds⟩ := h s r
  obtain ⟨r'', hrun', hadds'⟩ := h' ⟨s, some r⟩ (act.run ⟨s, some r⟩).2.state r'
  refine ⟨r'', ?_, hadds.trans hadds'⟩
  rw [StateT.run_bind, ← hrun', ← hrun]
  rfl

theorem thenQuiet {next : α → Eval β} (h : Defines f P ls act) (h' : ∀ v, Defines f P [] (next v)) :
    Defines f P ls (act >>= next) := by
  simpa only [append_nil] using h.bindValue fun m => h' (act.run m).1

theorem withState {next : Machine → Eval α} (hnext : ∀ s r, next ⟨s, r⟩ = next ⟨s, none⟩)
    (h : ∀ s, Defines f P ls (next ⟨s, none⟩)) : Defines f P ls (get >>= next) := by
  intro s r
  have hs := h s s r
  rw [← hnext s (some r)] at hs
  exact hs

theorem observe {change : Recorder → Recorder} (h : ∀ r, (change r).definitions = r.definitions) :
    Defines f P [] (Eval.observe change) := quiet fun _ r => ⟨change r, rfl, h r⟩

theorem publish (l : Location) (v : TypeSet) : Defines f P [] (Eval.publish l v) := observe fun _ => rfl

theorem modify {change : Machine → Machine} (h : ∀ m, (change m).recorder = m.recorder) :
    Defines f P [] (modify change : Eval Unit) := quiet fun s r => ⟨r, h ⟨s, some r⟩, rfl⟩

theorem noteDefinition (l : Location) : Defines f P ([l].filter f.unit.defines) (Eval.noteDefinition f l) := by
  intro s r
  refine ⟨{ r with definitions := r.definitions.insert f.block.id (r.definitions[f.block.id]?.getD [] ++ [l]) },
    rfl, ⟨[l].filter f.unit.defines, .refl _, ?_⟩, fun b hb => ?_⟩
  · simp [Recorder.noted, filter_append]
  · simp [Std.ExtTreeMap.getElem?_insert, Ne.symm hb]

end Defines

namespace Eval

variable (f : Frame) {P : Location → Prop}

theorem defines_writeSlot (l : Location) (v : TypeSet) :
    Defines f P ([l].filter f.unit.defines) (writeSlot f l v) := by
  have hwrite : ∀ l v (change : Machine → Machine), (∀ m, (change m).recorder = m.recorder) →
      Defines f P [] (do
        publish l v
        modify change) := fun l v _ h =>
    (Defines.publish l v).thenQuiet fun _ => .modify h
  cases l with
  | universal => exact .pure ()
  | var scope name => exact (Defines.noteDefinition _).thenQuiet fun _ => hwrite _ _ _ fun _ => rfl
  | ret node => exact (Defines.noteDefinition _).thenQuiet fun _ => hwrite _ _ _ fun _ => rfl
  | _ => exact hwrite _ _ _ fun _ => rfl

end Eval

/-- An evaluation whose definitions are as the marks say. -/
def Notes (f : Frame) (ms : List Mark) {α : Type} (act : Eval α) : Prop :=
  Defines f (f.Undecided ms) (Mark.locations ms) act

namespace Notes

variable {f : Frame} {ms ms' : List Mark} {α β : Type} {act : Eval α}

theorem mono {ls : List Location} (hms : ms ⊆ ms') (h : Defines f (f.Undecided ms) ls act) :
    Defines f (f.Undecided ms') ls act :=
  h.imp fun _ hadded _ => hadded.mono (Frame.Undecided.mono hms)

theorem bindValue {next : α → Eval β} (h : Notes f ms act) (h' : ∀ m, Notes f ms' (next (act.run m).1)) :
    Notes f (ms ++ ms') (act >>= next) := by
  unfold Notes
  rw [Mark.locations_append]
  exact (mono (subset_append_left _ _) h).bindValue fun m => mono (subset_append_right _ _) (h' m)

theorem of_defines {l : Location}
    (h : Defines f (f.Undecided (Mark.ofWrite f.unit l)) ([l].filter f.unit.defines) act) :
    Notes f (Mark.ofWrite f.unit l) act := by
  have hlocations : Mark.locations (Mark.ofWrite f.unit l) = [l].filter f.unit.defines := by
    unfold Mark.ofWrite
    split <;> simp_all [Mark.locations, Mark.define?]
  rwa [← hlocations] at h

theorem writeSlot {l : Location} (hl : f.unit.defines l = true → f.Undecided [] l) (v : TypeSet) :
    Notes f [] (Eval.writeSlot f l v) := by
  have h := Eval.defines_writeSlot f l v (P := f.Undecided [])
  rw [filter_cons] at h
  split at h
  next hown => exact h.imp fun _ hadded _ => hadded.of_cons (hl hown)
  next => exact h

theorem relax (h : Notes f ms act) (hms : Mark.locations ms' = []) (hundecided : ∀ l, f.unit.defines l = true →
      .define l ∈ ms ∨ (∃ attr, .store attr ∈ ms ∧ f.program.Attribute attr l) → f.Undecided ms' l) :
    Notes f ms' act := by
  unfold Notes
  rw [hms]
  refine Defines.imp h fun added hadded hown => .of_forall fun l hl => ?_
  have hsources : ∀ l ∈ added, l ∈ Mark.locations ms ∨ f.Undecided ms l :=
    hadded.forall_mem (fun l hl => .inl hl) (fun l hl => .inr hl)
  rcases hsources l hl with hmem | ⟨-, hcalled | hstore⟩
  · obtain ⟨mark, hmark, hdefine⟩ := mem_filterMap.1 hmem
    cases mark with
    | define l' =>
      cases hdefine
      exact hundecided _ (hown _ hl) (.inl hmark)
    | store attr => cases hdefine
  · exact ⟨hown l hl, .inl hcalled⟩
  · exact hundecided l (hown l hl) (.inr hstore)

end Notes

def Reading.definitions (f : Frame) : Reading f .all .univ where
  cover := f.covered_all
  holds ms _ act good := Notes f ms act ∧ ∀ m, good (act.run m).1
  quiet l := f.unit.defines l = true → f.Undecided [] l
  pure h := ⟨.pure _, fun _ => h⟩
  bind h hnext := ⟨h.1.bindValue fun m => (hnext _ (h.2 m)).1, fun m => (hnext _ (h.2 m)).2 _⟩
  withState hnext h := ⟨.withState hnext fun s => (h s s.in_all).1, fun m => by
    have hgood := (h m.state m.state.in_all).2 m
    rwa [← hnext m.state m.recorder] at hgood⟩
  record _ _ := ⟨.observe fun _ => rfl, fun _ => trivial⟩
  flag _ _ := ⟨.observe fun _ => rfl, fun _ => trivial⟩
  write _ _ hl := ⟨.writeSlot hl _, fun _ => trivial⟩
  slot {l} hl := by cases l <;> simp_all [Location.isHeap, UnitInfo.defines]
  called h hown := ⟨hown, .inl h⟩

instance (f : Frame) : (Reading.definitions f).Full where
  mark _ _ := ⟨.of_defines (Eval.defines_writeSlot f _ _), fun _ => trivial⟩
  note l := ⟨.of_defines (Defines.noteDefinition l), fun _ => trivial⟩
  replace _ _ _ := ⟨(Defines.publish _ _).thenQuiet fun _ => .modify fun _ => rfl, fun _ => trivial⟩
  keep _ _ := ⟨(Defines.publish _ _).thenQuiet fun _ => .modify fun _ => rfl, fun _ => trivial⟩
  hold _ _ := ⟨.modify fun _ => rfl, fun _ => trivial⟩
  relax h hms hundecided := ⟨h.1.relax hms hundecided, h.2⟩

end PointsTo
