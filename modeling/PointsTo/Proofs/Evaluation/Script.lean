import PointsTo.Proofs.Evaluation.Steps

/-! # Evaluation follows a script

Whatever is evaluated, the state alone decides its value and a list of deeds: weak updates, replaced
variables, values held in temporaries, and notes for the recorder. Carrying out the deeds is all that the
evaluation does. Each deed changes the state without looking at the recorder and the recorder without
looking at the state, so it makes no difference whether anybody watches. What holds of all evaluations is
therefore shown once for every deed. -/

namespace PointsTo

/-- One thing that evaluation does to the machine. -/
inductive Deed where
  /-- Records something other than a write. -/
  | observe (change : Recorder → Recorder)
  /-- Updates a location weakly. -/
  | write (l : Location) (v : TypeSet)
  /-- Replaces the value of a variable. -/
  | replace (l : Location) (v : TypeSet)
  /-- Keeps the default of a parameter. -/
  | keep (node : NodeId) (v : TypeSet)
  /-- Stores into a temporary. -/
  | hold (node : NodeId) (v : TypeSet)

namespace Deed

/-- The value that a write to a location stores. Only variables can be unbound. -/
def stored (l : Location) (v : TypeSet) : TypeSet :=
  match l with
  | .var _ _ => v
  | _ => v.without .unbound

def onState : Deed → AbstractState → AbstractState
  | .observe _, s => s
  | .write l v, s => (match l with
    | .var _ _ => s.discardUnbound l
    | _ => s).weakUpdate l (stored l v)
  | .replace l v, s => s.set l v
  | .keep node v, s => s.set (.temp node) v
  | .hold node v, s => s.set (.temp node) v

/-- The write that others can see, if the deed is one. -/
def published? : Deed → Option (Location × TypeSet)
  | .write l v => some (l, stored l v)
  | .replace l v => some (l, v)
  | .keep node v => some (.temp node, v)
  | .observe _ | .hold _ _ => none

def onRecorder (d : Deed) (r : Recorder) : Recorder :=
  match d, d.published? with
  | .observe change, _ => change r
  | _, some (l, v) => { r with effects := r.effects.weakUpdate l v }
  | _, none => r

/-- The deeds that the frame of an evaluation allows: notes leave the writes alone, no write goes to a
place without a name, and of the variables only those that may be replaced are, and parameters where the
block binds them. -/
def Allowed (f : Frame) : Deed → Prop
  | .observe change => ∀ r, (change r).effects = r.effects
  | .write l _ => l ≠ .universal
  | .replace l _ => f.replaces false l = true ∨ f.block.bindsParameters = true ∧ ∃ name, l = .var f.unit.scope name
  | .keep _ _ | .hold _ _ => True

end Deed

def Machine.perform (ds : List Deed) (m : Machine) : Machine :=
  ⟨ds.foldl (fun s d => d.onState s) m.state, m.recorder.map fun r => ds.foldl (fun r d => d.onRecorder r) r⟩

@[simp] theorem Machine.perform_nil (m : Machine) : m.perform [] = m := by
  cases m
  simp [perform]

theorem Machine.perform_append (m : Machine) (ds es : List Deed) :
    m.perform (ds ++ es) = (m.perform ds).perform es := by
  simp [perform, List.foldl_append, Option.map_map, Function.comp_def]

/-- An evaluation whose value and deeds depend on the state alone. -/
def Scripted (f : Frame) {α : Type} (act : Eval α) : Prop :=
  ∀ s, ∃ v ds, (∀ d ∈ ds, d.Allowed f) ∧ ∀ r, act.run ⟨s, r⟩ = (v, Machine.perform ds ⟨s, r⟩)

namespace Scripted

variable {f : Frame} {α β : Type} {act : Eval α}

theorem pure (v : α) : Scripted f (pure v) := by
  intro s
  exact ⟨v, [], by simp, fun r => by simp; rfl⟩

theorem bindValue {next : α → Eval β} (h : Scripted f act) (h' : ∀ m, Scripted f (next (act.run m).1)) :
    Scripted f (act >>= next) := by
  intro s
  obtain ⟨v, ds, hds, hrun⟩ := h s
  have h' : Scripted f (next v) := by simpa only [hrun none] using h' ⟨s, none⟩
  obtain ⟨w, es, hes, hrun'⟩ := h' (ds.foldl (fun s d => d.onState s) s)
  refine ⟨w, ds ++ es, ?_, fun r => ?_⟩
  · intro d hd
    rcases List.mem_append.1 hd with hd | hd
    · exact hds d hd
    · exact hes d hd
  · rw [StateT.run_bind, hrun r]
    exact (hrun' _).trans (by rw [Machine.perform_append]; rfl)

theorem andThen {act : Eval Unit} {next : Unit → Eval β} (h : Scripted f act) (h' : Scripted f (next ())) :
    Scripted f (act >>= next) := h.bindValue fun _ => h'

theorem withState {next : Machine → Eval α} (hnext : ∀ s r, next ⟨s, r⟩ = next ⟨s, none⟩)
    (h : ∀ s, Scripted f (next ⟨s, none⟩)) : Scripted f (get >>= next) := by
  intro s
  obtain ⟨v, ds, hds, hrun⟩ := h s s
  refine ⟨v, ds, hds, fun r => ?_⟩
  change (next ⟨s, r⟩).run ⟨s, r⟩ = _
  rw [hnext, hrun r]

theorem deed {d : Deed} {act : Eval Unit} (hd : d.Allowed f)
    (h : ∀ s r, act.run ⟨s, r⟩ = ((), ⟨d.onState s, r.map d.onRecorder⟩)) : Scripted f act := by
  intro s
  refine ⟨(), [d], ?_, fun r => ?_⟩
  · simpa using hd
  · rw [h]
    rfl

end Scripted

namespace Eval

variable (f : Frame)

theorem scripted_observe {change : Recorder → Recorder} (h : ∀ r, (change r).effects = r.effects) :
    Scripted f (observe change) :=
  .deed (d := .observe change) h fun _ _ => rfl

theorem scripted_noteDefinition (l : Location) : Scripted f (noteDefinition f l) :=
  scripted_observe f fun _ => rfl

theorem scripted_writeSlot (l : Location) (v : TypeSet) : Scripted f (writeSlot f l v) := by
  have hdeed : ∀ l, l ≠ .universal → Scripted f (do
      publish l (Deed.stored l v)
      modify fun m => { m with state := (Deed.write l v).onState m.state }) := by
    intro l hl
    refine .deed (d := .write l v) hl fun s r => ?_
    cases r <;> rfl
  cases l with
  | universal => exact .pure ()
  | var scope name => exact (scripted_noteDefinition f _).andThen (hdeed _ (by simp))
  | ret node => exact (scripted_noteDefinition f _).andThen (hdeed _ (by simp))
  | _ => exact hdeed _ (by simp)

end Eval

def Reading.script (f : Frame) : Reading f .all .univ where
  cover := f.covered_all
  holds _ _ act good := Scripted f act ∧ ∀ m, good (act.run m).1
  quiet _ := True
  pure h := ⟨.pure _, fun _ => h⟩
  bind h hnext := ⟨h.1.bindValue fun m => (hnext _ (h.2 m)).1, fun m => (hnext _ (h.2 m)).2 _⟩
  withState hnext h := ⟨.withState hnext fun s => (h s s.in_all).1, fun m => by
    have hgood := (h m.state m.state.in_all).2 m
    rwa [← hnext m.state m.recorder] at hgood⟩
  record _ _ := ⟨Eval.scripted_observe f fun _ => rfl, fun _ => trivial⟩
  flag _ _ := ⟨Eval.scripted_observe f fun _ => rfl, fun _ => trivial⟩
  write _ _ _ := ⟨Eval.scripted_writeSlot f _ _, fun _ => trivial⟩
  slot _ := trivial
  called _ := trivial

instance (f : Frame) : (Reading.script f).Full where
  mark _ _ := ⟨Eval.scripted_writeSlot f _ _, fun _ => trivial⟩
  note l := ⟨Eval.scripted_noteDefinition f l, fun _ => trivial⟩
  replace {l v} _ _ h := ⟨.deed (d := .replace l v) h fun _ r => by cases r <;> rfl, fun _ => trivial⟩
  keep {node v} _ _ := ⟨.deed (d := .keep node v) trivial fun _ r => by cases r <;> rfl, fun _ => trivial⟩
  hold {node v} _ _ := ⟨.deed (d := .hold node v) trivial fun _ r => by cases r <;> rfl, fun _ => trivial⟩
  relax h _ _ := h

/-! ## Blocks -/

/-- A change of the machine that the state alone decides: it does not end, or it carries out deeds. -/
def FollowsScript (f : Frame) (act : Machine → Option Machine) : Prop :=
  ∀ s, (∀ r, act ⟨s, r⟩ = none) ∨
    ∃ ds, (∀ d ∈ ds, d.Allowed f) ∧ ∀ r, act ⟨s, r⟩ = some (Machine.perform ds ⟨s, r⟩)

theorem FollowsScript.bind {f : Frame} {act next : Machine → Option Machine} (h : FollowsScript f act)
    (h' : FollowsScript f next) : FollowsScript f fun m => (act m).bind next := by
  intro s
  rcases h s with hnone | ⟨ds, hds, hrun⟩
  · exact .inl fun r => by simp [hnone r]
  · rcases h' (ds.foldl (fun s d => d.onState s) s) with hnone | ⟨es, hes, hrun'⟩
    · refine .inl fun r => ?_
      simp only [hrun r, Option.bind_some]
      exact hnone _
    · refine .inr ⟨ds ++ es, ?_, fun r => ?_⟩
      · intro d hd
        exact (List.mem_append.1 hd).elim (hds d) (hes d)
      · simp only [hrun r, Option.bind_some, Machine.perform_append]
        exact hrun' _

namespace Frame

variable (f : Frame)

theorem followsScript_of_scripted {α : Type} {act : Eval α} (h : Scripted f act) :
    FollowsScript f fun m => some (act.run m).2 := by
  intro s
  obtain ⟨v, ds, hds, hrun⟩ := h s
  exact .inr ⟨ds, hds, fun r => congrArg some (congrArg Prod.snd (hrun r))⟩

theorem followsScript_handle (handler : Node) : FollowsScript f (f.handle handler) := by
  unfold handle
  split
  next named _ _ _ =>
    intro s
    obtain ⟨types, ds, hds, hrun⟩ := (Eval.says_evaluate (R := .script f) (n := named) trivial).1 s
    cases hcaught : f.caught (ds.foldl (fun s d => d.onState s) s) handler.id types with
    | none =>
      refine .inl fun r => ?_
      simp only [hrun r]
      exact Option.map_eq_none_iff.2 hcaught
    | some v =>
      obtain ⟨_, es, hes, hrun'⟩ :=
        (Eval.says_bindCaught (R := .script f) handler v.in_all).1 (ds.foldl (fun s d => d.onState s) s)
      refine .inr ⟨ds ++ es, ?_, fun r => ?_⟩
      · intro d hd
        exact (List.mem_append.1 hd).elim (hds d) (hes d)
      · simp only [hrun r, Machine.perform_append]
        refine Option.map_eq_some_iff.2 ⟨v, hcaught, ?_⟩
        exact congrArg Prod.snd (hrun' _)
  next => exact f.followsScript_of_scripted (Eval.says_bindCaught (R := .script f) handler TypeSet.in_top).1

theorem followsScript_step {s : Step} (hs : s ∈ f.block.steps) : FollowsScript f fun m => f.step m s := by
  cases s with
  | handle handler => exact f.followsScript_handle handler
  | _ =>
    exact f.followsScript_of_scripted
      (Eval.says_runStep (R := .script f) hs (fun _ _ => trivial) (by simp)).1

theorem followsScript_steps {steps : List Step} (hsteps : steps ⊆ f.block.steps) :
    FollowsScript f fun m => steps.foldlM f.step m := by
  induction steps with
  | nil => exact fun s => .inr ⟨[], by simp, fun r => by simp⟩
  | cons step steps ih =>
    obtain ⟨hstep, hsteps⟩ := List.cons_subset.1 hsteps
    exact (f.followsScript_step hstep).bind (ih hsteps)

theorem followsScript_apply (b : Block) : FollowsScript { f with block := b } (f.apply b) :=
  followsScript_steps _ (List.Subset.refl b.steps)

theorem exists_deeds {f : Frame} {b : Block} {m m' : Machine} (h : f.apply b m = some m') :
    ∃ ds, (∀ d ∈ ds, d.Allowed { f with block := b }) ∧
      ∀ r, f.apply b ⟨m.state, r⟩ = some (Machine.perform ds ⟨m.state, r⟩) := by
  rcases f.followsScript_apply b m.state with hnone | hscript
  · cases h.symm.trans (hnone m.recorder)
  · exact hscript

end Frame
end PointsTo
