import PointsTo.Inference
import PointsTo.Proofs.Evaluation.Definitions
import PointsTo.Proofs.Evaluation.Steps
import PointsTo.Proofs.Flow.DepthFirst

/-! # Definitions that blocks make

Statements and blocks define what their marks say because their parts do. A replay runs every reached
block once, so that in the end each block has the definitions that it has added itself. -/

namespace PointsTo

open List Mark Option

/-! ## Blocks -/

/-- A change of the machine that adds the marked definitions, when it is observed and ends. -/
def NotesIfEnds (f : Frame) (ms : List Mark) (act : Machine → Option Machine) : Prop :=
  ∀ s r m, act ⟨s, some r⟩ = some m →
    ∃ r', m.recorder = some r' ∧ r.Adds f (f.Undecided ms) (Mark.locations ms) r'

namespace NotesIfEnds

variable {f : Frame} {ms ms' : List Mark} {act next : Machine → Option Machine}

theorem of_notes {α : Type} {act : Eval α} (h : Notes f ms act) : NotesIfEnds f ms fun m => some (act.run m).2 := by
  intro s r m hm
  cases hm
  exact h s r

theorem bind (h : NotesIfEnds f ms act) (h' : NotesIfEnds f ms' next) :
    NotesIfEnds f (ms ++ ms') fun m => (act m).bind next := by
  intro s r m hm
  obtain ⟨m₁, hact, hnext⟩ := Option.bind_eq_some_iff.1 hm
  obtain ⟨r₁, hr₁, hadds⟩ := h s r m₁ hact
  obtain ⟨r₂, hr₂, hadds'⟩ := h' m₁.state r₁ m (by rw [← hr₁]; exact hnext)
  refine ⟨r₂, hr₂, ?_⟩
  rw [locations_append]
  exact (hadds.mono (Frame.Undecided.mono (subset_append_left _ _))).trans
    (hadds'.mono (Frame.Undecided.mono (subset_append_right _ _)))

end NotesIfEnds

namespace Frame

variable (f : Frame)

theorem notesIfEnds_handle (handler : Node) :
    NotesIfEnds f (ofHandler f.program f.graph f.unit handler) (f.handle handler) := by
  have hcaught : ∀ v : TypeSet, Notes f (ofCaught f.program f.unit handler) (Eval.bindCaught f handler v) :=
    fun v => (Eval.says_bindCaught (R := .definitions f) handler v.in_all).1
  unfold handle ofHandler
  rcases handler.children with _ | ⟨named, _ | _⟩
  · exact .of_notes (hcaught .top)
  · exact .of_notes (hcaught .top)
  · -- The search for the exceptions only looks at the state between the two evaluations.
    intro s r m hm
    obtain ⟨v, -, rfl⟩ := Option.map_eq_some_iff.1 hm
    have hboth : Notes f (ofExpr f.program f.graph f.unit false named ++ ofCaught f.program f.unit handler)
        (Eval.evaluate f named >>= fun _ => Eval.bindCaught f handler v) :=
      (Eval.says_evaluate (R := .definitions f) (n := named) trivial).1.bindValue fun _ => hcaught v
    have h := hboth s r
    rwa [StateT.run_bind] at h

theorem notesIfEnds_step {s : Step} (hs : s ∈ f.block.steps) :
    NotesIfEnds f (Mark.ofStep f.program f.graph f.unit s) fun m => f.step m s := by
  cases s with
  | handle handler => exact f.notesIfEnds_handle handler
  | _ => exact .of_notes (Eval.says_runStep (R := .definitions f) hs (fun _ _ => trivial) (by simp)).1

theorem notesIfEnds_steps {steps : List Step} (hsteps : steps ⊆ f.block.steps) :
    NotesIfEnds f (steps.flatMap (Mark.ofStep f.program f.graph f.unit)) fun m => steps.foldlM f.step m := by
  induction steps with
  | nil =>
    intro s r m hm
    cases hm
    exact ⟨r, rfl, .of_eq rfl⟩
  | cons step steps ih =>
    obtain ⟨hstep, hsteps⟩ := cons_subset.1 hsteps
    exact (f.notesIfEnds_step hstep).bind (ih hsteps)

theorem notesIfEnds_apply (b : Block) :
    NotesIfEnds { f with block := b } (Mark.ofBlock f.program f.graph f.unit b) (f.apply b) :=
  notesIfEnds_steps { f with block := b } (List.Subset.refl b.steps)

/-! ## Replays -/

/-- What a recorder has once some blocks have run: for each of those that were reached what it adds, and
nothing for any other block. -/
structure Replayed (inputs : Std.ExtTreeMap BlockId AbstractState) (done : List BlockId) (r : Recorder) :
    Prop where
  added : ∀ b ∈ done, ∀ s, inputs[b]? = some s →
    Interspersed (f.Undecided (Mark.ofBlock f.program f.graph f.unit (f.graph.block b)))
      (Mark.locations (Mark.ofBlock f.program f.graph f.unit (f.graph.block b))) (r.noted f.unit b)
  untouched : ∀ b ∉ done, r.definitions[b]? = none

variable {f} {inputs : Std.ExtTreeMap BlockId AbstractState} {done : List BlockId} {r r' : Recorder}
variable (hid : ∀ b, (f.graph.block b).id = b)
include hid

theorem Replayed.replayBlock (h : f.Replayed inputs done r) {b : BlockId}
    (hb : b ∉ done) (hr : f.replayBlock inputs r b = some r') : f.Replayed inputs (done ++ [b]) r' := by
  unfold Frame.replayBlock at hr
  split at hr
  next s hs =>
    obtain ⟨m, hm, hr'⟩ := Option.bind_eq_some_iff.1 hr
    obtain ⟨r'', hr'', hadds⟩ := f.notesIfEnds_apply (f.graph.block b) s r m hm
    obtain rfl : r'' = r' := some.inj (hr''.symm.trans hr')
    obtain ⟨added, hadded, hnoted⟩ := hadds.noted
    have hothers : ∀ c ≠ b, r''.definitions[c]? = r.definitions[c]? := fun c hc =>
      hadds.others c (by rwa [hid])
    have hbefore : r.noted f.unit b = [] := by simp [Recorder.noted, h.untouched b hb]
    simp only [hid, hbefore, nil_append] at hnoted
    constructor
    · intro c hc s' hs'
      rcases mem_append.1 hc with hc | hc
      · rw [Recorder.noted, hothers c fun hcb => hb (hcb ▸ hc)]
        exact h.added c hc s' hs'
      · cases mem_singleton.1 hc
        rw [hnoted]
        exact hadded
    · intro c hc
      rw [hothers c fun hcb => hc (by simp [hcb])]
      exact h.untouched c fun hmem => hc (mem_append_left _ hmem)
  next hs =>
    cases hr
    constructor
    · intro c hc s hs'
      rcases mem_append.1 hc with hc | hc
      · exact h.added c hc s hs'
      · cases mem_singleton.1 hc
        rw [hs] at hs'
        cases hs'
    · exact fun c hc => h.untouched c fun hmem => hc (mem_append_left _ hmem)

theorem Replayed.foldlM {todo : List BlockId} (hnodup : (done ++ todo).Nodup)
    (h : f.Replayed inputs done r) (hr : todo.foldlM (f.replayBlock inputs) r = some r') :
    f.Replayed inputs (done ++ todo) r' := by
  induction todo generalizing done r with
  | nil =>
    cases hr
    rwa [append_nil]
  | cons b todo ih =>
    obtain ⟨r₁, hr₁, hr⟩ := Option.bind_eq_some_iff.1 hr
    rw [append_cons] at hnodup ⊢
    have hb : b ∉ done := fun hmem => by
      have hdone := (nodup_append.1 (nodup_append.1 hnodup).1).2.2
      exact hdone b hmem b (by simp) rfl
    exact ih hnodup (h.replayBlock hid hb hr₁) hr

theorem replayed_replay (hr : f.replay inputs = some r) : f.Replayed inputs f.graph.reversePostorder r := by
  have hstart : f.Replayed inputs [] ({} : Recorder) := ⟨by simp, fun _ _ => Std.ExtTreeMap.getElem?_empty⟩
  exact hstart.foldlM hid f.graph.nodup_reversePostorder hr

end Frame
end PointsTo
