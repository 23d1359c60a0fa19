import PointsTo.Proofs.Evaluation.Provenance

/-! # Blocks keep to a language

Evaluation against a state and an environment in a language that covers the program makes up no word: its values are in
the language, and so are its writes. So a block that runs on a state in the language, against an environment in it, ends
on such a state and lets others see such writes only. -/

namespace PointsTo

open Option

variable {L : Language} {known : Set Node} {f : Frame}

/-- A machine whose state and recorded writes are in a language. -/
structure Machine.In (L : Language) (m : Machine) : Prop where
  state : m.state.In L
  effects : ∀ r, m.recorder = some r → r.effects.In L

/-- An evaluation that keeps the machine in a language and has results with a property. -/
def Eval.KeepsTo (L : Language) {α : Type} (act : Eval α) (good : α → Prop) : Prop :=
  ∀ m : Machine, m.In L → good (act.run m).1 ∧ (act.run m).2.In L

namespace Eval.KeepsTo

theorem bind {α β : Type} {act : Eval α} {good : α → Prop} {good' : β → Prop} {next : α → Eval β}
    (h : KeepsTo L act good) (hnext : ∀ v, good v → KeepsTo L (next v) good') : KeepsTo L (act >>= next) good' := by
  intro m hm
  obtain ⟨hv, hm'⟩ := h m hm
  exact hnext _ hv _ hm'

theorem observe {change : Recorder → Recorder} (h : ∀ r, r.effects.In L → (change r).effects.In L) :
    KeepsTo L (Eval.observe change) fun _ => True := by
  intro m hm
  refine ⟨trivial, hm.state, fun r hr => ?_⟩
  obtain ⟨r₀, hr₀, rfl⟩ := Option.map_eq_some_iff.1 hr
  exact h r₀ (hm.effects r₀ hr₀)

theorem update {l : Location} {v : TypeSet} (hl : l.In L) (hv : v.In L) (change : AbstractState → AbstractState)
    (h : ∀ s, s.In L → (change s).In L) : KeepsTo L (do
      publish l v
      modify fun m => { m with state := change m.state }) fun _ => True :=
  (observe fun _ h => h.weakUpdate hl hv).bind fun _ _ m hm => ⟨trivial, h m.state hm.state, hm.effects⟩

theorem writeSlot (f : Frame) {l : Location} {v : TypeSet} (hl : l.In L) (hv : v.In L) :
    KeepsTo L (Eval.writeSlot f l v) fun _ => True := by
  have hnote : ∀ l, KeepsTo L (noteDefinition f l) fun _ => True := fun l => observe fun _ h => h
  have hplain := update hl (hv.without .unbound) (·.weakUpdate l (v.without .unbound)) fun s hs =>
    hs.weakUpdate hl (hv.without _)
  cases l with
  | universal => exact fun m hm => ⟨trivial, hm⟩
  | var scope name =>
    exact (hnote _).bind fun _ _ => update hl hv _ fun s hs => hs.discardUnbound.weakUpdate hl hv
  | ret node => exact (hnote _).bind fun _ _ => hplain
  | _ => exact hplain

end Eval.KeepsTo

def Frame.Covered.reading (hf : f.Covered L known) : Reading f L known where
  cover := hf
  holds _ _ act good := Eval.KeepsTo L act good
  quiet _ := True
  pure h _ hm := ⟨h, hm⟩
  bind := .bind
  withState {_ next good} hnext h m hm := by
    have hrun := h m.state hm.state m hm
    rwa [← hnext m.state m.recorder] at hrun
  record _ _ := .observe fun _ h => h
  flag _ _ := .observe fun _ h => h
  write hl hv _ := .writeSlot f hl hv
  slot _ := trivial
  called _ := trivial

instance (hf : f.Covered L known) : hf.reading.Full where
  mark hl hv := .writeSlot f hl hv
  note _ := .observe fun _ h => h
  replace hl hv _ := .update hl hv _ fun _ h => h.set hl hv
  keep {node _} hnode hv := .update (l := .temp node) hnode hv _ fun _ h => h.set (l := .temp node) hnode hv
  hold {node _} hnode hv _ hm := ⟨trivial, hm.state.set (l := .temp node) hnode hv, hm.effects⟩
  relax h _ _ := h

/-! ## Blocks -/

namespace Frame.Covered

variable (hf : f.Covered L known)
include hf

theorem caughtBy {s : AbstractState} (hs : s.In L) (handler : NodeId) {depth : Nat} {types v : TypeSet}
    (htypes : types.In L) (h : f.caughtBy s handler depth types = some v) : v.In L := by
  induction depth generalizing types v with
  | zero => cases h
  | succ depth ih =>
    unfold Frame.caughtBy at h
    split at h
    · exact some.inj h ▸ trivial
    · obtain ⟨vs, hvs, rfl⟩ := Option.map_eq_some_iff.1 h
      refine TypeSet.in_joinAll fun w hw => ?_
      obtain ⟨t, hmem, hcaught⟩ := exists_of_mem_mapM hvs hw
      have ht := htypes.of_mem_toList hmem
      clear hmem
      unfold caughtTag at hcaught
      split at hcaught
      next => exact some.inj hcaught ▸ TypeSet.in_single.2 (hf.inst ht)
      next name =>
        have hr := hf.alloc handler (.builtin name) ht (Nat.zero_le 255)
        exact some.inj hcaught ▸ TypeSet.in_object hr
      next => exact ih (hf.value hs _) hcaught
      next => exact some.inj hcaught ▸ trivial

theorem handle {handler : Node} (hhandler : handler ∈ known) {m m' : Machine} (h : f.handle handler m = some m')
    (hm : m.In L) : m'.In L := by
  unfold Frame.handle at h
  split at h
  next named _ _ heq =>
    have hnamed : named ∈ known := hf.child hhandler (by simp [heq])
    obtain ⟨htypes, hm₁⟩ := Eval.says_evaluate (R := hf.reading) hnamed m hm
    obtain ⟨v, hv, rfl⟩ := Option.map_eq_some_iff.1 h
    exact (Eval.says_bindCaught (R := hf.reading) handler (hf.caughtBy hm₁.state handler.id htypes hv) _ hm₁).2
  next =>
    cases h
    exact (Eval.says_bindCaught (R := hf.reading) handler TypeSet.in_top m hm).2

theorem step {s : Step} (hs : s ∈ f.block.steps) (hknown : ∀ n ∈ s.nodes, n ∈ known) {m m' : Machine}
    (h : f.step m s = some m') (hm : m.In L) : m'.In L := by
  cases s with
  | handle handler => exact hf.handle (hknown handler (by simp [Step.nodes])) h hm
  | _ =>
    cases h
    exact (Eval.says_runStep (R := hf.reading) hs hknown (by simp) m hm).2

theorem apply {b : Block} (hb : ∀ s ∈ b.steps, ∀ n ∈ s.nodes, n ∈ known) {m m' : Machine}
    (h : f.apply b m = some m') (hm : m.In L) : m'.In L := by
  have hfb : Frame.Covered { f with block := b } L known :=
    ⟨hf.toCovered, hf.env, hf.unitNode, hf.ownScope, hf.methodOf⟩
  have hsteps : ∀ (steps : List Step) {m : Machine}, steps ⊆ b.steps →
      steps.foldlM (Frame.step { f with block := b }) m = some m' → m.In L → m'.In L := by
    intro steps
    induction steps with
    | nil => exact fun _ h hm => some.inj h ▸ hm
    | cons s steps ih =>
      intro m hs h hm
      obtain ⟨hmem, hs⟩ := List.cons_subset.1 hs
      obtain ⟨m₁, hm₁, h⟩ := Option.bind_eq_some_iff.1 h
      exact ih hs h (hfb.step hmem (hb s hmem) hm₁ hm)
  exact hsteps b.steps (List.Subset.refl _) h hm

end Frame.Covered
end PointsTo
