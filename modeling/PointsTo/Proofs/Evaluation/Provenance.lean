import PointsTo.Inference
import PointsTo.Proofs.Evaluation.Script
import PointsTo.Proofs.Mapping
import PointsTo.Proofs.Solver.Equations

/-! # Where the contents of states come from

A block leaves nothing in a state, temporaries apart, that was not there before or that it has not written
where others can see it. Joins add nothing but that a variable may be unbound. So whatever a solve finds
in a state was written by one of its visits. -/

namespace PointsTo

open AbstractState

def Location.isTemp : Location → Bool
  | .temp _ => true
  | _ => false

namespace Deed

variable {f : Frame} {d : Deed} {s : AbstractState} {l : Location} {x : Option TypeTag}

theorem get?_universal_onState (hd : d.Allowed f) (h : s.get? .universal = none) :
    (d.onState s).get? .universal = none := by
  cases d with
  | observe change => exact h
  | write m v =>
    cases m with
    | universal => exact absurd rfl hd
    | var scope name =>
      refine (get?_weakUpdate ..).trans ?_
      rw [if_neg (by simp), get?_discardUnbound, if_neg (by simp), h]
    | _ => exact (get?_weakUpdate ..).trans (by rw [if_neg (by simp), h])
  | replace m v =>
    refine (get?_set ..).trans ?_
    rw [if_neg ?_, h]
    rintro rfl
    rcases hd with hd | ⟨-, name, hd⟩
    · simp [Frame.replaces, Frame.owns] at hd
    · cases hd
  | keep node v => exact (get?_set ..).trans (by rw [if_neg (by simp), h])
  | hold node v => exact (get?_set ..).trans (by rw [if_neg (by simp), h])

/-- What a deed leaves in a state was there before, or others can see that it was written. -/
theorem holds_onState (hl : l.isTemp = false) (h : (d.onState s).Holds l x) :
    s.Holds l x ∨ ∃ v, d.published? = some (l, v) ∧ v.Holds x := by
  have hset : ∀ {m : Location} {v : TypeSet}, (s.set m v).Holds l x → s.Holds l x ∨ (m = l ∧ v.Holds x) := by
    rintro m v ⟨w, hw, hx⟩
    rw [get?_set] at hw
    split at hw
    next hm =>
      cases hw
      exact .inr ⟨hm, hx⟩
    next => exact .inl ⟨w, hw, hx⟩
  cases d with
  | observe change => exact .inl h
  | write m v =>
    have hwrite : s.Holds l x ∨ (m = l ∧ (stored m v).Holds x) := by
      cases m with
      | var scope name =>
        exact (holds_weakUpdate.1 h).imp_left holds_discardUnbound
      | _ => exact holds_weakUpdate.1 h
    rcases hwrite with h | ⟨rfl, hx⟩
    · exact .inl h
    · exact .inr ⟨_, rfl, hx⟩
  | replace m v =>
    rcases hset h with h | ⟨rfl, hx⟩
    · exact .inl h
    · exact .inr ⟨v, rfl, hx⟩
  | keep node v =>
    rcases hset h with h | ⟨rfl, hx⟩
    · exact .inl h
    · cases hl
  | hold node v =>
    rcases hset h with h | ⟨rfl, hx⟩
    · exact .inl h
    · cases hl

theorem holds_effects_onRecorder (hd : d.Allowed f) {r : Recorder} : (d.onRecorder r).effects.Holds l x ↔
      r.effects.Holds l x ∨ ∃ v, d.published? = some (l, v) ∧ v.Holds x := by
  have hpublish : ∀ {m : Location} {v : TypeSet}, (r.effects.weakUpdate m v).Holds l x ↔
      r.effects.Holds l x ∨ ∃ w, some (m, v) = some (l, w) ∧ w.Holds x := by
    intro m v
    rw [holds_weakUpdate]
    refine or_congr_right ?_
    constructor
    · rintro ⟨rfl, hx⟩
      exact ⟨v, rfl, hx⟩
    · rintro ⟨w, hw, hx⟩
      obtain ⟨rfl, rfl⟩ := Prod.mk.inj (Option.some.inj hw)
      exact ⟨rfl, hx⟩
  cases d with
  | observe change => simp [onRecorder, published?, hd r]
  | hold node v => simp [onRecorder, published?]
  | _ => exact hpublish

end Deed

section Scripts

variable {f : Frame} {ds : List Deed} {l : Location} {x : Option TypeTag}

theorem get?_universal_deeds (hds : ∀ d ∈ ds, d.Allowed f) {s : AbstractState}
    (h : s.get? .universal = none) : (ds.foldl (fun s d => d.onState s) s).get? .universal = none :=
  List.foldlRecOn (motive := fun s : AbstractState => s.get? .universal = none) ds _ h fun _ hs d hd =>
    Deed.get?_universal_onState (hds d hd) hs

theorem holds_deeds (hl : l.isTemp = false) {s : AbstractState}
    (h : (ds.foldl (fun s d => d.onState s) s).Holds l x) :
    s.Holds l x ∨ ∃ d ∈ ds, ∃ v, d.published? = some (l, v) ∧ v.Holds x := by
  induction ds generalizing s with
  | nil => exact .inl h
  | cons d ds ih =>
    rcases ih h with h | ⟨e, he, hv⟩
    · rcases Deed.holds_onState hl h with h | hv
      · exact .inl h
      · exact .inr ⟨d, by simp, hv⟩
    · exact .inr ⟨e, by simp [he], hv⟩

theorem holds_effects_deeds (hds : ∀ d ∈ ds, d.Allowed f) {r : Recorder} :
    (ds.foldl (fun r d => d.onRecorder r) r).effects.Holds l x ↔
      r.effects.Holds l x ∨ ∃ d ∈ ds, ∃ v, d.published? = some (l, v) ∧ v.Holds x := by
  induction ds generalizing r with
  | nil => simp
  | cons d ds ih =>
    rw [List.foldl_cons, ih fun e he => hds e (by simp [he]),
      Deed.holds_effects_onRecorder (hds d (by simp)), or_assoc]
    simp

end Scripts

namespace Frame

variable {f : Frame} {b : Block} {s s' : AbstractState} {l : Location} {x : Option TypeTag}

def writes (f : Frame) (b : Block) (s : AbstractState) : AbstractState :=
  (((f.apply b ⟨s, some {}⟩).bind (·.recorder)).map (·.effects)).getD .empty

theorem holds_writes_iff {ds : List Deed} (hds : ∀ d ∈ ds, d.Allowed { f with block := b })
    (hrun : ∀ r, f.apply b ⟨s, r⟩ = some (Machine.perform ds ⟨s, r⟩)) :
    (f.writes b s).Holds l x ↔ ∃ d ∈ ds, ∃ v, d.published? = some (l, v) ∧ v.Holds x := by
  have hwrites : f.writes b s = (ds.foldl (fun r d => d.onRecorder r) ({} : Recorder)).effects := by
    simp [writes, hrun, Machine.perform]
  rw [hwrites, holds_effects_deeds hds]
  exact or_iff_right not_holds_empty

/-- What stands in a state after a block stood there before, or the block has written it. -/
theorem holds_transfer (h : f.transfer b s = some s') (hl : l.isTemp = false) (hx : s'.Holds l x) :
    s.Holds l x ∨ (f.writes b s).Holds l x := by
  obtain ⟨m, hm, rfl⟩ := Option.map_eq_some_iff.1 h
  obtain ⟨ds, hds, hrun⟩ := exists_deeds hm
  cases Option.some.inj ((hrun none).symm.trans hm)
  exact (holds_deeds hl hx).imp_right (holds_writes_iff hds hrun).2

theorem get?_universal_transfer (h : f.transfer b s = some s') (hs : s.get? .universal = none) :
    s'.get? .universal = none := by
  obtain ⟨m, hm, rfl⟩ := Option.map_eq_some_iff.1 h
  obtain ⟨ds, hds, hrun⟩ := exists_deeds hm
  cases Option.some.inj ((hrun none).symm.trans hm)
  exact get?_universal_deeds hds hs

theorem holds_effects_apply {r r' : Recorder} (h : (f.apply b ⟨s, some r⟩).bind (·.recorder) = some r') :
    r'.effects.Holds l x ↔ r.effects.Holds l x ∨ (f.writes b s).Holds l x := by
  obtain ⟨m, hm, h⟩ := Option.bind_eq_some_iff.1 h
  obtain ⟨ds, hds, hrun⟩ := exists_deeds hm
  cases Option.some.inj ((hrun (some r)).symm.trans hm)
  cases h
  rw [holds_writes_iff hds hrun, holds_effects_deeds hds]

theorem holds_effects_replay {inputs : Std.ExtTreeMap BlockId AbstractState} {r : Recorder}
    (h : f.replay inputs = some r) :
    r.effects.Holds l x ↔ ∃ b ∈ f.graph.reversePostorder, ∃ s, inputs[b]? = some s ∧
      (f.writes (f.graph.block b) s).Holds l x := by
  have hfold : ∀ (bs : List BlockId) {r₀ r : Recorder}, bs.foldlM (f.replayBlock inputs) r₀ = some r →
      (r.effects.Holds l x ↔ r₀.effects.Holds l x ∨ ∃ b ∈ bs, ∃ s, inputs[b]? = some s ∧
        (f.writes (f.graph.block b) s).Holds l x) := by
    intro bs
    induction bs with
    | nil =>
      intro r₀ r h
      simp [Option.some.inj h]
    | cons b bs ih =>
      intro r₀ r h
      obtain ⟨r₁, h₁, h⟩ := Option.bind_eq_some_iff.1 h
      have hblock : r₁.effects.Holds l x ↔ r₀.effects.Holds l x ∨ ∃ s, inputs[b]? = some s ∧
          (f.writes (f.graph.block b) s).Holds l x := by
        unfold replayBlock at h₁
        split at h₁
        next s hs =>
          rw [holds_effects_apply h₁]
          simp [hs]
        next hs => simp [hs, Option.some.inj h₁]
      rw [ih h, hblock, or_assoc]
      simp
  rw [hfold _ h]
  exact or_iff_right not_holds_empty

def visitWrites (f : Frame) (v : Visit AbstractState) : AbstractState :=
  f.writes (f.graph.block v.block) (Solver.inputOf f.propagation f.graph v)

/-- A state whose contents, temporaries and missing bindings apart, were all written by some visit. -/
structure Traced (f : Frame) (vs : List (Visit AbstractState)) (s : AbstractState) : Prop where
  named : s.get? .universal = none
  written : ∀ {l x}, s.Holds l x → l.isTemp = false → x ≠ some .unbound →
    ∃ v ∈ vs, (f.visitWrites v).Holds l x

namespace Traced

variable {vs ws : List (Visit AbstractState)}

theorem empty : Traced f vs .empty where
  named := by simp [AbstractState.empty, AbstractState.get?]
  written h := absurd h not_holds_empty

theorem mono (hvs : ∀ v ∈ vs, v ∈ ws) (h : Traced f vs s) : Traced f ws s where
  named := h.named
  written hx hl hu := by
    obtain ⟨v, hv, hw⟩ := h.written hx hl hu
    exact ⟨v, hvs v hv, hw⟩

theorem join (h : Traced f vs s) (h' : Traced f vs s') : Traced f vs (s.join s') := by
  have hnamed : (s.join s').get? .universal = none := by
    rw [← Option.not_isSome_iff_eq_none, isSome_get?_join, h.named, h'.named]
    simp
  refine ⟨hnamed, fun {l x} hx hl hu => ?_⟩
  have hne : l ≠ .universal := by
    rintro rfl
    obtain ⟨w, hw, -⟩ := hx
    simp [hnamed] at hw
  -- A state without the location contributes the initial value, which only says that it is unbound.
  have hread : ∀ {s₀}, Traced f vs s₀ → (s₀.read l).Holds x → ∃ v ∈ vs, (f.visitWrites v).Holds l x := by
    intro s₀ h₀ hx
    cases hget : s₀.get? l with
    | some v =>
      rw [AbstractState.read, hget, Option.getD_some] at hx
      exact h₀.written ⟨v, hget, hx⟩ hl hu
    | none =>
      rw [AbstractState.read, hget, Option.getD_none] at hx
      exact absurd (Location.eq_unbound_of_holds_initial hne hx) hu
  have hjoin := holds_read hx
  rw [read_join, TypeSet.holds_join] at hjoin
  exact hjoin.elim (hread h) (hread h')

end Traced

theorem joinStates_induction {P : AbstractState → Prop} (hempty : P .empty)
    (hjoin : ∀ {s s'}, P s → P s' → P (s.join s')) {ss : List AbstractState} (h : ∀ s ∈ ss, P s) :
    P (joinStates ss) := by
  cases ss with
  | nil => exact hempty
  | cons s ss =>
    obtain ⟨hs, hss⟩ := List.forall_mem_cons.1 h
    exact List.foldlRecOn ss AbstractState.join hs fun acc hacc s' hs' => hjoin hacc (hss s' hs')

def AllTraced (f : Frame) (vs : List (Visit AbstractState)) (p : Progress AbstractState) : Prop :=
  ∀ (b : BlockId) (s : AbstractState), p.inFacts[b]? = some s ∨ p.outFacts[b]? = some s → Traced f vs s

theorem AllTraced.inputs {vs : List (Visit AbstractState)} {p : Progress AbstractState}
    (h : AllTraced f vs p) (b : BlockId) :
    ∀ s ∈ Solver.inputs f.propagation f.graph p.inFacts p.outFacts b, Traced f vs s := by
  intro s hs
  rcases Solver.mem_inputs.1 hs with ⟨-, rfl⟩ | ⟨e, -, hs | ⟨-, hs⟩⟩
  · exact .empty
  · exact h _ _ (.inr hs)
  · exact h _ _ (.inl hs)

theorem AllTraced.visit {vs : List (Visit AbstractState)} {p q : Progress AbstractState} {b : BlockId}
    {rest : List BlockId} (hv : Solver.visit f.propagation f.graph p b rest = some q)
    (h : AllTraced f vs p) : AllTraced f (vs ++ [⟨b, p⟩]) q := by
  obtain ⟨output, ht, hin, hout, -, -, -⟩ := Solver.visit_eq_some hv
  have hmem : ∀ v ∈ vs, v ∈ vs ++ [⟨b, p⟩] := fun v hv => List.mem_append_left _ hv
  have hinput : Traced f vs (Solver.inputOf f.propagation f.graph ⟨b, p⟩) :=
    joinStates_induction .empty .join (h.inputs b)
  have houtput : Traced f (vs ++ [⟨b, p⟩]) output := by
    refine ⟨get?_universal_transfer ht hinput.named, fun hx hl hu => ?_⟩
    rcases holds_transfer ht hl hx with hx | hx
    · exact (hinput.mono hmem).written hx hl hu
    · exact ⟨⟨b, p⟩, by simp, hx⟩
  intro c s hs
  rw [hin, hout, Std.ExtTreeMap.getElem?_insert, Std.ExtTreeMap.getElem?_insert] at hs
  split at hs
  · rcases hs with hs | hs
    · exact Option.some.inj hs ▸ hinput.mono hmem
    · exact Option.some.inj hs ▸ houtput
  · exact (h c s hs).mono hmem

/-- Whatever a solve finds at the exit of a block, temporaries and missing bindings apart, was written by
one of its visits. -/
theorem exists_visit_of_holds {solver : Solver} {r : Solution AbstractState}
    (h : solver.solve f.propagation f.graph = some r) {b : BlockId} (hb : r.outFacts[b]? = some s)
    (hx : s.Holds l x) (hl : l.isTemp = false) (hu : x ≠ some .unbound) :
    ∃ v ∈ solver.solveVisits f.propagation f.graph, (f.visitWrites v).Holds l x := by
  have hstart : AllTraced f [] (solver.startFrom f.graph ∅ ∅ [f.graph.entry]) := by
    intro c s hs
    simp [Solver.startFrom] at hs
  obtain ⟨q, hq, -, hout, -⟩ := Solver.solve_induction hstart
    (fun _ _ _ _ _ _ hv (hp : AllTraced f _ _) => hp.visit hv) h
  exact (hq b s (.inr (hout ▸ hb))).written hx hl hu

end Frame
end PointsTo
