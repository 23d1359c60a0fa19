import PointsTo.Proofs.Evaluation.Provenance
import PointsTo.Proofs.Program.Queries
import PointsTo.Proofs.Solver.ExceptionEdges

/-! # What the environment covers

The environment takes up what a last run of every block on its final input writes. The states themselves
were built up over many visits, and whatever they hold was written by one of these. So the environment
covers the states of a unit exactly if it has, from elsewhere, all that an earlier visit wrote and the
last run does not write again. A block may well fall silent: once the receiver of a method may be
anything, the method is no longer known and its effect on the old receiver is not repeated. -/

namespace PointsTo

open Option AbstractState

theorem mem_or_of_getElem?_foldl_insert {new : List InferredTypes} {m : Std.ExtTreeMap UnitId InferredTypes}
    {id : UnitId} {types : InferredTypes}
    (h : (new.foldl (fun m types => m.insert types.unit types) m)[id]? = some types) :
    (types ∈ new ∧ types.unit = id) ∨ m[id]? = some types := by
  refine List.foldlRecOn (motive := fun m' => m'[id]? = some types → _) new _ .inr (fun m' ih first hfirst h => ?_) h
  rw [Std.ExtTreeMap.getElem?_insert] at h
  split at h
  next hunit =>
    cases h
    exact .inl ⟨hfirst, Nat.compare_eq_eq.1 hunit⟩
  next => exact ih h

namespace Preparation

variable {t : Preparation}

/-- The types of a unit are inferred against an environment, in some turn. -/
def Infers (t : Preparation) (u : PreparedUnit) (env : AbstractState) (types : InferredTypes) : Prop :=
  ∃ turn, t.Answers ⟨turn, u, env⟩ types

/-- Types that were inferred for a unit, and whose effects a state has taken up. -/
def TakenUp (t : Preparation) (s : AbstractState) (types : InferredTypes) : Prop :=
  (∃ u env, t.Infers u env types) ∧ types.effects.Within s

theorem TakenUp.mono {s s' : AbstractState} {types : InferredTypes} (hs : s.Within s')
    (h : t.TakenUp s types) : t.TakenUp s' types := ⟨h.1, h.2.trans hs⟩

theorem passUnit_takenUp {a a' : Pass} {u : PreparedUnit} (h : t.passUnit a u = some a')
    (ha : ∀ types ∈ a.types, t.TakenUp a.effects types) : ∀ types ∈ a'.types, t.TakenUp a'.effects types := by
  obtain ⟨types, htypes, h⟩ := bind_eq_some_iff.1 h
  cases h
  intro types' hmem
  rcases List.mem_append.1 hmem with hmem | hmem
  · exact (ha _ hmem).mono (within_accumulate_left _ _)
  · cases List.mem_singleton.1 hmem
    exact ⟨⟨u, a.env, a.turn, htypes⟩, within_accumulate_right _ _⟩

theorem passes_takenUp {recursive : Bool} {units : List PreparedUnit} {n : Nat} {a : Pass}
    {r : ComponentResult} (h : t.passes recursive units n a = some r)
    (ha : ∀ types ∈ a.types, t.TakenUp a.effects types) : ∀ types ∈ r.types, t.TakenUp r.effects types := by
  induction n generalizing a with
  | zero => exact some.inj h ▸ ha
  | succ n ih =>
    obtain ⟨a', ha', h⟩ := bind_eq_some_iff.1 h
    have hpass : ∀ types ∈ a'.types, t.TakenUp a'.effects types :=
      foldlM_invariant (fun b : Pass => ∀ types ∈ b.types, t.TakenUp b.effects types) passUnit_takenUp ha' nofun
    split at h
    · exact some.inj h ▸ hpass
    · exact ih h hpass

/-- Every result so far was inferred for a unit, and the environment has taken up its effects. -/
def Gathered (t : Preparation) (env : AbstractState) (results : Std.ExtTreeMap UnitId InferredTypes) : Prop :=
  ∀ (id : UnitId) (types : InferredTypes), results[id]? = some types → t.TakenUp env types

theorem Gathered.merge {r : Round} {component : List UnitId × ComponentResult} (hr : t.Gathered r.env r.results)
    (hc : ∀ types ∈ component.2.types, t.TakenUp component.2.effects types) :
    t.Gathered (merge r component).env (merge r component).results := by
  have hold : ∀ {types}, t.TakenUp r.env types → t.TakenUp (Preparation.merge r component).env types :=
    fun h => h.mono (within_accumulate_left _ _)
  have hnew : ∀ types ∈ component.2.types, t.TakenUp (Preparation.merge r component).env types :=
    fun types h => (hc types h).mono (within_accumulate_right _ _)
  intro id types h
  exact (mem_or_of_getElem?_foldl_insert h).elim (fun hmem => hnew types hmem.1) fun hm => hold (hr id types hm)

theorem Gathered.runWave {r r' : Round} {wave : List (List UnitId)} (h : t.runWave r wave = some r')
    (hr : t.Gathered r.env r.results) : t.Gathered r'.env r'.results := by
  obtain ⟨solved, hsolved, h⟩ := bind_eq_some_iff.1 h
  cases h
  refine List.foldlRecOn (motive := fun r : Round => t.Gathered r.env r.results) _ _ hr fun _ h c hc => h.merge ?_
  obtain ⟨component, -, hsolve⟩ := exists_of_mem_mapM hsolved (List.of_mem_zip hc).2
  exact passes_takenUp hsolve (by simp)

theorem runRounds_invariant (Inv : AbstractState → Std.ExtTreeMap UnitId InferredTypes → Prop)
    (hwave : ∀ {wave r r'}, t.runWave r wave = some r' → Inv r.env r.results → Inv r'.env r'.results)
    {schedule : List (List (List UnitId))} {n : Nat} {o o' : Outcomes} (h : t.runRounds schedule n o = some o')
    (ho : Inv o.env o.results) : Inv o'.env o'.results := by
  induction n generalizing o with
  | zero => exact some.inj h ▸ ho
  | succ n ih =>
    obtain ⟨r, hr, h⟩ := bind_eq_some_iff.1 h
    have hround := foldlM_invariant (fun r : Round => Inv r.env r.results) hwave hr ho
    split at h
    · exact ih h hround
    · exact some.inj h ▸ hround

end Preparation

namespace ProgramAnalysis

variable {p : Program} {a : ProgramAnalysis} {id : UnitId} {t : InferredTypes}

theorem takenUp_of_types? (h : ofProgram p = some a) (ht : a.types? id = some t) :
    a.preparation.TakenUp a.env t := by
  obtain ⟨o, ho, h⟩ := bind_eq_some_iff.1 h
  cases h
  exact Preparation.runRounds_invariant (Preparation.Gathered _) Preparation.Gathered.runWave ho
    (fun id types h => by simp at h) id t ht

/-- An environment has, at every location but the temporaries, all tags but `unbound` that the exit
states of a unit hold there, and holds anything where they do. -/
def Covers (env : AbstractState) (t : InferredTypes) : Prop :=
  ∀ (b : BlockId) (s : AbstractState), t.exitStates[b]? = some s → ∀ l x, s.Holds l x →
    l.isTemp = false → x ≠ some .unbound → (env.read l).Holds x

/-- What a visit of a solve has written and an exit state still holds, although no block writes it any more
when it runs on the last state that reaches it. -/
structure Lost (f : Frame) (solver : Solver) (t : InferredTypes) (l : Location) (x : Option TypeTag) :
    Prop where
  written : ∃ v ∈ solver.solveVisits f.propagation f.graph, (f.visitWrites v).Holds l x
  kept : ∃ (b : BlockId) (s : AbstractState), t.exitStates[b]? = some s ∧ s.Holds l x
  silent : ∀ b ∈ f.graph.reversePostorder, ∀ s, t.entryStates[b]? = some s →
    ¬(f.writes (f.graph.block b) s).Holds l x

theorem solve_of_infer {facts : ProgramFacts} {solver : Solver} {u : PreparedUnit} {env : AbstractState}
    (h : u.infer p facts solver env = some t) :
    ∃ r recorder, solver.solve (u.frame p facts env).propagation u.graph = some r ∧
      (u.frame p facts env).replay r.inFacts = some recorder ∧
      t.entryStates = r.inFacts ∧ t.exitStates = r.outFacts ∧ t.effects = recorder.effects := by
  obtain ⟨r, hr, h⟩ := bind_eq_some_iff.1 h
  obtain ⟨recorder, hrecorder, h⟩ := bind_eq_some_iff.1 h
  cases h
  exact ⟨r, recorder, hr, hrecorder, rfl, rfl, rfl⟩

/-- The environment covers the exit states of a unit exactly if it has all that was lost on the way, in
whichever inference the states were found. -/
theorem covers_iff_holds_lost (h : ofProgram p = some a) (ht : a.types? id = some t) :
    (∃ u env, a.preparation.Infers u env t) ∧
      ∀ q, a.preparation.Answers q t →
        (Covers a.env t ↔ ∀ l x, Lost (q.unit.frame a.program a.preparation.facts q.env)
          (a.preparation.solver q) t l x → l.isTemp = false → x ≠ some .unbound → (a.env.read l).Holds x) := by
  obtain ⟨hinferred, hwithin⟩ := takenUp_of_types? h ht
  refine ⟨hinferred, fun q hinfer => ⟨?_, ?_⟩⟩
  · rintro hcovers l x ⟨-, ⟨b, s, hs, hx⟩, -⟩ hl hu
    exact hcovers b s hs l x hx hl hu
  · intro hlost b s hs l x hx hl hu
    obtain ⟨r, recorder, hr, hrecorder, hin, hout, heffects⟩ := solve_of_infer hinfer
    by_cases hpublished : t.effects.Holds l x
    · exact holds_read (hwithin l x hpublished)
    · refine hlost l x ⟨?_, ⟨b, s, hs, hx⟩, fun c hc s' hs' hw => hpublished ?_⟩ hl hu
      · exact Frame.exists_visit_of_holds hr (hout ▸ hs) hx hl hu
      · rw [heffects, Frame.holds_effects_replay hrecorder]
        exact ⟨c, hc, s', hin ▸ hs', hw⟩

end ProgramAnalysis

deriving instance DecidableEq for InferredTypes

open Build in
def growingList : RawNode :=
  module [assign (name "x") (list []), whileLoop boolean [expr (methodCall (name "x") "append" [int])]]

open Build in
/-- A list that grows in a loop until the variable that names it may be anything. -/
def forgottenList : RawNode :=
  module [assign (name "x") (list []), whileLoop boolean
    [expr (methodCall (name "x") "append" [int]), assign (name "x") (name "q")]]

def firstElements : Location := .element { span := ⟨0, 3, 0, 3⟩, scope := 0 }

namespace ProgramAnalysis

/-- The visits of a growing list write nothing that the last run does not write again, so the environment
covers its states. -/
theorem covers_on_growingList :
    ∃ p a t u, Program.ofModule? growingList {} = some p ∧ ofProgram p = some a ∧ a.types? 0 = some t ∧
      a.preparation.Infers u a.env t ∧ (a.env.read firstElements).Holds (some .int) ∧
      (∀ l x, ¬Lost (u.frame a.program a.preparation.facts a.env) (a.preparation.solver ⟨⟨1, 1⟩, u, a.env⟩) t l x) ∧
      Covers a.env t := by
  have h : ((Program.ofModule? growingList {}).bind fun p => (ofProgram p).bind fun a =>
      (a.types? 0).bind fun t => (a.preparation.unit? 0).map fun u =>
        (decide (u.infer a.program a.preparation.facts (a.preparation.solver ⟨⟨1, 1⟩, u, a.env⟩) a.env = some t),
          decide ((a.env.read firstElements).Holds (some .int)),
          ((a.preparation.solver ⟨⟨1, 1⟩, u, a.env⟩).solveVisits
            (u.frame a.program a.preparation.facts a.env).propagation u.graph).all fun v =>
              decide (((u.frame a.program a.preparation.facts a.env).visitWrites v).Within t.effects))) =
      some (true, true, true) := by decide +kernel
  obtain ⟨p, hp, h⟩ := bind_eq_some_iff.1 h
  obtain ⟨a, ha, h⟩ := bind_eq_some_iff.1 h
  obtain ⟨t, ht, h⟩ := bind_eq_some_iff.1 h
  obtain ⟨u, -, h⟩ := map_eq_some_iff.1 h
  obtain ⟨hinfer, hint, hwrites⟩ : _ ∧ _ ∧ _ := by
    simpa only [Prod.mk.injEq, decide_eq_true_eq, List.all_eq_true] using h
  have hnone : ∀ l x, ¬Lost (u.frame a.program a.preparation.facts a.env)
      (a.preparation.solver ⟨⟨1, 1⟩, u, a.env⟩) t l x := by
    rintro l x ⟨⟨v, hv, hx⟩, -, hsilent⟩
    obtain ⟨r, recorder, -, hrecorder, hin, -, heffects⟩ := solve_of_infer hinfer
    have hpublished := hwrites v hv l x hx
    rw [heffects, Frame.holds_effects_replay hrecorder] at hpublished
    obtain ⟨b, hb, s, hs, hw⟩ := hpublished
    exact hsilent b hb s (hin ▸ hs) hw
  exact ⟨p, a, t, u, hp, ha, ht, ⟨_, hinfer⟩, hint, hnone,
    ((covers_iff_holds_lost ha ht).2 _ hinfer).2 fun l x hlost => absurd hlost (hnone l x)⟩

/-- What was appended to a list before its name was lost is in its states, but not in the environment. -/
theorem not_covers_on_forgottenList :
    ∃ p a t, Program.ofModule? forgottenList {} = some p ∧ ofProgram p = some a ∧ a.converged = true ∧
      a.types? 0 = some t ∧ t.status = .converged ∧
      (∃ s, t.exitStates[1]? = some s ∧ s.Holds firstElements (some .int)) ∧
      ¬(a.env.read firstElements).Holds (some .int) ∧ ¬Covers a.env t := by
  have h : ((Program.ofModule? forgottenList {}).bind fun p => (ofProgram p).bind fun a =>
      (a.types? 0).bind fun t => (t.exitStates[1]?).bind fun s => (s.get? firstElements).map fun v =>
        (a.converged, t.status, decide (v.Holds (some .int)),
          decide ((a.env.read firstElements).Holds (some .int)))) =
      some (true, .converged, true, false) := by decide +kernel
  obtain ⟨p, hp, h⟩ := bind_eq_some_iff.1 h
  obtain ⟨a, ha, h⟩ := bind_eq_some_iff.1 h
  obtain ⟨t, ht, h⟩ := bind_eq_some_iff.1 h
  obtain ⟨s, hs, h⟩ := bind_eq_some_iff.1 h
  obtain ⟨v, hv, h⟩ := map_eq_some_iff.1 h
  obtain ⟨hc, hc', hint, henv⟩ : _ ∧ _ ∧ _ ∧ _ := by
    simpa only [Prod.mk.injEq, decide_eq_true_eq, decide_eq_false_iff_not] using h
  have hkept : s.Holds firstElements (some .int) := ⟨v, hv, hint⟩
  exact ⟨p, a, t, hp, ha, hc, ht, hc', ⟨s, hs, hkept⟩, henv,
    fun hcovers => henv (hcovers 1 s hs _ _ hkept rfl (by simp))⟩

end ProgramAnalysis
end PointsTo
