import PointsTo.Proofs.Program.Coverage

/-! # What units publish

The environment of an analysis is put together from the effects of units, and these were inferred against
earlier environments. Whatever holds of the empty environment, of two environments taken together and of
everything that a unit publishes when it is inferred against such an environment therefore holds throughout the
analysis. The same goes for the block states of one unit: they start out empty, and they are joined and passed
through blocks. -/

namespace PointsTo

open List Option Solver

/-! ## The states of one unit -/

namespace Frame

variable {f : Frame} {Kept : AbstractState → Prop}

/-- A property of states that joins keep, and blocks that run on such a state, with what they let others
see. -/
structure Keeps (f : Frame) (Kept : AbstractState → Prop) : Prop where
  empty : Kept .empty
  join : ∀ {s s'}, Kept s → Kept s' → Kept (s.join s')
  apply : ∀ {b m m'}, f.apply (f.graph.block b) m = some m' → Kept m.state →
    (∀ r, m.recorder = some r → Kept r.effects) →
    Kept m'.state ∧ ∀ r, m'.recorder = some r → Kept r.effects

def AllKept (Kept : AbstractState → Prop) (entries exits : Std.ExtTreeMap BlockId AbstractState) : Prop :=
  ∀ (b : BlockId) (s : AbstractState), entries[b]? = some s ∨ exits[b]? = some s → Kept s

namespace Keeps

variable {s : AbstractState} {p q : Progress AbstractState} {b : BlockId}
variable (h : f.Keeps Kept)
include h

theorem inputOf (hp : AllKept Kept p.inFacts p.outFacts) (b : BlockId) :
    Kept (Solver.inputOf f.propagation f.graph ⟨b, p⟩) := by
  refine joinStates_induction h.empty h.join fun s hs => ?_
  rcases mem_inputs.1 hs with ⟨-, rfl⟩ | ⟨e, -, hs | ⟨-, hs⟩⟩
  · exact h.empty
  · exact hp _ _ (.inr hs)
  · exact hp _ _ (.inl hs)

theorem transfer {s' : AbstractState} (ht : f.transfer (f.graph.block b) s = some s') (hs : Kept s) : Kept s' := by
  obtain ⟨m, hm, rfl⟩ := map_eq_some_iff.1 ht
  exact (h.apply hm hs fun r hr => by cases hr).1

theorem visit {rest : List BlockId}
    (hv : Solver.visit f.propagation f.graph p b rest = some q) (hp : AllKept Kept p.inFacts p.outFacts) :
    AllKept Kept q.inFacts q.outFacts := by
  obtain ⟨output, ht, hin, hout, -, -, -⟩ := visit_eq_some hv
  have hinput := h.inputOf hp b
  have houtput : Kept output := h.transfer ht hinput
  intro c s hs
  rw [hin, hout, Std.ExtTreeMap.getElem?_insert, Std.ExtTreeMap.getElem?_insert] at hs
  split at hs
  · rcases hs with hs | hs
    · exact some.inj hs ▸ hinput
    · exact some.inj hs ▸ houtput
  · exact hp c s hs

/-- All that is known before a visit of a solve has the property, and so has the input of the visit. -/
theorem solveVisits (solver : Solver) :
    ∀ v ∈ solver.solveVisits f.propagation f.graph, AllKept Kept v.before.inFacts v.before.outFacts ∧
      Kept (Solver.inputOf f.propagation f.graph v) := by
  have hvisits : ∀ (budget : Nat) (p : Progress AbstractState), AllKept Kept p.inFacts p.outFacts →
      ∀ v ∈ solver.visits f.propagation f.graph budget p,
        AllKept Kept v.before.inFacts v.before.outFacts ∧ Kept (Solver.inputOf f.propagation f.graph v) := by
    intro budget
    induction budget with
    | zero => exact fun _ _ v hv => by cases hv
    | succ budget ih =>
      intro p hp v hv
      unfold Solver.visits at hv
      split at hv
      next => cases hv
      next b rest hwaiting =>
        split at hv
        · cases hv
        · rcases mem_cons.1 hv with rfl | hv
          · exact ⟨hp, h.inputOf hp b⟩
          · cases hq : Solver.visit f.propagation f.graph p b rest with
            | none => simp [hq] at hv
            | some q => exact ih q (h.visit hq hp) v (by simpa [hq] using hv)
  refine hvisits _ _ fun b s hs => ?_
  simp [startFrom] at hs

theorem solve {solver : Solver} {r : Solution AbstractState}
    (hr : solver.solve f.propagation f.graph = some r) : AllKept Kept r.inFacts r.outFacts := by
  have hstart : AllKept Kept (solver.startFrom f.graph ∅ ∅ [f.graph.entry]).inFacts
      (solver.startFrom f.graph ∅ ∅ [f.graph.entry]).outFacts := by
    intro b s hs
    simp [startFrom] at hs
  obtain ⟨q, hq, hin, hout, -⟩ := solve_induction hstart
    (fun _ p _ _ _ _ hv (hp : AllKept Kept p.inFacts p.outFacts) => h.visit hv hp) hr
  exact hin ▸ hout ▸ hq

theorem replay {inputs : Std.ExtTreeMap BlockId AbstractState} {r : Recorder}
    (hinputs : ∀ (b : BlockId) (s : AbstractState), inputs[b]? = some s → Kept s)
    (hr : f.replay inputs = some r) : Kept r.effects := by
  have hblock : ∀ {r b r'}, f.replayBlock inputs r b = some r' → Kept r.effects → Kept r'.effects := by
    intro r b r' hb hr
    unfold replayBlock at hb
    split at hb
    next s hs =>
      obtain ⟨m, hm, hr'⟩ := bind_eq_some_iff.1 hb
      refine (h.apply hm (hinputs b s hs) fun r₀ hr₀ => ?_).2 r' hr'
      exact some.inj hr₀ ▸ hr
    next => exact some.inj hb ▸ hr
  exact foldlM_invariant (fun r : Recorder => Kept r.effects) hblock hr h.empty

end Keeps
end Frame

structure InferredTypes.AllKept (types : InferredTypes) (Kept : AbstractState → Prop) : Prop where
  states : Frame.AllKept Kept types.entryStates types.exitStates
  effects : Kept types.effects

namespace Preparation

variable {t : Preparation} {Kept : AbstractState → Prop}

theorem Infers.allKept {u : PreparedUnit} {env : AbstractState} {types : InferredTypes}
    (h : t.Infers u env types) (hkeeps : (u.frame t.program t.facts env).Keeps Kept) : types.AllKept Kept := by
  obtain ⟨turn, h⟩ := h
  obtain ⟨r, hr, h⟩ := bind_eq_some_iff.1 h
  obtain ⟨recorder, hrecorder, h⟩ := bind_eq_some_iff.1 h
  cases h
  have hstates := hkeeps.solve hr
  exact ⟨hstates, hkeeps.replay (fun b s hs => hstates b s (.inl hs)) hrecorder⟩

/-! ## Environments -/

/-- What units of a program can publish together: nothing, the effects of a unit against something published
before, and anything put together from these. -/
inductive Published (t : Preparation) : AbstractState → Prop
  | empty : t.Published .empty
  | effects {id : UnitId} {u : PreparedUnit} {env : AbstractState} {types : InferredTypes} :
    t.unit? id = some u → t.Published env → t.Infers u env types → t.Published types.effects
  | accumulate {a b : AbstractState} : t.Published a → t.Published b → t.Published (a.accumulate b)

/-- Types that were inferred for a unit against what could be published before. -/
def Arises (t : Preparation) (types : InferredTypes) : Prop :=
  ∃ id u env, t.unit? id = some u ∧ t.Published env ∧ t.Infers u env types

theorem Arises.published {types : InferredTypes} (h : t.Arises types) : t.Published types.effects := by
  obtain ⟨id, u, env, hu, henv, htypes⟩ := h
  exact .effects hu henv htypes

/-- A pass over units that has taken up only what could be published. -/
structure PassArises (t : Preparation) (a : Pass) : Prop where
  env : t.Published a.env
  effects : t.Published a.effects
  types : ∀ types ∈ a.types, t.Arises types

/-- What rounds come to: an environment that could be published, and results that arise. -/
structure RoundArises (t : Preparation) (env : AbstractState) (results : Std.ExtTreeMap UnitId InferredTypes) :
    Prop where
  env : t.Published env
  results : ∀ (id : UnitId) (types : InferredTypes), results[id]? = some types → t.Arises types

variable {a : Pass} {units : List PreparedUnit} {n : Nat} {r : Round}
  {schedule : List (List (List UnitId))} {o : Outcomes}

theorem PassArises.passUnit {a' : Pass} {id : UnitId} {u : PreparedUnit} (hu : t.unit? id = some u)
    (h : t.passUnit a u = some a') (ha : t.PassArises a) : t.PassArises a' := by
  obtain ⟨types, htypes, h⟩ := bind_eq_some_iff.1 h
  cases h
  have harises : t.Arises types := ⟨id, u, a.env, hu, ha.env, a.turn, htypes⟩
  refine ⟨.accumulate ha.env harises.published, .accumulate ha.effects harises.published, fun types' h => ?_⟩
  rcases mem_append.1 h with h | h
  · exact ha.types types' h
  · exact mem_singleton.1 h ▸ harises

theorem PassArises.passUnits (hunits : ∀ u ∈ units, ∃ id, t.unit? id = some u)
    {a' : Pass} (h : units.foldlM t.passUnit a = some a') (ha : t.PassArises a) : t.PassArises a' := by
  induction units generalizing a with
  | nil => exact some.inj h ▸ ha
  | cons u units ih =>
    obtain ⟨b, hb, h⟩ := bind_eq_some_iff.1 h
    obtain ⟨id, hid⟩ := hunits u (by simp)
    exact ih (fun u hu => hunits u (by simp [hu])) h (ha.passUnit hid hb)

theorem PassArises.passes {recursive : Bool} (hunits : ∀ u ∈ units, ∃ id, t.unit? id = some u) {c : ComponentResult}
    (h : t.passes recursive units n a = some c) (ha : t.PassArises a) :
    t.Published c.effects ∧ ∀ types ∈ c.types, t.Arises types := by
  induction n generalizing a with
  | zero => exact some.inj h ▸ ⟨ha.effects, ha.types⟩
  | succ n ih =>
    obtain ⟨b, hb, h⟩ := bind_eq_some_iff.1 h
    have hpass := PassArises.passUnits hunits hb ⟨ha.env, ha.effects, nofun⟩
    split at h
    · exact some.inj h ▸ ⟨hpass.effects, hpass.types⟩
    · exact ih h hpass

theorem exists_unit?_of_mem_filterMap {component : List UnitId} :
    ∀ u ∈ component.filterMap t.unit?, ∃ id, t.unit? id = some u := by
  intro u hu
  obtain ⟨id, -, hid⟩ := mem_filterMap.1 hu
  exact ⟨id, hid⟩

theorem RoundArises.merge {component : List UnitId × ComponentResult} (hr : t.RoundArises r.env r.results)
    (hc : t.Published component.2.effects ∧ ∀ types ∈ component.2.types, t.Arises types) :
    t.RoundArises (merge r component).env (merge r component).results := by
  refine ⟨.accumulate hr.env hc.1, fun id types h => ?_⟩
  rcases mem_or_of_getElem?_foldl_insert h with ⟨hmem, -⟩ | h
  · exact hc.2 types hmem
  · exact hr.results id types h

theorem arises_of_mem_zip (henv : t.Published r.env) {wave : List (List UnitId)}
    {solved : List ComponentResult} (hsolved : wave.mapM (t.solveComponent r) = some solved) :
    ∀ c ∈ wave.zip solved, t.Published c.2.effects ∧ ∀ types ∈ c.2.types, t.Arises types := by
  intro c hc
  obtain ⟨component, -, hsolve⟩ := exists_of_mem_mapM hsolved (of_mem_zip hc).2
  exact PassArises.passes exists_unit?_of_mem_filterMap hsolve ⟨henv, .empty, by simp⟩

theorem RoundArises.runWave {r' : Round} {wave : List (List UnitId)} (h : t.runWave r wave = some r')
    (hr : t.RoundArises r.env r.results) : t.RoundArises r'.env r'.results := by
  obtain ⟨solved, hsolved, h⟩ := bind_eq_some_iff.1 h
  cases h
  exact List.foldlRecOn (motive := fun r : Round => t.RoundArises r.env r.results) _ _ hr fun _ h c hc =>
    h.merge (arises_of_mem_zip hr.env hsolved c hc)

theorem RoundArises.runRound
    (h : t.runRound schedule o = some r) (ho : t.RoundArises o.env o.results) : t.RoundArises r.env r.results :=
  foldlM_invariant (fun r : Round => t.RoundArises r.env r.results) (fun hw hr => hr.runWave hw) h ho

/-- What rounds end with could be published if what they start from could. -/
theorem RoundArises.runRounds {o' : Outcomes}
    (h : t.runRounds schedule n o = some o') (ho : t.RoundArises o.env o.results) :
    t.RoundArises o'.env o'.results :=
  runRounds_invariant t.RoundArises (fun hw hr => hr.runWave hw) h ho

theorem RoundArises.start : t.RoundArises .empty ∅ :=
  ⟨.empty, fun id types h => by simp at h⟩

/-! ## Queries -/

/-- A solve of a unit of the program, against what could be published before. -/
structure QueryArises (t : Preparation) (q : Query) : Prop where
  unit : ∃ id, t.unit? id = some q.unit
  env : t.Published q.env

theorem queryArises_of_mem_passQueries
    (hunits : ∀ u ∈ units, ∃ id, t.unit? id = some u) (ha : t.PassArises a) {q : Query}
    (hq : q ∈ t.passQueries units a) : t.QueryArises q := by
  induction units generalizing a with
  | nil => cases hq
  | cons u units ih =>
    rw [passQueries, mem_cons] at hq
    rcases hq with rfl | hq
    · exact ⟨hunits u (by simp), ha.env⟩
    · cases hb : t.passUnit a u with
      | none => simp [hb] at hq
      | some b =>
        obtain ⟨id, hid⟩ := hunits u (by simp)
        exact ih (fun u hu => hunits u (by simp [hu])) (ha.passUnit hid hb) (by simpa [hb] using hq)

theorem queryArises_of_mem_passesQueries {recursive : Bool}
    (hunits : ∀ u ∈ units, ∃ id, t.unit? id = some u) (ha : t.PassArises a) {q : Query}
    (hq : q ∈ t.passesQueries recursive units n a) : t.QueryArises q := by
  induction n generalizing a with
  | zero => cases hq
  | succ n ih =>
    have hstart : t.PassArises a.next := ⟨ha.env, ha.effects, nofun⟩
    rw [passesQueries, mem_append] at hq
    rcases hq with hq | hq
    · exact queryArises_of_mem_passQueries hunits hstart hq
    · cases hb : units.foldlM t.passUnit a.next with
      | none => simp [hb] at hq
      | some b =>
        simp only [hb, map_some, getD_some] at hq
        split at hq
        · cases hq
        · exact ih (hstart.passUnits hunits hb) hq

theorem queryArises_of_mem_roundQueries
    (hr : t.RoundArises r.env r.results) {q : Query} (hq : q ∈ t.roundQueries schedule r) : t.QueryArises q := by
  induction schedule generalizing r with
  | nil => cases hq
  | cons wave waves ih =>
    rw [roundQueries, mem_append] at hq
    rcases hq with hq | hq
    · obtain ⟨component, -, hq⟩ := mem_flatMap.1 hq
      exact queryArises_of_mem_passesQueries exists_unit?_of_mem_filterMap ⟨hr.env, .empty, by simp⟩ hq
    · cases hs : t.runWave r wave with
      | none => simp [hs] at hq
      | some s => exact ih (hr.runWave hs) (by simpa [hs] using hq)

theorem queryArises_of_mem_roundsQueries (ho : t.RoundArises o.env o.results) {q : Query}
    (hq : q ∈ t.roundsQueries schedule n o) : t.QueryArises q := by
  induction n generalizing o with
  | zero => cases hq
  | succ n ih =>
    rw [roundsQueries, mem_append] at hq
    rcases hq with hq | hq
    · exact queryArises_of_mem_roundQueries ho hq
    · cases hr : t.runRound schedule o with
      | none => simp [hr] at hq
      | some r =>
        simp only [hr, map_some, getD_some] at hq
        have hround := RoundArises.runRound hr ho
        split at hq
        · exact ih ⟨hround.env, hround.results⟩ hq
        · cases hq

/-- Every solve of an analysis is of a unit, against an environment that could be published. -/
theorem queryArises_of_mem_queries {q : Query} (hq : q ∈ t.queries) : t.QueryArises q :=
  queryArises_of_mem_roundsQueries .start hq

theorem exists_unit?_of_mem_queries {q : Query} (hq : q ∈ t.queries) : ∃ id, t.unit? id = some q.unit :=
  (queryArises_of_mem_queries hq).unit

end Preparation
end PointsTo
