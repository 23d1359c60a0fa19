import PointsTo.Proofs.Program.MergeOrder

/-! # Stable components

A component that depends on itself is solved in a private copy of the environment, and whether it has stabilized
is decided there. Whether the analysis has converged is decided on the environment of the round, which takes up
what all components publish. The two agree in one direction: a round that reports no change takes up nothing that
it did not start with, so every component of it found all of its own effects in the environment and was done after
one pass. -/

namespace PointsTo

open List Option AbstractState

namespace Preparation

variable {t : Preparation}

/-! ## Passes with effects that are known -/

variable {units : List PreparedUnit} {a : Pass} {n : Nat} {r : ComponentResult}
  {waves : List (List (List UnitId))}

theorem changed_passUnits {a' : Pass} (h : units.foldlM t.passUnit a = some a')
    (ha : a.changed = false) (hknown : a'.effects.Within a.env) : a'.changed = false := by
  induction units generalizing a with
  | nil =>
    cases h
    exact ha
  | cons u units ih =>
    obtain ⟨a₁, h₁, h⟩ := bind_eq_some_iff.1 h
    have hlater : a₁.effects.Within a'.effects := (foldlM_passUnit h).1.effects.within
    have henv : a.env.Within a₁.env := (passUnit_passesTo h₁).1.env.within
    refine ih h ?_ (hknown.trans henv)
    obtain ⟨types, -, h₁⟩ := bind_eq_some_iff.1 h₁
    cases h₁
    have htypes : types.effects.Within a.env :=
      ((within_accumulate_right _ _).trans hlater).trans hknown
    exact Bool.or_eq_false_iff.2 ⟨ha, accumulateGrows_eq_false_iff.2 htypes⟩

theorem effects_passes {recursive : Bool}
    (h : t.passes recursive units n a = some r) : a.effects.Fits r.effects := by
  cases n with
  | zero =>
    cases h
    exact .refl _
  | succ n => exact (passes_inferred h).1

theorem stable_of_not_recursive (h : t.passes false units n a = some r) : r.stable = true := by
  induction n generalizing a with
  | zero =>
    cases h
    rfl
  | succ n ih =>
    obtain ⟨a', -, h⟩ := bind_eq_some_iff.1 h
    exact ih h

theorem stable_of_effects_within {start : Round} {component : List UnitId}
    (h : t.solveComponent start component = some r) (hknown : r.effects.Within start.env) : r.stable = true := by
  rw [solveComponent] at h
  cases hrecursive : t.isRecursive component with
  | false => exact stable_of_not_recursive (hrecursive ▸ h)
  | true =>
    obtain ⟨n, hn⟩ : ∃ n, max 1 t.program.settings.maxRounds = n + 1 := Nat.exists_eq_succ_of_ne_zero (by omega)
    simp only [hrecursive, if_true, hn] at h
    obtain ⟨a, ha, h⟩ := bind_eq_some_iff.1 h
    split at h
    next =>
      cases h
      rfl
    next hgoes =>
      have hcalm := changed_passUnits ha rfl ((effects_passes h).within.trans hknown)
      simp [hcalm] at hgoes

/-! ## What the solves of a component infer -/

theorem exists_answers_of_mem_passQueries {a' : Pass} {q : Query}
    (h : units.foldlM t.passUnit a = some a') (hq : q ∈ t.passQueries units a) :
    ∃ types, t.Answers q types ∧ types.effects.Within a'.effects := by
  induction units generalizing a with
  | nil => cases hq
  | cons u units ih =>
    obtain ⟨a₁, h₁, h⟩ := bind_eq_some_iff.1 h
    have hlater : a₁.effects.Within a'.effects := (foldlM_passUnit h).1.effects.within
    simp only [passQueries, h₁, map_some, getD_some] at hq
    rcases mem_cons.1 hq with rfl | hq
    · obtain ⟨types, htypes, h₁⟩ := bind_eq_some_iff.1 h₁
      cases h₁
      exact ⟨types, htypes, (within_accumulate_right _ _).trans hlater⟩
    · exact ih h hq

/-- Every inference of a component is taken up by its effects. -/
theorem exists_answers_of_mem_passesQueries {recursive : Bool} {q : Query} (h : t.passes recursive units n a = some r)
    (hq : q ∈ t.passesQueries recursive units n a) :
    ∃ types, t.Answers q types ∧ types.effects.Within r.effects := by
  induction n generalizing a with
  | zero => cases hq
  | succ n ih =>
    obtain ⟨a', ha', h⟩ := bind_eq_some_iff.1 h
    simp only [passesQueries, ha', map_some, getD_some] at hq
    have hlater : a'.effects.Within r.effects := by
      split at h
      · cases h
        exact fun _ _ hx => hx
      · exact (effects_passes h).within
    rcases mem_append.1 hq with hq | hq
    · obtain ⟨types, htypes, hwithin⟩ := exists_answers_of_mem_passQueries ha' hq
      exact ⟨types, htypes, hwithin.trans hlater⟩
    · split at hq
      next => cases hq
      next hgoes =>
        rw [if_neg hgoes] at h
        exact ih h hq

/-! ## Rounds that report no change -/

def waveSolves (t : Preparation) (r : Round) (wave : List (List UnitId)) : List (List UnitId × ComponentResult) :=
  wave.filterMap fun component => (t.solveComponent r component).map (component, ·)

def roundSolves (t : Preparation) : List (List (List UnitId)) → Round → List (List UnitId × ComponentResult)
  | [], _ => []
  | wave :: waves, r => t.waveSolves r wave ++ ((t.runWave r wave).map (roundSolves t waves)).getD []

theorem waveSolves_eq {r : Round} {wave : List (List UnitId)} {solved : List ComponentResult}
    (h : wave.mapM (t.solveComponent r) = some solved) : t.waveSolves r wave = wave.zip solved := by
  have hall := forall₂_of_mapM h
  clear h
  unfold waveSolves
  induction hall with
  | nil => rfl
  | cons hsolve _ ih =>
    rw [filterMap_cons, hsolve, zip_cons_cons, ← ih]
    rfl

theorem map_fst_roundSolves {r r' : Round}
    (h : waves.foldlM t.runWave r = some r') : (t.roundSolves waves r).map (·.1) = waves.flatten := by
  induction waves generalizing r with
  | nil => rfl
  | cons wave waves ih =>
    obtain ⟨r₁, h₁, h⟩ := bind_eq_some_iff.1 h
    obtain ⟨solved, hsolved, -⟩ := bind_eq_some_iff.1 h₁
    have hlength : wave.length ≤ solved.length := (forall₂_of_mapM hsolved).length_eq.le
    simp only [roundSolves, h₁, map_some, getD_some, map_append, flatten_cons,
      waveSolves_eq hsolved, ih h]
    rw [map_fst_zip hlength]

/-- A round, or a part of one, in which nothing that is taken up is new. -/
structure Calm (t : Preparation) (waves : List (List (List UnitId))) (r r' : Round) : Prop where
  before : r.changed = false
  within : r'.env.Within r.env
  /-- No component is added to those that did not stabilize. -/
  unstable : r'.unstable = r.unstable
  solves : ∀ c ∈ t.roundSolves waves r, c.2.stable = true ∧ c.2.effects.Within r.env
  queries : ∀ q ∈ t.roundQueries waves r, ∃ types, t.Answers q types ∧ types.effects.Within r.env

theorem env_foldl_merge_within {cs : List (List UnitId × ComponentResult)} {r : Round}
    (h : ∀ c ∈ cs, c.2.effects.Within r.env) : (cs.foldl merge r).env.Within r.env := by
  refine List.foldlRecOn cs merge (motive := fun r' => r'.env.Within r.env) (fun _ _ hx => hx) ?_
  intro r' hr' c hc l x hx
  exact (holds_accumulate.1 hx).elim (hr' l x) (h c hc l x)

theorem Calm.cons {wave : List (List UnitId)} {r r₁ r' : Round}
    (h : t.runWave r wave = some r₁) (hlater : t.Calm waves r₁ r') : t.Calm (wave :: waves) r r' := by
  obtain ⟨solved, hsolved, hrun⟩ := bind_eq_some_iff.1 h
  cases hrun
  obtain ⟨hbefore, hknown⟩ := (changed_foldl_merge _ _).1 hlater.before
  have hpairs : ∀ c ∈ wave.zip solved, t.solveComponent r c.1 = some c.2 := fun c hc =>
    (List.forall₂_iff_zip.1 (forall₂_of_mapM hsolved)).2 hc
  have hstable : ∀ c ∈ wave.zip solved, c.2.stable = true := fun c hc =>
    stable_of_effects_within (hpairs c hc) (hknown c hc)
  have henv : ((wave.zip solved).foldl merge r).env.Within r.env := env_foldl_merge_within hknown
  refine ⟨hbefore, hlater.within.trans henv, ?_, fun c hc => ?_, fun q hq => ?_⟩
  · have hnone : (wave.zip solved).filter (fun c => !c.2.stable) = [] :=
      filter_eq_nil_iff.2 fun c hc => by simp [hstable c hc]
    rw [hlater.unstable, unstable_foldl_merge, hnone, map_nil, append_nil]
  · rw [roundSolves, h, waveSolves_eq hsolved, map_some, getD_some] at hc
    rcases mem_append.1 hc with hc | hc
    · exact ⟨hstable c hc, hknown c hc⟩
    · exact ⟨(hlater.solves c hc).1, (hlater.solves c hc).2.trans henv⟩
  · rw [roundQueries, h, map_some, getD_some] at hq
    rcases mem_append.1 hq with hq | hq
    · obtain ⟨component, hcomponent, hq⟩ := mem_flatMap.1 hq
      obtain ⟨result, -, hsolve⟩ := exists_of_mem_left (forall₂_of_mapM hsolved) hcomponent
      have hpair : (component, result) ∈ wave.zip solved := by
        rw [← waveSolves_eq hsolved]
        exact mem_filterMap.2 ⟨component, hcomponent, by rw [hsolve, map_some]⟩
      obtain ⟨types, htypes, hwithin⟩ := exists_answers_of_mem_passesQueries hsolve hq
      exact ⟨types, htypes, hwithin.trans (hknown _ hpair)⟩
    · obtain ⟨types, htypes, hwithin⟩ := hlater.queries q hq
      exact ⟨types, htypes, hwithin.trans henv⟩

theorem calm_of_runWaves {r r' : Round}
    (h : waves.foldlM t.runWave r = some r') (hr' : r'.changed = false) : t.Calm waves r r' := by
  induction waves generalizing r with
  | nil =>
    cases h
    exact ⟨hr', fun _ _ hx => hx, rfl, by simp [roundSolves], by simp [roundQueries]⟩
  | cons wave waves ih =>
    obtain ⟨r₁, h₁, h⟩ := bind_eq_some_iff.1 h
    exact .cons h₁ (ih h)

end Preparation

/-! ## Converged analyses -/

namespace ProgramAnalysis

theorem isSome_unit_of_mem_diagnostics {tree : SyntaxTree} {s : Settings} {d : Diagnostic}
    (h : d ∈ (Preparation.ofProgram (Program.ofTree tree s)).diagnostics) : d.unit.isSome := by
  rcases mem_append.1 h with h | h
  · obtain ⟨c, -, rfl⟩ := List.mem_map.1 h
    rfl
  · obtain ⟨⟨info, u⟩, -, h⟩ := mem_flatMap.1 h
    cases u with
    | error f =>
      cases mem_singleton.1 h
      rfl
    | ok u =>
      obtain ⟨d, -, rfl⟩ := List.mem_map.1 h
      rfl

theorem isSome_unit_of_mem_unitReport {p : Program} {types : InferredTypes} {d : Diagnostic}
    (h : d ∈ unitReport p types) : d.unit.isSome := by
  obtain ⟨f, -, rfl⟩ := List.mem_map.1 h
  rfl

/-- The last round of a converged analysis has solved every component of the schedule, and each of them was stable.
All effects of that round, those of components and those of each inference on the way, were in the environment that
the round started with; so were the effects of the types that the analysis ends with. No diagnostic speaks of a
component that did not stabilize. -/
theorem stable_of_converged {tree : SyntaxTree} {s : Settings} {a : ProgramAnalysis}
    (h : ofProgram (Program.ofTree tree s) = some a) (hc : a.converged = true) :
    let t := a.preparation
    let schedule := t.dependencies.schedule
    ∃ last r, t.runRounds schedule (a.rounds - 1) ⟨.empty, ∅, [], 0, false⟩ = some last ∧
      t.runRound schedule last = some r ∧ r.env = a.env ∧ r.results = a.results ∧
      (t.roundSolves schedule last.next).map (·.1) = schedule.flatten ∧
      (∀ c ∈ t.roundSolves schedule last.next, c.2.stable = true ∧ c.2.effects.Within last.env) ∧
      (∀ q ∈ t.roundQueries schedule last.next, ∃ types, t.Answers q types ∧ types.effects.Within last.env) ∧
      (∀ id u, t.unit? id = some u → ∃ types, a.types? id = some types ∧ types.unit = id ∧
        types.effects.Within last.env) ∧
      ∀ d ∈ a.diagnostics, ∀ component, d ≠ unstableReport a.program component := by
  intro t schedule
  obtain ⟨o, ho, h⟩ := bind_eq_some_iff.1 h
  cases h
  obtain ⟨k, last, r, hlast, hr, hcalm, rfl⟩ := Preparation.exists_calm_round ho rfl hc
  have hround : t.Calm schedule last.next r := Preparation.calm_of_runWaves hr hcalm
  have hongoing := Preparation.Ongoing.runRound (Preparation.numbered_ofTree tree s) hr
  refine ⟨last, r, ?_, hr, rfl, rfl, Preparation.map_fst_roundSolves hr, hround.solves, hround.queries,
    fun id u hu => ?_, fun d hd component hreport => ?_⟩
  · simpa using hlast
  · have hscheduled := Preparation.mem_schedule (Program.inPlace_ofTree tree s) hu
    obtain ⟨types, htypes, hfor⟩ := hongoing.results id hscheduled (isSome_iff_exists.2 ⟨u, hu⟩)
    have hbetween := hfor u hu
    have hid : u.info.id = id := Preparation.numbered_ofTree tree s id u hu
    exact ⟨types, htypes, hbetween.unit_eq.trans hid, hbetween.effects.within.trans hround.within⟩
  · have hunit : d.unit.isSome := by
      rcases mem_append.1 hd with hd | hd
      · exact isSome_unit_of_mem_diagnostics hd
      · have hd : d ∈ r.results.toList.flatMap fun e => unitReport (Program.ofTree tree s) e.2 := by
          simpa [outcomeReport, hround.unstable, Outcomes.next] using hd
        obtain ⟨_, -, hd⟩ := mem_flatMap.1 hd
        exact isSome_unit_of_mem_unitReport hd
    rw [hreport] at hunit
    cases hunit

open Build in
/-- Four functions in a ring, each of which returns what the next one returns. -/
def returnRing : RawNode :=
  module [function "f" [] [ret (some (call (name "g") []))],
    function "g" [] [ret (some (call (name "h") []))],
    function "h" [] [ret (some (call (name "k") []))],
    function "k" [] [expr (call (name "f") []), ret (some int)]]

/-- A pass takes a result one function further, so three passes are not enough in the first round. The second round
goes on from there, the third one finds nothing new, and the ring is stable. -/
theorem stable_on_returnRing : ∃ tree a first last result, SyntaxTree.ofModule returnRing = .ok tree ∧
      ofProgram (Program.ofTree tree { maxRounds := 3 }) = some a ∧ a.converged = true ∧
      a.preparation.runRounds a.preparation.dependencies.schedule 1 ⟨.empty, ∅, [], 0, false⟩ = some first ∧
      first.unstable = [[1, 2, 3, 4]] ∧
      a.preparation.runRounds a.preparation.dependencies.schedule (a.rounds - 1) ⟨.empty, ∅, [], 0, false⟩ =
        some last ∧
      ([1, 2, 3, 4], result) ∈ a.preparation.roundSolves a.preparation.dependencies.schedule last.next ∧
      result.stable = true ∧ result.effects.Within last.env ∧
      ∀ d ∈ a.diagnostics, ∀ component, d ≠ unstableReport a.program component := by
  have h : ((SyntaxTree.ofModule returnRing).toOption.bind fun tree =>
      (ofProgram (Program.ofTree tree { maxRounds := 3 })).bind fun a =>
        (a.preparation.runRounds a.preparation.dependencies.schedule 1 ⟨.empty, ∅, [], 0, false⟩).map
          fun first => (a.converged, first.unstable, a.preparation.dependencies.schedule)) =
      some (true, [[1, 2, 3, 4]], [[[0]], [[1, 2, 3, 4]]]) := by
    decide +kernel
  obtain ⟨tree, htree, h⟩ := exists_ok_of_bind h
  obtain ⟨a, ha, h⟩ := bind_eq_some_iff.1 h
  obtain ⟨first, hfirst, h⟩ := map_eq_some_iff.1 h
  obtain ⟨hc, hunstable, hschedule⟩ : _ ∧ _ ∧ _ := by simpa using h
  obtain ⟨last, r, hlast, -, -, -, hall, hsolves, -, -, hreports⟩ := stable_of_converged ha hc
  have hring : [1, 2, 3, 4] ∈ a.preparation.dependencies.schedule.flatten := by simp [hschedule]
  rw [← hall] at hring
  obtain ⟨⟨_, result⟩, hresult, rfl⟩ := List.mem_map.1 hring
  exact ⟨tree, a, first, last, result, htree, ha, hc, hfirst, hunstable, hlast, hresult,
    (hsolves _ hresult).1, (hsolves _ hresult).2, hreports⟩

end ProgramAnalysis
end PointsTo
