import PointsTo.Proofs.Program.MergeOrder
import PointsTo.Proofs.Program.Stabilization

/-! # Units that cannot be analysed

Whether a unit has a flow graph is decided by the unit alone. One without a graph is set aside with a single
diagnostic, and neither the dependencies nor the schedule nor the results know it. All others are scheduled, and
the rounds end with types for each of them, be it that they converge or that they are used up. -/

namespace PointsTo

open List Option Program SyntaxTree DependencyGraph

namespace Preparation

/-! ## Preparation of one unit -/

section Units

variable {p : Program} {i : Nat} {info : UnitInfo}

theorem unit?_eq_prepared? (hi : p.units[i]? = some info) :
    (ofProgram p).unit? i = prepared? (info, PreparedUnit.ofUnit p info) := by
  have hunits : (ofProgram p).units[i]? = some (info, PreparedUnit.ofUnit p info) := by
    simp [ofProgram, hi]
  rw [unit?, hunits, bind_some]

theorem unit?_of_ok (hi : p.units[i]? = some info) {g : FlowGraph}
    (hg : FlowGraph.ofUnit p.settings.unsupported info = .ok g) :
    (ofProgram p).unit? i = some ⟨info, g, UnitFlow.ofUnit p g info⟩ := by
  rw [unit?_eq_prepared? hi, PreparedUnit.ofUnit, hg]
  rfl

theorem unit?_of_error (hi : p.units[i]? = some info) {e : Fault}
    (he : FlowGraph.ofUnit p.settings.unsupported info = .error e) : (ofProgram p).unit? i = none := by
  rw [unit?_eq_prepared? hi, PreparedUnit.ofUnit, he]
  rfl

theorem mem_failed_iff (hp : InPlace p.units) (hi : p.units[i]? = some info) :
    i ∈ (ofProgram p).facts.failed ↔ (ofProgram p).unit? i = none := by
  have hfailed : i ∈ (ofProgram p).facts.failed ↔
      ∃ info ∈ p.units.toList, prepared? (info, PreparedUnit.ofUnit p info) = none ∧ info.id = i := by
    simp [ofProgram, ProgramFacts.ofFlows, Std.ExtTreeSet.mem_ofList, and_assoc]
  rw [hfailed, unit?_eq_prepared? hi]
  constructor
  · rintro ⟨info', hmem, hnone, rfl⟩
    obtain ⟨j, hj⟩ := getElem?_of_mem hmem
    rw [Array.getElem?_toList] at hj
    obtain rfl : info'.id = j := hp j info' hj
    exact some.inj (hj.symm.trans hi) ▸ hnone
  · exact fun hnone => ⟨info, Array.mem_toList_iff.2 (Array.mem_of_getElem? hi), hnone, hp i info hi⟩

/-- The report of each unit stands between those of the units before and after it. -/
theorem diagnostics_eq (hi : p.units[i]? = some info) : (ofProgram p).diagnostics = p.diagnostics ++
      (p.units.toList.take i).flatMap (fun u => diagnosticsOf p (u, PreparedUnit.ofUnit p u)) ++
      diagnosticsOf p (info, PreparedUnit.ofUnit p info) ++
      (p.units.toList.drop (i + 1)).flatMap (fun u => diagnosticsOf p (u, PreparedUnit.ofUnit p u)) := by
  obtain ⟨hlt, rfl⟩ := List.getElem?_eq_some_iff.1 (Array.getElem?_toList.trans hi)
  have hsplit : p.units.toList = p.units.toList.take i ++ p.units.toList[i] :: p.units.toList.drop (i + 1) := by
    rw [cons_getElem_drop_succ, take_append_drop]
  rw [diagnostics, show (ofProgram p).units = p.units.toList.map fun u => (u, PreparedUnit.ofUnit p u) from rfl,
    flatMap_map]
  conv_lhs => rw [hsplit]
  rw [flatMap_append, flatMap_cons, append_assoc, append_assoc]
  rfl

/-- A unit that can be analysed: it has its flow graph and flow facts, and one place in the schedule. -/
structure Placed (t : Preparation) (info : UnitInfo) (g : FlowGraph) : Prop where
  prepared : t.unit? info.id = some ⟨info, g, UnitFlow.ofUnit t.program g info⟩
  flow : (UnitFlow.ofUnit t.program g info).unit = info.id
  notFailed : info.id ∉ t.facts.failed
  depends : info.id ∈ t.dependencies.units
  scheduled : ∃! place : Nat × Nat, StandsAt t.dependencies.schedule info.id place.1 place.2

/-- A unit that cannot be analysed: it counts as failed and has one diagnostic, and nothing refers to it. -/
structure SetAside (t : Preparation) (info : UnitInfo) (e : Fault) : Prop where
  unprepared : t.unit? info.id = none
  failed : info.id ∈ t.facts.failed
  reported : t.diagnostics = t.program.diagnostics ++
    (t.program.units.toList.take info.id).flatMap
      (fun u => diagnosticsOf t.program (u, PreparedUnit.ofUnit t.program u)) ++
    [(Diagnostic.ofFault e).inUnit info.name] ++
    (t.program.units.toList.drop (info.id + 1)).flatMap
      (fun u => diagnosticsOf t.program (u, PreparedUnit.ofUnit t.program u))
  independent : info.id ∉ t.dependencies.units ∧ t.dependencies.dependencies info.id = [] ∧
    ∀ u, info.id ∉ t.dependencies.dependencies u
  unscheduled : ∀ wave ∈ t.dependencies.schedule, ∀ component ∈ wave, info.id ∉ component

theorem placed_of_ok (hp : InPlace p.units) (hi : p.units[i]? = some info) {g : FlowGraph}
    (hg : FlowGraph.ofUnit p.settings.unsupported info = .ok g) : (ofProgram p).Placed info g := by
  obtain rfl : info.id = i := hp i info hi
  have hprepared := unit?_of_ok hi hg
  have hunits : info.id ∈ (ofProgram p).dependencies.units := (mem_units_iff hp).2 (by rw [hprepared]; rfl)
  exact ⟨hprepared, rfl, fun h => by simp [(mem_failed_iff hp hi).1 h] at hprepared, hunits,
    (respectedBy_of_inPlace hp).placed _ hunits⟩

theorem setAside_of_error (hp : InPlace p.units) (hi : p.units[i]? = some info) {e : Fault}
    (he : FlowGraph.ofUnit p.settings.unsupported info = .error e) : (ofProgram p).SetAside info e := by
  obtain rfl : info.id = i := hp i info hi
  have hnone := unit?_of_error hi he
  have hunits : info.id ∉ (ofProgram p).dependencies.units := by
    rw [mem_units_iff hp, hnone]
    simp
  have hreport : diagnosticsOf p (info, PreparedUnit.ofUnit p info) = [(Diagnostic.ofFault e).inUnit info.name] := by
    rw [PreparedUnit.ofUnit, he]
    rfl
  refine ⟨hnone, (mem_failed_iff hp hi).2 hnone, ?_, ⟨hunits, ?_, fun u hu => ?_⟩, fun wave hwave c hc hmem => ?_⟩
  · exact hreport ▸ diagnostics_eq hi
  · exact eq_nil_iff_forall_not_mem.2 fun v hv => hunits (proper_ofFlows _ _ _ v hv).1
  · exact hunits (proper_ofFlows _ _ u _ hu).2
  · exact hunits (((respectedBy_of_inPlace hp).only wave hwave c hc).1 hmem)

end Units

/-! ## Results -/

variable {t : Preparation}

def OfPrepared (t : Preparation) (results : Std.ExtTreeMap UnitId InferredTypes) : Prop :=
  ∀ (id : UnitId) (types : InferredTypes), results[id]? = some types → (t.unit? id).isSome

theorem OfPrepared.runWave (ht : t.Numbered) {r r' : Round} {wave : List (List UnitId)}
    (h : t.runWave r wave = some r') (hr : t.OfPrepared r.results) : t.OfPrepared r'.results := by
  obtain ⟨solved, hsolved, h⟩ := bind_eq_some_iff.1 h
  cases h
  intro id types htypes
  rw [results_foldl_merge] at htypes
  rcases mem_or_of_getElem?_foldl_insert htypes with ⟨hmem, rfl⟩ | hbefore
  · obtain ⟨c, hc, hmem⟩ := mem_flatMap.1 hmem
    have hsolve := (List.forall₂_iff_zip.1 (forall₂_of_mapM hsolved)).2 hc
    have hunit := List.mem_map_of_mem (f := (·.unit)) hmem
    rw [units_of_solveComponent ht hsolve] at hunit
    exact (mem_filter.1 hunit).2
  · exact hr id types hbefore

variable {schedule : List (List (List UnitId))} {n : Nat} {o : Outcomes}

theorem OfPrepared.runRounds (ht : t.Numbered) {o' : Outcomes}
    (h : t.runRounds schedule n o = some o') (ho : t.OfPrepared o.results) : t.OfPrepared o'.results :=
  runRounds_invariant (fun _ results => t.OfPrepared results) (OfPrepared.runWave ht) h ho

/-- Rounds, if there is at least one, end with what the last of them leaves, whether it changes anything or not. -/
theorem exists_final_round {o' : Outcomes} (h : t.runRounds schedule (n + 1) o = some o') :
    ∃ last r, t.runRound schedule last = some r ∧ o'.results = r.results := by
  induction n generalizing o with
  | zero =>
    obtain ⟨r, hr, h⟩ := bind_eq_some_iff.1 h
    refine ⟨o, r, hr, ?_⟩
    split at h <;> exact (some.inj h) ▸ rfl
  | succ n ih =>
    obtain ⟨r, hr, h⟩ := bind_eq_some_iff.1 h
    split at h
    · exact ih h
    · exact ⟨o, r, hr, some.inj h ▸ rfl⟩

theorem exists_runRounds
    (h : ∀ q ∈ t.roundsQueries schedule n o, t.Ends q) : ∃ o', t.runRounds schedule n o = some o' := by
  induction n generalizing o with
  | zero => exact ⟨o, rfl⟩
  | succ n ih =>
    rw [roundsQueries, forall_mem_append] at h
    obtain ⟨r, hr⟩ : ∃ r, t.runRound schedule o = some r := exists_runWaves h.1
    rw [runRounds, hr]
    rw [hr] at h
    cases hchanged : r.changed with
    | false => exact ⟨_, by simp [hchanged]; rfl⟩
    | true =>
      obtain ⟨o', ho'⟩ := ih (by simpa [hchanged] using h.2)
      exact ⟨o', by simpa [hchanged] using ho'⟩

end Preparation

theorem Settings.maxRounds_ne_zero {s : Settings} (h : s.check = .ok ()) : s.maxRounds ≠ 0 := by
  intro hzero
  simp only [check, hzero] at h
  split at h <;> cases h

namespace ProgramAnalysis

/-- Every unit of a program fares by itself. If it has a flow graph, it is prepared with that graph, has one place in
the schedule, and an analysis ends with types that are inferred for it. If it has none, it is failed, the fault is
reported once, no unit depends on it, no component holds it, and an analysis ends without types for it. An analysis has
a result if the solves it asks for have. -/
theorem isolated_units (tree : SyntaxTree) {s : Settings} (hs : s.check = .ok ()) :
    let p := Program.ofTree tree s
    let t := Preparation.ofProgram p
    (∀ i info, p.units[i]? = some info → info.id = i ∧
      (∀ g, FlowGraph.ofUnit s.unsupported info = .ok g → t.Placed info g ∧
        ∀ a, ofProgram p = some a → a.preparation = t ∧ ∃ types env, a.types? i = some types ∧ types.unit = i ∧
          t.Infers ⟨info, g, UnitFlow.ofUnit p g info⟩ env types) ∧
      ∀ e, FlowGraph.ofUnit s.unsupported info = .error e → t.SetAside info e ∧
        ∀ a, ofProgram p = some a → a.preparation = t ∧ a.types? i = none) ∧
    ((∀ q ∈ t.queries, t.Ends q) → ∃ a, ofProgram p = some a) := by
  intro p t
  have hp : InPlace p.units := inPlace_ofTree tree s
  have ht : t.Numbered := Preparation.numbered_ofTree tree s
  refine ⟨fun i info hi => ⟨hp i info hi, fun g hg => ⟨Preparation.placed_of_ok hp hi hg, fun a ha => ?_⟩,
    fun e he => ⟨Preparation.setAside_of_error hp hi he, fun a ha => ?_⟩⟩, fun hends => ?_⟩
  · obtain ⟨o, ho, ha⟩ := bind_eq_some_iff.1 ha
    cases ha
    have hu := Preparation.unit?_of_ok hi hg
    obtain ⟨n, hn⟩ : ∃ n, p.settings.maxRounds = n + 1 :=
      Nat.exists_eq_succ_of_ne_zero (Settings.maxRounds_ne_zero hs)
    rw [hn] at ho
    obtain ⟨last, r, hr, hresults⟩ := Preparation.exists_final_round ho
    obtain ⟨types, htypes, hfor⟩ := (Preparation.Ongoing.runRound ht hr).results i (Preparation.mem_schedule hp hu)
      (isSome_iff_exists.2 ⟨_, hu⟩)
    obtain ⟨⟨env, -, -, hinfers⟩, -⟩ := hfor _ hu
    exact ⟨rfl, types, env, hresults ▸ htypes, hinfers.unit_eq.trans (hp i info hi), hinfers⟩
  · obtain ⟨o, ho, ha⟩ := bind_eq_some_iff.1 ha
    cases ha
    refine ⟨rfl, eq_none_iff_forall_ne_some.2 fun types htypes => ?_⟩
    have hsome := Preparation.OfPrepared.runRounds ht ho (fun id types h => by simp at h) i types htypes
    simp [Preparation.unit?_of_error hi he, t] at hsome
  · obtain ⟨o, ho⟩ := Preparation.exists_runRounds hends
    exact ⟨_, bind_eq_some_iff.2 ⟨o, ho, rfl⟩⟩

open Build in
/-- A function with a loop that has neither a condition nor a body, one that is well formed, and calls of both. -/
def brokenLoop : RawNode :=
  module [function "bad" [] [.ofKind "While"], function "good" [] [ret (some int)],
    assign (name "y") (call (name "good") []), assign (name "z") (call (name "bad") [])]

/-- The function with the loop is set aside, and the other one has its graph and its types. -/
theorem isolated_on_brokenLoop :
    ∃ tree p t a bad e good g types env, ofModule brokenLoop = .ok tree ∧ ({} : Settings).check = .ok () ∧
      p = Program.ofTree tree {} ∧ t = Preparation.ofProgram p ∧ (∀ q ∈ t.queries, t.Ends q) ∧
      ofProgram p = some a ∧
      p.units[1]? = some bad ∧ FlowGraph.ofUnit p.settings.unsupported bad = .error e ∧ t.SetAside bad e ∧
      a.types? 1 = none ∧
      p.units[2]? = some good ∧ FlowGraph.ofUnit p.settings.unsupported good = .ok g ∧ t.Placed good g ∧
      a.types? 2 = some types ∧ types.unit = 2 ∧ t.Infers ⟨good, g, UnitFlow.ofUnit p g good⟩ env types := by
  have h : ((ofModule brokenLoop).toOption.bind fun tree =>
        let p := Program.ofTree tree {}
        p.units[1]?.bind fun bad => p.units[2]?.bind fun good =>
          match FlowGraph.ofUnit p.settings.unsupported bad, FlowGraph.ofUnit p.settings.unsupported good with
          | .error _, .ok _ => some p.endsAlways
          | _, _ => none) = some true := by decide +kernel
  obtain ⟨tree, htree, h⟩ := exists_ok_of_bind h
  obtain ⟨bad, hbad, h⟩ := bind_eq_some_iff.1 h
  obtain ⟨good, hgood, h⟩ := bind_eq_some_iff.1 h
  split at h
  next e g he hg =>
    obtain ⟨hunits, hresult⟩ := isolated_units tree (s := {}) rfl
    have hends := Preparation.ends_of_endsAlways (some.inj h)
    obtain ⟨a, ha⟩ := hresult hends
    obtain ⟨-, -, hfails⟩ := hunits 1 bad hbad
    obtain ⟨-, hsolved, -⟩ := hunits 2 good hgood
    obtain ⟨-, types, env, htypes, hunit, hinfers⟩ := (hsolved g hg).2 a ha
    exact ⟨tree, _, _, a, bad, e, good, g, types, env, htree, rfl, rfl, rfl, hends, ha, hbad, he, (hfails e he).1,
      ((hfails e he).2 a ha).2, hgood, hg, (hsolved g hg).1, htypes, hunit, hinfers⟩
  next => cases h

open Build in
/-- A function, and beside it a handler for what a function of tuples, applied twice, gives. -/
def besideEndless : RawNode :=
  module [function "good" [] [ret (some int)], assign (name "f") (lambda ["y"] (tuple [name "y"])),
    tryBlock [pass] [handler (some (call (name "f") [call (name "f") [int]])) Option.none [pass]] [] []]

/-- The handler never ends, since the tuple it is given holds itself. So no unit gets types, the function with a graph
of its own among them. -/
theorem not_isolated_on_besideEndless :
    ∃ tree good g, ofModule besideEndless = .ok tree ∧ ({} : Settings).check = .ok () ∧
      (Program.ofTree tree {}).units[1]? = some good ∧ good.name = "good" ∧
      FlowGraph.ofUnit ({} : Settings).unsupported good = .ok g ∧ ofProgram (Program.ofTree tree {}) = none := by
  have h : ((ofModule besideEndless).toOption.bind fun tree => (Program.ofTree tree {}).units[1]?.map fun good =>
        (good.name, (FlowGraph.ofUnit ({} : Settings).unsupported good).toOption.isSome,
          (ofProgram (Program.ofTree tree {})).isNone)) = some ("good", true, true) := by decide +kernel
  obtain ⟨tree, htree, h⟩ := exists_ok_of_bind h
  obtain ⟨good, hgood, h⟩ := map_eq_some_iff.1 h
  simp only [Prod.mk.injEq] at h
  obtain ⟨hname, hgraph, hnone⟩ := h
  obtain ⟨g, hg⟩ : ∃ g, FlowGraph.ofUnit ({} : Settings).unsupported good = .ok g := by
    cases hgraph' : FlowGraph.ofUnit ({} : Settings).unsupported good with
    | ok g => exact ⟨g, rfl⟩
    | error e => simp [hgraph', Except.toOption] at hgraph
  exact ⟨tree, good, g, htree, rfl, hgood, hname, hg, isNone_iff_eq_none.1 hnone⟩

end ProgramAnalysis
end PointsTo
