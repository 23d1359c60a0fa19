import PointsTo.Proofs.Program.FixedPoint

/-! # The order in which results are merged

The components of a wave are solved against one environment, and their results are then merged one after the
other. What the merges leave behind can be said without their order: the environment is a join, something has
changed exactly if one of the results brings a tag that the environment before all merges lacks, and since the
components of a wave share no unit, no result replaces another one. -/

namespace PointsTo

open List AbstractState

theorem AbstractState.accumulate_right_comm (a b c : AbstractState) :
    (a.accumulate b).accumulate c = (a.accumulate c).accumulate b := by
  have hfits : ∀ b c : AbstractState, ((a.accumulate b).accumulate c).Fits ((a.accumulate c).accumulate b) := by
    intro b c
    refine accumulate_fits (accumulate_fits ?_ (fits_accumulate_right _ b)) ?_
    · exact (fits_accumulate_left a c).trans (fits_accumulate_left _ b)
    · exact (fits_accumulate_right a c).trans (fits_accumulate_left _ b)
  exact (hfits b c).antisymm (hfits c b)

theorem foldl_insert_of_perm {new new' : List InferredTypes} (h : new.Perm new')
    (hunits : (new.map (·.unit)).Nodup) (m : Std.ExtTreeMap UnitId InferredTypes) :
    new.foldl (fun m types => m.insert types.unit types) m =
      new'.foldl (fun m types => m.insert types.unit types) m := by
  refine h.foldl_eq' (fun x hx y hy m => ?_) m
  by_cases hxy : x = y
  · rw [hxy]
  · have hne : x.unit ≠ y.unit := fun heq => hxy (inj_on_of_nodup_map hunits hx hy heq)
    refine Std.ExtTreeMap.ext_getElem? fun {id} => ?_
    simp only [Std.ExtTreeMap.getElem?_insert, Nat.compare_eq_eq]
    grind

/-- Rounds that differ at most in the order of the components that did not stabilize. -/
structure Round.Alike (r r' : Round) : Prop where
  number : r.number = r'.number
  env : r.env = r'.env
  changed : r.changed = r'.changed
  unstable : r.unstable.Perm r'.unstable
  results : r.results = r'.results

theorem Round.Alike.refl (r : Round) : r.Alike r := ⟨rfl, rfl, rfl, .refl _, rfl⟩

theorem Round.Alike.trans {r r' r'' : Round} (h : r.Alike r') (h' : r'.Alike r'') : r.Alike r'' :=
  ⟨h.number.trans h'.number, h.env.trans h'.env, h.changed.trans h'.changed, h.unstable.trans h'.unstable,
    h.results.trans h'.results⟩

namespace Preparation

section Merges

variable {cs cs' : List (List UnitId × ComponentResult)}
variable (cs)

theorem number_foldl_merge (r : Round) : (cs.foldl merge r).number = r.number := by
  induction cs generalizing r with
  | nil => rfl
  | cons c cs ih => exact ih (merge r c)

theorem env_foldl_merge (r : Round) :
    (cs.foldl merge r).env = (cs.map (·.2.effects)).foldl AbstractState.accumulate r.env := by
  induction cs generalizing r with
  | nil => rfl
  | cons c cs ih => exact ih (merge r c)

theorem unstable_foldl_merge (r : Round) :
    (cs.foldl merge r).unstable = r.unstable ++ (cs.filter fun c => !c.2.stable).map (·.1) := by
  induction cs generalizing r with
  | nil => simp
  | cons c cs ih =>
    rw [foldl_cons, ih, filter_cons]
    cases hstable : c.2.stable <;> simp [merge, hstable]

theorem results_foldl_merge (r : Round) : (cs.foldl merge r).results =
      (cs.flatMap (·.2.types)).foldl (fun m types => m.insert types.unit types) r.results := by
  induction cs generalizing r with
  | nil => rfl
  | cons c cs ih =>
    rw [foldl_cons, ih, flatMap_cons, foldl_append]
    rfl

/-- Merges report no change exactly if all that they take up was there before the first of them. -/
theorem changed_foldl_merge (r : Round) :
    (cs.foldl merge r).changed = false ↔ r.changed = false ∧ ∀ c ∈ cs, c.2.effects.Within r.env := by
  induction cs generalizing r with
  | nil => simp
  | cons c cs ih =>
    have hmerge : (merge r c).changed = false ↔ r.changed = false ∧ c.2.effects.Within r.env := by
      rw [← accumulateGrows_eq_false_iff]
      exact Bool.or_eq_false_iff
    rw [foldl_cons, ih, hmerge, forall_mem_cons, and_assoc]
    refine and_congr_right fun _ => and_congr_right fun hc => forall₂_congr fun d _ => ?_
    -- What the first merge takes up is nothing new, so the later ones are measured against the same environment.
    have hsame : ∀ l x, (merge r c).env.Holds l x ↔ r.env.Holds l x := fun l x =>
      holds_accumulate.trans (or_iff_left_of_imp (hc l x))
    simp only [Within, hsame]

theorem alike_foldl_merge_of_alike {r r' : Round} (h : r.Alike r') :
    (cs.foldl merge r).Alike (cs.foldl merge r') where
  number := by rw [number_foldl_merge, number_foldl_merge, h.number]
  env := by rw [env_foldl_merge, env_foldl_merge, h.env]
  changed := by
    rw [← Bool.not_inj_iff, Bool.eq_iff_iff]
    simp only [Bool.not_eq_true', changed_foldl_merge, h.changed, h.env]
  unstable := by
    rw [unstable_foldl_merge, unstable_foldl_merge]
    exact h.unstable.append_right _
  results := by rw [results_foldl_merge, results_foldl_merge, h.results]

variable {cs}

/-- Merges in two orders leave the same behind if no unit has two results. -/
theorem alike_foldl_merge (h : cs.Perm cs') (hunits : ((cs.flatMap (·.2.types)).map (·.unit)).Nodup) (r : Round) :
    (cs.foldl merge r).Alike (cs'.foldl merge r) where
  number := by rw [number_foldl_merge, number_foldl_merge]
  env := by
    rw [env_foldl_merge, env_foldl_merge]
    exact (h.map _).foldl_eq' (fun b _ c _ a => a.accumulate_right_comm b c) _
  changed := by
    rw [← Bool.not_inj_iff, Bool.eq_iff_iff]
    simp only [Bool.not_eq_true', changed_foldl_merge, h.mem_iff]
  unstable := by
    rw [unstable_foldl_merge, unstable_foldl_merge]
    exact ((h.filter _).map _).append_left _
  results := by
    rw [results_foldl_merge, results_foldl_merge]
    exact foldl_insert_of_perm (h.flatMap_right _) hunits _

end Merges

variable {t : Preparation}

theorem units_of_solveComponent (ht : t.Numbered) {r : Round} {component : List UnitId}
    {result : ComponentResult} (h : t.solveComponent r component = some result) :
    result.types.map (·.unit) = component.filter fun id => (t.unit? id).isSome := by
  have hunits : ∀ {us : List PreparedUnit} {ts : List InferredTypes},
      List.Forall₂ (t.InferredBetween r.env (r.env.accumulate result.effects)) us ts →
      ts.map (·.unit) = us.map (·.info.id) := by
    intro us ts hall
    induction hall with
    | nil => rfl
    | cons hinferred _ ih => rw [map_cons, map_cons, hinferred.unit_eq, ih]
  rw [hunits (solveComponent_inferred h), map_filterMap, ← filterMap_eq_filter]
  refine filterMap_congr fun id _ => ?_
  cases hu : t.unit? id with
  | none => simp [Option.guard, hu]
  | some u => simp [Option.guard, hu, ht id u hu]

theorem units_of_solved_sublist (ht : t.Numbered) {r : Round} {wave : List (List UnitId)}
    {solved : List ComponentResult} (h : wave.mapM (t.solveComponent r) = some solved) :
    (((wave.zip solved).flatMap (·.2.types)).map (·.unit)).Sublist wave.flatten := by
  have hall := forall₂_of_mapM h
  clear h
  induction hall with
  | nil => exact .slnil
  | cons hsolve _ ih =>
    rw [zip_cons_cons, flatMap_cons, map_append, flatten_cons,
      units_of_solveComponent ht hsolve]
    exact filter_sublist.append ih

theorem runWave_alike (ht : t.Numbered) {wave wave' : List (List UnitId)} (hperm : wave.Perm wave')
    (hunits : wave.flatten.Nodup) {r r' : Round} (hr : r.Alike r') :
    Option.Rel Round.Alike (t.runWave r wave) (t.runWave r' wave') := by
  have hsolve : t.solveComponent r = t.solveComponent r' := by
    funext component
    simp only [solveComponent, hr.env, hr.number]
  simp only [runWave, ← hsolve, Option.bind_eq_bind]
  cases hsolved : wave.mapM (t.solveComponent r) with
  | some solved =>
    obtain ⟨solved', hsolved', hpairs⟩ := exists_mapM_of_perm hperm hsolved
    have hresults := (units_of_solved_sublist ht hsolved).nodup hunits
    simp only [hsolved', Option.bind_some]
    exact .some ((alike_foldl_merge hpairs hresults r).trans (alike_foldl_merge_of_alike _ hr))
  | none =>
    cases hsolved' : wave'.mapM (t.solveComponent r) with
    | some solved' =>
      obtain ⟨solved, hsome, -⟩ := exists_mapM_of_perm hperm.symm hsolved'
      cases hsolved.symm.trans hsome
    | none => exact .none

theorem runWaves_alike (ht : t.Numbered) {waves waves' : List (List (List UnitId))}
    (hperm : List.Forall₂ List.Perm waves waves') (hunits : ∀ wave ∈ waves, wave.flatten.Nodup) {r r' : Round}
    (hr : r.Alike r') : Option.Rel Round.Alike (waves.foldlM t.runWave r) (waves'.foldlM t.runWave r') := by
  induction hperm generalizing r r' with
  | nil => exact .some hr
  | cons hwave _ ih =>
    rw [forall_mem_cons] at hunits
    rw [foldlM_cons, foldlM_cons]
    exact rel_bind (runWave_alike ht hwave hunits.1 hr) fun hr₁ => ih hunits.2 hr₁

/-- The components of a wave may be solved and merged in any order: either some solve does not end, whatever the
order is, or the environment, the report of a change, the components that did not stabilize and the results of the
units come out the same. So they do of whole rounds, whatever the order in each wave is. -/
theorem runWave_alike_of_perm (tree : SyntaxTree) (s : Settings) :
    let t := ofProgram (Program.ofTree tree s)
    (∀ wave ∈ t.dependencies.schedule, ∀ wave', wave.Perm wave' →
      ∀ r : Round, Option.Rel Round.Alike (t.runWave r wave) (t.runWave r wave')) ∧
    ∀ waves, List.Forall₂ List.Perm t.dependencies.schedule waves → ∀ o,
      Option.Rel Round.Alike (t.runRound t.dependencies.schedule o) (t.runRound waves o) := by
  intro t
  have ht : t.Numbered := numbered_ofTree tree s
  have hunits : ∀ wave ∈ t.dependencies.schedule, wave.flatten.Nodup :=
    fun _ => (respectedBy_of_inPlace (Program.inPlace_ofTree tree s)).nodup_flatten
  exact ⟨fun wave hwave wave' hperm r => runWave_alike ht hperm (hunits wave hwave) (.refl r),
    fun waves hperm o => runWaves_alike ht hperm hunits (.refl _)⟩

open Build in
/-- Two functions that call themselves and put what they get into a list. -/
def growingPair : RawNode :=
  module [function "f" ["n"] [ret (some (list [call (name "f") [name "n"]]))],
    function "g" ["n"] [ret (some (list [call (name "g") [name "n"]]))]]

/-- With a single round for each of them, neither stabilizes, and which one comes first shows in nothing but the
order in which they are listed. -/
theorem runWave_alike_on_growingPair : ∃ tree t r r', SyntaxTree.ofModule growingPair = .ok tree ∧
      t = ofProgram (Program.ofTree tree { maxRounds := 1 }) ∧ [[1], [2]] ∈ t.dependencies.schedule ∧
      [[1], [2]].Perm [[2], [1]] ∧ t.runWave { number := 0, env := .empty, results := ∅ } [[1], [2]] = some r ∧
      t.runWave { number := 0, env := .empty, results := ∅ } [[2], [1]] = some r' ∧
      r.unstable = [[1], [2]] ∧ r'.unstable = [[2], [1]] ∧ r.Alike r' := by
  have h : ((SyntaxTree.ofModule growingPair).toOption.bind fun tree =>
        let t := ofProgram (Program.ofTree tree { maxRounds := 1 })
        (t.runWave { number := 0, env := .empty, results := ∅ } [[1], [2]]).bind fun r =>
          (t.runWave { number := 0, env := .empty, results := ∅ } [[2], [1]]).map fun r' =>
            (r.unstable, r'.unstable, t.dependencies.schedule)) =
      some ([[1], [2]], [[2], [1]], [[[0]], [[1], [2]]]) := by
    decide +kernel
  obtain ⟨tree, htree, h⟩ := exists_ok_of_bind h
  obtain ⟨r, hr, h⟩ := Option.bind_eq_some_iff.1 h
  obtain ⟨r', hr', h⟩ := Option.map_eq_some_iff.1 h
  obtain ⟨hunstable, hunstable', hschedule⟩ : _ ∧ _ ∧ _ := by simpa using h
  have hwave : [[1], [2]] ∈ (ofProgram (Program.ofTree tree { maxRounds := 1 })).dependencies.schedule := by
    simp [hschedule]
  have hperm : [[1], [2]].Perm [[2], [1]] := .swap _ _ _
  have halike := (runWave_alike_of_perm tree { maxRounds := 1 }).1 _ hwave _ hperm
    { number := 0, env := .empty, results := ∅ }
  rw [hr, hr'] at halike
  cases halike with
  | some halike => exact ⟨tree, _, r, r', htree, rfl, hwave, hperm, hr, hr', hunstable, hunstable', halike⟩

end Preparation
end PointsTo
