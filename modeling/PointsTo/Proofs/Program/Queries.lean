import PointsTo.ProgramAnalysis
import PointsTo.Proofs.Flow.Construction

/-! # The solves of an analysis

The analysis of a program asks for the solves of units against environments and does nothing else that
depends on how blocks are visited. Two analyses of the same declarations therefore agree in everything but
the numbers of visits as long as the solves that both ask for find the same facts; and then they ask for
the same solves. -/

namespace PointsTo

open List Option

/-- A solve that an analysis asks for: when, of which unit, and what the units have published so far. -/
structure Query where
  turn : Turn
  unit : PreparedUnit
  env : AbstractState

namespace Preparation

variable (t : Preparation)

def states (q : Query) : Analysis AbstractState := (q.unit.frame t.program t.facts q.env).propagation

def solver (q : Query) : Solver := .ofSettings t.program.settings q.turn q.unit.info.id

def solution? (q : Query) : Option (Solution AbstractState) := (t.solver q).solve (t.states q) q.unit.graph

def Answers (q : Query) (types : InferredTypes) : Prop :=
  q.unit.infer t.program t.facts (t.solver q) q.env = some types

def passQueries : List PreparedUnit → Pass → List Query
  | [], _ => []
  | u :: units, a => ⟨a.turn, u, a.env⟩ :: ((t.passUnit a u).map (passQueries units)).getD []

def passesQueries (recursive : Bool) (units : List PreparedUnit) : Nat → Pass → List Query
  | 0, _ => []
  | n + 1, a =>
    t.passQueries units a.next ++ ((units.foldlM t.passUnit a.next).map fun a =>
      if recursive && !a.changed then [] else passesQueries recursive units n a).getD []

def componentQueries (r : Round) (component : List UnitId) : List Query :=
  let recursive := t.isRecursive component
  t.passesQueries recursive (component.filterMap t.unit?)
    (if recursive then max 1 t.program.settings.maxRounds else 1)
    { turn := ⟨r.number, 0⟩, env := r.env, effects := .empty }

def waveQueries (r : Round) (wave : List (List UnitId)) : List Query :=
  wave.flatMap (t.componentQueries r)

def roundQueries : List (List (List UnitId)) → Round → List Query
  | [], _ => []
  | wave :: waves, r => t.waveQueries r wave ++ ((t.runWave r wave).map (roundQueries waves)).getD []

def roundsQueries (schedule : List (List (List UnitId))) : Nat → Outcomes → List Query
  | 0, _ => []
  | n + 1, o =>
    t.roundQueries schedule o.next ++ ((t.runRound schedule o).map fun r =>
        if r.changed then roundsQueries schedule n ⟨r.env, r.results, r.unstable, o.rounds + 1, !r.changed⟩
        else []).getD []

/-- Every solve that the analysis of the program asks for, in order. -/
def queries : List Query :=
  t.roundsQueries t.dependencies.schedule t.program.settings.maxRounds ⟨.empty, ∅, [], 0, false⟩

end Preparation

/-! ## Results that agree -/

/-- Types without the number of visits that it took to find them. -/
def InferredTypes.uncounted (t : InferredTypes) : InferredTypes := { t with visits := 0 }

open InferredTypes (uncounted)

/-- Passes that differ at most in numbers of visits. -/
structure Pass.Agrees (a a' : Pass) : Prop where
  turn : a.turn = a'.turn
  env : a.env = a'.env
  effects : a.effects = a'.effects
  changed : a.changed = a'.changed
  types : a.types.map uncounted = a'.types.map uncounted

structure ComponentResult.Agrees (c c' : ComponentResult) : Prop where
  types : c.types.map uncounted = c'.types.map uncounted
  effects : c.effects = c'.effects
  stable : c.stable = c'.stable

def ResultsAgree (m m' : Std.ExtTreeMap UnitId InferredTypes) : Prop :=
  ∀ id : UnitId, m[id]?.map uncounted = m'[id]?.map uncounted

structure Round.Agrees (r r' : Round) : Prop where
  number : r.number = r'.number
  env : r.env = r'.env
  results : ResultsAgree r.results r'.results
  changed : r.changed = r'.changed
  unstable : r.unstable = r'.unstable

theorem ResultsAgree.insertAll {types types' : List InferredTypes} {m m' : Std.ExtTreeMap UnitId InferredTypes}
    (htypes : types.map uncounted = types'.map uncounted) (hm : ResultsAgree m m') :
    ResultsAgree (types.foldl (fun m t => m.insert t.unit t) m)
      (types'.foldl (fun m t => m.insert t.unit t) m') := by
  induction types generalizing types' m m' with
  | nil =>
    obtain rfl : types' = [] := by simpa using htypes.symm
    exact hm
  | cons t types ih =>
    cases types' with
    | nil => simp at htypes
    | cons t' types' =>
      obtain ⟨ht, htypes⟩ := List.cons.inj htypes
      have hunit : t.unit = t'.unit := show t.uncounted.unit = t'.uncounted.unit by rw [ht]
      rw [foldl_cons, foldl_cons]
      refine ih htypes fun id => ?_
      rw [Std.ExtTreeMap.getElem?_insert, Std.ExtTreeMap.getElem?_insert, hunit]
      split
      · exact congrArg some ht
      · exact hm id

theorem Round.Agrees.merge {r r' : Round} {component : List UnitId} {c c' : ComponentResult}
    (hr : r.Agrees r') (hc : c.Agrees c') :
    (Preparation.merge r (component, c)).Agrees (Preparation.merge r' (component, c')) where
  number := hr.number
  env := by simp [Preparation.merge, hr.env, hc.effects]
  results := hr.results.insertAll hc.types
  changed := by simp [Preparation.merge, hr.env, hr.changed, hc.effects]
  unstable := by simp [Preparation.merge, hr.unstable, hc.stable]

/-! ## Queries that both analyses ask -/

/-- Solutions that differ at most in the number of visits. -/
structure Solution.SameFacts {F : Type} (r r' : Solution F) : Prop where
  inFacts : r.inFacts = r'.inFacts
  outFacts : r.outFacts = r'.outFacts
  status : r.status = r'.status

theorem Frame.conclude_uncounted {f : Frame} {r r' : Solution AbstractState} {types types' : InferredTypes}
    (hr : r.SameFacts r') (h : f.conclude r = some types) (h' : f.conclude r' = some types') :
    types.uncounted = types'.uncounted := by
  obtain ⟨recorder, hrecorder, h⟩ := bind_eq_some_iff.1 h
  obtain ⟨recorder', hrecorder', h'⟩ := bind_eq_some_iff.1 h'
  cases h
  cases some.inj h'
  rw [hr.inFacts, hrecorder'] at hrecorder
  cases hrecorder
  simp [uncounted, hr.inFacts, hr.outFacts, hr.status]

namespace Preparation

/-- Preparations of the same declarations whose settings differ at most in how blocks are visited. -/
structure Alike (t t' : Preparation) : Prop where
  declarations : t.program.toDeclarations = t'.program.toDeclarations
  granularity : t.program.settings.granularity = t'.program.settings.granularity
  maxRounds : t.program.settings.maxRounds = t'.program.settings.maxRounds
  units : t.units = t'.units
  facts : t.facts = t'.facts
  dependencies : t.dependencies = t'.dependencies

variable {t t' : Preparation}

theorem Alike.frame (h : t.Alike t') (u : PreparedUnit) (env : AbstractState) :
    u.frame t.program t.facts env = u.frame t'.program t'.facts env := by
  simp only [PreparedUnit.frame, h.declarations, h.granularity, h.facts]

theorem Alike.states (h : t.Alike t') (q : Query) : t.states q = t'.states q := by
  rw [Preparation.states, Preparation.states, h.frame]

/-- Both analyses answer a query, with the same facts. -/
def SameFacts (t t' : Preparation) (q : Query) : Prop :=
  ∃ r r', t.solution? q = some r ∧ t'.solution? q = some r' ∧ r.SameFacts r'

/-- A query is not answered with different facts. -/
def Concurs (t t' : Preparation) (q : Query) : Prop :=
  ∀ r r', t.solution? q = some r → t'.solution? q = some r' → r.SameFacts r'

/-- The same queries, with the same answers. -/
structure Tracks (t t' : Preparation) (qs qs' : List Query) : Prop where
  queries : qs = qs'
  sameFacts : ∀ q ∈ qs, SameFacts t t' q

theorem Tracks.nil : Tracks t t' [] [] := ⟨rfl, by simp⟩

theorem Tracks.append {ps ps' qs qs' : List Query} (h : Tracks t t' ps ps') (h' : Tracks t t' qs qs') :
    Tracks t t' (ps ++ qs) (ps' ++ qs') := by
  refine ⟨by rw [h.queries, h'.queries], fun q hq => ?_⟩
  exact (mem_append.1 hq).elim (h.sameFacts q) (h'.sameFacts q)

variable (h : t.Alike t')
include h

theorem passUnit_agrees {u : PreparedUnit} {a a' b b' : Pass} (ha : a.Agrees a')
    (hb : t.passUnit a u = some b) (hb' : t'.passUnit a' u = some b') (hq : Concurs t t' ⟨a.turn, u, a.env⟩) :
    b.Agrees b' ∧ SameFacts t t' ⟨a.turn, u, a.env⟩ := by
  obtain ⟨types, htypes, hb⟩ := bind_eq_some_iff.1 hb
  obtain ⟨types', htypes', hb'⟩ := bind_eq_some_iff.1 hb'
  cases hb
  cases some.inj hb'
  obtain ⟨r, hr, hconclude⟩ := bind_eq_some_iff.1 htypes
  obtain ⟨r', hr', hconclude'⟩ := bind_eq_some_iff.1 htypes'
  rw [← ha.env] at hr' hconclude'
  rw [← ha.turn] at hr'
  have hsame : r.SameFacts r' := hq r r' hr hr'
  rw [h.frame] at hconclude
  have huncounted := Frame.conclude_uncounted hsame hconclude hconclude'
  have heffects : types.effects = types'.effects :=
    show types.uncounted.effects = types'.uncounted.effects by rw [huncounted]
  refine ⟨⟨ha.turn, ?_, ?_, ?_, ?_⟩, r, r', hr, hr', hsame⟩
  · simp [ha.env, heffects]
  · simp [ha.effects, heffects]
  · simp [ha.env, ha.changed, heffects]
  · simp [ha.types, huncounted]

theorem passUnits_agrees {units : List PreparedUnit} {a a' b b' : Pass} (ha : a.Agrees a')
    (hb : units.foldlM t.passUnit a = some b) (hb' : units.foldlM t'.passUnit a' = some b')
    (hq : ∀ q ∈ t.passQueries units a, q ∈ t'.passQueries units a' → Concurs t t' q) :
    b.Agrees b' ∧ Tracks t t' (t.passQueries units a) (t'.passQueries units a') := by
  induction units generalizing a a' with
  | nil =>
    cases hb
    cases some.inj hb'
    exact ⟨ha, .nil⟩
  | cons u units ih =>
    obtain ⟨c, hc, hb⟩ := bind_eq_some_iff.1 hb
    obtain ⟨c', hc', hb'⟩ := bind_eq_some_iff.1 hb'
    have hqs : t.passQueries (u :: units) a = [⟨a.turn, u, a.env⟩] ++ t.passQueries units c := by
      simp [passQueries, hc]
    have hqs' : t'.passQueries (u :: units) a' = [⟨a.turn, u, a.env⟩] ++ t'.passQueries units c' := by
      simp [passQueries, hc', ha.env, ha.turn]
    rw [hqs, hqs'] at hq ⊢
    obtain ⟨hagrees, hsame⟩ := passUnit_agrees h ha hc hc' (hq _ (by simp) (by simp))
    obtain ⟨hb, htracks⟩ := ih hagrees hb hb' fun q hmem hmem' => hq q (by simp [hmem]) (by simp [hmem'])
    exact ⟨hb, Tracks.append ⟨rfl, by simpa using hsame⟩ htracks⟩

theorem passes_agrees {recursive : Bool} {units : List PreparedUnit} {n : Nat} {a a' : Pass}
    {c c' : ComponentResult} (ha : a.Agrees a') (hc : t.passes recursive units n a = some c)
    (hc' : t'.passes recursive units n a' = some c')
    (hq : ∀ q ∈ t.passesQueries recursive units n a, q ∈ t'.passesQueries recursive units n a' →
      Concurs t t' q) :
    c.Agrees c' ∧
      Tracks t t' (t.passesQueries recursive units n a) (t'.passesQueries recursive units n a') := by
  induction n generalizing a a' with
  | zero =>
    cases hc
    cases some.inj hc'
    exact ⟨⟨ha.types, ha.effects, rfl⟩, .nil⟩
  | succ n ih =>
    obtain ⟨b, hb, hc⟩ := bind_eq_some_iff.1 hc
    obtain ⟨b', hb', hc'⟩ := bind_eq_some_iff.1 hc'
    have hqs : t.passesQueries recursive units (n + 1) a =
        t.passQueries units a.next ++ if recursive && !b.changed then [] else t.passesQueries recursive units n b := by
      simp [passesQueries, hb]
    have hqs' : t'.passesQueries recursive units (n + 1) a' =
        t'.passQueries units a'.next ++
          if recursive && !b'.changed then [] else t'.passesQueries recursive units n b' := by
      simp [passesQueries, hb']
    rw [hqs, hqs'] at hq ⊢
    have hstart : a.next.Agrees a'.next := ⟨by rw [Pass.next, ha.turn]; rfl, ha.env, ha.effects, rfl, rfl⟩
    obtain ⟨hagrees, htracks⟩ := passUnits_agrees h hstart hb hb'
      fun q hmem hmem' => hq q (mem_append_left _ hmem) (mem_append_left _ hmem')
    rw [hagrees.changed] at hc hq ⊢
    split at hc
    next hstop =>
      cases hc
      simp only [if_pos hstop] at hc' ⊢
      cases some.inj hc'
      exact ⟨⟨hagrees.types, hagrees.effects, rfl⟩, htracks.append .nil⟩
    next hgo =>
      simp only [if_neg hgo] at hc' hq ⊢
      obtain ⟨hagrees, htracks'⟩ := ih hagrees hc hc'
        fun q hmem hmem' => hq q (mem_append_right _ hmem) (mem_append_right _ hmem')
      exact ⟨hagrees, htracks.append htracks'⟩

theorem solveComponent_agrees {r r' : Round} (hr : r.Agrees r') {component : List UnitId}
    {c c' : ComponentResult} (hc : t.solveComponent r component = some c)
    (hc' : t'.solveComponent r' component = some c')
    (hq : ∀ q ∈ t.componentQueries r component, q ∈ t'.componentQueries r' component → Concurs t t' q) :
    c.Agrees c' ∧ Tracks t t' (t.componentQueries r component) (t'.componentQueries r' component) := by
  have hunit : t.unit? = t'.unit? := by
    funext id
    simp only [unit?, h.units]
  simp only [solveComponent, componentQueries, isRecursive, h.dependencies, h.maxRounds, hunit] at hc hc' hq ⊢
  exact passes_agrees h ⟨congrArg (Turn.mk · 0) hr.number, hr.env, rfl, rfl, rfl⟩ hc hc' hq

theorem solveComponents_agrees {start start' r r' : Round} (hstart : start.Agrees start')
    {wave : List (List UnitId)} {cs cs' : List ComponentResult} (hr : r.Agrees r')
    (hcs : wave.mapM (t.solveComponent start) = some cs) (hcs' : wave.mapM (t'.solveComponent start') = some cs')
    (hq : ∀ q ∈ t.waveQueries start wave, q ∈ t'.waveQueries start' wave → Concurs t t' q) :
    ((wave.zip cs).foldl merge r).Agrees ((wave.zip cs').foldl merge r') ∧
      Tracks t t' (t.waveQueries start wave) (t'.waveQueries start' wave) := by
  induction wave generalizing r r' cs cs' with
  | nil => exact ⟨hr, .nil⟩
  | cons component wave ih =>
    rw [mapM_cons] at hcs hcs'
    obtain ⟨c, hc, hcs⟩ := bind_eq_some_iff.1 hcs
    obtain ⟨c', hc', hcs'⟩ := bind_eq_some_iff.1 hcs'
    obtain ⟨ds, hds, hcs⟩ := bind_eq_some_iff.1 hcs
    obtain ⟨ds', hds', hcs'⟩ := bind_eq_some_iff.1 hcs'
    cases hcs
    cases some.inj hcs'
    simp only [waveQueries, flatMap_cons] at hq ih ⊢
    obtain ⟨hagrees, htracks⟩ := solveComponent_agrees h hstart hc hc'
      fun q hmem hmem' => hq q (mem_append_left _ hmem) (mem_append_left _ hmem')
    obtain ⟨hs, htracks'⟩ := ih (hr.merge hagrees) hds hds'
      fun q hmem hmem' => hq q (mem_append_right _ hmem) (mem_append_right _ hmem')
    exact ⟨hs, htracks.append htracks'⟩

theorem runWave_agrees {wave : List (List UnitId)} {r r' s s' : Round} (hr : r.Agrees r')
    (hs : t.runWave r wave = some s) (hs' : t'.runWave r' wave = some s')
    (hq : ∀ q ∈ t.waveQueries r wave, q ∈ t'.waveQueries r' wave → Concurs t t' q) :
    s.Agrees s' ∧ Tracks t t' (t.waveQueries r wave) (t'.waveQueries r' wave) := by
  obtain ⟨cs, hcs, hs⟩ := bind_eq_some_iff.1 hs
  obtain ⟨cs', hcs', hs'⟩ := bind_eq_some_iff.1 hs'
  cases hs
  cases some.inj hs'
  exact solveComponents_agrees h hr hr hcs hcs' hq

theorem runRound_agrees {schedule : List (List (List UnitId))} {r r' s s' : Round}
    (hr : r.Agrees r') (hs : schedule.foldlM t.runWave r = some s) (hs' : schedule.foldlM t'.runWave r' = some s')
    (hq : ∀ q ∈ t.roundQueries schedule r, q ∈ t'.roundQueries schedule r' → Concurs t t' q) :
    s.Agrees s' ∧ Tracks t t' (t.roundQueries schedule r) (t'.roundQueries schedule r') := by
  induction schedule generalizing r r' with
  | nil =>
    cases hs
    cases some.inj hs'
    exact ⟨hr, .nil⟩
  | cons wave waves ih =>
    obtain ⟨m, hm, hs⟩ := bind_eq_some_iff.1 hs
    obtain ⟨m', hm', hs'⟩ := bind_eq_some_iff.1 hs'
    have hqs : t.roundQueries (wave :: waves) r = t.waveQueries r wave ++ t.roundQueries waves m := by
      simp [roundQueries, hm]
    have hqs' : t'.roundQueries (wave :: waves) r' = t'.waveQueries r' wave ++ t'.roundQueries waves m' := by
      simp [roundQueries, hm']
    rw [hqs, hqs'] at hq ⊢
    obtain ⟨hagrees, htracks⟩ := runWave_agrees h hr hm hm'
      fun q hmem hmem' => hq q (mem_append_left _ hmem) (mem_append_left _ hmem')
    obtain ⟨hs, htracks'⟩ := ih hagrees hs hs'
      fun q hmem hmem' => hq q (mem_append_right _ hmem) (mem_append_right _ hmem')
    exact ⟨hs, htracks.append htracks'⟩

theorem runRounds_agrees {schedule : List (List (List UnitId))} {n : Nat}
    {o o' e e' : Outcomes} (hrounds : o.rounds = o'.rounds) (henv : o.env = o'.env)
    (hresults : ResultsAgree o.results o'.results)
    (he : t.runRounds schedule n o = some e) (he' : t'.runRounds schedule n o' = some e')
    (hq : ∀ q ∈ t.roundsQueries schedule n o, q ∈ t'.roundsQueries schedule n o' → Concurs t t' q) :
    e.env = e'.env ∧ ResultsAgree e.results e'.results ∧
      Tracks t t' (t.roundsQueries schedule n o) (t'.roundsQueries schedule n o') := by
  induction n generalizing o o' with
  | zero =>
    cases he
    cases some.inj he'
    exact ⟨henv, hresults, .nil⟩
  | succ n ih =>
    obtain ⟨r, hr, he⟩ := bind_eq_some_iff.1 he
    obtain ⟨r', hr', he'⟩ := bind_eq_some_iff.1 he'
    have hqs : t.roundsQueries schedule (n + 1) o =
        t.roundQueries schedule o.next ++ if r.changed then
          t.roundsQueries schedule n ⟨r.env, r.results, r.unstable, o.rounds + 1, !r.changed⟩ else [] := by
      simp [roundsQueries, hr]
    have hqs' : t'.roundsQueries schedule (n + 1) o' =
        t'.roundQueries schedule o'.next ++ if r'.changed then
          t'.roundsQueries schedule n ⟨r'.env, r'.results, r'.unstable, o'.rounds + 1, !r'.changed⟩
        else [] := by
      simp [roundsQueries, hr']
    rw [hqs, hqs'] at hq ⊢
    have hstart : o.next.Agrees o'.next := ⟨hrounds, henv, hresults, rfl, rfl⟩
    obtain ⟨hagrees, htracks⟩ := runRound_agrees h hstart hr hr'
      fun q hmem hmem' => hq q (mem_append_left _ hmem) (mem_append_left _ hmem')
    by_cases hchanged : r.changed
    · have hchanged' : r'.changed := hagrees.changed ▸ hchanged
      simp only [if_pos hchanged, if_pos hchanged'] at he he' hq ⊢
      obtain ⟨henv, hresults, htracks'⟩ := ih (congrArg (· + 1) hrounds) hagrees.env hagrees.results he he'
        fun q hmem hmem' => hq q (mem_append_right _ hmem) (mem_append_right _ hmem')
      exact ⟨henv, hresults, htracks.append htracks'⟩
    · have hchanged' : ¬r'.changed := hagrees.changed ▸ hchanged
      simp only [if_neg hchanged, if_neg hchanged'] at he he' ⊢
      cases he
      cases some.inj he'
      exact ⟨hagrees.env, hagrees.results, htracks.append .nil⟩

end Preparation

theorem ProgramAnalysis.preparation_eq {p : Program} {a : ProgramAnalysis} (h : ofProgram p = some a) :
    a.preparation = Preparation.ofProgram p := by
  obtain ⟨o, -, h⟩ := bind_eq_some_iff.1 h
  rw [← some.inj h]

end PointsTo
