import PointsTo.Proofs.Program.Coverage
import PointsTo.Proofs.Program.Waves

/-! # Converged analyses

A round that changes nothing infers every unit against the environment that the analysis ends with, as far as
tags go: nothing it takes up is new. What it may add is entries that are empty. They are not counted as
changes, but a variable with an empty entry reads differently from one without an entry, which is unbound. So
the results of a converged analysis are those of its final environment if its last round has added no
entry. -/

namespace PointsTo

open List Option AbstractState Preparation SyntaxTree

namespace Preparation

variable {t : Preparation} {u : PreparedUnit} {env : AbstractState} {types : InferredTypes}

theorem Infers.unit_eq (h : t.Infers u env types) : types.unit = u.info.id := by
  obtain ⟨turn, h⟩ := h
  obtain ⟨r, -, h⟩ := bind_eq_some_iff.1 h
  obtain ⟨recorder, -, h⟩ := bind_eq_some_iff.1 h
  cases h
  rfl

/-! ## Passes -/

/-- Types that were inferred between two environments, and whose effects the later one has taken up. -/
structure InferredBetween (t : Preparation) (early late : AbstractState) (u : PreparedUnit)
    (types : InferredTypes) : Prop where
  infers : ∃ env, early.Fits env ∧ env.Fits late ∧ t.Infers u env types
  effects : types.effects.Fits late

theorem InferredBetween.mono {early early' late late' : AbstractState}
    (h : t.InferredBetween early late u types) (he : early'.Fits early) (hl : late.Fits late') :
    t.InferredBetween early' late' u types := by
  obtain ⟨⟨env, hearly, hlate, hinfers⟩, heffects⟩ := h
  exact ⟨⟨env, he.trans hearly, hlate.trans hl, hinfers⟩, heffects.trans hl⟩

theorem InferredBetween.unit_eq {early late : AbstractState} (h : t.InferredBetween early late u types) :
    types.unit = u.info.id := by
  obtain ⟨⟨_, -, -, hinfers⟩, -⟩ := h
  exact hinfers.unit_eq

/-- What passes leave behind: more effects, and an environment that has taken up these and nothing else. -/
structure PassesTo (a a' : Pass) : Prop where
  env : a.env.Fits a'.env
  effects : a.effects.Fits a'.effects
  taken : a'.env.Fits (a.env.accumulate a'.effects)

theorem PassesTo.refl (a : Pass) : PassesTo a a :=
  ⟨.refl _, .refl _, fits_accumulate_left _ _⟩

variable {a : Pass} {n : Nat} {schedule : List (List (List UnitId))} {o : Outcomes}

theorem PassesTo.trans {a' a'' : Pass} (h : PassesTo a a') (h' : PassesTo a' a'') : PassesTo a a'' where
  env := h.env.trans h'.env
  effects := h.effects.trans h'.effects
  taken := h'.taken.trans (accumulate_fits (h.taken.trans (accumulate_fits
    (fits_accumulate_left _ _)
    (h'.effects.trans (fits_accumulate_right _ _))))
    (fits_accumulate_right _ _))

theorem passUnit_passesTo {a' : Pass} (h : t.passUnit a u = some a') :
    PassesTo a a' ∧ ∃ types, a'.types = a.types ++ [types] ∧ t.InferredBetween a.env a'.env u types := by
  obtain ⟨types, htypes, h⟩ := bind_eq_some_iff.1 h
  cases h
  refine ⟨⟨fits_accumulate_left _ _, fits_accumulate_left _ _, ?_⟩, types, rfl,
    ⟨a.env, .refl _, fits_accumulate_left _ _, a.turn, htypes⟩, fits_accumulate_right _ _⟩
  exact accumulate_fits (fits_accumulate_left _ _)
    ((fits_accumulate_right _ _).trans (fits_accumulate_right _ _))

theorem foldlM_passUnit {units : List PreparedUnit} {a' : Pass} (h : units.foldlM t.passUnit a = some a') :
    PassesTo a a' ∧ ∃ new, a'.types = a.types ++ new ∧
      List.Forall₂ (t.InferredBetween a.env a'.env) units new := by
  induction units generalizing a with
  | nil =>
    obtain rfl := some.inj h
    exact ⟨.refl a, [], by simp, .nil⟩
  | cons u units ih =>
    obtain ⟨a₁, h₁, h⟩ := bind_eq_some_iff.1 h
    obtain ⟨hfirst, types, htypes, hinferred⟩ := passUnit_passesTo h₁
    obtain ⟨hrest, new, hnew, hall⟩ := ih h
    refine ⟨hfirst.trans hrest, types :: new, by simp [hnew, htypes], ?_⟩
    exact .cons (hinferred.mono (.refl _) hrest.env) (hall.imp fun _ _ h => h.mono hfirst.env (.refl _))

theorem passes_inferred {recursive : Bool} {units : List PreparedUnit}
    {r : ComponentResult} (h : t.passes recursive units (n + 1) a = some r) : a.effects.Fits r.effects ∧
      List.Forall₂ (t.InferredBetween a.env (a.env.accumulate r.effects)) units r.types := by
  induction n generalizing a with
  | zero =>
    obtain ⟨a', ha', h⟩ := bind_eq_some_iff.1 h
    obtain ⟨hpass, new, hnew, hall⟩ := foldlM_passUnit ha'
    obtain ⟨htypes, heffects⟩ : r.types = a'.types ∧ r.effects = a'.effects := by
      split at h <;> obtain rfl := some.inj h <;> exact ⟨rfl, rfl⟩
    rw [heffects, htypes, hnew]
    exact ⟨hpass.effects, hall.imp fun _ _ h => h.mono (.refl _) hpass.taken⟩
  | succ n ih =>
    obtain ⟨a', ha', h⟩ := bind_eq_some_iff.1 h
    obtain ⟨hpass, new, hnew, hall⟩ := foldlM_passUnit ha'
    split at h
    · cases h
      rw [hnew]
      exact ⟨hpass.effects, hall.imp fun _ _ h => h.mono (.refl _) hpass.taken⟩
    · obtain ⟨heffects, hall⟩ := ih h
      refine ⟨hpass.effects.trans heffects, hall.imp fun _ _ h => h.mono hpass.env ?_⟩
      refine accumulate_fits (hpass.taken.trans ?_) (fits_accumulate_right _ _)
      exact accumulate_fits (fits_accumulate_left _ _)
        (heffects.trans (fits_accumulate_right _ _))

theorem solveComponent_inferred {start : Round} {component : List UnitId} {r : ComponentResult}
    (h : t.solveComponent start component = some r) : List.Forall₂
      (t.InferredBetween start.env (start.env.accumulate r.effects)) (component.filterMap t.unit?) r.types := by
  have hpasses : ∃ n, (if t.isRecursive component then max 1 t.program.settings.maxRounds else 1) = n + 1 := by
    split
    · exact ⟨max 1 t.program.settings.maxRounds - 1, by omega⟩
    · exact ⟨0, rfl⟩
  obtain ⟨n, hn⟩ := hpasses
  rw [solveComponent, hn] at h
  exact (passes_inferred h).2

/-! ## Rounds -/

def Numbered (t : Preparation) : Prop := ∀ id u, t.unit? id = some u → u.info.id = id

/-- Types that were inferred between two environments for the unit of a number. -/
def InferredFor (t : Preparation) (early late : AbstractState) (id : UnitId) (types : InferredTypes) : Prop :=
  ∀ u, t.unit? id = some u → t.InferredBetween early late u types

/-- What a round has done: the units of the components so far are inferred, and as long as nothing counts as a
change, the environment holds nothing new. -/
structure Ongoing (t : Preparation) (start : AbstractState) (done : List UnitId) (r : Round) : Prop where
  fits : start.Fits r.env
  calm : r.changed = false → r.env.Within start
  results : ∀ id ∈ done, (t.unit? id).isSome →
    ∃ types, r.results[id]? = some types ∧ t.InferredFor start r.env id types

theorem exists_getElem?_foldl_insert {P : UnitId → InferredTypes → Prop} {new : List InferredTypes}
    (hnew : ∀ types ∈ new, P types.unit types) {id : UnitId} {m : Std.ExtTreeMap UnitId InferredTypes}
    (h : (∃ types ∈ new, types.unit = id) ∨ ∃ types, m[id]? = some types ∧ P id types) :
    ∃ types, (new.foldl (fun m types => m.insert types.unit types) m)[id]? = some types ∧ P id types := by
  induction new generalizing m with
  | nil => exact h.resolve_left (by simp)
  | cons first new ih =>
    refine ih (fun types h => hnew types (mem_cons_of_mem _ h)) ?_
    by_cases hfirst : first.unit = id
    · refine .inr ⟨first, ?_, hfirst ▸ hnew first mem_cons_self⟩
      rw [Std.ExtTreeMap.getElem?_insert]
      simp [hfirst]
    · refine h.imp ?_ ?_
      · rintro ⟨types, hmem, hunit⟩
        rcases mem_cons.1 hmem with rfl | hmem
        · exact absurd hunit hfirst
        · exact ⟨types, hmem, hunit⟩
      · rintro ⟨types, hm, hp⟩
        refine ⟨types, ?_, hp⟩
        rw [Std.ExtTreeMap.getElem?_insert]
        simpa [hfirst] using hm

variable {start : AbstractState} {done : List UnitId} {r r' : Round}

theorem Ongoing.merge (ht : t.Numbered) (h : t.Ongoing start done r) {before : Round} (hstart : start.Fits before.env)
    (henv : before.env.Fits r.env) {component : List UnitId} {result : ComponentResult}
    (hsolve : t.solveComponent before component = some result) :
    t.Ongoing start (done ++ component) (merge r (component, result)) := by
  have hinferred := solveComponent_inferred hsolve
  have hlate : (before.env.accumulate result.effects).Fits (r.env.accumulate result.effects) :=
    accumulate_fits (henv.trans (fits_accumulate_left _ _))
      (fits_accumulate_right _ _)
  refine ⟨h.fits.trans (fits_accumulate_left _ _), fun hcalm => ?_, fun id hid hsome => ?_⟩
  · obtain ⟨hbefore, hgrows⟩ : r.changed = false ∧ r.env.accumulateGrows result.effects = false := by
      simpa [Preparation.merge] using hcalm
    have hwithin := h.calm hbefore
    intro l x hx
    exact (holds_accumulate.1 hx).elim (hwithin l x) fun hx =>
      hwithin l x (accumulateGrows_eq_false_iff.1 hgrows l x hx)
  · have hnew : ∀ types ∈ result.types,
        t.InferredFor start (r.env.accumulate result.effects) types.unit types := by
      intro types htypes u hu
      obtain ⟨u', hu', hbetween⟩ := exists_of_mem_right hinferred htypes
      obtain ⟨id', -, hid'⟩ := mem_filterMap.1 hu'
      have hunit : types.unit = id' := hbetween.unit_eq.trans (ht id' u' hid')
      obtain rfl : u' = u := some.inj (hid'.symm.trans (hunit ▸ hu))
      exact hbetween.mono hstart hlate
    refine exists_getElem?_foldl_insert hnew ?_
    rcases mem_append.1 hid with hid | hid
    · obtain ⟨types, htypes, hfor⟩ := h.results id hid hsome
      refine .inr ⟨types, htypes, fun u hu => ?_⟩
      exact (hfor u hu).mono (.refl _) (fits_accumulate_left _ _)
    · obtain ⟨u, hu⟩ := isSome_iff_exists.1 hsome
      obtain ⟨types, htypes, hbetween⟩ :=
        exists_of_mem_left hinferred (mem_filterMap.2 ⟨id, hid, hu⟩)
      exact .inl ⟨types, htypes, hbetween.unit_eq.trans (ht id u hu)⟩

theorem Ongoing.runWave (ht : t.Numbered) (h : t.Ongoing start done r) {wave : List (List UnitId)}
    (hrun : t.runWave r wave = some r') : t.Ongoing start (done ++ wave.flatten) r' := by
  obtain ⟨solved, hsolved, hrun⟩ := bind_eq_some_iff.1 hrun
  cases hrun
  have hfold : ∀ {cs : List (List UnitId)} {rs : List ComponentResult} {done : List UnitId} {r₁ : Round},
      List.Forall₂ (fun c result => t.solveComponent r c = some result) cs rs →
      t.Ongoing start done r₁ → r.env.Fits r₁.env →
      t.Ongoing start (done ++ cs.flatten) ((cs.zip rs).foldl Preparation.merge r₁) := by
    intro cs rs done r₁ hall
    induction hall generalizing done r₁ with
    | nil =>
      intro h₁ _
      simpa using h₁
    | cons hsolve _ ih =>
      intro h₁ henv
      have hmerge := h₁.merge ht h.fits henv hsolve
      rw [flatten_cons, ← append_assoc]
      exact ih hmerge (henv.trans (fits_accumulate_left _ _))
  exact hfold (forall₂_of_mapM hsolved) h (.refl _)

theorem Ongoing.runRound (ht : t.Numbered)
    (hrun : t.runRound schedule o = some r) : t.Ongoing o.env schedule.flatten.flatten r := by
  have hfold : ∀ {waves : List (List (List UnitId))} {done : List UnitId} {r₁ r₂ : Round},
      waves.foldlM t.runWave r₁ = some r₂ → t.Ongoing o.env done r₁ →
      t.Ongoing o.env (done ++ waves.flatten.flatten) r₂ := by
    intro waves
    induction waves with
    | nil =>
      intro done r₁ r₂ hrun h₁
      cases hrun
      simpa using h₁
    | cons wave waves ih =>
      intro done r₁ r₂ hrun h₁
      obtain ⟨r', hr', hrun⟩ := bind_eq_some_iff.1 hrun
      have hwave := h₁.runWave ht hr'
      simpa using ih hrun hwave
  have hinitial : t.Ongoing o.env [] o.next := ⟨.refl _, fun _ _ _ hx => hx, by simp⟩
  simpa using hfold hrun hinitial

/-- Rounds that end because nothing changes end with what a round leaves that changes nothing. -/
theorem exists_calm_round {o' : Outcomes}
    (h : t.runRounds schedule n o = some o') (ho : o.converged = false) (hc : o'.converged = true) :
    ∃ k last r, t.runRounds schedule k o = some last ∧ t.runRound schedule last = some r ∧
      r.changed = false ∧ o' = ⟨r.env, r.results, r.unstable, o.rounds + k + 1, true⟩ := by
  induction n generalizing o with
  | zero =>
    cases h
    cases ho.symm.trans hc
  | succ n ih =>
    obtain ⟨r, hr, h⟩ := bind_eq_some_iff.1 h
    cases hchanged : r.changed with
    | false =>
      cases some.inj (by simpa [hchanged] using h)
      exact ⟨0, o, r, rfl, hr, hchanged, rfl⟩
    | true =>
      obtain ⟨k, last, r', hlast, hr', hcalm, rfl⟩ := ih (by simpa [hchanged] using h) rfl
      refine ⟨k + 1, last, r', ?_, hr', hcalm, ?_⟩
      · rw [runRounds, hr]
        simpa [hchanged] using hlast
      · rw [Nat.add_assoc o.rounds, Nat.add_comm 1 k]

theorem exists_last_round {o' : Outcomes}
    (h : t.runRounds schedule n o = some o') (ho : o.converged = false) (hc : o'.converged = true) :
    ∃ k last r, t.runRounds schedule k o = some last ∧ o'.rounds = o.rounds + k + 1 ∧
      t.runRound schedule last = some r ∧ r.changed = false ∧
      o'.env = r.env ∧ o'.results = r.results := by
  obtain ⟨k, last, r, hlast, hr, hcalm, rfl⟩ := exists_calm_round h ho hc
  exact ⟨k, last, r, hlast, rfl, hr, hcalm, rfl, rfl⟩

def envAfter (t : Preparation) (n : Nat) : Option AbstractState :=
  (t.runRounds t.dependencies.schedule n ⟨.empty, ∅, [], 0, false⟩).map (·.env)

end Preparation

theorem Preparation.numbered_ofTree (tree : SyntaxTree) (s : Settings) :
    (Preparation.ofProgram (Program.ofTree tree s)).Numbered := fun id u hu =>
  Program.inPlace_ofTree tree s id u.info (prepared_of_unit? hu).1

namespace ProgramAnalysis

/-- A converged analysis has types for every prepared unit. The environment has taken up their effects, and
they are inferred against an environment that differs from it at most in lacking empty entries that the last
round has added. If the last round has added no entry, they are inferred against the final environment. -/
theorem inferred_of_converged {tree : SyntaxTree} {s : Settings} {a : ProgramAnalysis}
    (h : ofProgram (Program.ofTree tree s) = some a) (hc : a.converged = true) :
    ∃ start, a.preparation.envAfter (a.rounds - 1) = some start ∧ start.Pads a.env ∧
      ∀ id u, a.preparation.unit? id = some u → ∃ t, a.types? id = some t ∧
        a.env.accumulate t.effects = a.env ∧
        (∃ env, start.Pads env ∧ env.Pads a.env ∧ a.preparation.Infers u env t) ∧
        (start = a.env → a.preparation.Infers u a.env t) := by
  obtain ⟨o, ho, h⟩ := bind_eq_some_iff.1 h
  cases h
  obtain ⟨k, last, r, hlast, hrounds, hr, hcalm, henv, hresults⟩ := Preparation.exists_last_round ho rfl hc
  have hround := Preparation.Ongoing.runRound (Preparation.numbered_ofTree tree s) hr
  have hwithin : o.env.Within last.env := henv ▸ hround.calm hcalm
  have hfits : last.env.Fits o.env := henv ▸ hround.fits
  refine ⟨last.env, ?_, hfits.pads hwithin, fun id u hu => ?_⟩
  · have hk : o.rounds = k + 1 := hrounds.trans (by simp)
    simp only [hk, Nat.add_sub_cancel, Preparation.envAfter, hlast, map_some]
  · have hscheduled := mem_schedule (Program.inPlace_ofTree tree s) hu
    obtain ⟨t, ht, hfor⟩ := hround.results id hscheduled (by simp [hu])
    obtain ⟨⟨env, hearly, hlate, hinfers⟩, heffects⟩ := hfor u hu
    rw [← henv] at hlate heffects
    refine ⟨t, hresults ▸ ht, accumulate_eq_self heffects, ⟨env, ?_, ?_, hinfers⟩, ?_⟩
    · exact hearly.pads (hlate.within.trans hwithin)
    · exact hlate.pads (hwithin.trans hearly.within)
    · intro hstart
      change last.env = o.env at hstart
      rw [hstart] at hearly
      exact hlate.antisymm hearly ▸ hinfers

open Build in
def selfCall : RawNode :=
  module [function "f" ["n"] [ret (some (call (name "f") [name "n"]))],
    assign (name "x") (call (name "f") [int])]

/-- The second round of a function that calls itself adds no entry, so that its types are those of the final
environment. -/
theorem inferred_on_selfCall :
    ∃ tree a u t, ofModule selfCall = .ok tree ∧ ofProgram (Program.ofTree tree {}) = some a ∧
      a.converged = true ∧ a.preparation.envAfter (a.rounds - 1) = some a.env ∧
      a.preparation.unit? 1 = some u ∧ a.types? 1 = some t ∧ a.preparation.Infers u a.env t := by
  have h : ((ofModule selfCall).toOption.bind fun tree =>
      (ofProgram (Program.ofTree tree {})).bind fun a => (a.preparation.unit? 1).bind fun _ =>
        (a.preparation.envAfter (a.rounds - 1)).map fun start =>
          a.converged && decide (start.Fits a.env ∧ a.env.Fits start)) = some true := by decide +kernel
  obtain ⟨tree, htree, h⟩ := exists_ok_of_bind h
  obtain ⟨a, ha, h⟩ := bind_eq_some_iff.1 h
  obtain ⟨u, hu, h⟩ := bind_eq_some_iff.1 h
  obtain ⟨start, hstart, h⟩ := map_eq_some_iff.1 h
  obtain ⟨hc, hfits, hfits'⟩ : _ ∧ _ ∧ _ := by simpa using h
  have henv := hstart.trans (congrArg some (hfits.antisymm hfits'))
  obtain ⟨start', hstart', -, hall⟩ := inferred_of_converged ha hc
  obtain ⟨t, ht, -, -, hinfers⟩ := hall 1 u hu
  exact ⟨tree, a, u, t, htree, ha, hc, henv, hu, ht, hinfers (some.inj (hstart'.symm.trans henv))⟩

open Build in
/-- A module that imports itself and assigns `x` after it has ended. One function reads `x`; another one,
which waits for its caller, stores a value there that has no tags. -/
def lateEntry : RawNode :=
  module [importModule "m" .none,
    function "a" [] [assign (name "y") (name "x")],
    function "h" ["p"] [expr (name "m"), assign (attr (name "p") "x") (attr none "z")],
    function "c" [] [expr (call (name "h") [name "m"])],
    raise .none, assign (name "x") int]

/-- The last round gives `x` an entry without tags and counts it as no change. The function that reads `x` was
inferred before that, when `x` was unbound, and its types are not those of the final environment. -/
theorem not_inferred_on_lateEntry : ∃ tree a u t, ofModules [("m", lateEntry)] = .ok tree ∧
      ofProgram (Program.ofTree tree {}) = some a ∧ a.converged = true ∧ a.preparation.unit? 1 = some u ∧
      a.types? 1 = some t ∧ ¬a.preparation.Infers u a.env t := by
  have h : ((ofModules [("m", lateEntry)]).toOption.bind fun tree =>
      (ofProgram (Program.ofTree tree {})).bind fun a => (a.preparation.unit? 1).bind fun u =>
        (a.types? 1).map fun t => (a.converged, t.exprTypes.all (fun _ v => v.isBottom),
          (u.infer a.preparation.program a.preparation.facts {} a.env).map fun t =>
            t.exprTypes.all fun _ v => v.isBottom)) = some (true, false, some true) := by decide +kernel
  obtain ⟨tree, htree, h⟩ := exists_ok_of_bind h
  obtain ⟨a, ha, h⟩ := bind_eq_some_iff.1 h
  obtain ⟨u, hu, h⟩ := bind_eq_some_iff.1 h
  obtain ⟨t, ht, h⟩ := map_eq_some_iff.1 h
  simp only [Prod.mk.injEq] at h
  obtain ⟨hc, hbound, hempty⟩ := h
  refine ⟨tree, a, u, t, htree, ha, hc, hu, ht, ?_⟩
  rintro ⟨turn, hinfers⟩
  -- Without a time limit the turn makes no difference.
  have hsolver : a.preparation.solver ⟨turn, u, a.env⟩ = {} := by
    rw [solver, preparation_eq ha]
    rfl
  rw [Answers, hsolver] at hinfers
  rw [hinfers, map_some, hbound] at hempty
  cases hempty

end ProgramAnalysis
end PointsTo
