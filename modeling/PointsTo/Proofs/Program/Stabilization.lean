import Mathlib.Data.Finset.Option
import Mathlib.Data.Finset.Prod
import Mathlib.Data.Set.Finite.Basic
import PointsTo.Proofs.Program.Universe

/-! # Rounds come to an end

The locations and tags of a tree are finitely many, and every round that reports a change lets the environment hold
one of these tags, or anything at all, at one of these locations where it did not before. So only so many rounds can
change something, and an analysis that may take more rounds than that ends with one that changes nothing. It has a
result whenever the transfers of its blocks have: what a block does when it is run once more to be recorded, it has
done before on the same state. -/

namespace PointsTo

open List Option AbstractState SyntaxTree

/-! ## The universe as a bound -/

section Bound

variable (tree : SyntaxTree)

noncomputable def SyntaxTree.locations : Finset Location := tree.declarations.isFinite_vocabulary.locations.toFinset

noncomputable def SyntaxTree.tags : Finset TypeTag := tree.declarations.isFinite_vocabulary.tags.toFinset

/-- What an environment may hold: at each location each tag, or anything at all. -/
noncomputable def SyntaxTree.holdings : Finset (Location × Option TypeTag) :=
  tree.locations ×ˢ Finset.insertNone tree.tags

noncomputable def SyntaxTree.roundBound : Nat := tree.locations.card * (tree.tags.card + 1) + 1

variable {tree}

theorem SyntaxTree.mem_locations {l : Location} : l ∈ tree.locations ↔ l.Spelt tree.declarations.vocabulary :=
  Set.Finite.mem_toFinset _

theorem SyntaxTree.mem_tags {t : TypeTag} : t ∈ tree.tags ↔ t.Spelt tree.declarations.vocabulary :=
  Set.Finite.mem_toFinset _

theorem SyntaxTree.roundBound_eq : tree.roundBound = tree.holdings.card + 1 := by
  rw [roundBound, holdings, Finset.card_product, Finset.card_insertNone]

end Bound

namespace AbstractState

variable {s s' : AbstractState}

instance (s : AbstractState) (l : Location) (x : Option TypeTag) : Decidable (s.Holds l x) :=
  match h : s.get? l with
  | some v => decidable_of_iff (v.Holds x) (holds_iff h).symm
  | none => isFalse fun ⟨v, hv, _⟩ => by simp [h] at hv

/-- All entries of a state are at given locations and hold given tags, where they do not hold anything. -/
def LiesIn (s : AbstractState) (locations : Finset Location) (tags : Finset TypeTag) : Prop :=
  ∀ l v, s.get? l = some v → l ∈ locations ∧ (v ≠ .top → ∀ t ∈ v, t ∈ tags)

def held (s : AbstractState) (holdings : Finset (Location × Option TypeTag)) : Finset (Location × Option TypeTag) :=
  holdings.filter fun e => s.Holds e.1 e.2

theorem Spelt.liesIn {tree : SyntaxTree} (h : s.Spelt tree.declarations.vocabulary) :
    s.LiesIn tree.locations tree.tags := by
  intro l v hv
  obtain ⟨hl, hspelt⟩ := h l v hv
  refine ⟨mem_locations.2 hl, fun hne t ht => SyntaxTree.mem_tags.2 ?_⟩
  cases v with
  | top => exact absurd rfl hne
  | tags members => exact hspelt t ht

theorem exists_new {tree : SyntaxTree} (h : s'.Spelt tree.declarations.vocabulary) (hnew : ¬s'.Within s) :
    ∃ e ∈ tree.holdings, s'.Holds e.1 e.2 ∧ ¬s.Holds e.1 e.2 := by
  simp only [Within, not_forall] at hnew
  obtain ⟨l, x, hx, hnot⟩ := hnew
  obtain ⟨v, hv, hvx⟩ := hx
  obtain ⟨hl, hspelt⟩ := h l v hv
  have hmem : ∀ y : Option TypeTag, (∀ t ∈ y, t.Spelt tree.declarations.vocabulary) → (l, y) ∈ tree.holdings := by
    intro y hy
    refine Finset.mem_product.2 ⟨mem_locations.2 hl, Finset.mem_insertNone.2 fun t ht => ?_⟩
    exact SyntaxTree.mem_tags.2 (hy t ht)
  cases v with
  | top =>
    refine ⟨(l, none), hmem none nofun, ⟨.top, hv, rfl⟩, ?_⟩
    rintro ⟨w, hw, rfl⟩
    exact hnot ⟨.top, hw, TypeSet.holds_top x⟩
  | tags members =>
    cases x with
    | none => cases hvx
    | some t =>
      exact ⟨(l, some t), hmem (some t) fun u hu => mem_some.1 hu ▸ hspelt t hvx, ⟨_, hv, hvx⟩, hnot⟩

theorem held_ssubset {tree : SyntaxTree} (h : s'.Spelt tree.declarations.vocabulary) (hwithin : s.Within s')
    (hnew : ¬s'.Within s) : s.held tree.holdings ⊂ s'.held tree.holdings := by
  obtain ⟨e, he, hs', hs⟩ := exists_new h hnew
  refine Finset.ssubset_iff_of_subset (Finset.monotone_filter_right _ fun e _ => hwithin e.1 e.2) |>.2 ⟨e, ?_, ?_⟩
  · exact Finset.mem_filter.2 ⟨he, hs'⟩
  · exact fun hmem => hs (Finset.mem_filter.1 hmem).2

end AbstractState

/-- An object that belongs to a call is not copied again for another one. -/
theorem Frame.cloneTag_of_context (f : Frame) (call : NodeId) (scope : ScopeId) {r : HeapRef}
    (h : r.site.context.isSome) : f.cloneTag call scope (.object r) = .object r := by
  have hlocal : f.isLocal scope r = false := by
    simp [isLocal, isSome_iff_ne_none.1 h]
  simp [cloneTag, hlocal]

/-! ## Rounds that change something -/

/-- A round that has lost nothing of the environment it started from, and has more if it reports a change. -/
structure Round.Extends (t : Preparation) (env : AbstractState) (r : Round) : Prop where
  published : t.Published r.env
  within : env.Within r.env
  news : r.changed = true → ¬r.env.Within env

namespace Round.Extends

variable {t : Preparation} {env : AbstractState} {r r' : Round}

theorem merge {component : List UnitId × ComponentResult} (h : Extends t env r)
    (hc : t.Published component.2.effects) : Extends t env (Preparation.merge r component) := by
  have hkept := within_accumulate_left r.env component.2.effects
  refine ⟨.accumulate h.published hc, h.within.trans hkept, fun hchanged hback => ?_⟩
  rcases Bool.or_eq_true_iff.1 hchanged with hchanged | hgrows
  · exact h.news hchanged (hkept.trans hback)
  · -- Were there nothing new, the effects would lie within what the round has already.
    have hwithin : component.2.effects.Within r.env :=
      ((within_accumulate_right r.env _).trans hback).trans h.within
    rw [accumulateGrows_eq_false_iff.2 hwithin] at hgrows
    cases hgrows

theorem mergeAll {components : List (List UnitId × ComponentResult)} (h : Extends t env r)
    (hc : ∀ c ∈ components, t.Published c.2.effects) : Extends t env (components.foldl Preparation.merge r) :=
  List.foldlRecOn components _ h fun _ h c hmem => h.merge (hc c hmem)

theorem runWave {wave : List (List UnitId)} (hr : t.runWave r wave = some r') (h : Extends t env r) :
    Extends t env r' := by
  obtain ⟨solved, hsolved, hr⟩ := bind_eq_some_iff.1 hr
  cases hr
  exact h.mergeAll fun c hc => (Preparation.arises_of_mem_zip h.published hsolved c hc).1

theorem runRound {schedule : List (List (List UnitId))} {o : Outcomes} (h : t.runRound schedule o = some r)
    (ho : t.Published o.env) : Extends t o.env r :=
  foldlM_invariant (Extends t o.env) runWave h ⟨ho, fun _ _ hx => hx, nofun⟩

end Round.Extends

theorem SyntaxTree.held_ssubset_runRound {tree : SyntaxTree} {s : Settings} {schedule : List (List (List UnitId))}
    {o : Outcomes} {r : Round} (h : (Preparation.ofProgram (Program.ofTree tree s)).runRound schedule o = some r)
    (ho : (Preparation.ofProgram (Program.ofTree tree s)).Published o.env) (hchanged : r.changed = true) :
    o.env.held tree.holdings ⊂ r.env.held tree.holdings := by
  have hextends := Round.Extends.runRound h ho
  exact AbstractState.held_ssubset hextends.published.spelt hextends.within (hextends.news hchanged)

/-! ## Solves that have a result -/

namespace Solver

variable {F : Type} [DecidableEq F] {s : Solver} {a : Analysis F} {g : FlowGraph}

theorem exists_run {budget : Nat} {p : Progress F}
    (hvisits : ∀ v ∈ s.visits a g budget p, (a.transfer (g.block v.block) (inputOf a g v)).isSome)
    (hp : ∀ (b : BlockId) (input : F), p.inFacts[b]? = some input → (a.transfer (g.block b) input).isSome) :
    ∃ r, s.run a g budget p = some r ∧
      ∀ (b : BlockId) (input : F), r.inFacts[b]? = some input → (a.transfer (g.block b) input).isSome := by
  induction budget generalizing p with
  | zero =>
    unfold run
    split
    · exact ⟨_, rfl, hp⟩
    · exact ⟨_, rfl, hp⟩
  | succ budget ih =>
    unfold run
    split
    next => exact ⟨_, rfl, hp⟩
    next b rest hwaiting =>
      dsimp only
      split
      next => exact ⟨_, rfl, hp⟩
      next htime =>
        rw [visits, hwaiting] at hvisits
        simp only [htime, Bool.false_eq_true, if_false, forall_mem_cons] at hvisits
        obtain ⟨hfirst, hrest⟩ := hvisits
        obtain ⟨q, hq⟩ := exists_visit rest hfirst
        obtain ⟨output, -, hin, -⟩ := visit_eq_some hq
        rw [hq, bind_some]
        refine ih (by simpa [hq] using hrest) fun c input hc => ?_
        rw [hin, Std.ExtTreeMap.getElem?_insert] at hc
        split at hc
        next hcb =>
          cases Std.LawfulEqOrd.eq_of_compare hcb
          exact some.inj hc ▸ hfirst
        next => exact hp c input hc

theorem exists_solve (hvisits : ∀ v ∈ s.solveVisits a g, (a.transfer (g.block v.block) (inputOf a g v)).isSome) :
    ∃ r, s.solve a g = some r ∧
      ∀ (b : BlockId) (input : F), r.inFacts[b]? = some input → (a.transfer (g.block b) input).isSome :=
  exists_run hvisits fun b input h => by simp at h

end Solver

namespace Frame

variable {f : Frame} {inputs : Std.ExtTreeMap BlockId AbstractState}

theorem exists_replayBlock {b : BlockId}
    (h : ∀ s, inputs[b]? = some s → (f.transfer (f.graph.block b) s).isSome) (r : Recorder) :
    ∃ r', f.replayBlock inputs r b = some r' := by
  unfold replayBlock
  split
  next s hs =>
    have hends := h s hs
    rw [transfer, isSome_map] at hends
    obtain ⟨m, hm⟩ := isSome_iff_exists.1 hends
    obtain ⟨ds, -, hrun⟩ := exists_deeds hm
    exact ⟨_, by rw [hrun (some r)]; rfl⟩
  next => exact ⟨r, rfl⟩

theorem exists_replay (h : ∀ (b : BlockId) s, inputs[b]? = some s → (f.transfer (f.graph.block b) s).isSome) :
    ∃ r, f.replay inputs = some r := by
  have hblocks : ∀ (bs : List BlockId) (r : Recorder), ∃ r', bs.foldlM (f.replayBlock inputs) r = some r' := by
    intro bs
    induction bs with
    | nil => exact fun r => ⟨r, rfl⟩
    | cons b bs ih =>
      intro r
      obtain ⟨r', hr'⟩ := exists_replayBlock (h b) r
      obtain ⟨r'', hr''⟩ := ih r'
      exact ⟨r'', by rw [foldlM_cons, hr']; exact hr''⟩
  exact hblocks _ _

end Frame

namespace Preparation

variable {t : Preparation}

/-- The block transfers that a query asks for all end. -/
def Ends (t : Preparation) (q : Query) : Prop :=
  ∀ v ∈ (t.solver q).solveVisits (t.states q) q.unit.graph,
    ((t.states q).transfer (q.unit.graph.block v.block) (Solver.inputOf (t.states q) q.unit.graph v)).isSome

theorem Ends.exists_answers {q : Query} (h : t.Ends q) : ∃ types, t.Answers q types := by
  obtain ⟨r, hr, hinputs⟩ := Solver.exists_solve h
  obtain ⟨recorder, hrecorder⟩ := Frame.exists_replay (f := q.unit.frame t.program t.facts q.env) hinputs
  refine ⟨_, bind_eq_some_iff.2 ⟨r, hr, bind_eq_some_iff.2 ⟨recorder, hrecorder, rfl⟩⟩⟩

theorem exists_passUnits {units : List PreparedUnit} {a : Pass} (h : ∀ q ∈ t.passQueries units a, t.Ends q) :
    ∃ b, units.foldlM t.passUnit a = some b := by
  induction units generalizing a with
  | nil => exact ⟨a, rfl⟩
  | cons u units ih =>
    rw [passQueries, forall_mem_cons] at h
    obtain ⟨types, htypes⟩ := h.1.exists_answers
    have hpass : t.passUnit a u = some _ := bind_eq_some_iff.2 ⟨types, htypes, rfl⟩
    obtain ⟨b, hb⟩ := ih (by simpa [hpass] using h.2)
    exact ⟨b, by rw [foldlM_cons, hpass]; exact hb⟩

theorem exists_passes {recursive : Bool} {units : List PreparedUnit} {n : Nat} {a : Pass}
    (h : ∀ q ∈ t.passesQueries recursive units n a, t.Ends q) : ∃ c, t.passes recursive units n a = some c := by
  induction n generalizing a with
  | zero => exact ⟨_, rfl⟩
  | succ n ih =>
    rw [passesQueries, forall_mem_append] at h
    obtain ⟨b, hb⟩ := exists_passUnits h.1
    simp only [hb, map_some, getD_some] at h
    simp only [passes, hb, bind_eq_bind, bind_some]
    split
    next => exact ⟨_, rfl⟩
    next hgoes =>
      rw [if_neg hgoes] at h
      exact ih h.2

theorem exists_runWave {r : Round} {wave : List (List UnitId)} (h : ∀ q ∈ t.waveQueries r wave, t.Ends q) :
    ∃ r', t.runWave r wave = some r' := by
  have hsolve : ∀ component ∈ wave, ∃ c, t.solveComponent r component = some c := by
    intro component hcomponent
    exact exists_passes fun q hq => h q (mem_flatMap.2 ⟨component, hcomponent, hq⟩)
  obtain ⟨solved, hsolved⟩ := exists_mapM hsolve
  exact ⟨_, bind_eq_some_iff.2 ⟨solved, hsolved, rfl⟩⟩

theorem exists_runWaves {waves : List (List (List UnitId))} {r : Round} (h : ∀ q ∈ t.roundQueries waves r, t.Ends q) :
    ∃ r', waves.foldlM t.runWave r = some r' := by
  induction waves generalizing r with
  | nil => exact ⟨r, rfl⟩
  | cons wave waves ih =>
    rw [roundQueries, forall_mem_append] at h
    obtain ⟨r₁, hr₁⟩ := exists_runWave h.1
    obtain ⟨r₂, hr₂⟩ := ih (by simpa [hr₁] using h.2)
    exact ⟨r₂, by rw [foldlM_cons, hr₁]; exact hr₂⟩

/-- Rounds end, with one that changes nothing, if there may be more of them than there are things that the
environment does not hold yet. -/
theorem exists_converged {tree : SyntaxTree} {s : Settings} {schedule : List (List (List UnitId))} {n : Nat}
    {o : Outcomes} (ht : t = ofProgram (Program.ofTree tree s)) (ho : t.Published o.env)
    (h : ∀ q ∈ t.roundsQueries schedule n o, t.Ends q)
    (hn : tree.holdings.card < (o.env.held tree.holdings).card + n) :
    ∃ o', t.runRounds schedule n o = some o' ∧ o'.converged = true ∧
      o'.rounds + (o.env.held tree.holdings).card ≤ o.rounds + tree.holdings.card + 1 := by
  induction n generalizing o with
  | zero =>
    have hle : (o.env.held tree.holdings).card ≤ tree.holdings.card := Finset.card_filter_le _ _
    omega
  | succ n ih =>
    rw [roundsQueries, forall_mem_append] at h
    obtain ⟨r, hr⟩ : ∃ r, t.runRound schedule o = some r := exists_runWaves h.1
    simp only [hr, map_some, getD_some] at h
    simp only [runRounds, hr, bind_eq_bind, bind_some]
    split
    next hchanged =>
      have hpublished := (Round.Extends.runRound hr ho).published
      have hlt : (o.env.held tree.holdings).card < (r.env.held tree.holdings).card := by
        subst ht
        exact Finset.card_lt_card (held_ssubset_runRound hr ho hchanged)
      rw [if_pos hchanged] at h
      obtain ⟨o', ho', hconverged, hrounds⟩ := ih hpublished h.2 (by dsimp only; omega)
      exact ⟨o', ho', hconverged, by dsimp only at hrounds; omega⟩
    next hchanged =>
      have hle : (o.env.held tree.holdings).card ≤ tree.holdings.card := Finset.card_filter_le _ _
      exact ⟨_, rfl, by simpa using hchanged, by dsimp only; omega⟩

end Preparation

/-! ## Programs whose transfers end -/

/-- Whether a step ends on every state: a handler does that names no exceptions. -/
def Step.endsAlways : Step → Bool
  | .handle handler => handler.children.length ≤ 1
  | _ => true

namespace Frame

variable {f : Frame}

theorem exists_step {step : Step} (h : step.endsAlways = true) (m : Machine) : ∃ m', f.step m step = some m' := by
  cases step with
  | handle handler =>
    rw [Frame.step, handle]
    split
    next named body rest hchildren => simp [Step.endsAlways, hchildren] at h
    next => exact ⟨_, rfl⟩
  | _ => exact ⟨_, rfl⟩

theorem isSome_transfer {b : Block} (h : b.steps.all Step.endsAlways = true) (s : AbstractState) :
    (f.transfer b s).isSome := by
  have hsteps : ∀ (f : Frame) (steps : List Step), steps.all Step.endsAlways = true → ∀ m : Machine,
      (steps.foldlM f.step m).isSome := by
    intro f steps
    induction steps with
    | nil => exact fun _ m => rfl
    | cons step steps ih =>
      intro h m
      rw [all_cons, Bool.and_eq_true] at h
      obtain ⟨m', hm'⟩ := f.exists_step h.1 m
      rw [foldlM_cons, hm']
      exact ih h.2 m'
  rw [transfer, isSome_map]
  exact hsteps _ _ h _

end Frame

def Program.endsAlways (p : Program) : Bool :=
  p.units.toList.all fun u => match FlowGraph.ofUnit p.settings.unsupported u with
    | .ok g => g.blocks.toList.all fun b => b.steps.all Step.endsAlways
    | .error _ => true

theorem Preparation.ends_of_endsAlways {p : Program} (h : p.endsAlways = true) :
    ∀ q ∈ (ofProgram p).queries, (ofProgram p).Ends q := by
  intro q hq v _
  obtain ⟨id, hid⟩ := (queryArises_of_mem_queries hq).unit
  obtain ⟨hinfo, hgraph, -⟩ := prepared_of_unit? hid
  have hunit := List.all_eq_true.1 h q.unit.info (Array.mem_toList_iff.2 (Array.mem_of_getElem? hinfo))
  simp only [hgraph] at hunit
  refine Frame.isSome_transfer ?_ _
  rw [FlowGraph.block]
  cases hb : q.unit.graph.blocks[v.block]? with
  | none => rfl
  | some b => exact List.all_eq_true.1 hunit b (Array.mem_toList_iff.2 (Array.mem_of_getElem? hb))

/-! ## Analyses that stabilize -/

namespace ProgramAnalysis

/-- All that can be published lies among finitely many locations and tags that the tree determines, since the receiver
of a bound method is no bound method and an object that belongs to a call is not copied for another. Every round that
reports a change takes up more of them. So if all block transfers end, an analysis that may take as many rounds as the
tree bounds them by has a result, and stops at an environment that no longer changes within so many rounds. -/
theorem converges_within_roundBound (tree : SyntaxTree) (s : Settings) :
    let p := Program.ofTree tree s
    let t := Preparation.ofProgram p
    (∀ q ∈ t.queries, t.Published q.env) ∧
    (∀ env, t.Published env → env.LiesIn tree.locations tree.tags) ∧
    (∀ receiver name, .method receiver name ∈ tree.tags → receiver.isMethod = false) ∧
    (∀ (f : Frame) call scope (r : HeapRef), r.site.context.isSome →
      f.cloneTag call scope (.object r) = .object r) ∧
    (∀ o r, t.Published o.env → t.runRound t.dependencies.schedule o = some r →
      r.changed = true → o.env.held tree.holdings ⊂ r.env.held tree.holdings) ∧
    ((∀ q ∈ t.queries, t.Ends q) → tree.roundBound ≤ s.maxRounds →
      ∃ a, ofProgram p = some a ∧ t.Published a.env ∧ a.converged = true ∧ a.rounds ≤ tree.roundBound) := by
  intro p t
  refine ⟨fun q hq => (Preparation.queryArises_of_mem_queries hq).env, fun env henv => henv.spelt.liesIn,
    fun receiver name h => (SyntaxTree.mem_tags.1 h).1, fun f call scope r h => f.cloneTag_of_context call scope h,
    fun o r ho hr hchanged => held_ssubset_runRound hr ho hchanged, fun hends hbound => ?_⟩
  rw [roundBound_eq] at hbound ⊢
  obtain ⟨o, ho, hconverged, hrounds⟩ := Preparation.exists_converged rfl .empty hends (Nat.lt_add_left _ hbound)
  refine ⟨_, bind_eq_some_iff.2 ⟨o, ho, rfl⟩, (Preparation.RoundArises.runRounds ho .start).env, hconverged, ?_⟩
  dsimp only at hrounds ⊢
  omega

open Build in
/-- A function that puts its own result into a list, whatever exception that may raise. -/
def nestedGrowth : RawNode :=
  module [function "grow" ["n"] [assign (name "xs") (list [name "n"]),
      tryBlock [expr (methodCall (name "xs") "append" [call (name "grow") [name "xs"]])] [handler .none .none [pass]]
        [] [],
      ret (some (name "xs"))],
    assign (name "y") (call (name "grow") [int])]

/-- With a copy of the list for each call, a first round changes the environment; with enough rounds one does not. -/
theorem converges_on_nestedGrowth : ∃ tree t r s a, ofModule nestedGrowth = .ok tree ∧
      t = Preparation.ofProgram (Program.ofTree tree { granularity := .perCall }) ∧
      t.Published .empty ∧ t.runRound t.dependencies.schedule ⟨.empty, ∅, [], 0, false⟩ = some r ∧ r.changed = true ∧
      AbstractState.empty.held tree.holdings ⊂ r.env.held tree.holdings ∧
      s = ({ granularity := .perCall, maxRounds := tree.roundBound } : Settings) ∧
      (∀ q ∈ (Preparation.ofProgram (Program.ofTree tree s)).queries,
        (Preparation.ofProgram (Program.ofTree tree s)).Ends q) ∧
      ofProgram (Program.ofTree tree s) = some a ∧ a.converged = true ∧ a.rounds ≤ tree.roundBound := by
  have h : ((ofModule nestedGrowth).toOption.bind fun tree =>
        let p := Program.ofTree tree { granularity := .perCall }
        let t := Preparation.ofProgram p
        (t.runRound t.dependencies.schedule ⟨.empty, ∅, [], 0, false⟩).map fun r =>
          r.changed && p.endsAlways) = some true := by
    decide +kernel
  obtain ⟨tree, htree, h⟩ := exists_ok_of_bind h
  obtain ⟨r, hr, h⟩ := map_eq_some_iff.1 h
  rw [Bool.and_eq_true] at h
  obtain ⟨-, -, -, -, hlarger, -⟩ := converges_within_roundBound tree { granularity := .perCall }
  have hends := Preparation.ends_of_endsAlways
    (p := Program.ofTree tree { granularity := .perCall, maxRounds := tree.roundBound }) h.2
  obtain ⟨-, -, -, -, -, hconverges⟩ :=
    converges_within_roundBound tree { granularity := .perCall, maxRounds := tree.roundBound }
  obtain ⟨a, ha, -, hconverged, hrounds⟩ := hconverges hends le_rfl
  exact ⟨tree, _, r, _, a, htree, rfl, .empty, hr, h.1, hlarger _ _ .empty hr h.1, rfl, hends, ha, hconverged,
    hrounds⟩

end ProgramAnalysis
end PointsTo
