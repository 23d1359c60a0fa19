import PointsTo.Proofs.Program.Published

/-! # What objects and functions hold is bound

A variable may not have been assigned yet, and so may a temporary that copies it, an argument, an element of a
display or an expression that is returned. But every write to an element, a key, an attribute or a result drops
`unbound` first, and joins add it to variables only. So it never gets into what objects hold and functions
return. -/

namespace PointsTo

open Option TypeSet

def Location.isStorage : Location → Bool
  | .element _ | .key _ | .field _ _ | .ret _ => true
  | .var _ _ | .temp _ | .universal => false

theorem TypeSet.eq_top_of_holds_without {v : TypeSet} {t : TypeTag} (h : (v.without t).Holds (some t)) :
    v.without t = .top := by
  cases v with
  | top => rfl
  | tags s =>
    have hmem : t ∈ s.erase t := h
    simp at hmem

namespace AbstractState

variable {s s' : AbstractState} {l : Location} {v : TypeSet}

/-- No slot of an object and no result of a function holds finitely many tags with `unbound` among them. -/
def HeapBound (s : AbstractState) : Prop :=
  ∀ l tags, l.isStorage = true → s.get? l = some (.tags tags) → TypeTag.unbound ∉ tags

theorem heapBound_iff : s.HeapBound ↔ ∀ l, l.isStorage = true → s.Holds l (some .unbound) → s.Holds l none := by
  constructor
  · rintro h l hl ⟨v, hv, hx⟩
    cases v with
    | top => exact ⟨.top, hv, rfl⟩
    | tags tags => exact absurd hx (h l tags hl hv)
  · intro h l tags hl hget hmem
    obtain ⟨v, hv, hx⟩ := h l hl ⟨.tags tags, hget, hmem⟩
    cases some.inj (hget.symm.trans hv)
    cases hx

namespace HeapBound

theorem empty : HeapBound .empty := heapBound_iff.2 fun _ _ h => absurd h not_holds_empty

variable (h : s.HeapBound)
include h

theorem read (hl : l.isStorage = true) (hx : (s.read l).Holds (some .unbound)) : s.read l = .top := by
  cases hget : s.get? l with
  | some v =>
    rw [AbstractState.read, hget, getD_some] at hx ⊢
    obtain ⟨w, hw, htop⟩ := heapBound_iff.1 h l hl ⟨v, hget, hx⟩
    cases some.inj (hget.symm.trans hw)
    exact htop
  | none =>
    rw [AbstractState.read, hget, getD_none] at hx
    cases l with
    | var | temp | universal => cases hl
    | _ => exact absurd hx not_holds_bottom

theorem join (h' : s'.HeapBound) : (s.join s').HeapBound := by
  refine heapBound_iff.2 fun l hl hx => ?_
  have hread : ((s.join s').read l).Holds none := by
    have hboth := holds_read hx
    rw [read_join, holds_join] at hboth ⊢
    exact hboth.imp (h.read hl) (h'.read hl)
  obtain ⟨v, hv, -⟩ := hx
  exact ⟨v, hv, by simpa [AbstractState.read, hv] using hread⟩

theorem accumulate (h' : s'.HeapBound) : (s.accumulate s').HeapBound := by
  refine heapBound_iff.2 fun l hl hx => ?_
  rw [holds_accumulate] at hx ⊢
  exact hx.imp (heapBound_iff.1 h l hl) (heapBound_iff.1 h' l hl)

theorem weakUpdate (hv : l.isStorage = true → v.Holds (some .unbound) → v = .top) :
    (s.weakUpdate l v).HeapBound := by
  refine heapBound_iff.2 fun m hm hx => ?_
  rw [holds_weakUpdate] at hx ⊢
  refine hx.imp (heapBound_iff.1 h m hm) ?_
  rintro ⟨rfl, hunbound⟩
  exact ⟨rfl, hv hm hunbound⟩

theorem set (hl : l.isStorage = false) : (s.set l v).HeapBound := by
  intro m tags hm hget
  rw [get?_set] at hget
  split at hget
  next heq =>
    subst heq
    simp [hl] at hm
  next => exact h m tags hm hget

theorem discardUnbound : (s.discardUnbound l).HeapBound := by
  intro m tags hm hget hmem
  rw [get?_discardUnbound] at hget
  split at hget
  · obtain ⟨w, -, hw⟩ := map_eq_some_iff.1 hget
    have hholds : (w.without .unbound).Holds (some .unbound) := hw ▸ hmem
    rw [eq_top_of_holds_without hholds] at hw
    cases hw
  · exact h m tags hm hget hmem

end HeapBound
end AbstractState

open AbstractState (HeapBound)

namespace Deed

variable {f : Frame} {d : Deed} {s : AbstractState}

theorem stored_bound {l : Location} {v : TypeSet} (hl : l.isStorage = true)
    (h : (stored l v).Holds (some .unbound)) : stored l v = .top := by
  cases l with
  | var scope name => cases hl
  | _ => exact eq_top_of_holds_without h

theorem isStorage_of_replace {l : Location} {v : TypeSet} (hd : (replace l v).Allowed f) : l.isStorage = false := by
  rcases hd with hd | ⟨-, name, rfl⟩
  · cases l with
    | var scope name => rfl
    | _ => simp [Frame.replaces, Frame.owns] at hd
  · rfl

theorem heapBound_onState (hd : d.Allowed f) (h : s.HeapBound) : (d.onState s).HeapBound := by
  cases d with
  | observe change => exact h
  | write l v =>
    cases l with
    | var scope name => exact h.discardUnbound.weakUpdate fun hl => by cases hl
    | _ => exact h.weakUpdate stored_bound
  | replace l v => exact h.set (isStorage_of_replace hd)
  | keep node v => exact h.set rfl
  | hold node v => exact h.set rfl

theorem heapBound_onRecorder (hd : d.Allowed f) {r : Recorder} (h : r.effects.HeapBound) :
    (d.onRecorder r).effects.HeapBound := by
  cases d with
  | observe change =>
    change (change r).effects.HeapBound
    rwa [hd r]
  | write l v => exact h.weakUpdate stored_bound
  | replace l v =>
    refine h.weakUpdate fun hl => ?_
    rw [isStorage_of_replace hd] at hl
    cases hl
  | keep node v => exact h.weakUpdate fun hl => by cases hl
  | hold node v => exact h

end Deed

theorem Machine.heapBound_perform {f : Frame} {ds : List Deed} (hds : ∀ d ∈ ds, d.Allowed f) (m : Machine)
    (hs : m.state.HeapBound) (hr : ∀ r, m.recorder = some r → r.effects.HeapBound) :
    (m.perform ds).state.HeapBound ∧ ∀ r, (m.perform ds).recorder = some r → r.effects.HeapBound := by
  induction ds generalizing m with
  | nil => simpa using ⟨hs, hr⟩
  | cons d ds ih =>
    have hd := hds d (by simp)
    rw [show d :: ds = [d] ++ ds from rfl, perform_append]
    refine ih (fun e he => hds e (by simp [he])) _ (Deed.heapBound_onState hd hs) fun r' hr' => ?_
    obtain ⟨r, hget, rfl⟩ := map_eq_some_iff.1 hr'
    exact Deed.heapBound_onRecorder hd (hr r hget)

theorem Frame.keeps_heapBound (f : Frame) : f.Keeps HeapBound where
  empty := .empty
  join := .join
  apply {b m m'} h hs hr := by
    obtain ⟨ds, hds, hrun⟩ := exists_deeds h
    cases some.inj ((hrun m.recorder).symm.trans h)
    exact Machine.heapBound_perform hds _ hs hr

namespace Preparation

theorem Published.heapBound {t : Preparation} {s : AbstractState} (h : t.Published s) : s.HeapBound := by
  induction h with
  | empty => exact .empty
  | effects _ _ htypes => exact (htypes.allKept (Frame.keeps_heapBound _)).effects
  | accumulate _ _ ha hb => exact ha.accumulate hb

theorem Arises.heapBound {t : Preparation} {types : InferredTypes} (h : t.Arises types) :
    types.AllKept HeapBound := by
  obtain ⟨id, u, env, -, -, htypes⟩ := h
  exact htypes.allKept (Frame.keeps_heapBound _)

/-- In no state of an analysis does a slot of an object or a result of a function hold finitely many tags with
`unbound` among them: not in an environment that a unit is solved against, nor at the entry or exit of a block
before or after any visit of such a solve, nor among the effects of a unit, nor in the environment and the results
after any number of rounds. The same holds of whatever the units can publish in any other order. -/
theorem heapBound_of_reached (t : Preparation) : (∀ q ∈ t.queries, q.env.HeapBound ∧
      (∀ v ∈ (t.solver q).solveVisits (t.states q) q.unit.graph,
        Frame.AllKept HeapBound v.before.inFacts v.before.outFacts ∧
          (Solver.inputOf (t.states q) q.unit.graph v).HeapBound) ∧
      (∀ r, t.solution? q = some r → Frame.AllKept HeapBound r.inFacts r.outFacts) ∧
      ∀ types, t.Infers q.unit q.env types → types.AllKept HeapBound) ∧
    (∀ n o, t.runRounds t.dependencies.schedule n ⟨.empty, ∅, [], 0, false⟩ = some o → o.env.HeapBound ∧
      ∀ (id : UnitId) (types : InferredTypes), o.results[id]? = some types →
        types.AllKept HeapBound) ∧
    ∀ s, t.Published s → s.HeapBound := by
  refine ⟨fun q hq => ?_, fun n o ho => ?_, fun s hs => hs.heapBound⟩
  · have hkeeps := (q.unit.frame t.program t.facts q.env).keeps_heapBound
    exact ⟨(queryArises_of_mem_queries hq).env.heapBound, hkeeps.solveVisits (t.solver q),
      fun r hr => hkeeps.solve hr, fun types htypes => htypes.allKept hkeeps⟩
  · have hround := RoundArises.runRounds ho .start
    exact ⟨hround.env.heapBound, fun id types htypes => (hround.results id types htypes).heapBound⟩

open Build in
/-- A function that puts a variable into a list and returns it, though it may not have assigned it. -/
def doubtfulItem : RawNode :=
  module [function "fill" [] [assign (name "items") (list []), ifElse boolean [assign (name "x") int] [],
      expr (methodCall (name "items") "append" [name "x"]), ret (some (name "x"))],
    assign (name "y") (call (name "fill") [])]

/-- Where the function ends the variable may not have been assigned, but what it returns has been. -/
theorem heapBound_on_doubtfulItem : ∃ tree t o types s, SyntaxTree.ofModule doubtfulItem = .ok tree ∧
      t = Preparation.ofProgram (Program.ofTree tree {}) ∧
      t.runRounds t.dependencies.schedule 16 ⟨.empty, ∅, [], 0, false⟩ = some o ∧
      o.results[1]? = some types ∧ types.entryStates[1]? = some s ∧
      (s.read (.var 1 "x")).Holds (some .unbound) ∧ (o.env.read (.ret 1)).Holds (some .int) ∧
      o.env.HeapBound ∧ s.HeapBound := by
  have h : ((SyntaxTree.ofModule doubtfulItem).toOption.bind fun tree =>
        let t := Preparation.ofProgram (Program.ofTree tree {})
        (t.runRounds t.dependencies.schedule 16 ⟨.empty, ∅, [], 0, false⟩).bind fun o =>
          o.results[1]?.bind fun types => types.entryStates[1]?.map fun s =>
            decide ((s.read (.var 1 "x")).Holds (some .unbound) ∧
              (o.env.read (.ret 1)).Holds (some .int))) = some true := by
    decide +kernel
  obtain ⟨tree, htree, h⟩ := exists_ok_of_bind h
  obtain ⟨o, ho, h⟩ := bind_eq_some_iff.1 h
  obtain ⟨types, htypes, h⟩ := bind_eq_some_iff.1 h
  obtain ⟨s, hs, h⟩ := map_eq_some_iff.1 h
  obtain ⟨hx, hret⟩ := of_decide_eq_true h
  obtain ⟨henv, hresults⟩ := (heapBound_of_reached _).2.1 16 o ho
  exact ⟨tree, _, o, types, s, htree, rfl, ho, htypes, hs, hx, hret, henv,
    (hresults 1 types htypes).states 1 s (.inl hs)⟩

end Preparation
end PointsTo
