import PointsTo.Proofs.Program.Published
import PointsTo.Proofs.Solver.Least

/-! # The order of visits

The order in which waiting blocks are visited does not matter as long as every solve ends with facts that
satisfy the equations and no visit puts out more than the block does in the end. For then the facts of two
orders lie below each other, solve by solve, and both analyses go on in the same way. Where inputs along
exception edges go stale, the facts do not satisfy the equations and the order shows. -/

namespace PointsTo

open Option SyntaxTree

theorem Frame.joinIsLUB_propagation (f : Frame) : Solver.JoinIsLUB f.propagation := by
  intro states hne
  rw [isLUB_iff_le_iff]
  intro u
  cases states with
  | nil => exact absurd rfl hne
  | cons first rest =>
    change rest.foldl AbstractState.join first ≤ u ↔ _
    rw [Solver.foldl_le_iff AbstractState.join_le_iff]
    simp [mem_upperBounds]

def FlowGraph.Raises (g : FlowGraph) : Prop := ∃ b, ∃ e ∈ (g.block b).predecessors, e.kind = .exception

namespace Preparation

open Solver

/-- The solve of a query ends because nothing waits any more. -/
def ConvergesAt (t : Preparation) (q : Query) : Prop := ∀ r ∈ t.solution? q, r.status = .converged

/-- The solve of a query satisfies the equations wherever it finds facts. -/
def SettlesAt (t : Preparation) (q : Query) : Prop :=
  ∀ r ∈ t.solution? q, ∀ b ∈ r.inFacts, Balanced (t.states q) q.unit.graph r.inFacts r.outFacts b

/-- Wherever there are exception edges, the solves of an analysis satisfy the equations. -/
def Settles (t : Preparation) : Prop := ∀ q ∈ t.queries, q.unit.graph.Raises → t.SettlesAt q

/-- The visits that one analysis makes for a query climb to the facts that another one finds. -/
def ClimbsAt (t t' : Preparation) (q : Query) : Prop :=
  ∀ r' ∈ t'.solution? q, ∀ v ∈ (t.solver q).solveVisits (t.states q) q.unit.graph,
    Climbs (t.states q) q.unit.graph r'.inFacts v

instance (t : Preparation) (q : Query) : Decidable (t.ConvergesAt q) :=
  inferInstanceAs (Decidable (∀ r ∈ t.solution? q, r.status = .converged))

instance (t : Preparation) (q : Query) : Decidable (t.SettlesAt q) :=
  decidable_of_iff (∀ r ∈ t.solution? q, ∀ b ∈ r.inFacts.keys,
    Balanced (t.states q) q.unit.graph r.inFacts r.outFacts b) (by simp [SettlesAt])

instance (t t' : Preparation) (q : Query) : Decidable (ClimbsAt t t' q) :=
  inferInstanceAs (Decidable (∀ r' ∈ t'.solution? q,
    ∀ v ∈ (t.solver q).solveVisits (t.states q) q.unit.graph, ∀ input ∈ r'.inFacts[v.block]?,
      inputOf (t.states q) q.unit.graph v ≤ input →
      ∀ x ∈ (t.states q).transfer (q.unit.graph.block v.block) (inputOf (t.states q) q.unit.graph v),
      ∀ y ∈ (t.states q).transfer (q.unit.graph.block v.block) input, x ≤ y))

instance (t t' : Preparation) (q : Query) : Decidable (SameFacts t t' q) :=
  decidable_of_iff (∃ r ∈ t.solution? q, ∃ r' ∈ t'.solution? q,
    r.inFacts = r'.inFacts ∧ r.outFacts = r'.outFacts ∧ r.status = r'.status) <| by
    constructor
    · rintro ⟨r, hr, r', hr', hin, hout, hstatus⟩
      exact ⟨r, r', hr, hr', hin, hout, hstatus⟩
    · rintro ⟨r, r', hr, hr', hin, hout, hstatus⟩
      exact ⟨r, hr, r', hr', hin, hout, hstatus⟩

variable {t t' : Preparation} {q : Query}

/-- Nothing but exception edges keeps a converged solve from satisfying the equations. -/
theorem settlesAt_of_not_raises (hg : q.unit.graph.Mirrored) (hc : t.ConvergesAt q)
    (hraises : ¬q.unit.graph.Raises) : t.SettlesAt q := by
  intro r hr b hb
  obtain ⟨input, output, hin, hout, ht, hjoin⟩ := solve_last_join hg hr (hc r hr) (.inl hb)
  have hinput : input = (t.states q).join (inputs (t.states q) q.unit.graph r.inFacts r.outFacts b) := by
    rw [hjoin]
    exact congrArg (t.states q).join
      (inputs_congr (fun _ _ => rfl) fun e he hk => absurd ⟨b, e, he, hk⟩ hraises)
  exact .of_join hin hout ht hinput

theorem Settles.settlesAt (h : t.Settles) (hg : q.unit.graph.Mirrored) (hc : t.ConvergesAt q)
    (hq : q ∈ t.queries) : t.SettlesAt q := by
  by_cases hraises : q.unit.graph.Raises
  · exact h q hq hraises
  · exact settlesAt_of_not_raises hg hc hraises

theorem concurs_of_settlesAt (h : t.Alike t') (hg : q.unit.graph.Mirrored) (hc : t.ConvergesAt q)
    (hc' : t'.ConvergesAt q) (hclimb : t.ClimbsAt t' q) (hclimb' : t'.ClimbsAt t q)
    (hs : t.SettlesAt q) (hs' : t'.SettlesAt q) : Concurs t t' q := by
  intro r r' hr hr'
  have hstates := h.states q
  have hsettled' := hs' r' hr'
  have hclimbs' := hclimb' r hr
  have hsolve' : (t'.solver q).solve (t.states q) q.unit.graph = some r' := hstates ▸ hr'
  rw [← hstates] at hsettled' hclimbs'
  obtain ⟨hin, hout⟩ := solve_eq_of_balanced hg (Frame.joinIsLUB_propagation _) hr hsolve' (hc r hr)
    (hc' r' hr') (hclimb r' hr') hclimbs' (hs r hr) hsettled'
  exact ⟨hin, hout, (hc r hr).trans (hc' r' hr').symm⟩

theorem settlesAt_of_sameFacts (h : t.Alike t') (hsame : SameFacts t t' q) (hs : t.SettlesAt q) :
    t'.SettlesAt q := by
  obtain ⟨r, r', hr, hr', hin, hout, -⟩ := hsame
  intro r'' hr''
  obtain rfl : r' = r'' := some.inj (hr'.symm.trans hr'')
  rw [← hin, ← hout, ← h.states q]
  exact hs r hr

theorem alike_of_order (tree : SyntaxTree) (s : Settings) (order : WorklistOrder) :
    (ofProgram (Program.ofTree tree s)).Alike (ofProgram (Program.ofTree tree { s with order })) :=
  ⟨rfl, rfl, rfl, rfl, rfl, rfl⟩

end Preparation

namespace ProgramAnalysis

open Preparation

theorem agrees_of_concurs {p p' : Program} {a a' : ProgramAnalysis} (h : ofProgram p = some a)
    (h' : ofProgram p' = some a') (halike : a.preparation.Alike a'.preparation)
    (hq : ∀ q ∈ a.preparation.queries, q ∈ a'.preparation.queries → Concurs a.preparation a'.preparation q) :
    a.env = a'.env ∧ ResultsAgree a.results a'.results ∧
      Tracks a.preparation a'.preparation a.preparation.queries a'.preparation.queries := by
  obtain ⟨o, ho, h⟩ := bind_eq_some_iff.1 h
  obtain ⟨o', ho', h'⟩ := bind_eq_some_iff.1 h'
  cases h
  cases some.inj h'
  have hmax : p.settings.maxRounds = p'.settings.maxRounds := halike.maxRounds
  have hschedule := congrArg DependencyGraph.schedule halike.dependencies
  unfold queries at hq ⊢
  rw [← hschedule, ← halike.maxRounds] at hq ⊢
  change (Preparation.ofProgram p').runRounds (Preparation.ofProgram p').dependencies.schedule _ _ = _ at ho'
  rw [← hschedule, ← hmax] at ho'
  exact runRounds_agrees halike rfl rfl (fun _ => rfl) ho ho' hq

/-- Two analyses of a tree that differ in the order of visits only, whose solves have all converged, and
whose visits climb: if the solves of one settle wherever there are exception edges, those of the other one
do so exactly if they find the same facts, and then the environment and the types of every unit are the
same as well. -/
theorem settles_iff_sameFacts {tree : SyntaxTree} {s : Settings} {order : WorklistOrder}
    {a a' : ProgramAnalysis} (h : ofProgram (Program.ofTree tree s) = some a)
    (h' : ofProgram (Program.ofTree tree { s with order }) = some a')
    (hc : ∀ q ∈ a.preparation.queries, a.preparation.ConvergesAt q)
    (hc' : ∀ q ∈ a'.preparation.queries, a'.preparation.ConvergesAt q)
    (hclimb : ∀ q ∈ a.preparation.queries, q ∈ a'.preparation.queries →
      a.preparation.ClimbsAt a'.preparation q ∧ a'.preparation.ClimbsAt a.preparation q)
    (hs : a.preparation.Settles) :
    (a'.preparation.Settles ↔
      ∀ q ∈ a.preparation.queries, SameFacts a.preparation a'.preparation q) ∧
    (a'.preparation.Settles →
      a.env = a'.env ∧ ∀ id, (a.types? id).map InferredTypes.uncounted =
        (a'.types? id).map InferredTypes.uncounted) := by
  have halike : a.preparation.Alike a'.preparation := by
    rw [preparation_eq h, preparation_eq h']
    exact alike_of_order tree s order
  have hmirrored : ∀ q ∈ a.preparation.queries, q.unit.graph.Mirrored := by
    intro q hq
    obtain ⟨id, hid⟩ := exists_unit?_of_mem_queries hq
    rw [preparation_eq h] at hid
    exact mirrored_of_unit? hid
  have hagrees : a'.preparation.Settles →
      a.env = a'.env ∧ ResultsAgree a.results a'.results ∧
        Tracks a.preparation a'.preparation a.preparation.queries a'.preparation.queries := by
    intro hs'
    refine agrees_of_concurs h h' halike fun q hq hq' => ?_
    have hg := hmirrored q hq
    obtain ⟨hto, hback⟩ := hclimb q hq hq'
    exact concurs_of_settlesAt halike hg (hc q hq) (hc' q hq') hto hback
      (hs.settlesAt hg (hc q hq) hq) (hs'.settlesAt hg (hc' q hq') hq')
  refine ⟨⟨fun hs' => (hagrees hs').2.2.sameFacts, fun hsame => ?_⟩, fun hs' => ?_⟩
  · have hconcurs : ∀ q ∈ a.preparation.queries, q ∈ a'.preparation.queries →
        Concurs a.preparation a'.preparation q := by
      intro q hq _ r r' hr hr'
      obtain ⟨r₀, r₀', hr₀, hr₀', hfacts⟩ := hsame q hq
      rw [hr] at hr₀
      rw [hr'] at hr₀'
      rw [some.inj hr₀, some.inj hr₀']
      exact hfacts
    have htracks := (agrees_of_concurs h h' halike hconcurs).2.2
    intro q hq' hraises
    have hq : q ∈ a.preparation.queries := htracks.queries ▸ hq'
    exact settlesAt_of_sameFacts halike (hsame q hq) (hs q hq hraises)
  · obtain ⟨henv, hresults, -⟩ := hagrees hs'
    exact ⟨henv, hresults⟩

end ProgramAnalysis

open Build in
/-- A guarded block inside another one, as in `nestedTry`, but without a choice in the inner one. -/
def nestedAssign : RawNode :=
  module [tryBlock [tryBlock [assign (name "x") string] [] [] [assign (name "x") int]]
    [handler .none .none [assign (name "y") (name "x")]] [] []]

namespace ProgramAnalysis

open Preparation

/-- Last in, first out, the nested guarded blocks are analysed as in reverse postorder. -/
theorem settles_on_nestedAssign : ∃ tree a a', (ofModule nestedAssign).toOption = some tree ∧
      ofProgram (Program.ofTree tree {}) = some a ∧
      ofProgram (Program.ofTree tree { order := .lifo }) = some a' ∧
      a'.preparation.Settles ∧ a.env = a'.env ∧
      ∀ id, (a.types? id).map InferredTypes.uncounted = (a'.types? id).map InferredTypes.uncounted := by
  have hruns : ((ofModule nestedAssign).toOption.bind fun tree =>
      (ofProgram (Program.ofTree tree {})).bind fun a =>
      (ofProgram (Program.ofTree tree { order := .lifo })).map fun a' =>
        decide ((∀ q ∈ a.preparation.queries, a.preparation.ConvergesAt q ∧ a.preparation.SettlesAt q) ∧
          (∀ q ∈ a'.preparation.queries, a'.preparation.ConvergesAt q) ∧
          ∀ q ∈ a.preparation.queries, SameFacts a.preparation a'.preparation q ∧
            ClimbsAt a.preparation a'.preparation q ∧ ClimbsAt a'.preparation a.preparation q)) = some true := by
    decide +kernel
  obtain ⟨tree, htree, hruns⟩ := bind_eq_some_iff.1 hruns
  obtain ⟨a, ha, hruns⟩ := bind_eq_some_iff.1 hruns
  obtain ⟨a', ha', hruns⟩ := map_eq_some_iff.1 hruns
  obtain ⟨hsolves, hsolves', hcompare⟩ := of_decide_eq_true hruns
  have h := settles_iff_sameFacts ha ha' (fun q hq => (hsolves q hq).1) hsolves'
    (fun q hq _ => (hcompare q hq).2) fun q hq _ => (hsolves q hq).2
  have hsettles := h.1.2 fun q hq => (hcompare q hq).1
  exact ⟨tree, a, a', htree, ha, ha', hsettles, h.2 hsettles⟩

/-- First in, first out, all solves of the nested guarded blocks converge, but the handler does not see the
string that it sees in reverse postorder. -/
theorem env_differs_on_nestedTry : ∃ tree a a', (ofModule nestedTry).toOption = some tree ∧
      ofProgram (Program.ofTree tree {}) = some a ∧
      ofProgram (Program.ofTree tree { order := .fifo }) = some a' ∧
      (∀ q ∈ a.preparation.queries, a.preparation.ConvergesAt q) ∧
      (∀ q ∈ a'.preparation.queries, a'.preparation.ConvergesAt q) ∧
      (a.env.read (.var 0 "y")).Holds (some .str) ∧ ¬(a'.env.read (.var 0 "y")).Holds (some .str) ∧
      a.env ≠ a'.env := by
  have hruns : ((ofModule nestedTry).toOption.bind fun tree =>
      (ofProgram (Program.ofTree tree {})).bind fun a =>
      (ofProgram (Program.ofTree tree { order := .fifo })).map fun a' =>
        decide ((∀ q ∈ a.preparation.queries, a.preparation.ConvergesAt q) ∧
          (∀ q ∈ a'.preparation.queries, a'.preparation.ConvergesAt q) ∧
          (a.env.read (.var 0 "y")).Holds (some .str) ∧ ¬(a'.env.read (.var 0 "y")).Holds (some .str))) =
      some true := by
    decide +kernel
  obtain ⟨tree, htree, hruns⟩ := bind_eq_some_iff.1 hruns
  obtain ⟨a, ha, hruns⟩ := bind_eq_some_iff.1 hruns
  obtain ⟨a', ha', hruns⟩ := map_eq_some_iff.1 hruns
  obtain ⟨hsolves, hsolves', hstr, hstr'⟩ := of_decide_eq_true hruns
  exact ⟨tree, a, a', htree, ha, ha', hsolves, hsolves', hstr, hstr', fun henv => hstr' (henv ▸ hstr)⟩

end ProgramAnalysis
end PointsTo
