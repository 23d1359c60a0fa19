import Mathlib.Algebra.BigOperators.Ring.Finset
import Mathlib.Algebra.Order.BigOperators.Group.Finset
import PointsTo.Proofs.Solver.Resume

/-! # Convergence within the height of the order

Where joins are least upper bounds and transfers are monotone, facts only ever climb: what comes into a block is never
less than it was at the last visit, so neither is what the block puts out. A block therefore has no more different
outputs than an ascending chain of facts has members. Only a new output lets blocks wait, at most one along each edge,
and each visit takes one of them off the worklist. This bounds the visits of a solve in every worklist order. Exception
edges make no difference, although a solve along them need not end with a solution. -/

namespace PointsTo

open Std (ExtTreeMap)
open List Option

namespace FlowGraph

variable {g : FlowGraph} {times : BlockId → Nat}

/-- How often edges are followed in all, if those out of each block are followed so many times. -/
def followed (g : FlowGraph) (times : BlockId → Nat) : Nat :=
  ∑ b ∈ Finset.range g.size, times b * (g.successors b).length

theorem edgeCount_eq_sum (g : FlowGraph) : g.edgeCount = ∑ b ∈ Finset.range g.size, (g.successors b).length := by
  rw [edgeCount, toList_blocks, length_flatMap, List.map_map]
  simp only [successors, length_map]
  rfl

theorem followed_le {n : Nat} (h : ∀ b, times b ≤ n) : g.followed times ≤ n * g.edgeCount := by
  rw [edgeCount_eq_sum, followed, Finset.mul_sum]
  exact Finset.sum_le_sum fun b _ => Nat.mul_le_mul_right _ (h b)

theorem followed_update (times : BlockId → Nat) (b : BlockId) :
    g.followed (Function.update times b (times b + 1)) = g.followed times + (g.successors b).length := by
  have hterm : ∀ c, Function.update times b (times b + 1) c * (g.successors c).length =
      times c * (g.successors c).length + if c = b then (g.successors c).length else 0 := by
    intro c
    by_cases hc : c = b
    · simp [hc, Nat.add_mul]
    · simp [hc]
  -- A number that belongs to no block has no successors.
  have hblock : (if b ∈ Finset.range g.size then (g.successors b).length else 0) = (g.successors b).length := by
    split
    next => rfl
    next hb =>
      have hb : g.size ≤ b := Nat.le_of_not_lt fun h => hb (Finset.mem_range.2 h)
      simp [successors, block_of_size_le hb]
  rw [followed, Finset.sum_congr rfl fun c _ => hterm c, Finset.sum_add_distrib, Finset.sum_ite_eq', hblock, followed]

end FlowGraph

/-- The facts that arise from the initial one by joins and by the transfers of the blocks of a graph. -/
inductive Analysis.Arises {F : Type} (a : Analysis F) (g : FlowGraph) : F → Prop
  | initial : Arises a g a.initial
  | join {fs : List F} (hne : fs ≠ []) (h : ∀ x ∈ fs, Arises a g x) : Arises a g (a.join fs)
  | transfer {b : BlockId} {x y : F} (h : Arises a g x) (ht : a.transfer (g.block b) x = some y) : Arises a g y

namespace Solver

variable {F : Type} {s : Solver} {a : Analysis F} {g : FlowGraph}
variable {vs : List (Visit F)} {p q : Progress F} {b : BlockId} {rest : List BlockId}

section Climb

variable [PartialOrder F]

/-- Where a solve stands whose facts climb: they all arise from the initial one, and the input that a block had at its
last visit is not more than what comes in by now. -/
structure Rising (a : Analysis F) (g : FlowGraph) (vs : List (Visit F)) (p : Progress F) : Prop
    extends Regular a g vs p where
  arises : ∀ {b : BlockId} {x : F}, p.inFacts[b]? = some x ∨ p.outFacts[b]? = some x → a.Arises g x
  input_le : ∀ {b input}, p.inFacts[b]? = some input → input ≤ a.join (inputs a g p.inFacts p.outFacts b)

namespace Rising

theorem start : Rising a g [] (s.startFrom g ∅ ∅ [g.entry]) where
  toRegular := Regular.start
  arises h := by simp [startFrom] at h
  input_le h := by simp [startFrom] at h

theorem arises_inputOf (hp : Rising a g vs p) (hb : Touched p b) : a.Arises g (inputOf a g ⟨b, p⟩) := by
  refine .join (hp.spread.inputs_ne_nil hb) fun x hx => ?_
  rcases mem_inputs.1 hx with ⟨-, rfl⟩ | ⟨e, -, hx | ⟨-, hx⟩⟩
  · exact .initial
  · exact hp.arises (.inr hx)
  · exact hp.arises (.inl hx)

variable [DecidableEq F]

theorem under_visit (hmono : TransferMono a) (hv : Solver.visit a g p b rest = some q) (hp : Rising a g vs p) :
    Under q.inFacts q.outFacts p := by
  obtain ⟨output, ht, hin, hout, -⟩ := visit_eq_some hv
  constructor
  · rw [hin]
    exact .self_insert fun input hinput => hp.input_le hinput
  · rw [hout]
    refine .self_insert fun old hold => ?_
    have hmem : b ∈ p.inFacts := hp.consistent.domain (ExtTreeMap.mem_iff_isSome_getElem?.2 (by simp [hold]))
    obtain ⟨input, hinput⟩ := Option.isSome_iff_exists.1 (ExtTreeMap.mem_iff_isSome_getElem?.1 hmem)
    obtain ⟨output', hold', ht'⟩ := hp.consistent.applied hinput
    cases some.inj (hold.symm.trans hold')
    exact hmono (hp.input_le hinput) ht' ht

/-- Facts go on climbing: since a visit lowers none of them, no less comes into any block. -/
theorem visit (hg : g.Mirrored) (hjoin : JoinIsLUB a) (hmono : TransferMono a) (hw : p.worklist.waiting = b :: rest)
    (hv : Solver.visit a g p b rest = some q) (hp : Rising a g vs p) : Rising a g (vs ++ [⟨b, p⟩]) q := by
  have hunder := hp.under_visit hmono hv
  have hb : Touched p b := .inl (by simp [hw])
  have hinput := hp.arises_inputOf hb
  obtain ⟨output, ht, hin, hout, -⟩ := visit_eq_some hv
  refine ⟨hp.toRegular.visit hg hw hv, ?_, ?_⟩
  · intro c x hx
    rw [hin, hout, ExtTreeMap.getElem?_insert, ExtTreeMap.getElem?_insert] at hx
    split at hx
    · rcases hx with hx | hx
      · exact some.inj hx ▸ hinput
      · exact .transfer hinput (some.inj hx ▸ ht)
    · exact hp.arises hx
  · intro c input hc
    by_cases hcb : b = c
    · subst hcb
      have hsame : inputOf a g ⟨b, p⟩ = input := by simpa [hin] using hc
      exact hsame ▸ hunder.join_inputs_le hjoin hp.spread hb
    · have hold : p.inFacts[c]? = some input := by simpa [hin, ExtTreeMap.getElem?_insert, hcb] using hc
      obtain ⟨y, hy, -⟩ := hp.consistent.applied hold
      have hc : Touched p c := .inr (ExtTreeMap.mem_iff_isSome_getElem?.2 (by simp [hy]))
      exact (hp.input_le hold).trans (hunder.join_inputs_le hjoin hp.spread hc)

end Rising

/-- The outputs that each block has had so far, latest first, account for the visits: they climb, and whatever waits
or has been visited was let wait along an edge out of a block with a new output, the first block apart. -/
structure Accounted (a : Analysis F) (g : FlowGraph) (past : BlockId → List F) (p : Progress F) : Prop where
  latest : ∀ b, (past b).head? = p.outFacts[b]?
  climbs : ∀ b, (past b).IsChain (· > ·)
  arises : ∀ b, ∀ x ∈ past b, a.Arises g x
  paid : p.visits + p.worklist.waiting.length ≤ 1 + g.followed fun b => (past b).length

namespace Accounted

variable {past : BlockId → List F}

theorem start : Accounted a g (fun _ => []) (s.startFrom g ∅ ∅ [g.entry]) where
  latest b := by simp [startFrom]
  climbs b := .nil
  arises b x hx := by cases hx
  paid := by
    have hlength := Worklist.length_pushAll_le (.empty s.order g) [g.entry]
    simpa [startFrom, Worklist.empty, FlowGraph.followed] using hlength

theorem visits_le {h : Nat} (hheight : ∀ c : List F, c.IsChain (· < ·) → (∀ x ∈ c, a.Arises g x) → c.length ≤ h)
    (hp : Accounted a g past p) : p.visits + p.worklist.waiting.length ≤ 1 + h * g.edgeCount := by
  have hpast : ∀ b, (past b).length ≤ h := by
    intro b
    rw [← length_reverse]
    exact hheight _ (isChain_reverse.2 (hp.climbs b)) fun x hx => hp.arises b x (mem_reverse.1 hx)
  exact hp.paid.trans (Nat.add_le_add_left (FlowGraph.followed_le hpast) 1)

theorem newOutput {output : F} (hw : p.worklist.waiting = b :: rest) (hout : q.outFacts = p.outFacts.insert b output)
    (hvisits : q.visits = p.visits + 1) (hlength : q.worklist.waiting.length ≤ rest.length + (g.successors b).length)
    (hclimb : ∀ old, p.outFacts[b]? = some old → old < output) (harises : a.Arises g output)
    (hp : Accounted a g past p) : Accounted a g (Function.update past b (output :: past b)) q := by
  have hfollowed : (g.followed fun c => (Function.update past b (output :: past b) c).length) =
      g.followed (fun c => (past c).length) + (g.successors b).length := by
    rw [← FlowGraph.followed_update]
    congr 1
    funext c
    exact Function.apply_update (fun _ => List.length) past b _ c
  have hpaid := hp.paid
  rw [hw, length_cons] at hpaid
  constructor
  case latest =>
    refine (Function.forall_update_iff past fun c outputs => outputs.head? = q.outFacts[c]?).2 ⟨?_, fun c hc => ?_⟩
    · simp [hout]
    · simp [hout, hp.latest, ExtTreeMap.getElem?_insert, Ne.symm hc]
  case climbs =>
    refine (Function.forall_update_iff past fun _ outputs => outputs.IsChain (· > ·)).2 ⟨?_, fun c _ => hp.climbs c⟩
    refine isChain_cons.2 ⟨fun old hold => hclimb old ?_, hp.climbs b⟩
    rwa [hp.latest, Option.mem_def] at hold
  case arises =>
    refine (Function.forall_update_iff past fun _ outputs => ∀ x ∈ outputs, a.Arises g x).2
      ⟨forall_mem_cons.2 ⟨harises, hp.arises b⟩, fun c _ => hp.arises c⟩
  case paid => omega

variable [DecidableEq F]

theorem visit (hmono : TransferMono a) (hw : p.worklist.waiting = b :: rest)
    (hv : Solver.visit a g p b rest = some q) (hrising : Rising a g vs p) (hp : Accounted a g past p) :
    ∃ past', Accounted a g past' q := by
  obtain ⟨output, ht, -, hout, -⟩ := visit_eq_some hv
  obtain ⟨hvisits, ⟨hsame, hlength⟩ | ⟨hnew, hlength⟩⟩ := visit_load hv
  · have hpaid := hp.paid
    rw [hw, length_cons] at hpaid
    exact ⟨past, hsame ▸ hp.latest, hp.climbs, hp.arises, by omega⟩
  · have hbout : q.outFacts[b]? = some output := by simp [hout]
    refine ⟨_, hp.newOutput hw hout hvisits hlength (fun old hold => ?_) ?_⟩
    · obtain ⟨output', hout', hle⟩ := (hrising.under_visit hmono hv).outFacts b old hold
      cases some.inj (hbout.symm.trans hout')
      exact lt_of_le_of_ne hle fun heq => hnew (by rw [hbout, hold, heq])
    · exact .transfer (hrising.arises_inputOf (.inl (by simp [hw]))) ht

end Accounted
end Climb

variable [DecidableEq F]

/-- A run converges if its visits end and keep an invariant which bounds the visits so far together with the blocks that
wait, and if the budget allows for so many visits. -/
theorem run_converges (Inv : Progress F → Prop) {bound budget : Nat} (htime : s.maxDurationMs = none)
    (hbound : ∀ p, Inv p → p.visits + p.worklist.waiting.length ≤ bound)
    (hstep : ∀ p b rest, Inv p → p.worklist.waiting = b :: rest → ∃ q, visit a g p b rest = some q ∧ Inv q)
    (hp : Inv p) (hbudget : bound ≤ p.visits + budget) :
    ∃ r, run s a g budget p = some r ∧ r.status = .converged ∧ r.visits ≤ bound := by
  induction budget generalizing p with
  | zero =>
    have hle := hbound p hp
    have hw : p.worklist.waiting = [] := eq_nil_of_length_eq_zero (by omega)
    exact ⟨p.finish .converged, by simp [run, hw], rfl, Nat.le_of_add_right_le hle⟩
  | succ budget ih =>
    cases hw : p.worklist.waiting with
    | nil => exact ⟨p.finish .converged, by simp [run, hw], rfl, Nat.le_of_add_right_le (hbound p hp)⟩
    | cons b rest =>
      obtain ⟨q, hv, hq⟩ := hstep p b rest hp hw
      obtain ⟨r, hr, hc, hle⟩ := ih hq (by rw [(visit_load hv).1]; omega)
      refine ⟨r, ?_, hc, hle⟩
      rw [run, hw]
      simp [timeUp, htime, hv, hr]

/-- A solve converges within the height of the order. If joins are least upper bounds, transfers end and are monotone,
and no strictly ascending chain of facts that arise has more than `h` members, then a solve without a time limit that
may take more visits than `h` for each edge converges in every worklist order and along exception edges too. Besides
the first visit it takes at most `h` for each edge. -/
theorem converges_within_height [PartialOrder F] (hg : g.Mirrored) (hjoin : JoinIsLUB a) (hmono : TransferMono a)
    (hends : ∀ b x, (a.transfer b x).isSome) {h : Nat}
    (hheight : ∀ c : List F, c.IsChain (· < ·) → (∀ x ∈ c, a.Arises g x) → c.length ≤ h)
    (htime : s.maxDurationMs = none) (hbudget : h * g.edgeCount < s.maxIterations) :
    ∃ r, s.solve a g = some r ∧ r.status = .converged ∧ r.visits ≤ 1 + h * g.edgeCount := by
  refine run_converges (fun p => (∃ vs, Rising a g vs p) ∧ ∃ past, Accounted a g past p) htime ?_ ?_
    (p := s.startFrom g ∅ ∅ [g.entry]) ?_ ?_
  · rintro p ⟨-, past, hp⟩
    exact hp.visits_le hheight
  · rintro p b rest ⟨⟨vs, hrising⟩, past, hp⟩ hw
    obtain ⟨q, hv⟩ := exists_visit rest (hends (g.block b) (inputOf a g ⟨b, p⟩))
    exact ⟨q, hv, ⟨_, hrising.visit hg hjoin hmono hw hv⟩, hp.visit hmono hw hv hrising⟩
  · exact ⟨⟨_, Rising.start⟩, _, Accounted.start⟩
  · rw [Nat.add_comm]
    exact (Nat.succ_le_of_lt hbudget).trans (Nat.le_add_left ..)

end Solver

namespace Analysis

variable {cap : Nat} {g : FlowGraph}

theorem counter_le_of_arises {x : Nat} (h : (counter cap).Arises g x) : x ≤ cap := by
  induction h with
  | initial => exact Nat.zero_le cap
  | join hne h ih => exact (counter_joinIsLUB cap _ hne).2 ih
  | transfer h ht ih =>
    cases ht
    exact Nat.min_le_right _ _

/-- Up to the cap there are no longer chains than the one of all numbers. -/
theorem counter_chain_le (c : List Nat) (hc : c.IsChain (· < ·)) (h : ∀ x ∈ c, (counter cap).Arises g x) :
    c.length ≤ cap + 1 := by
  have hnodup : c.Nodup := (isChain_iff_pairwise.1 hc).imp fun hlt => Nat.ne_of_lt hlt
  have hsub : c ⊆ List.range (cap + 1) := fun x hx =>
    mem_range.2 (Nat.lt_succ_of_le (counter_le_of_arises (h x hx)))
  simpa using (subperm_of_subset hnodup hsub).length_le

end Analysis

theorem Solver.mirrored_raisingLoops : raisingLoops.Mirrored :=
  (FlowGraph.Mirrored.twoLoops.addEdge (by decide : 5 < _) (by decide : 1 < _) .exception).mirrored

/-- Counting to three, for which chains have four members, converges on two loops with an exception edge, last in, first
out: the graph has seven edges, and 29 visits are enough. -/
theorem Solver.converges_on_raisingLoops :
    raisingLoops.edgeCount = 7 ∧ ∃ r,
      ({ order := .lifo, maxIterations := 29 } : Solver).solve (.counter 3) raisingLoops = some r ∧
      r.status = .converged ∧ r.visits ≤ 29 :=
  ⟨by decide, converges_within_height mirrored_raisingLoops (Analysis.counter_joinIsLUB 3)
    (Analysis.counter_transferMono 3) (fun _ _ => rfl) Analysis.counter_chain_le rfl (by decide)⟩

end PointsTo
