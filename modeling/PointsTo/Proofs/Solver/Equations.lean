import PointsTo.Proofs.Solver.Visits
import Mathlib.Data.List.Basic

/-! # The equations that a converged solve satisfies

When nothing waits any more, every block that has facts was left by its last visit with the join of the
outputs that its predecessors still have, and with the output that belongs to this input. Along an
exception edge the visit also took the predecessor's input, and that one may have been replaced since:
a visit that finds the old output again sends no one back to the worklist, whatever it did to the
input. So the equation of a block holds exactly if the join does not notice these replacements. -/

namespace PointsTo

open Std (ExtTreeMap)

namespace Solver

variable {F : Type} (s : Solver) (a : Analysis F) (g : FlowGraph)

/-- The inputs of the blocks as the last of the visits to a block saw them. -/
def seen (vs : List (Visit F)) (b : BlockId) : ExtTreeMap BlockId F :=
  vs.foldl (fun known v => if v.block = b then v.before.inFacts else known) ∅

@[simp] theorem seen_append (vs : List (Visit F)) (v : Visit F) (b : BlockId) :
    seen (vs ++ [v]) b = if v.block = b then v.before.inFacts else seen vs b := by
  simp [seen, List.foldl_append]

/-- The facts of a block satisfy its two equations. -/
def Balanced (inFacts outFacts : ExtTreeMap BlockId F) (b : BlockId) : Prop :=
  inFacts[b]? = some (a.join (inputs a g inFacts outFacts b)) ∧
    ∃ output, outFacts[b]? = some output ∧
      a.transfer (g.block b) (a.join (inputs a g inFacts outFacts b)) = some output

variable {a g}

theorem Balanced.of_join {inFacts outFacts : ExtTreeMap BlockId F} {b : BlockId} {input output : F}
    (hin : inFacts[b]? = some input) (hout : outFacts[b]? = some output)
    (ht : a.transfer (g.block b) input = some output)
    (hjoin : input = a.join (inputs a g inFacts outFacts b)) : Balanced a g inFacts outFacts b :=
  ⟨by rw [hin, hjoin], output, hout, by rw [← hjoin, ht]⟩

theorem inputs_congr {i i' o o' : ExtTreeMap BlockId F} {b : BlockId}
    (hout : ∀ e ∈ (g.block b).predecessors, o[e.source]? = o'[e.source]?)
    (hin : ∀ e ∈ (g.block b).predecessors, e.kind = .exception → i[e.source]? = i'[e.source]?) :
    inputs a g i o b = inputs a g i' o' b := by
  have hedge : ∀ e ∈ (g.block b).predecessors, edgeFacts i o e = edgeFacts i' o' e := by
    intro e he
    unfold edgeFacts
    rw [hout e he]
    split
    next hk => rw [hin e he hk]
    next => rfl
  unfold inputs
  congr 1
  exact List.flatMap_congr hedge

theorem mem_inputs {i o : ExtTreeMap BlockId F} {b : BlockId} {x : F} :
    x ∈ inputs a g i o b ↔ (b = g.entry ∧ x = a.initial) ∨ ∃ e ∈ (g.block b).predecessors,
      o[e.source]? = some x ∨ (e.kind = .exception ∧ i[e.source]? = some x) := by
  have hedge : ∀ e, x ∈ edgeFacts i o e ↔
      o[e.source]? = some x ∨ (e.kind = .exception ∧ i[e.source]? = some x) := by
    intro e
    unfold edgeFacts
    split <;> simp [*]
  simp only [inputs, List.mem_append, List.mem_flatMap, hedge]
  refine or_congr_left ?_
  split <;> simp [*]

/-- Where a solve stands after some visits: outputs belong to inputs, and a block that does not wait has
the join of what its last visit saw and of the outputs as they are. -/
structure Consistent (a : Analysis F) (g : FlowGraph) (vs : List (Visit F)) (p : Progress F) : Prop where
  applied : ∀ {b input}, p.inFacts[b]? = some input →
    ∃ output, p.outFacts[b]? = some output ∧ a.transfer (g.block b) input = some output
  domain : ∀ {b}, b ∈ p.outFacts → b ∈ p.inFacts
  joined : ∀ {b input}, p.inFacts[b]? = some input → b ∉ p.worklist.waiting →
    input = a.join (inputs a g (seen vs b) p.outFacts b)

theorem Consistent.start : Consistent a g [] (s.startFrom g ∅ ∅ [g.entry]) where
  applied h := by simp [startFrom] at h
  domain h := by simp [startFrom] at h
  joined h := by simp [startFrom] at h

variable [DecidableEq F] {vs : List (Visit F)} {p q : Progress F} {b : BlockId} {rest : List BlockId}

theorem Consistent.visit (hg : g.Mirrored) (hw : p.worklist.waiting = b :: rest)
    (hv : Solver.visit a g p b rest = some q) (hp : Consistent a g vs p) : Consistent a g (vs ++ [⟨b, p⟩]) q := by
  obtain ⟨output, ht, hin, hout, hrest, -, hnew⟩ := visit_eq_some hv
  have hin_ne : ∀ {c}, c ≠ b → q.inFacts[c]? = p.inFacts[c]? := by
    intro c hc
    simp [hin, ExtTreeMap.getElem?_insert, Ne.symm hc]
  have hout_ne : ∀ {c}, c ≠ b → q.outFacts[c]? = p.outFacts[c]? := by
    intro c hc
    simp [hout, ExtTreeMap.getElem?_insert, Ne.symm hc]
  -- A block that does not wait afterwards has no predecessor whose output this visit has changed.
  have hpred : ∀ {c}, c ∉ q.worklist.waiting → ∀ e ∈ (g.block c).predecessors,
      p.outFacts[e.source]? = q.outFacts[e.source]? := by
    intro c hc e he
    by_cases heq : e.source = b
    · rcases hnew with hold | hsucc
      · simp [hout, heq, hold]
      · exact absurd (hsucc c (heq ▸ hg.mem_successors he)) hc
    · exact (hout_ne heq).symm
  constructor
  case applied =>
    intro c input hc
    by_cases hcb : c = b
    · subst hcb
      have : inputOf a g ⟨c, p⟩ = input := by simpa [hin] using hc
      exact ⟨output, by simp [hout], this ▸ ht⟩
    · rw [hin_ne hcb] at hc
      rw [hout_ne hcb]
      exact hp.applied hc
  case domain =>
    intro c hc
    by_cases hcb : c = b
    · simp [hin, hcb]
    · have hcp : c ∈ p.outFacts := by
        rw [ExtTreeMap.mem_iff_isSome_getElem?] at hc ⊢
        rwa [← hout_ne hcb]
      simpa [hin] using .inr (hp.domain hcp)
  case joined =>
    intro c input hc hcw
    rw [seen_append]
    by_cases hcb : c = b
    · subst hcb
      have : inputOf a g ⟨c, p⟩ = input := by simpa [hin] using hc
      rw [← this, if_pos rfl]
      exact congrArg a.join (inputs_congr (hpred hcw) fun _ _ _ => rfl)
    · rw [if_neg (Ne.symm hcb)]
      rw [hin_ne hcb] at hc
      have hcp : c ∉ p.worklist.waiting := by
        rw [hw, List.mem_cons]
        rintro (h | h)
        · exact hcb h
        · exact hcw (hrest c h)
      rw [hp.joined hc hcp]
      exact congrArg a.join (inputs_congr (hpred hcw) fun _ _ _ => rfl)

variable {s} {r : Solution F}

/-- A converged solve leaves every block with the output of its input, and with the join of the final
outputs of its predecessors and of their inputs as last seen. -/
theorem solve_last_join (hg : g.Mirrored) (h : s.solve a g = some r) (hc : r.status = .converged)
    (hb : b ∈ r.inFacts ∨ b ∈ r.outFacts) :
    ∃ input output, r.inFacts[b]? = some input ∧ r.outFacts[b]? = some output ∧
      a.transfer (g.block b) input = some output ∧
      input = a.join (inputs a g (seen (s.solveVisits a g) b) r.outFacts b) := by
  obtain ⟨q, hq, hin, hout, hdone⟩ := solve_induction (Consistent.start s)
    (fun _ _ _ _ _ hw hv (hp : Consistent a g _ _) => hp.visit hg hw hv) h
  have hbin : b ∈ q.inFacts := by
    rw [hin, hout] at hb
    exact hb.elim id hq.domain
  obtain ⟨input, hinput⟩ := Option.isSome_iff_exists.1 (ExtTreeMap.mem_iff_isSome_getElem?.1 hbin)
  obtain ⟨output, houtput, ht⟩ := hq.applied hinput
  refine ⟨input, output, by rw [hin, hinput], by rw [hout, houtput], ht, ?_⟩
  rw [hout]
  exact hq.joined hinput (by simp [hdone hc])

end Solver
end PointsTo
