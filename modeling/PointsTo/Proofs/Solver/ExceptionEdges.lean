import PointsTo.Inference
import PointsTo.Proofs.Flow.Construction
import PointsTo.Proofs.Solver.Equations
import PointsTo.Tree.Build

/-! # Inputs along exception edges

A block takes the inputs of its predecessors along exception edges, but it is only sent back to the
worklist when an output has changed. So a converged solve satisfies the equations of a block exactly if
the join does not notice how these inputs have changed since its last visit. It may well notice: a last
part that assigns a variable has the same output whatever comes in, and the handler around it then keeps
an input that lacks what came in late. -/

namespace PointsTo

open Option
open Build in
/-- A guarded block inside another one. The inner one may assign a string to a variable, its last part
assigns a number, and the handler of the outer one copies the variable. -/
def nestedTry : RawNode :=
  module [tryBlock [tryBlock [ifElse boolean [assign (name "x") string] []] [] []
    [assign (name "x") int]] [handler .none .none [assign (name "y") (name "x")]] [] []]

def Program.ofModule? (raw : RawNode) (s : Settings) : Option Program :=
  (SyntaxTree.ofModule raw).toOption.map fun tree => Program.ofTree tree s

def firstUnit? (raw : RawNode) (order : WorklistOrder) : Option (Program × PreparedUnit) := do
  let p ← Program.ofModule? raw { order }
  let u ← (Preparation.ofProgram p).unit? 0
  return (p, u)

theorem mirrored_of_firstUnit? {raw : RawNode} {order : WorklistOrder} {p : Program} {u : PreparedUnit}
    (h : firstUnit? raw order = some (p, u)) : u.graph.Mirrored := by
  obtain ⟨p', -, h⟩ := bind_eq_some_iff.1 h
  obtain ⟨u', hu, h⟩ := bind_eq_some_iff.1 h
  obtain ⟨rfl, rfl⟩ := Prod.mk.inj (some.inj h)
  exact Preparation.mirrored_of_unit? hu

def PreparedUnit.states (p : Program) (u : PreparedUnit) : Analysis AbstractState :=
  (u.frame p (Preparation.ofProgram p).facts .empty).propagation

namespace Solver

section

variable {F : Type} [DecidableEq F] {s : Solver} {a : Analysis F} {g : FlowGraph} {r : Solution F}
  {b : BlockId}

instance (inFacts outFacts : Std.ExtTreeMap BlockId F) : Decidable (Balanced a g inFacts outFacts b) :=
  decidable_of_iff (inFacts[b]? = some (a.join (inputs a g inFacts outFacts b)) ∧
    outFacts[b]?.isSome ∧ a.transfer (g.block b) (a.join (inputs a g inFacts outFacts b)) = outFacts[b]?) <| by
    refine and_congr_right fun _ => ?_
    cases outFacts[b]? <;> simp

/-- In a converged solve every block with facts has the output of its input, and it satisfies its
equations exactly if the inputs of its predecessors along exception edges, as its last visit saw them,
join to the same as the inputs they have now. -/
theorem solve_balanced_iff (hg : g.Mirrored) (h : s.solve a g = some r) (hc : r.status = .converged)
    (hb : b ∈ r.inFacts ∨ b ∈ r.outFacts) :
    (∃ input output, r.inFacts[b]? = some input ∧ r.outFacts[b]? = some output ∧
      a.transfer (g.block b) input = some output) ∧
    (Balanced a g r.inFacts r.outFacts b ↔
      a.join (inputs a g (seen (s.solveVisits a g) b) r.outFacts b) =
        a.join (inputs a g r.inFacts r.outFacts b)) := by
  obtain ⟨input, output, hin, hout, ht, hjoin⟩ := solve_last_join hg h hc hb
  refine ⟨⟨input, output, hin, hout, ht⟩, ?_⟩
  constructor
  · rintro ⟨hb, -⟩
    rw [← hjoin]
    exact some.inj (hin.symm.trans hb)
  · intro heq
    exact .of_join hin hout ht (hjoin.trans heq)

/-- In reverse postorder the handler of the outer block has what its equation asks for. -/
theorem solve_balanced_on_nestedTry : ∃ p u r, firstUnit? nestedTry .reversePostorder = some (p, u) ∧
      ({ order := .reversePostorder, maxIterations := 100 } : Solver).solve (u.states p) u.graph = some r ∧
      r.status = .converged ∧ 4 ∈ r.inFacts ∧ Balanced (u.states p) u.graph r.inFacts r.outFacts 4 := by
  have h : ((firstUnit? nestedTry .reversePostorder).bind fun (p, u) =>
      (({ order := .reversePostorder, maxIterations := 100 } : Solver).solve (u.states p) u.graph).map fun r =>
        (r.status, decide (4 ∈ r.inFacts), decide ((u.states p).join (inputs (u.states p) u.graph
          (seen (({ order := .reversePostorder, maxIterations := 100 } : Solver).solveVisits (u.states p) u.graph) 4)
            r.outFacts 4) = (u.states p).join (inputs (u.states p) u.graph r.inFacts r.outFacts 4)))) =
      some (.converged, true, true) := by decide +kernel
  obtain ⟨⟨p, u⟩, hu, h⟩ := bind_eq_some_iff.1 h
  obtain ⟨r, hr, h⟩ := map_eq_some_iff.1 h
  obtain ⟨hc, h4, hjoin⟩ : _ ∧ _ ∧ _ := by simpa using h
  exact ⟨p, u, r, hu, hr, hc, h4,
    (solve_balanced_iff (mirrored_of_firstUnit? hu) hr hc (.inl h4)).2.2 hjoin⟩

/-- First in, first out, the solve converges as well, but the handler of the outer block lacks what came
into the last part of the inner one. -/
theorem solve_unbalanced_on_nestedTry : ∃ p u r, firstUnit? nestedTry .fifo = some (p, u) ∧ u.graph.Mirrored ∧
      ({ order := .fifo, maxIterations := 100 } : Solver).solve (u.states p) u.graph = some r ∧
      r.status = .converged ∧ 4 ∈ r.inFacts ∧
      r.inFacts[4]? ≠ some ((u.states p).join (inputs (u.states p) u.graph r.inFacts r.outFacts 4)) := by
  have h : ((firstUnit? nestedTry .fifo).bind fun (p, u) =>
      (({ order := .fifo, maxIterations := 100 } : Solver).solve (u.states p) u.graph).map fun r =>
        (r.status, decide (4 ∈ r.inFacts), decide (r.inFacts[4]? =
          some ((u.states p).join (inputs (u.states p) u.graph r.inFacts r.outFacts 4))))) =
      some (.converged, true, false) := by decide +kernel
  obtain ⟨⟨p, u⟩, hu, h⟩ := bind_eq_some_iff.1 h
  obtain ⟨r, hr, h⟩ := map_eq_some_iff.1 h
  obtain ⟨hc, h4, hne⟩ : _ ∧ _ ∧ _ := by simpa using h
  exact ⟨p, u, r, hu, mirrored_of_firstUnit? hu, hr, hc, h4, hne⟩

end

end Solver
end PointsTo
