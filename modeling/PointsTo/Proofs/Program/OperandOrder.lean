import PointsTo.Proofs.Mapping
import PointsTo.ProgramAnalysis
import PointsTo.Proofs.Evaluation.Hoisted
import PointsTo.Proofs.Flow.Hoisting
import PointsTo.Tree.Build

/-! # Operands keep their order

Branches inside an expression do not change the order in which its operands are evaluated. What stands to the
left of an operand that becomes branches is evaluated into its temporary before the first of them is decided,
by one step only, and the enclosing expression takes the value out of the temporary. It looks again into what
is starred or given by keyword, though, and a value that has changed by then is the one it uses. -/

namespace PointsTo

open Option SyntaxTree

namespace Preparation

theorem settled_of_unit? {tree : SyntaxTree} (htree : tree.FromRaw) {s : Settings} {id : UnitId}
    {u : PreparedUnit} (hu : (Preparation.ofProgram (Program.ofTree tree s)).unit? id = some u) :
    u.graph.Settled := by
  obtain ⟨hinfo, hgraph, -⟩ := prepared_of_unit? hu
  exact FlowGraph.settled_of_ofUnit hgraph (Program.bodiesDistinct_ofTree htree s id u.info hinfo)

/-- The flow graph of a unit is settled. Wherever a hoisted node is evaluated for its value, the temporary is
read and nothing else happens, and every step runs as it does without what is inside the hoisted nodes that
are evaluated as a whole. -/
theorem operands_ahead_of_branches {tree : SyntaxTree} (htree : tree.FromRaw) {s : Settings} {id : UnitId}
    {u : PreparedUnit} (hu : (Preparation.ofProgram (Program.ofTree tree s)).unit? id = some u) :
    u.graph.Settled ∧ ∀ f : Frame, f.graph = u.graph →
      (∀ n : Node, u.graph.isHoisted n.id = true →
        Eval.evaluate f n = Eval.recorded n.id (Eval.readSlot f (.temp n.id))) ∧
      ∀ m step, f.step m (step.prune u.graph) = f.step m step := by
  refine ⟨settled_of_unit? htree hu, fun f hf => ?_⟩
  rw [← hf]
  exact ⟨fun n hn => Eval.eval_of_isHoisted f (Eval.lambdas f) rfl hn, f.step_prune⟩

open Build in
/-- A name is passed before an argument that binds it again in a branch. -/
def heldArgument : RawNode :=
  module [assign (name "x") int,
    assign (name "y") (tuple [name "x", logical "and" [namedExpr "x" string, string]])]

/-- The first element is hoisted, and the tuple takes its value out of the temporary. -/
theorem operands_ahead_on_heldArgument : ∃ tree u, ofModule heldArgument = .ok tree ∧
      (Preparation.ofProgram (Program.ofTree tree {})).unit? 0 = some u ∧ u.graph.isHoisted 7 = true ∧
      u.graph.Settled ∧ ∀ f : Frame, f.graph = u.graph → ∀ n : Node, n.id = 7 →
        Eval.evaluate f n = Eval.recorded 7 (Eval.readSlot f (.temp 7)) := by
  have h : ((ofModule heldArgument).toOption.bind fun tree =>
      ((Preparation.ofProgram (Program.ofTree tree {})).unit? 0).map fun u => u.graph.isHoisted 7) = some true := by
    decide +kernel
  obtain ⟨tree, htree, h⟩ := exists_ok_of_bind h
  obtain ⟨u, hu, h⟩ := map_eq_some_iff.1 h
  obtain ⟨hsettled, hframe⟩ := operands_ahead_of_branches (.module _ htree) hu
  refine ⟨tree, u, htree, hu, h, hsettled, fun f hf n hn => ?_⟩
  exact hn ▸ (hframe f hf).1 n (hn.symm ▸ h)

end Preparation

open Build in
/-- A name is given by keyword before an argument that binds it again in a branch. -/
def heldKeyword : RawNode :=
  module [assign (name "x") int,
    assign (name "y") (call (name "dict")
      [keyword "k" (name "x"), keyword "m" (logical "and" [namedExpr "x" string, string])])]

/-- The keyword is hoisted with an integer, but the name inside it is evaluated again after the branch. What
the dictionary gets is the string that the name has been bound to since. -/
theorem ProgramAnalysis.operand_evaluated_again_on_heldKeyword :
    ∃ tree a u t s v, ofModule heldKeyword = .ok tree ∧ ofProgram (Program.ofTree tree {}) = some a ∧
      a.converged = true ∧ a.preparation.unit? 0 = some u ∧ a.types? 0 = some t ∧
      u.graph.isHoisted 8 = true ∧ t.exitStates[1]? = some s ∧ s.read (.temp 8) = .single .int ∧
      t.exprTypes[9]? = some v ∧ v.contains .str = true ∧
      a.env.read (.element { span := ⟨0, 6, 0, 6⟩, scope := 0 }) = .single .str := by
  have h : ((ofModule heldKeyword).toOption.bind fun tree =>
      (ofProgram (Program.ofTree tree {})).bind fun a => (a.preparation.unit? 0).bind fun u =>
        (a.types? 0).bind fun t => t.exitStates[1]?.bind fun s => t.exprTypes[9]?.map fun v =>
          (a.converged, u.graph.isHoisted 8, decide (s.read (.temp 8) = .single .int), v.contains .str,
            decide (a.env.read (.element { span := ⟨0, 6, 0, 6⟩, scope := 0 }) = .single .str))) =
      some (true, true, true, true, true) := by
    decide +kernel
  obtain ⟨tree, htree, h⟩ := exists_ok_of_bind h
  obtain ⟨a, ha, h⟩ := bind_eq_some_iff.1 h
  obtain ⟨u, hu, h⟩ := bind_eq_some_iff.1 h
  obtain ⟨t, ht, h⟩ := bind_eq_some_iff.1 h
  obtain ⟨s, hs, h⟩ := bind_eq_some_iff.1 h
  obtain ⟨v, hv, h⟩ := map_eq_some_iff.1 h
  simp only [Prod.mk.injEq, decide_eq_true_eq] at h
  obtain ⟨hc, hhoisted, htemp, hstr, helement⟩ := h
  exact ⟨tree, a, u, t, s, v, htree, ha, hc, hu, ht, hhoisted, hs, htemp, hv, hstr, helement⟩

end PointsTo
