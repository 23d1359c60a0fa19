import PointsTo.Proofs.Evaluation.BlockDefinitions
import PointsTo.Proofs.Evaluation.MarkedBlock
import PointsTo.Proofs.Flow.Postorder
import PointsTo.Proofs.Program.Stabilization
import PointsTo.Proofs.Solver.Least

/-! # Agreement on definitions

The flow facts of a block say which variables of its own a unit defines there, and so does the record of the
replay that follows a solve. The record has what the marks of the block say, with what calls and stores to
attributes add in between. In a regular block the facts have the marks as well, but for those inside the
bodies of comprehensions. So the two lists are the same exactly if these bodies define nothing of the unit and
the values add nothing. -/

namespace PointsTo

open Option FlowGraph

namespace PreparedUnit

variable (p : Program) (u : PreparedUnit) (b : BlockId)

def marks : List Mark := Mark.ofBlock p u.graph u.info (u.graph.block b)

def stated : List Location := u.info.definedBy (u.flow.blocks[b]?.getD [])

def nestedFlows : List NestedFlow := (UnitFlow.gathered p u.graph u.info b).nested

variable {p u b}

/-- In a regular block the facts leave out what nested flows define, and nothing else. -/
theorem stated_sublist_marks (hflow : u.flow = UnitFlow.ofUnit p u.graph u.info)
    (h : (u.graph.block b).regular p u.graph u.info = true) : (u.stated b).Sublist (Mark.locations (u.marks p b)) ∧
      (Mark.locations (u.marks p b) = u.stated b ↔
        ∀ flow ∈ u.nestedFlows p b, u.info.definedBy flow.facts = []) := by
  have hstated : u.stated b = FlowEvent.listed u.info (FlowEvent.ofBlock p u.graph u.info (u.graph.block b)) := by
    rw [stated, hflow, UnitFlow.facts_gathered, UnitFlow.definedBy_gathered]
  have hmarks := FlowEvent.spliced_block h
  rw [marks, ← hmarks, hstated]
  exact ⟨FlowEvent.listed_sublist_spliced _, Gathered.spliced_eq_listed_iff ..⟩

end PreparedUnit

open Build in
/-- A function that fills a list, goes through it and gives it up. -/
def drainedList : RawNode :=
  module [function "f" ["n"] [assign (name "xs") (list [name "n", int]),
    assign (name "ys") (listComp (name "x") (name "x") (name "xs")), expr (namedExpr "v" (name "ys")),
    delete [name "xs"], ret (some (name "v"))]]

open Build in
/-- A comprehension that leaves its last element in a variable of the module. -/
def keptElement : RawNode :=
  module [assign (name "xs") (list [int]),
    assign (name "ys") (listComp (namedExpr "y" (name "x")) (name "x") (name "xs"))]

/-- A unit of a module with its program, solved against an empty environment and replayed. -/
def replayedUnit? (raw : RawNode) (id : UnitId) :
    Option (Program × PreparedUnit × Solution AbstractState × Recorder) := do
  let p ← Program.ofModule? raw {}
  let u ← (Preparation.ofProgram p).unit? id
  let s ← ({} : Solver).solve (u.states p) u.graph
  let r ← (u.frame p (Preparation.ofProgram p).facts .empty).replay s.inFacts
  return (p, u, s, r)

theorem solve_of_replayedUnit? {raw : RawNode} {id : UnitId} {p : Program} {u : PreparedUnit}
    {s : Solution AbstractState} {r : Recorder} (h : replayedUnit? raw id = some (p, u, s, r)) :
    (Preparation.ofProgram p).unit? id = some u ∧ ({} : Solver).solve (u.states p) u.graph = some s ∧
      (u.frame p (Preparation.ofProgram p).facts .empty).replay s.inFacts = some r := by
  obtain ⟨p', -, h⟩ := bind_eq_some_iff.1 h
  obtain ⟨u', hu, h⟩ := bind_eq_some_iff.1 h
  obtain ⟨s', hs, h⟩ := bind_eq_some_iff.1 h
  obtain ⟨r', hr, h⟩ := bind_eq_some_iff.1 h
  cases h
  exact ⟨hu, hs, hr⟩

namespace Preparation

variable {p : Program} {id : UnitId} {u : PreparedUnit}

/-- After every solve of a prepared unit the replay ends, and for each block that was visited it records what
the marks of the block say, with nothing in between but what calls and stores to attributes decide. If the
block is regular, its flow facts have the marks too, except for those in nested flows, so that the facts and the
record list the same definitions exactly if the nested flows define nothing of the unit and nothing comes in
between. -/
theorem definitions_agree_iff (hu : (Preparation.ofProgram p).unit? id = some u) (facts : ProgramFacts)
    (env : AbstractState) {solver : Solver} {s : Solution AbstractState}
    (hs : solver.solve (u.frame p facts env).propagation u.graph = some s) :
    u.flow.nested = (List.range u.graph.size).flatMap (u.nestedFlows p) ∧
    ∃ r, (u.frame p facts env).replay s.inFacts = some r ∧ ∀ b ∈ s.inFacts,
      Interspersed ((u.frame p facts env).Undecided (u.marks p b)) (Mark.locations (u.marks p b))
        (r.noted u.info b) ∧
      ((u.graph.block b).regular p u.graph u.info = true →
        (u.stated b).Sublist (r.noted u.info b) ∧
        (r.noted u.info b = u.stated b ↔
          (∀ flow ∈ u.nestedFlows p b, u.info.definedBy flow.facts = []) ∧
            r.noted u.info b = Mark.locations (u.marks p b)) ∧
        ((∀ l, ¬(u.frame p facts env).Undecided (u.marks p b) l) →
          (r.noted u.info b = u.stated b ↔
            ∀ flow ∈ u.nestedFlows p b, u.info.definedBy flow.facts = []))) := by
  obtain ⟨-, hgraph, hflow⟩ := prepared_of_unit? hu
  have hmirrored := ofUnit_mirrored hgraph
  have hvisited : ∀ {b : BlockId} {input}, s.inFacts[b]? = some input → _ := Solver.reachable_of_solve hmirrored hs
  obtain ⟨r, hr⟩ := Frame.exists_replay (f := u.frame p facts env) fun b input hb => (hvisited hb).2
  refine ⟨hflow ▸ (UnitFlow.ofUnit_eq_gathered ..).2, r, hr, fun b hb => ?_⟩
  obtain ⟨input, hinput⟩ := isSome_iff_exists.1 (Std.ExtTreeMap.mem_iff_isSome_getElem?.1 hb)
  have horder : b ∈ u.graph.reversePostorder :=
    mem_reversePostorder hmirrored (ofUnit_entry_lt hgraph) (hvisited hinput).1
  have hnoted : Interspersed ((u.frame p facts env).Undecided (u.marks p b)) (Mark.locations (u.marks p b))
      (r.noted u.info b) :=
    (Frame.replayed_replay (ofUnit_id_block hgraph) hr).added b horder input hinput
  refine ⟨hnoted, fun hregular => ?_⟩
  obtain ⟨hsub, hiff⟩ := PreparedUnit.stated_sublist_marks hflow hregular
  refine ⟨hsub.trans hnoted.sublist, ⟨fun h => ?_, fun ⟨hnested, h⟩ => h.trans (hiff.2 hnested)⟩, fun hnone => ?_⟩
  -- The marks stand between the facts and the record, so all three are the same.
  · have heq : Mark.locations (u.marks p b) = u.stated b :=
      (hnoted.sublist.trans (h ▸ .refl _)).antisymm hsub
    exact ⟨hiff.1 heq, h.trans heq.symm⟩
  · rw [hnoted.eq_of_forall_not hnone]
    exact hiff

/-- The function that fills a list defines its variables in the order of its facts. -/
theorem definitions_agree_on_drainedList :
    ∃ p u s r, replayedUnit? drainedList 1 = some (p, u, s, r) ∧ 0 ∈ s.inFacts ∧
      (u.graph.block 0).regular p u.graph u.info = true ∧ r.noted u.info 0 = u.stated 0 ∧
      u.stated 0 = [.var 1 "n", .var 1 "xs", .var 1 "ys", .var 1 "v", .var 1 "xs", .ret 1] := by
  have h : ((replayedUnit? drainedList 1).map fun (p, u, s, r) =>
      (decide (0 ∈ s.inFacts), (u.graph.block 0).regular p u.graph u.info,
        decide (∀ flow ∈ u.nestedFlows p 0, u.info.definedBy flow.facts = []),
        decide (r.noted u.info 0 = Mark.locations (u.marks p 0)), u.stated 0)) =
      some (true, true, true, true, [.var 1 "n", .var 1 "xs", .var 1 "ys", .var 1 "v", .var 1 "xs", .ret 1]) := by
    decide +kernel
  obtain ⟨⟨p, u, s, r⟩, hunit, h⟩ := map_eq_some_iff.1 h
  obtain ⟨hmem, hregular, hnested, hmarks, hstated⟩ : _ ∧ _ ∧ _ ∧ _ ∧ _ := by simpa using h
  obtain ⟨hu, hs, hr⟩ := solve_of_replayedUnit? hunit
  obtain ⟨-, r', hr', hagree⟩ := definitions_agree_iff hu _ _ hs
  obtain rfl : r = r' := some.inj (hr.symm.trans hr')
  exact ⟨_, _, _, _, hunit, hmem, hregular, ((hagree 0 hmem).2 hregular).2.1.2 ⟨hnested, hmarks⟩, hstated⟩

/-- The record of the module has the element that the comprehension keeps, and the facts have not. -/
theorem definitions_differ_on_keptElement :
    ∃ p u s r, replayedUnit? keptElement 0 = some (p, u, s, r) ∧ s.status = .converged ∧ 0 ∈ s.inFacts ∧
      r.noted u.info 0 = [.var 0 "xs", .var 0 "y", .var 0 "ys"] ∧
      u.stated 0 = [.var 0 "xs", .var 0 "ys"] := by
  have h : ((replayedUnit? keptElement 0).map fun (_, u, s, r) =>
      (s.status, decide (0 ∈ s.inFacts), r.noted u.info 0, u.stated 0)) =
      some (.converged, true, [.var 0 "xs", .var 0 "y", .var 0 "ys"], [.var 0 "xs", .var 0 "ys"]) := by
    decide +kernel
  obtain ⟨⟨p, u, s, r⟩, hunit, h⟩ := map_eq_some_iff.1 h
  obtain ⟨hstatus, hmem, hnoted, hstated⟩ : _ ∧ _ ∧ _ ∧ _ := by simpa using h
  exact ⟨p, u, s, r, hunit, hstatus, hmem, hnoted, hstated⟩

end Preparation
end PointsTo
