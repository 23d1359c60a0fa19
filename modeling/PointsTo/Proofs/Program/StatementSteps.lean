import PointsTo.Proofs.Flow.Statements
import PointsTo.Tree.Build

/-! # One step for each statement

No statement is lost when a unit is lowered, and none is doubled, whatever blocks are made for jumps, loops and guarded
parts. A statement that runs as a whole is run by one step, a test of a branch is tested by one, and so on. Only a jump
out of a loop or back to its header has no step: it is how its block ends. -/

namespace PointsTo
namespace FlowGraph

open Node SyntaxTree

variable {g : FlowGraph} {stmts : List Node}

theorem nodup_roles_of_gains {own : Multiset (StepRole × NodeId)} {ids : List NodeId}
    (h : Builder.Gains own ids 0 ↑g.roles) (hnodup : ids.Nodup) : g.roles.Nodup := by
  obtain ⟨tests, hroles, hids⟩ := h
  have hnumbers : (↑g.roles : Multiset (StepRole × NodeId)).map Prod.snd = own.map Prod.snd + tests := by
    rw [hroles, Multiset.zero_add, Multiset.map_add, Multiset.map_map]
    exact congrArg _ (Multiset.map_id' tests)
  refine Multiset.coe_nodup.1 (Multiset.Nodup.of_map Prod.snd
    (hnumbers ▸ Multiset.nodup_iff_count_le_one.2 fun i => ?_))
  rw [Multiset.count_add]
  exact (hids i).trans (List.nodup_iff_count_le_one.1 hnodup i)

theorem mem_roles_of_gains (h : Builder.Gains (duesOf (statementsAll stmts)) (idsAll stmts) 0 ↑g.roles)
    {n : Node} (hn : n ∈ statementsAll stmts) {d : StepRole × NodeId} (hd : d ∈ n.duties) : d ∈ g.roles := by
  obtain ⟨tests, hroles, -⟩ := h
  rw [← Multiset.mem_coe, hroles, Multiset.zero_add, Multiset.mem_add]
  exact .inl (Multiset.mem_coe.2 (List.mem_flatMap.2 ⟨n, hn, hd⟩))

theorem mem_duties_of_gains (h : Builder.Gains (duesOf (statementsAll stmts)) (idsAll stmts) 0 ↑g.roles)
    {d : StepRole × NodeId} (hd : d ∈ g.roles) (hne : d.1 ≠ .test) : ∃ n ∈ statementsAll stmts, d ∈ n.duties := by
  obtain ⟨tests, hroles, -⟩ := h
  rw [← Multiset.mem_coe, hroles, Multiset.zero_add, Multiset.mem_add] at hd
  rcases hd with hd | hd
  · exact List.mem_flatMap.1 (Multiset.mem_coe.1 hd)
  · obtain ⟨i, -, rfl⟩ := Multiset.mem_map.1 hd
    exact absurd rfl hne

/-- However deep the statements of a unit stand in its blocks, each of the steps that they call for is there once: one
that runs a statement as a whole, one that enters a handler or the item of a with-block, one that binds the target of a
loop, one that tests the condition of a conditional, a loop or an assertion. No other statement, handler, item or target
has a step. -/
theorem one_step_per_statement {tree : SyntaxTree} (htree : tree.FromRaw) {s : Settings} {id : UnitId} {info : UnitInfo}
    (hinfo : (Program.ofTree tree s).units[id]? = some info) {policy : UnsupportedPolicy}
    (hg : FlowGraph.ofUnit policy info = .ok g) (hstmts : info.body = some stmts)
    (horder : ∀ n ∈ statementsAll stmts, n.kind = .tryBlock → n.InOrder) :
    (∀ n ∈ statementsAll stmts, ∀ d ∈ n.duties, g.roles.count d = 1) ∧
      ∀ d ∈ g.roles, d.1 ≠ .test → ∃ n ∈ statementsAll stmts, d ∈ n.duties := by
  have hgains := FlowGraph.gains_of_ofUnit hg hstmts horder
  have hnodup := Program.bodiesDistinct_ofTree htree s id info hinfo stmts hstmts
  refine ⟨fun n hn d hd => ?_, fun d hd hne => mem_duties_of_gains hgains hd hne⟩
  exact List.count_eq_one_of_mem (nodup_roles_of_gains hgains hnodup) (mem_roles_of_gains hgains hn hd)

/-- The flow graph of a module and its statements, if the module can be read and lowered. -/
def ofModule? (raw : RawNode) : Option (FlowGraph × List Node) :=
  match ofModule raw with
  | .error _ => none
  | .ok tree => (Program.ofTree tree {}).units[0]?.bind fun info => info.body.bind fun stmts =>
    match FlowGraph.ofUnit .conservativeTop info with
    | .error _ => none
    | .ok g => some (g, stmts)

theorem exists_of_ofModule? {raw : RawNode} (h : ofModule? raw = some (g, stmts)) :
    ∃ tree info, ofModule raw = .ok tree ∧ (Program.ofTree tree {}).units[0]? = some info ∧
      FlowGraph.ofUnit .conservativeTop info = .ok g ∧ info.body = some stmts := by
  unfold ofModule? at h
  split at h
  next => cases h
  next tree htree =>
    obtain ⟨info, hinfo, h⟩ := Option.bind_eq_some_iff.1 h
    obtain ⟨stmts', hstmts, h⟩ := Option.bind_eq_some_iff.1 h
    split at h
    next => cases h
    next hg =>
      cases h
      exact ⟨tree, info, htree, hinfo, hg, hstmts⟩

open Build in
/-- Statements with blocks of every kind, some of which are left by jumps. -/
def everyBlock : RawNode :=
  module [tryBlock [forLoop (name "i") (list []) [ifElse boolean [breakLoop] [pass]]]
    [handler .none .none [withBlock (name "c") .none [raise .none]]] [assertion boolean]
    [whileLoop boolean [continueLoop]]]

theorem one_step_per_statement_on_everyBlock :
    ∃ tree info g stmts, ofModule everyBlock = .ok tree ∧ (Program.ofTree tree {}).units[0]? = some info ∧
      FlowGraph.ofUnit .conservativeTop info = .ok g ∧ info.body = some stmts ∧
      (∀ n ∈ statementsAll stmts, n.kind = .tryBlock → n.InOrder) ∧
      (statementsAll stmts).flatMap duties = [(.handle, 13), (.iterate, 4), (.test, 8), (.exec, 12),
        (.enter, 16), (.exec, 19), (.test, 22), (.test, 25)] ∧
      (∀ n ∈ statementsAll stmts, ∀ d ∈ n.duties, g.roles.count d = 1) ∧
      ∀ d ∈ g.roles, d.1 ≠ .test → ∃ n ∈ statementsAll stmts, d ∈ n.duties := by
  have h : (ofModule? everyBlock).map (fun (_, stmts) => decide (
      (∀ n ∈ statementsAll stmts, n.kind = .tryBlock → n.InOrder) ∧
      (statementsAll stmts).flatMap duties = [(.handle, 13), (.iterate, 4), (.test, 8), (.exec, 12),
        (.enter, 16), (.exec, 19), (.test, 22), (.test, 25)])) = some true := by
    decide +kernel
  obtain ⟨⟨g, stmts⟩, hmodule, h⟩ := Option.map_eq_some_iff.1 h
  obtain ⟨horder, hduties⟩ := of_decide_eq_true h
  obtain ⟨tree, info, htree, hinfo, hg, hstmts⟩ := exists_of_ofModule? hmodule
  exact ⟨tree, info, g, stmts, htree, hinfo, hg, hstmts, horder, hduties,
    one_step_per_statement (.module _ htree) hinfo hg hstmts horder⟩

open Build in
def leftLoop : RawNode := module [whileLoop boolean [breakLoop]]

/-- A jump out of a loop is a statement that no step runs. -/
theorem no_step_for_jump_on_leftLoop :
    ∃ tree info g stmts, ofModule leftLoop = .ok tree ∧ (Program.ofTree tree {}).units[0]? = some info ∧
      FlowGraph.ofUnit .conservativeTop info = .ok g ∧ info.body = some stmts ∧
      ∃ n ∈ statementsAll stmts, n.kind = .breakLoop ∧ g.roles.count (.exec, n.id) = 0 := by
  have h : (ofModule? leftLoop).map (fun (g, stmts) => decide (
      ∃ n ∈ statementsAll stmts, n.kind = .breakLoop ∧ g.roles.count (.exec, n.id) = 0)) = some true := by
    decide +kernel
  obtain ⟨⟨g, stmts⟩, hmodule, h⟩ := Option.map_eq_some_iff.1 h
  obtain ⟨tree, info, htree, hinfo, hg, hstmts⟩ := exists_of_ofModule? hmodule
  exact ⟨tree, info, g, stmts, htree, hinfo, hg, hstmts, of_decide_eq_true h⟩

end FlowGraph
end PointsTo
