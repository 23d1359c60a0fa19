import PointsTo.Proofs.Program.Loops

/-! # Temporaries

Operands that are evaluated ahead of their expression, the outcomes of branches inside expressions and what a loop
goes through are passed on in temporaries. No step reads a temporary that may not have been assigned, whichever
way control has come and wherever an exception has cut a block short. -/

namespace PointsTo
namespace Preparation

/-- Whatever temporary a step reads has been assigned by an earlier step on every path from the entry. -/
theorem temporaries_assigned {tree : SyntaxTree} (htree : tree.FromRaw) {s : Settings} {id : UnitId}
    {u : PreparedUnit} (hu : (ofProgram (Program.ofTree tree s)).unit? id = some u) {taken before after : List Step}
    {b : BlockId} {step : Step} {n : NodeId} (hpath : u.graph.Takes taken b)
    (hstep : (u.graph.block b).steps = before ++ step :: after) (hn : n ∈ step.reads u.graph.isHoisted) :
    ∃ earlier ∈ taken ++ before, n ∈ earlier.assigns := by
  obtain ⟨made, w, heq, hcharted, hhoisted⟩ := exists_charted_of_unit? htree hu
  rw [heq] at hpath hstep hn
  exact List.mem_flatMap.1 (hcharted.finish.mem_assigns hpath hstep hhoisted hn)

open Build in
/-- A loop through a list that a branch may have bound. -/
def chosenLoop : RawNode :=
  module [forLoop (name "y") (logical "or" [name "x", namedExpr "w" (list [])]) [assign (name "z") (name "y")]]

/-- The body of the loop, block 7, goes through temporary 3. The branch at block 4 has assigned it. -/
theorem temporaries_assigned_on_chosenLoop : ∃ tree u step after, SyntaxTree.ofModule chosenLoop = .ok tree ∧
      (ofProgram (Program.ofTree tree {})).unit? 0 = some u ∧ (u.graph.block 7).steps = step :: after ∧
      3 ∈ step.reads u.graph.isHoisted ∧
      ∃ earlier ∈ (u.graph.block 0).steps ++ (u.graph.block 4).steps ++ (u.graph.block 3).steps ++
        (u.graph.block 6).steps, 3 ∈ earlier.assigns := by
  have h : ((SyntaxTree.ofModule chosenLoop).toOption.bind fun tree =>
      ((ofProgram (Program.ofTree tree {})).unit? 0).map fun u =>
        decide (u.graph.entry = 0 ∧ (⟨0, 4, .whenFalse⟩ : Edge) ∈ (u.graph.block 0).successors ∧
          (⟨4, 3, .unconditional⟩ : Edge) ∈ (u.graph.block 4).successors ∧
          (⟨3, 6, .unconditional⟩ : Edge) ∈ (u.graph.block 3).successors ∧
          (⟨6, 7, .whenTrue⟩ : Edge) ∈ (u.graph.block 6).successors ∧
          ∃ step ∈ (u.graph.block 7).steps.head?, 3 ∈ step.reads u.graph.isHoisted)) = some true := by decide +kernel
  obtain ⟨tree, htree, h⟩ := exists_ok_of_bind h
  obtain ⟨u, hu, h⟩ := Option.map_eq_some_iff.1 h
  obtain ⟨hentry, h04, h43, h36, h67, step, hhead, hreads⟩ := of_decide_eq_true h
  obtain ⟨after, hafter⟩ := List.head?_eq_some_iff.1 hhead
  have hsplit : (u.graph.block 7).steps = [] ++ step :: after := hafter
  have hstart : u.graph.Takes [] 0 := hentry ▸ .entry
  have hpath := (((hstart.leave h04 nofun).leave h43 nofun).leave h36 nofun).leave h67 nofun
  have hassigned := temporaries_assigned (.module _ htree) hu hpath hsplit hreads
  exact ⟨tree, u, step, after, htree, hu, hafter, hreads, by simpa using hassigned⟩

end Preparation
end PointsTo
