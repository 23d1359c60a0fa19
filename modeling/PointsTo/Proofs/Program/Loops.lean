import PointsTo.Proofs.Mapping
import PointsTo.ProgramAnalysis
import PointsTo.Proofs.Flow.Layout
import PointsTo.Proofs.Value.Order
import PointsTo.Tree.Build

/-! # Loops of a program

The flow graph of every unit is reducible: an edge that leads back leads to the header of a loop, and every path
to its source has passed through that header. So nothing is ever reported about a loop with a second entry. Every
cycle lies inside a loop, and in a loop an assignment adds to what a variable holds and replaces nothing. -/

namespace PointsTo

open List AbstractState FlowGraph SyntaxTree

theorem Preparation.exists_charted_of_unit? {tree : SyntaxTree} (htree : tree.FromRaw) {s : Settings} {id : UnitId}
    {u : PreparedUnit} (hu : (Preparation.ofProgram (Program.ofTree tree s)).unit? id = some u) :
    ∃ (made : FlowGraph) (w : Chart), u.graph = made.finish ∧ made.Charted w ∧ made.isHoisted ∈ w.outlook := by
  obtain ⟨hinfo, hgraph, -⟩ := prepared_of_unit? hu
  exact exists_charted_of_ofUnit hgraph (Program.bodiesDistinct_ofTree htree s id u.info hinfo)

/-! ## Reducibility -/

theorem Fault.topic_ne_irreducible (f : Fault) : f.topic ≠ .irreducible := by
  cases f <;> nofun

theorem ProgramAnalysis.topic_ne_irreducible (p : Program) (o : Outcomes) :
    ∀ d ∈ outcomeReport p o, d.topic ≠ .irreducible := by
  unfold outcomeReport
  simp only [forall_mem_append, List.forall_mem_map, forall_mem_flatMap]
  refine ⟨⟨?_, fun _ _ => nofun⟩, fun _ _ => ?_⟩
  · split
    · nofun
    · exact forall_mem_singleton.2 nofun
  · exact List.forall_mem_map.2 fun f _ => f.topic_ne_irreducible

namespace Preparation

theorem topic_ne_irreducible {p : Program} (hp : ∀ d ∈ p.diagnostics, d.topic ≠ .irreducible)
    (hunits : ∀ id u, (ofProgram p).unit? id = some u → u.graph.irreducible = []) :
    ∀ d ∈ (ofProgram p).diagnostics, d.topic ≠ .irreducible := by
  refine forall_mem_append.2 ⟨hp, fun d hd => ?_⟩
  obtain ⟨⟨info, result⟩, hmem, hd⟩ := mem_flatMap.1 hd
  cases result with
  | error f =>
    cases mem_singleton.1 hd
    exact f.topic_ne_irreducible
  | ok u =>
    obtain ⟨id, hid⟩ := mem_iff_getElem?.1 hmem
    have hu : u.irreducible = [] := by
      simp [PreparedUnit.irreducible, hunits id u (by rw [unit?, hid]; rfl)]
    simp only [diagnosticsOf, hu, append_nil, map_append, mem_append, List.mem_map] at hd
    rcases hd with ⟨_, hnote, rfl⟩ | ⟨_, hnote, rfl⟩
    · obtain ⟨_, -, rfl⟩ := List.mem_map.1 hnote
      nofun
    · obtain ⟨_, -, rfl⟩ := List.mem_map.1 hnote
      nofun

/-- Every unit of a program is reducible: what the walk from the entry finds to lead back does, and every edge that
leads back, on whichever path, leads to a block that dominates its source. So no edge is found to make it irreducible,
however dominators are found. No analysis reports otherwise. -/
theorem reducible {tree : SyntaxTree} (htree : tree.FromRaw) (s : Settings) :
    (∀ id u, (ofProgram (Program.ofTree tree s)).unit? id = some u → u.graph.irreducible = [] ∧
      (∀ e ∈ u.graph.walk.retreating, Retreats u.graph.edges u.graph.entry e) ∧
      (∀ e, Retreats u.graph.edges u.graph.entry e → u.graph.Dominates e.target e.source) ∧
      ∀ dominates, u.graph.FindsDominators dominates → u.graph.irreducibleBy dominates = []) ∧
    (∀ d ∈ (ofProgram (Program.ofTree tree s)).diagnostics, d.topic ≠ .irreducible) ∧
    ∀ a, ProgramAnalysis.ofProgram (Program.ofTree tree s) = some a →
      ∀ d ∈ a.diagnostics, d.topic ≠ .irreducible := by
  have hempty : ∀ id u, (ofProgram (Program.ofTree tree s)).unit? id = some u → u.graph.irreducible = [] := by
    intro id u hu
    obtain ⟨made, w, heq, hcharted, -⟩ := exists_charted_of_unit? htree hu
    have hmade : made.Mirrored := (heq ▸ mirrored_of_unit? hu).of_finish
    rw [heq]
    exact irreducibleBy_eq_nil hmade (findsDominators_dominates hmade) fun _ =>
      hcharted.dominates_of_retreats
  have hreport : ∀ d ∈ (ofProgram (Program.ofTree tree s)).diagnostics, d.topic ≠ .irreducible := by
    refine topic_ne_irreducible (fun d hd => ?_) hempty
    obtain ⟨c, -, rfl⟩ := List.mem_map.1 hd
    nofun
  refine ⟨fun id u hu => ?_, hreport, fun a ha => ?_⟩
  · have hmirrored := mirrored_of_unit? hu
    have hdominates : ∀ e, Retreats u.graph.edges u.graph.entry e → u.graph.Dominates e.target e.source := by
      intro e he
      obtain ⟨made, w, heq, hcharted, -⟩ := exists_charted_of_unit? htree hu
      exact (heq ▸ hcharted.finish : u.graph.Charted w).dominates_of_retreats he
    exact ⟨hempty id u hu, fun e he => retreats_of_mem_walk hmirrored he, hdominates,
      fun _ hfinds => irreducibleBy_eq_nil hmirrored hfinds hdominates⟩
  · obtain ⟨o, -, ha⟩ := Option.bind_eq_some_iff.1 ha
    cases ha
    exact forall_mem_append.2 ⟨hreport, ProgramAnalysis.topic_ne_irreducible _ o⟩

open Build in
/-- A loop that is gone round again from inside a guarded block with a last part. -/
def guardedRound : RawNode :=
  module [whileLoop boolean [tryBlock [ifElse boolean [continueLoop] []] [] [] [assign (name "x") int]]]

/-- The last part, at block 7, leads back to the header of the loop, block 4. -/
theorem reducible_on_guardedRound : ∃ tree u, ofModule guardedRound = .ok tree ∧
      (ofProgram (Program.ofTree tree {})).unit? 0 = some u ∧
      (⟨7, 4, .loopBack⟩ : Edge) ∈ u.graph.walk.retreating ∧ u.graph.Dominates 4 7 ∧ u.graph.irreducible = [] ∧
      ∀ d ∈ (ofProgram (Program.ofTree tree {})).diagnostics, d.topic ≠ .irreducible := by
  have h : ((ofModule guardedRound).toOption.bind fun tree =>
      ((ofProgram (Program.ofTree tree {})).unit? 0).map fun u =>
        decide ((⟨7, 4, .loopBack⟩ : Edge) ∈ u.graph.walk.retreating)) = some true := by decide +kernel
  obtain ⟨tree, htree, h⟩ := exists_ok_of_bind h
  obtain ⟨u, hu, h⟩ := Option.map_eq_some_iff.1 h
  have hback := of_decide_eq_true h
  obtain ⟨hunits, hreport, -⟩ := reducible (.module _ htree) {}
  obtain ⟨hempty, hretreats, hdominates, -⟩ := hunits 0 u hu
  exact ⟨tree, u, htree, hu, hback, hdominates _ (hretreats _ hback), hempty, hreport⟩

end Preparation

/-! ## Assignments in loops -/

theorem Eval.assign_eq_writeSlot {f : Frame} {nested : Bool} {l : Location} (h : f.replaces nested l = false)
    (v : TypeSet) : Eval.assign f nested l v = Eval.writeSlot f l v := by
  unfold assign
  split
  next hl =>
    subst hl
    rfl
  next => simp [h]

/-- Such an update takes nothing away but that a variable is not bound. -/
theorem Eval.holds_writeSlot (f : Frame) (l : Location) (v : TypeSet) {m : Machine} {k : Location}
    {x : Option TypeTag} (hx : x ≠ some .unbound) (h : m.state.Holds k x) :
    ((Eval.writeSlot f l v).run m).2.state.Holds k x := by
  cases l with
  | universal => exact h
  | var scope name =>
    exact holds_weakUpdate.2 (.inl (holds_discardUnbound_of_ne h hx))
  | _ => exact holds_weakUpdate.2 (.inl h)

/-- A block on a cycle of the flow graph has a loop around it. No assignment replaces anything while it runs: each
one adds to what the variable holds and takes nothing away but that it is not bound. -/
theorem Preparation.no_replacement_on_cycle {tree : SyntaxTree} (htree : tree.FromRaw) {s : Settings} {id : UnitId}
    {u : PreparedUnit} (hu : (ofProgram (Program.ofTree tree s)).unit? id = some u) {b : BlockId}
    {path : List BlockId} (hcycle : (b :: path ++ [b]).IsChain fun x y => y ∈ u.graph.successors x) :
    1 ≤ (u.graph.block b).loopDepth ∧ ∀ f : Frame, f.block = u.graph.block b → ∀ nested l v,
      f.replaces nested l = false ∧ Eval.assign f nested l v = Eval.writeSlot f l v ∧
      ∀ m k x, x ≠ some .unbound → m.state.Holds k x → ((Eval.assign f nested l v).run m).2.state.Holds k x := by
  obtain ⟨made, w, heq, hcharted, -⟩ := exists_charted_of_unit? htree hu
  have hdepth : 1 ≤ (u.graph.block b).loopDepth :=
    (heq ▸ hcharted.finish : u.graph.Charted w).loopDepth_pos hcycle
  refine ⟨hdepth, fun f hf nested l v => ?_⟩
  have hweak : f.replaces nested l = false := by
    have hb : (f.block.loopDepth == 0) = false := by
      rw [hf]
      exact beq_false_of_ne (Nat.ne_of_gt hdepth)
    simp [Frame.replaces, hb]
  have hassign := Eval.assign_eq_writeSlot hweak v
  exact ⟨hweak, hassign, fun m k x hx hk => hassign ▸ Eval.holds_writeSlot f l v hx hk⟩

/-- The last part in the loop lies on a cycle, so that what it assigns does not replace what the name held. -/
theorem Preparation.no_replacement_on_guardedRound : ∃ tree u, ofModule guardedRound = .ok tree ∧
      (ofProgram (Program.ofTree tree {})).unit? 0 = some u ∧
      (7 :: [4, 5, 8] ++ [7]).IsChain (fun x y => y ∈ u.graph.successors x) ∧
      1 ≤ (u.graph.block 7).loopDepth ∧ ∀ f : Frame, f.block = u.graph.block 7 → ∀ m,
        m.state.Holds (.var 0 "x") (some .str) →
        ((Eval.assign f false (.var 0 "x") (.single .int)).run m).2.state.Holds (.var 0 "x") (some .str) := by
  have h : ((ofModule guardedRound).toOption.bind fun tree =>
      ((ofProgram (Program.ofTree tree {})).unit? 0).map fun u =>
        decide ((7 :: [4, 5, 8] ++ [7]).IsChain fun x y => y ∈ u.graph.successors x)) = some true := by decide +kernel
  obtain ⟨tree, htree, h⟩ := exists_ok_of_bind h
  obtain ⟨u, hu, h⟩ := Option.map_eq_some_iff.1 h
  have hcycle := of_decide_eq_true h
  obtain ⟨hdepth, hweak⟩ := no_replacement_on_cycle (.module _ htree) hu hcycle
  refine ⟨tree, u, htree, hu, hcycle, hdepth, fun f hf m hm => ?_⟩
  exact (hweak f hf false (.var 0 "x") (.single .int)).2.2 m _ _ nofun hm

end PointsTo
