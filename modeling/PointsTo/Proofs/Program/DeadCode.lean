import PointsTo.Proofs.Flow.Traversal
import PointsTo.Proofs.Program.Loops
import PointsTo.Proofs.Search

/-! # Dead code

What cannot be reached falls into regions, and a region is reported by the first node of each block in it that no
other dead block with code leads to. Going backwards through dead code ends at such a head, or it goes round for
ever. A chart lets every edge lead on in the text but those that lead back to the header of a loop, so dead code that
no head leads to has been led into by a loop that goes round in dead code. Such a loop is entered through blocks
without code, and nothing in it is reported. -/

namespace PointsTo

open SyntaxTree

namespace FlowGraph

/-- A block that is marked as out of reach and holds a step with a syntax node. -/
structure Dead (g : FlowGraph) (b : BlockId) : Prop where
  unreachable : (g.block b).unreachable = true
  hasCode : (g.block b).hasCode = true

/-- One dead block with code is a predecessor of another. -/
structure Continues (g : FlowGraph) (b c : BlockId) : Prop where
  source : g.Dead b
  target : g.Dead c
  mem : b ∈ g.predecessors c

instance (g : FlowGraph) (b : BlockId) : Decidable (g.Dead b) :=
  decidable_of_iff ((g.block b).unreachable = true ∧ (g.block b).hasCode = true)
    ⟨fun h => ⟨h.1, h.2⟩, fun h => ⟨h.1, h.2⟩⟩

instance (g : FlowGraph) (b c : BlockId) : Decidable (g.Continues b c) :=
  decidable_of_iff (g.Dead b ∧ g.Dead c ∧ b ∈ g.predecessors c) ⟨fun h => ⟨h.1, h.2.1, h.2.2⟩, fun h => ⟨h.1, h.2, h.3⟩⟩

def firstNode? (g : FlowGraph) (b : BlockId) : Option Node := (g.block b).steps.findSome? Step.node?

/-- Going backwards from a block through dead code leads to one whose first node is reported. -/
def Traced (g : FlowGraph) (b : BlockId) : Prop :=
  ∃ head, Relation.ReflTransGen g.Continues head b ∧ ∃ n ∈ g.unreachableStatements, g.firstNode? head = some n

/-- An edge leads back between dead blocks with code, and its target leads to its source through such blocks. -/
structure DeadLoop (g : FlowGraph) (e : Edge) : Prop where
  mem : e ∈ g.edges e.source
  kind_eq : e.kind = .loopBack
  round : Relation.ReflTransGen g.Continues e.target e.source
  closes : g.Continues e.source e.target

variable {g : FlowGraph} {b : BlockId}

theorem Dead.lt_size (h : g.Dead b) : b < g.size := by
  by_contra hb
  have hcode := h.hasCode
  rw [block_of_size_le (Nat.not_lt.1 hb)] at hcode
  cases hcode

theorem Dead.firstNode?_isSome (h : g.Dead b) : (g.firstNode? b).isSome := by
  have hcode := h.hasCode
  rw [Block.hasCode, List.any_eq_true] at hcode
  obtain ⟨s, hs, hnode⟩ := hcode
  rw [firstNode?, List.findSome?_isSome_iff]
  exact ⟨s, hs, hnode⟩

theorem mem_unreachableStatements {n : Node} : n ∈ g.unreachableStatements ↔
      ∃ b, g.Dead b ∧ (∀ c ∈ g.predecessors b, ¬ g.Dead c) ∧ g.firstNode? b = some n := by
  simp only [unreachableStatements, toList_blocks, List.mem_filterMap, List.mem_filter, List.mem_map, List.mem_range,
    Bool.and_eq_true, Bool.not_eq_true', List.any_eq_false, firstNode?, predecessors]
  constructor
  · rintro ⟨_, ⟨⟨b, -, rfl⟩, hb, hpred⟩, hn⟩
    refine ⟨b, ⟨hb.1, hb.2⟩, ?_, hn⟩
    rintro _ ⟨e, he, rfl⟩ hc
    exact hpred e he ⟨hc.1, hc.2⟩
  · rintro ⟨b, hb, hpred, hn⟩
    refine ⟨_, ⟨⟨b, hb.lt_size, rfl⟩, ⟨hb.1, hb.2⟩, fun e he hc => ?_⟩, hn⟩
    exact hpred _ ⟨e, he, rfl⟩ ⟨hc.1, hc.2⟩

theorem Traced.of_continues {c : BlockId} (h : g.Traced b) (hc : Relation.ReflTransGen g.Continues b c) :
    g.Traced c := by
  obtain ⟨head, hhead, hn⟩ := h
  exact ⟨head, hhead.trans hc, hn⟩

/-- A dead block with code that leads to no head has a predecessor of its kind. -/
theorem Dead.exists_continues (h : g.Dead b) (hb : ¬ g.Traced b) : ∃ c, g.Continues c b := by
  by_contra hnone
  push Not at hnone
  obtain ⟨n, hn⟩ := Option.isSome_iff_exists.1 h.firstNode?_isSome
  refine hb ⟨b, .refl, n, mem_unreachableStatements.2 ⟨b, h, fun c hc hdead => ?_, hn⟩, hn⟩
  exact hnone c ⟨hdead, h, hc⟩

/-- A way through dead code leads on in the text, or takes an edge that leads back. -/
theorem Charted.rank_lt_or_back {w : Chart} (hg : g.Charted w) (hm : g.Mirrored) {c : BlockId}
    (h : Relation.TransGen g.Continues b c) :
    rank w b < rank w c ∨ ∃ e ∈ g.edges e.source, e.kind = .loopBack ∧ g.Continues e.source e.target ∧
      Relation.ReflTransGen g.Continues b e.source ∧ Relation.ReflTransGen g.Continues e.target c := by
  have hstep : ∀ {b c}, g.Continues b c →
      rank w b < rank w c ∨ ∃ e ∈ g.edges e.source, e.kind = .loopBack ∧ e.source = b ∧ e.target = c := by
    intro b c hbc
    obtain ⟨e, he, rfl⟩ := List.mem_map.1 hbc.mem
    cases hm.target_eq he
    have hmem := (hm.mem_iff e).2 he
    by_cases hk : e.kind = .loopBack
    · exact .inr ⟨e, hmem, hk, rfl, rfl⟩
    · obtain ⟨p, q, hp, hq, hleads⟩ := hg.edges hmem
      simpa [rank, hp, hq] using .inl (hleads.forward hk)
  induction h with
  | single hbc =>
    rcases hstep hbc with hlt | ⟨e, he, hk, rfl, rfl⟩
    · exact .inl hlt
    · exact .inr ⟨e, he, hk, hbc, .refl, .refl⟩
  | tail hbc hcd ih =>
    rcases ih with hlt | ⟨e, he, hk, hcont, hto, hfrom⟩
    · rcases hstep hcd with hlt' | ⟨e, he, hk, rfl, rfl⟩
      · exact .inl (hlt.trans hlt')
      · exact .inr ⟨e, he, hk, hcd, hbc.to_reflTransGen, .refl⟩
    · exact .inr ⟨e, he, hk, hcont, hto, hfrom.tail hcd⟩

/-- Dead code that no head leads to is led to by a dead loop that no head leads to. -/
theorem Charted.traced_or_deadLoop {w : Chart} (hg : g.Charted w) (hm : g.Mirrored) (hb : g.Dead b) :
    g.Traced b ∨ ∃ e, g.DeadLoop e ∧ Relation.ReflTransGen g.Continues e.target b ∧ ¬ g.Traced e.target := by
  by_contra hnone
  push Not at hnone
  obtain ⟨hb', hloops⟩ := hnone
  -- The dead code that leads to the block leads to no head either, so one can go on backwards from all of it.
  let S : Set BlockId := {c | g.Dead c ∧ Relation.ReflTransGen g.Continues c b}
  have hfinite : S.Finite := (Set.finite_lt_nat g.size).subset fun c hc => hc.1.lt_size
  have huntraced : ∀ c ∈ S, ¬ g.Traced c := fun c hc h => hb' (h.of_continues hc.2)
  obtain ⟨c, hc, hround⟩ := exists_transGen_self (r := g.Continues) hfinite ⟨b, hb, .refl⟩ fun c hc => by
    obtain ⟨d, hd⟩ := hc.1.exists_continues (huntraced c hc)
    exact ⟨d, ⟨hd.source, .head hd hc.2⟩, hd⟩
  obtain ⟨e, he, hk, hcont, hto, hfrom⟩ := (hg.rank_lt_or_back hm hround).resolve_left (lt_irrefl _)
  have hleads := hfrom.trans hc.2
  exact huntraced _ ⟨hcont.target, hleads⟩ (hloops e ⟨he, hk, hfrom.trans hto, hcont⟩ hleads)

end FlowGraph

namespace Preparation

/-- In every unit a reported node is the first one in a block that no path from the entry leads to. Going backwards
through dead code leads to a reported node, or else to a dead loop from which it does not. So all dead code of a unit
is traced exactly if all its dead loops are. -/
theorem traced_iff_deadLoops_traced {tree : SyntaxTree} (htree : tree.FromRaw) {s : Settings} {id : UnitId}
    {u : PreparedUnit} (hu : (ofProgram (Program.ofTree tree s)).unit? id = some u) :
    (∀ n ∈ u.graph.unreachableStatements,
      ∃ b, u.graph.Dead b ∧ ¬ u.graph.Reachable b ∧ u.graph.firstNode? b = some n) ∧
    (∀ b, u.graph.Dead b → u.graph.Traced b ∨ ∃ e, u.graph.DeadLoop e ∧
      Relation.ReflTransGen u.graph.Continues e.target b ∧ ¬ u.graph.Traced e.target) ∧
    ((∀ b, u.graph.Dead b → u.graph.Traced b) ↔ ∀ e, u.graph.DeadLoop e → u.graph.Traced e.target) := by
  obtain ⟨made, w, heq, hcharted, -⟩ := exists_charted_of_unit? htree hu
  have htraced : ∀ b, u.graph.Dead b → u.graph.Traced b ∨ ∃ e, u.graph.DeadLoop e ∧
      Relation.ReflTransGen u.graph.Continues e.target b ∧ ¬ u.graph.Traced e.target := fun b hb =>
    (heq ▸ hcharted.finish : u.graph.Charted w).traced_or_deadLoop (mirrored_of_unit? hu) hb
  refine ⟨fun n hn => ?_, htraced, fun h e he => h _ he.closes.target, fun h b hb => ?_⟩
  · obtain ⟨b, hb, -, hfirst⟩ := FlowGraph.mem_unreachableStatements.1 hn
    obtain ⟨grown, hgrown, hfinish⟩ := FlowGraph.exists_grows_of_ofUnit (prepared_of_unit? hu).2.1
    refine ⟨b, hb, ?_, hfirst⟩
    rw [hfinish] at hb ⊢
    have hlt : b < grown.size := by simpa [FlowGraph.finish, FlowGraph.size] using hb.lt_size
    exact (FlowGraph.unreachable_finish hgrown hlt).1 hb.unreachable
  · refine (htraced b hb).resolve_right ?_
    rintro ⟨e, he, -, huntraced⟩
    exact huntraced (h e he)

open Build in
/-- A loop that cannot be reached, behind an assignment that cannot be reached either. -/
def deadAssign : RawNode := module [raise .none, assign (name "x") int, whileLoop boolean [pass]]

/-- The assignment, in block 3, is reported, and it leads to the loop, from block 5 to block 6 and back. -/
theorem traced_on_deadAssign : ∃ tree u, ofModule deadAssign = .ok tree ∧
      (ofProgram (Program.ofTree tree {})).unit? 0 = some u ∧
      u.graph.unreachableStatements.map (·.id) = [2] ∧ u.graph.DeadLoop ⟨6, 5, .loopBack⟩ ∧
      ∀ b, u.graph.Dead b → u.graph.Traced b := by
  have h : ((ofModule deadAssign).toOption.bind fun tree => ((ofProgram (Program.ofTree tree {})).unit? 0).map fun u =>
        decide (u.graph.unreachableStatements.map (·.id) = [2] ∧ u.graph.predecessors 3 = [] ∧
          u.graph.Continues 3 5 ∧ u.graph.Continues 5 6 ∧ u.graph.Continues 6 5 ∧
          (⟨6, 5, .loopBack⟩ : Edge) ∈ u.graph.edges 6 ∧
          ∀ b < u.graph.size, ∀ e ∈ u.graph.edges b, e.kind = .loopBack → e.target = 5)) = some true := by
    decide +kernel
  obtain ⟨tree, htree, h⟩ := exists_ok_of_bind h
  obtain ⟨u, hu, h⟩ := Option.map_eq_some_iff.1 h
  obtain ⟨hids, hfirst, henter, hbody, hback, hedge, honly⟩ := of_decide_eq_true h
  obtain ⟨n, hn⟩ := Option.isSome_iff_exists.1 henter.source.firstNode?_isSome
  have htraced : u.graph.Traced 5 := by
    refine ⟨3, .single henter, n, FlowGraph.mem_unreachableStatements.2 ⟨3, henter.source, ?_, hn⟩, hn⟩
    simp [hfirst]
  obtain ⟨-, -, hiff⟩ := traced_iff_deadLoops_traced (.module _ htree) hu
  refine ⟨tree, u, htree, hu, hids, ⟨hedge, rfl, .single hbody, hback⟩, hiff.2 fun e he => ?_⟩
  rwa [honly _ he.closes.source.lt_size e he.mem he.kind_eq]

open Build in
/-- A loop that cannot be reached and is gone round again. -/
def deadRound : RawNode := module [raise .none, whileLoop boolean [pass]]

/-- The test of the loop, in block 5, cannot be reached. Nothing is reported: the block before it holds no code, and
the body, in block 6, leads back to the test. -/
theorem untraced_on_deadRound : ∃ tree u, ofModule deadRound = .ok tree ∧
      (ofProgram (Program.ofTree tree {})).unit? 0 = some u ∧
      u.graph.Dead 5 ∧ u.graph.unreachableStatements.isEmpty ∧ ¬ u.graph.Traced 5 := by
  have h : ((ofModule deadRound).toOption.bind fun tree => ((ofProgram (Program.ofTree tree {})).unit? 0).map fun u =>
        (u.graph.block 5).unreachable && (u.graph.block 5).hasCode && u.graph.unreachableStatements.isEmpty) =
      some true := by
    decide +kernel
  obtain ⟨tree, htree, h⟩ := exists_ok_of_bind h
  obtain ⟨u, hu, h⟩ := Option.map_eq_some_iff.1 h
  simp only [Bool.and_eq_true] at h
  obtain ⟨⟨hmark, hcode⟩, hempty⟩ := h
  refine ⟨tree, u, htree, hu, ⟨hmark, hcode⟩, hempty, ?_⟩
  rintro ⟨head, -, n, hn, -⟩
  rw [List.isEmpty_iff.1 hempty] at hn
  cases hn

end Preparation
end PointsTo
