import PointsTo.Proofs.Flow.Protection
import PointsTo.Proofs.Solver.ExceptionEdges

/-! # Last parts cannot be bypassed

Whatever stands inside a guarded block with a last part, its handlers and their dispatch included, leaves that
block only through the entry of the last part: by falling off its end, by a jump out of a loop or out of the
unit, or by an exception. -/

namespace PointsTo
namespace FlowGraph

/-- The entry of the last part of a guarded block guards every block with a step of the body, of the alternative or
of a handler, and the dispatch, which leads to the handlers. It guards no block with a step of the last part. -/
theorem exists_guard_of_last {policy : UnsupportedPolicy} {unit : UnitInfo} {g : FlowGraph}
    (h : ofUnit policy unit = .ok g) {stmts : List Node} (hstmts : stmts ∈ unit.body)
    (hdistinct : (Node.idsAll stmts).Nodup) {t body : Node} {rest : List Node} (ht : t.Inside stmts)
    (hkind : t.kind = .tryBlock) (hchildren : t.children = body :: rest)
    (hlast : rest.any (·.kind == .last) = true) : ∃ f,
      (∀ b, g.HoldsStepOf b (body.ids ++ (Node.idsAll (rest.filter (·.kind == .block)) ++
        Node.idsAll (rest.filter Builder.isHandler))) → f ∈ (g.block b).guards) ∧
      (∀ n ∈ rest.filter Builder.isHandler, ∃ dispatch b, g.StartsHandler dispatch b n.id ∧
        f ∈ (g.block dispatch).guards) ∧
      ∀ b, g.HoldsStepOf b (Node.idsAll (rest.filter (·.kind == .last))) → f ∉ (g.block b).guards := by
  obtain ⟨w, hnoted, -, hguards⟩ := exists_noted_of_ofUnit h fun body' hbody' =>
    Option.some.inj (hstmts.symm.trans hbody') ▸ hdistinct
  obtain ⟨f, hcloses⟩ := (hguards stmts hstmts t ht hkind body rest hchildren).2 hlast
  refine ⟨f, fun b ⟨s, hs, i, hi, howner⟩ => ?_, fun n hn => ?_, fun b ⟨s, hs, i, hi, howner⟩ hf => ?_⟩
  · obtain ⟨p, hp, hfits⟩ := hnoted.steps hs howner
    obtain ⟨q, hq, hvalid, hin⟩ := hcloses.inner i hi
    cases Option.some.inj (hp.symm.trans hq)
    obtain ⟨o, ho, hsub⟩ := hvalid.regions_subset hfits
    exact (hnoted.mem_guards_iff ho).2 ⟨[], hsub hin⟩
  · obtain ⟨c, dispatch, o, o', ho, hhandler, ho', hin⟩ := hcloses.dispatches n hn
    exact ⟨dispatch, c, hnoted.startsHandler ho hhandler, (hnoted.mem_guards_iff ho').2 ⟨[], hin⟩⟩
  · obtain ⟨p, hp, hfits⟩ := hnoted.steps hs howner
    obtain ⟨q, hq, havoids⟩ := hcloses.last i hi
    cases Option.some.inj (hp.symm.trans hq)
    obtain ⟨o, ho, hnot⟩ := (havoids.of_fits hfits).resolve_left nofun
    -- A last part that guards the block would be a target of its regions.
    obtain ⟨pending, hr⟩ := (hnoted.mem_guards_iff ho).1 hf
    exact hnot (List.mem_map_of_mem (f := Region.target) hr)

/-- Every edge out of a block that a last part guards leads to a block that it guards too, or to its entry. So
every path from there to a block that it does not guard passes through the entry; the two exits of the unit
are such blocks. -/
theorem ofUnit_leaves_through_last {policy : UnsupportedPolicy} {unit : UnitInfo} {g : FlowGraph}
    (h : ofUnit policy unit = .ok g) {f b : BlockId} (hb : f ∈ (g.block b).guards) :
    (∀ e ∈ (g.block b).successors, e.target = f ∨ f ∈ (g.block e.target).guards) ∧
    (∀ path c, (b :: path ++ [c]).IsChain (fun x y => y ∈ g.successors x) → f ∉ (g.block c).guards →
      f ∈ path ++ [c]) ∧
    f ∉ (g.block g.exit).guards ∧ f ∉ (g.block g.raiseExit).guards := by
  obtain ⟨l, hl, rfl⟩ := exists_sound_of_ofUnit h
  have hconfined := hl.confined.finish
  have hexit := (hl.exit.mono l.graph.extends_finish).guards_eq
  have hraise := (hl.raiseExit.mono l.graph.extends_finish).guards_eq
  refine ⟨fun e he => (hconfined b e he).enters_or_stays f hb, fun path c hpath hc => ?_, ?_, ?_⟩
  · exact hconfined.mem_path hb hc hpath
  · exact hexit ▸ List.not_mem_nil
  · exact hraise ▸ List.not_mem_nil

open Build in
/-- A loop that is left, or gone round again, from inside a guarded block with a last part. -/
def guardedLeave : RawNode :=
  module [whileLoop boolean [tryBlock [ifElse boolean [breakLoop] [continueLoop]] [] []
    [assign (name "x") int]]]

/-- The jump out of the loop, in block 10, gets to the exit of the unit through the last part, at block 7. -/
theorem ofUnit_leaves_through_last_on_guardedLeave :
    ∃ unit g, ofUnit .failUnit unit = .ok g ∧ 7 ∈ (g.block 10).guards ∧
      (10 :: [7, 3] ++ [g.exit]).IsChain (fun x y => y ∈ g.successors x) ∧ 7 ∈ [7, 3] ++ [g.exit] := by
  have h : ((Program.ofModule? guardedLeave {}).bind fun p => p.units[0]?.map fun unit =>
      match ofUnit .failUnit unit with
      | .ok g => decide (7 ∈ (g.block 10).guards ∧
          (10 :: [7, 3] ++ [g.exit]).IsChain fun x y => y ∈ g.successors x)
      | .error _ => false) = some true := by decide +kernel
  obtain ⟨p, -, h⟩ := Option.bind_eq_some_iff.1 h
  obtain ⟨unit, -, h⟩ := Option.map_eq_some_iff.1 h
  split at h
  next g hg =>
    obtain ⟨hguard, hpath⟩ := of_decide_eq_true h
    obtain ⟨-, hleave, hexit, -⟩ := ofUnit_leaves_through_last hg hguard
    exact ⟨unit, g, hg, hguard, hpath, hleave _ _ hpath hexit⟩
  next => cases h

end FlowGraph
end PointsTo
