import PointsTo.ProgramAnalysis
import PointsTo.Proofs.Flow.Protection
import PointsTo.Tree.Build

/-! # What handlers get

The handlers of a guarded block share a dispatch. It gets the exceptions of the body, and none of those of the
handlers and of the last part. The alternative, which runs when the body has ended well, is meant to be out of its
reach too. But its first statement may go on in the block in which the body has ended, and all that is in that
block raises to the dispatch. No other block does that has a step of the alternative. -/

namespace PointsTo

open Option Node Builder SyntaxTree

namespace FlowGraph

variable {g : FlowGraph} {w : Register} {b dispatch seam : BlockId} {body orElse others : List NodeId}
  {handlers : List Node}

theorem Noted.raises_of_body (hg : g.Noted w) (h : w.Protects body orElse others handlers dispatch seam)
    (hb : g.HoldsStepOf b body) : g.RaisesTo b dispatch := by
  obtain ⟨s, hs, i, hi, howner⟩ := hb
  obtain ⟨p, hp, hfits⟩ := hg.steps hs howner
  obtain ⟨regions, hputs⟩ := h.puts_body
  cases some.inj (hp.symm.trans (hputs i hi))
  obtain ⟨o, ho, hregions⟩ := hfits.resolve_right nofun
  exact hg.raises ho (by rw [Origin.targets, hregions]; rfl)

theorem Noted.mem_of_raises (hg : g.Noted w) (hne : dispatch ≠ g.raiseExit) {except : Option BlockId}
    (havoids : ∀ i ∈ others, ∃ q, w.places i = some q ∧ w.Avoids dispatch except q) (hb : g.HoldsStepOf b others)
    (hraises : g.RaisesTo b dispatch) : b ∈ except := by
  obtain ⟨s, hs, i, hi, howner⟩ := hb
  obtain ⟨p, hp, hfits⟩ := hg.steps hs howner
  obtain ⟨q, hq, hq'⟩ := havoids i hi
  cases some.inj (hp.symm.trans hq)
  refine (hq'.of_fits hfits).elim id fun ⟨o, ho, hnot⟩ => ?_
  exact ((hg.targets ho hraises).elim hnot hne).elim

end FlowGraph

namespace Preparation

/-- The dispatch of the handlers of a guarded block gets what its body raises, guarded blocks in it apart. It gets
nothing that its handlers and its last part raise. Of the blocks with a step of the alternative exactly one raises
to it if it is among them: the seam, in which the body has ended. -/
theorem handlers_protect {tree : SyntaxTree} (htree : tree.FromRaw) {s : Settings} {id : UnitId} {u : PreparedUnit}
    (hu : (ofProgram (Program.ofTree tree s)).unit? id = some u) {stmts : List Node} (hstmts : stmts ∈ u.info.body)
    {t body : Node} {rest : List Node} (ht : t.Inside stmts) (hkind : t.kind = .tryBlock)
    (hchildren : t.children = body :: rest) (hany : rest.any isHandler = true) : ∃ dispatch seam,
      (∀ h ∈ rest.filter isHandler, ∃ b, u.graph.StartsHandler dispatch b h.id) ∧
      (∀ b, u.graph.HoldsStepOf b (unguardedAll body.children) → u.graph.RaisesTo b dispatch) ∧
      (∀ b, u.graph.HoldsStepOf b (idsAll (rest.filter isHandler)) ∨
        u.graph.HoldsStepOf b (idsAll (rest.filter (·.kind == .last))) → ¬u.graph.RaisesTo b dispatch) ∧
      u.graph.RaisesTo seam dispatch ∧
      ∀ b, u.graph.HoldsStepOf b (idsAll (rest.filter (·.kind == .block))) →
        (u.graph.RaisesTo b dispatch ↔ b = seam) := by
  obtain ⟨hinfo, hgraph, -⟩ := prepared_of_unit? hu
  obtain ⟨w, hnoted, hexit, hguards⟩ :=
    FlowGraph.exists_noted_of_ofUnit hgraph (Program.bodiesDistinct_ofTree htree s id u.info hinfo)
  obtain ⟨dispatch, seam, h⟩ := (hguards stmts hstmts t ht hkind body rest hchildren).1 hany
  have hne : dispatch ≠ u.graph.raiseExit := hexit ▸ h.ne_raiseExit
  obtain ⟨o, ho, hhead⟩ := h.ends
  have hends := hnoted.raises ho hhead
  obtain ⟨hhandlers, hlast⟩ := List.forall_mem_append.1 h.avoids_others
  refine ⟨dispatch, seam, fun n hn => ?_, fun _ => hnoted.raises_of_body h, fun b hb hraises => ?_, hends,
    fun b hb => ⟨fun hraises => ?_, fun heq => heq ▸ hends⟩⟩
  · obtain ⟨c, o, ho, hhandler⟩ := h.starts n hn
    exact ⟨c, hnoted.startsHandler ho hhandler⟩
  · rcases hb with hb | hb
    · cases hnoted.mem_of_raises hne hhandlers hb hraises
    · cases hnoted.mem_of_raises hne hlast hb hraises
  · exact (some.inj (hnoted.mem_of_raises hne h.avoids_orElse hb hraises)).symm

/-- The guarded block that a module begins with, its first child and its other ones, if the module can be prepared. -/
def firstGuarded? (raw : RawNode) : Option (PreparedUnit × Node × List Node) :=
  match ofModule raw with
  | .error _ => none
  | .ok tree => ((ofProgram (Program.ofTree tree {})).unit? 0).bind fun u => (u.info.body.bind List.head?).bind fun t =>
    match t.kind, t.children with
    | .tryBlock, body :: rest => some (u, body, rest)
    | _, _ => none

theorem exists_of_firstGuarded? {raw : RawNode} {u : PreparedUnit} {body : Node} {rest : List Node}
    (h : firstGuarded? raw = some (u, body, rest)) : ∃ tree stmts, ∃ t : Node, ofModule raw = .ok tree ∧
      (ofProgram (Program.ofTree tree {})).unit? 0 = some u ∧ stmts ∈ u.info.body ∧ t.Inside stmts ∧
      t.kind = .tryBlock ∧ t.children = body :: rest := by
  unfold firstGuarded? at h
  split at h
  next => cases h
  next tree htree =>
    obtain ⟨u', hu, h⟩ := bind_eq_some_iff.1 h
    obtain ⟨t, hfirst, h⟩ := bind_eq_some_iff.1 h
    obtain ⟨stmts, hstmts, hhead⟩ := bind_eq_some_iff.1 hfirst
    split at h
    next hkind hchildren =>
      cases h
      exact ⟨tree, stmts, t, htree, hu, hstmts, .here (List.mem_of_head? hhead), hkind, hchildren⟩
    next => cases h

open Build in
/-- A guarded block with all its parts, whose body ends in an empty block. -/
def guardedChoice : RawNode :=
  module [tryBlock [assign (name "x") int, ifElse boolean [assign (name "y") int] []] [handler .none .none [pass]]
    [assign (name "z") int, assign (name "w") int] [assign (name "v") int]]

/-- Block 9 is in the body, block 14 in the handler and block 4 in the last part. The alternative begins in block 11
and goes on in block 12. -/
theorem handlers_protect_on_guardedChoice :
    ∃ tree u stmts, ∃ t body : Node, ∃ rest, ofModule guardedChoice = .ok tree ∧
      (ofProgram (Program.ofTree tree {})).unit? 0 = some u ∧ stmts ∈ u.info.body ∧ t.Inside stmts ∧
      t.kind = .tryBlock ∧ t.children = body :: rest ∧ rest.any isHandler = true ∧
      u.graph.HoldsStepOf 9 (unguardedAll body.children) ∧ u.graph.RaisesTo 9 5 ∧
      (∀ h ∈ rest.filter isHandler, ∃ b, u.graph.StartsHandler 5 b h.id) ∧
      u.graph.HoldsStepOf 14 (idsAll (rest.filter isHandler)) ∧ ¬u.graph.RaisesTo 14 5 ∧
      u.graph.HoldsStepOf 4 (idsAll (rest.filter (·.kind == .last))) ∧ ¬u.graph.RaisesTo 4 5 ∧
      u.graph.RaisesTo 11 5 ∧
      ∀ b, u.graph.HoldsStepOf b (idsAll (rest.filter (·.kind == .block))) → (u.graph.RaisesTo b 5 ↔ b = 11) := by
  have h : (firstGuarded? guardedChoice).map (fun (u, body, rest) => decide (rest.any isHandler = true ∧
      u.graph.HoldsStepOf 9 (unguardedAll body.children) ∧
      (∀ e ∈ (u.graph.block 9).successors, e.kind = .exception → e.target = 5) ∧
      u.graph.HoldsStepOf 14 (idsAll (rest.filter isHandler)) ∧
      u.graph.HoldsStepOf 4 (idsAll (rest.filter (·.kind == .last))) ∧
      u.graph.HoldsStepOf 11 (idsAll (rest.filter (·.kind == .block))) ∧ u.graph.RaisesTo 11 5)) = some true := by
    decide +kernel
  obtain ⟨⟨u, body, rest⟩, hfirst, h⟩ := map_eq_some_iff.1 h
  obtain ⟨hany, h9, honly, h14, h4, h11, hraises⟩ := of_decide_eq_true h
  obtain ⟨tree, stmts, t, htree, hu, hstmts, ht, hkind, hchildren⟩ := exists_of_firstGuarded? hfirst
  obtain ⟨dispatch, seam, hstarts, hbody, hothers, -, helse⟩ :=
    handlers_protect (.module _ htree) hu hstmts ht hkind hchildren hany
  obtain ⟨e, he, hexception, htarget⟩ := hbody 9 h9
  obtain rfl : 5 = dispatch := (honly e he hexception).symm.trans htarget
  obtain rfl : 11 = seam := (helse 11 h11).1 hraises
  exact ⟨tree, u, stmts, t, body, rest, htree, hu, hstmts, ht, hkind, hchildren, hany, h9, hbody 9 h9, hstarts,
    h14, hothers 14 (.inl h14), h4, hothers 4 (.inr h4), hraises, helse⟩

open Build in
/-- A guarded block with an alternative, both of one assignment. -/
def guardedPair : RawNode :=
  module [tryBlock [assign (name "x") int] [handler .none .none [pass]] [assign (name "y") int] []]

/-- The alternative is run in block 6, behind the body, and what it raises goes to block 4, the dispatch. -/
theorem alternative_raises_on_guardedPair :
    ∃ tree u stmts, ∃ t body : Node, ∃ rest, ofModule guardedPair = .ok tree ∧
      (ofProgram (Program.ofTree tree {})).unit? 0 = some u ∧ stmts ∈ u.info.body ∧ t.Inside stmts ∧
      t.kind = .tryBlock ∧ t.children = body :: rest ∧
      (∃ h ∈ rest, isHandler h = true ∧ u.graph.StartsHandler 4 7 h.id) ∧
      u.graph.HoldsStepOf 6 (idsAll (rest.filter (·.kind == .block))) ∧ u.graph.RaisesTo 6 4 := by
  have h : (firstGuarded? guardedPair).map (fun (u, _, rest) => decide (
      (∃ h ∈ rest, isHandler h = true ∧ u.graph.StartsHandler 4 7 h.id) ∧
      u.graph.HoldsStepOf 6 (idsAll (rest.filter (·.kind == .block))) ∧ u.graph.RaisesTo 6 4)) = some true := by
    decide +kernel
  obtain ⟨⟨u, body, rest⟩, hfirst, h⟩ := map_eq_some_iff.1 h
  obtain ⟨tree, stmts, t, htree, hu, hstmts, ht, hkind, hchildren⟩ := exists_of_firstGuarded? hfirst
  exact ⟨tree, u, stmts, t, body, rest, htree, hu, hstmts, ht, hkind, hchildren, of_decide_eq_true h⟩

end Preparation
end PointsTo
