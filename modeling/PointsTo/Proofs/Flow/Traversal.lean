import PointsTo.Proofs.Flow.Construction
import PointsTo.Proofs.Flow.Postorder
import PointsTo.Proofs.Solver.Least

/-! # Three ways to reach a block

A depth-first walk ends the visit of a block once everything that its edges lead to has been seen. What is seen by
then is done already, or is still under visit and leads back to the block. So in the order in which visits end, read
backwards, an edge leads on unless its target leads back to its source, and the start comes first.

The walk, the marks of a finished graph and the solver agree on what can be reached: the walk lists exactly the
blocks that a path from the entry leads to, the others are the ones that are marked, and a converged solve has facts
for exactly the blocks that are not. -/

namespace PointsTo

open List

namespace FlowGraph

def Leads (edges : BlockId → List Edge) : BlockId → BlockId → Prop :=
  Relation.ReflTransGen fun b c => ∃ e ∈ edges b, e.target = c

variable {edges : BlockId → List Edge} {root : BlockId}
variable {b : BlockId}

theorem Path.leads {path : List BlockId} (h : Path edges root (b :: path)) : ∀ x ∈ b :: path, Leads edges x b := by
  generalize hall : b :: path = all at h
  induction h generalizing b path with
  | start =>
    obtain ⟨rfl, rfl⟩ := List.cons.inj hall
    exact forall_mem_singleton.2 .refl
  | follow h he ih =>
    obtain ⟨rfl, rfl⟩ := List.cons.inj hall
    exact forall_mem_cons.2 ⟨.refl, fun x hx => (ih rfl x hx).tail ⟨_, he, rfl⟩⟩

theorem Path.root_mem {path : List BlockId} (h : Path edges root path) : root ∈ path := by
  induction h with
  | start => exact mem_singleton_self root
  | follow _ _ ih => exact mem_cons_of_mem _ ih

namespace Walk

variable {w : Walk}

/-- An edge leads from a block to one further on in the list, unless its target leads back to the block. -/
def Sorted (edges : BlockId → List Edge) : List BlockId → Prop
  | [] => True
  | b :: rest => (∀ e ∈ edges b, e.target ∈ rest ∨ Leads edges e.target b) ∧ Sorted edges rest

theorem Sorted.sublist {order : List BlockId} (h : Sorted edges order) {b : BlockId} (hb : b ∈ order) {e : Edge}
    (he : e ∈ edges b) (hback : ¬ Leads edges e.target b) : [b, e.target].Sublist order := by
  induction order with
  | nil => cases hb
  | cons c order ih =>
    obtain ⟨hc, h⟩ := h
    rcases mem_cons.1 hb with rfl | hb
    · exact (singleton_sublist.2 ((hc e he).resolve_right hback)).cons_cons b
    · exact (ih h hb).cons c

/-- What is done is sorted, and the start of a walk is done last. -/
structure Ordered (edges : BlockId → List Edge) (root : BlockId) (w : Walk) : Prop where
  sorted : Sorted edges w.order
  last : w.stack = [] → w.order.head? = some root

theorem Ordered.start (edges : BlockId → List Edge) (b : BlockId) : Ordered edges b (.start edges b) :=
  ⟨trivial, nofun⟩

theorem Ordered.step (hsound : Sound edges root w) (hcover : Covering edges root w) (h : Ordered edges root w) :
    Ordered edges root (w.step edges) := by
  obtain ⟨stack, seen, order, retreating⟩ := w
  unfold Walk.step
  match stack with
  | [] => exact h
  | (b, []) :: rest =>
    have hpath : Path edges root (b :: rest.map (·.1)) := hsound.path.resolve_left nofun
    refine ⟨⟨fun e he => ?_, h.sorted⟩, ?_⟩
    · -- What the edge leads to is seen, so it is done or lies on the path to the block.
      have hseen : e.target ∈ seen := (hcover.pending _ mem_cons_self e he).resolve_left nofun
      rcases mem_append.1 (hcover.known _ hseen) with hstack | hdone
      · exact .inr (hpath.leads _ hstack)
      · exact .inl hdone
    · rintro rfl
      cases hpath
      rfl
  | (b, e :: es) :: rest =>
    dsimp only
    split
    · split <;> exact ⟨h.sorted, nofun⟩
    · exact ⟨h.sorted, nofun⟩

theorem Ordered.run (hsource : ∀ {b e}, e ∈ edges b → e.source = b) (hsound : Sound edges root w)
    (hcover : Covering edges root w) (h : Ordered edges root w) (fuel : Nat) :
    Ordered edges root (w.run edges fuel) := by
  induction fuel generalizing w with
  | zero => exact h
  | succ fuel ih => exact ih (hsound.step hsource) hcover.step (h.step hsound hcover)

end Walk

/-! ## Graphs -/

variable {g : FlowGraph}

theorem exists_grows_of_ofUnit {policy : UnsupportedPolicy} {unit : UnitInfo} (h : ofUnit policy unit = .ok g) :
    ∃ made, initial.Grows made ∧ g = made.finish := by
  obtain ⟨b, hb, hext, rfl⟩ := exists_extends_of_ofUnit h
  exact ⟨b.graph, ⟨hext, hb.mirrored⟩, rfl⟩

theorem leads_iff {c : BlockId} :
    Leads g.edges b c ↔ Relation.ReflTransGen (fun b c => c ∈ g.successors b) b c := by
  simp only [Leads, edges, successors, List.mem_map]

theorem mem_seen_walk (hg : initial.Grows g) (b : BlockId) : b ∈ g.walk.seen ↔ g.Reachable b := by
  have honce : g.walk.Once := (Walk.Once.start _ _).run _
  have hsound : Walk.Sound g.edges g.entry g.walk := (Walk.Sound.start _ _).run hg.mirrored.source_eq _
  constructor
  · intro hb
    obtain ⟨path, hpath⟩ := hsound.reached b hb
    exact leads_iff.1 (hpath.leads _ hpath.root_mem)
  · intro hb
    exact honce.visited b (mem_append_right _ (mem_reversePostorder hg.mirrored hg.entry_lt hb))

theorem mem_reversePostorder_iff (hg : initial.Grows g) (b : BlockId) : b ∈ g.reversePostorder ↔ g.Reachable b := by
  have honce : g.walk.Once := (Walk.Once.start _ _).run _
  refine ⟨fun hb => ?_, mem_reversePostorder hg.mirrored hg.entry_lt⟩
  exact (mem_seen_walk hg b).1 (honce.visited b (mem_append_right _ hb))

theorem ordered_walk (hg : g.Mirrored) : Walk.Ordered g.edges g.entry g.walk :=
  (Walk.Ordered.start _ _).run hg.source_eq (Walk.Sound.start _ _) (Walk.Covering.start _ _) _

theorem reachable_finish : g.finish.Reachable b ↔ g.Reachable b := by
  have hsucc : ∀ b, g.finish.successors b = g.successors b := fun b => by
    rw [successors, (successors_finish g b).1, successors]
  simp only [Reachable, hsucc]
  rfl

theorem unreachable_finish (hg : initial.Grows g) (hb : b < g.size) :
    (g.finish.block b).unreachable = true ↔ ¬ g.finish.Reachable b := by
  have hblock : (g.finish.block b).unreachable = !g.walk.seen.contains (g.block b).id := by
    have hb : b < g.blocks.size := hb
    simp [block, finish, hb]
  rw [hblock, hg.id_block, reachable_finish, ← mem_seen_walk hg, ← Std.ExtTreeSet.contains_iff_mem,
    Bool.not_eq_true', Bool.not_eq_true]

theorem Grows.lt_size_of_reachable (hg : initial.Grows g) (hb : g.Reachable b) : b < g.size := by
  cases hb with
  | refl => exact hg.entry_lt
  | tail _ hb =>
    obtain ⟨e, he, rfl⟩ := List.mem_map.1 hb
    exact hg.mirrored.target_lt he

end FlowGraph

/-! ## Solves -/

namespace Solver

variable {F : Type} [DecidableEq F] {a : Analysis F} {g : FlowGraph}

/-- What a solve returns, be it from scratch or from what a solve has returned before. -/
inductive Solved (a : Analysis F) (g : FlowGraph) : Solution F → Prop
  | solve {r : Solution F} (s : Solver) (h : s.solve a g = some r) : Solved a g r
  | resume {seed r : Solution F} (s : Solver) (hseed : Solved a g seed) (h : s.resume a g seed = some r) :
      Solved a g r

theorem Solved.exists_regular (hg : g.Mirrored) {r : Solution F} (h : Solved a g r) :
    ∃ vs q, Regular a g vs q ∧ r.inFacts = q.inFacts ∧ r.outFacts = q.outFacts ∧
      (r.status = .converged → q.worklist.waiting = []) := by
  have hstep : ∀ vs p b rest q, p.worklist.waiting = b :: rest → Solver.visit a g p b rest = some q →
      Regular a g vs p → Regular a g (vs ++ [⟨b, p⟩]) q := fun _ _ _ _ _ hw hv hp => hp.visit hg hw hv
  induction h with
  | solve s h =>
    obtain ⟨q, hq⟩ := solve_induction Regular.start hstep h
    exact ⟨_, q, hq⟩
  | @resume seed r s hseed h ih =>
    obtain ⟨vs, p, hp, hin, hout, -⟩ := ih
    have hstart : Regular a g [] (s.startFrom g seed.inFacts seed.outFacts (seeds g seed.outFacts)) := by
      rw [hin, hout]
      exact hp.resume hg
    obtain ⟨q, hq⟩ := run_induction hstep h hstart
    exact ⟨_, q, hq⟩

theorem Solved.mem_facts (hg : g.Mirrored) {r : Solution F} (h : Solved a g r) (hc : r.status = .converged)
    (b : BlockId) : (b ∈ r.inFacts ↔ g.Reachable b) ∧ (b ∈ r.outFacts ↔ g.Reachable b) := by
  obtain ⟨vs, q, hq, hin, hout, hdone⟩ := h.exists_regular hg
  rw [hin, hout]
  exact ⟨hq.mem_inFacts (hdone hc) b, hq.spread.mem_outFacts (hdone hc) b⟩

end Solver

/-! ## Agreement -/

namespace FlowGraph

/-- In every graph the walk lists each block in reach once and no other one. Read backwards it starts with the entry,
and an edge between blocks in reach leads on in it unless its target leads back to its source. The finished graph
marks the blocks that no path from the entry leads to, and a converged solve of any analysis has facts for exactly
those that are not marked. -/
theorem traversals_agree {g : FlowGraph} (hg : initial.Grows g) :
    g.postorder.Nodup ∧ (∀ b, b ∈ g.postorder ↔ g.Reachable b) ∧ g.reversePostorder.head? = some g.entry ∧
    (∀ b c, g.Reachable b → c ∈ g.successors b →
      [b, c].Sublist g.reversePostorder ∨ Relation.ReflTransGen (fun x y => y ∈ g.successors x) c b) ∧
    (∀ b < g.size, (g.finish.block b).unreachable = true ↔ ¬ g.finish.Reachable b) ∧
    ∀ {F : Type} [DecidableEq F] (a : Analysis F) (r : Solution F), Solver.Solved a g.finish r →
      r.status = .converged → ∀ b,
        (b ∈ r.inFacts ↔ b < g.size ∧ (g.finish.block b).unreachable = false) ∧
        (b ∈ r.outFacts ↔ b < g.size ∧ (g.finish.block b).unreachable = false) := by
  have hordered := ordered_walk hg.mirrored
  have hmarked : ∀ b, b < g.size ∧ (g.finish.block b).unreachable = false ↔ g.finish.Reachable b := by
    intro b
    constructor
    · rintro ⟨hb, hmark⟩
      simpa [hmark] using unreachable_finish hg hb
    · intro hreach
      have hb := hg.lt_size_of_reachable (reachable_finish.1 hreach)
      exact ⟨hb, by simpa [hreach] using unreachable_finish hg hb⟩
  refine ⟨(reverse_perm _).nodup_iff.2 (nodup_reversePostorder g), fun b => ?_,
    hordered.last (stack_walk hg.mirrored hg.entry_lt), fun b c hb hc => ?_, fun b hb => unreachable_finish hg hb,
    fun a r hr hc b => ?_⟩
  · rw [postorder, mem_reverse, mem_reversePostorder_iff hg]
  · obtain ⟨e, he, rfl⟩ := List.mem_map.1 hc
    rw [← leads_iff, or_iff_not_imp_right]
    exact hordered.sorted.sublist ((mem_reversePostorder_iff hg b).2 hb) he
  · rw [hmarked]
    exact hr.mem_facts hg.mirrored.finish hc b

theorem Grows.twoLoops : initial.Grows twoLoops where
  size_le := by decide
  entry_eq := rfl
  exit_eq := rfl
  raiseExit_eq := rfl
  guards_eq {b} hb := by
    match b with
    | 0 | 1 | 2 => rfl
  id_eq b := by
    match b with
    | 0 | 1 | 2 | 3 | 4 | 5 => rfl
    | b + 6 => rfl
  mirrored := .twoLoops

/-- Of two loops, the inner one, from block 5 back to block 4, comes after the header of the outer one, and block 4
comes before block 5. Nothing leads to block 2, where exceptions would go that nobody handles, so it has no facts. -/
theorem traversals_agree_on_twoLoops :
    twoLoops.Reachable 5 ∧ [4, 5].Sublist twoLoops.reversePostorder ∧ 5 ∈ twoLoops.postorder ∧
    ∃ r, ({ order := .lifo, maxIterations := 100 } : Solver).solve (.counter 3) twoLoops.finish = some r ∧
      r.status = .converged ∧
      (twoLoops.finish.block 2).unreachable = true ∧ 2 ∉ r.inFacts ∧ 5 ∈ r.outFacts := by
  obtain ⟨-, hmem, -, -, -, hfacts⟩ := traversals_agree Grows.twoLoops
  have horder : twoLoops.reversePostorder = [0, 3, 1, 4, 5] := by decide +kernel
  have h5 : 5 ∈ twoLoops.postorder := by simp [postorder, horder]
  have hr : (({ order := .lifo, maxIterations := 100 } : Solver).solve (.counter 3) twoLoops.finish).map (·.status) =
      some .converged := by decide +kernel
  obtain ⟨r, hr, hc⟩ := Option.map_eq_some_iff.1 hr
  have hmark : (twoLoops.finish.block 2).unreachable = true := by decide +kernel
  have hclear : (twoLoops.finish.block 5).unreachable = false := by decide +kernel
  have hsolved := hfacts (.counter 3) r (.solve _ hr) hc
  refine ⟨(hmem 5).1 h5, by rw [horder]; decide, h5, r, hr, hc, hmark, ?_, ?_⟩
  · rw [(hsolved 2).1]
    simp [hmark]
  · exact (hsolved 5).2.2 ⟨by decide, hclear⟩

end FlowGraph
end PointsTo
