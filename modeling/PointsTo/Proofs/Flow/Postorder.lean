import Mathlib.Algebra.GroupWithZero.Nat
import Mathlib.Data.List.Flatten
import Mathlib.Data.List.Perm.Subperm
import PointsTo.Proofs.Flow.DepthFirst

/-! # Blocks in reverse postorder

The walk from the entry of a graph is given one step for each block and one for each edge, and that is
enough: it ends with nothing under visit. What it has seen by then is closed under edges, so every block that
can be reached has its place in reverse postorder. -/

namespace PointsTo
namespace FlowGraph

open List

namespace Walk

variable {edges : BlockId → List Edge} {root : BlockId} {w : Walk}

/-! ## What is seen -/

/-- What is seen is under visit or done, and an edge out of it leads to what is seen, unless a visit has
yet to follow it. -/
structure Covering (edges : BlockId → List Edge) (root : BlockId) (w : Walk) : Prop where
  root : root ∈ w.seen
  known : ∀ b ∈ w.seen, b ∈ w.stack.map (·.1) ++ w.order
  pending : ∀ v ∈ w.stack, ∀ e ∈ edges v.1, e ∈ v.2 ∨ e.target ∈ w.seen
  finished : ∀ b ∈ w.order, ∀ e ∈ edges b, e.target ∈ w.seen

theorem Covering.start (edges : BlockId → List Edge) (b : BlockId) : Covering edges b (.start edges b) where
  root := Std.ExtTreeSet.mem_ofList.2 (by simp)
  known c hc := by
    obtain rfl : b = c := by simpa [Walk.start, Std.ExtTreeSet.mem_ofList] using hc
    simp [Walk.start]
  pending v hv e he := by
    cases mem_singleton.1 hv
    exact .inl he
  finished := nofun

theorem Covering.step (h : Covering edges root w) : Covering edges root (w.step edges) := by
  obtain ⟨stack, seen, order, retreating⟩ := w
  obtain ⟨hroot, hknown, hpending, hfinished⟩ := h
  unfold Walk.step
  match stack with
  | [] => exact ⟨hroot, hknown, hpending, hfinished⟩
  | (b, []) :: rest =>
    refine ⟨hroot, fun c hc => ?_, fun v hv => hpending v (.tail _ hv),
      forall_mem_cons.2 ⟨fun e he => ?_, hfinished⟩⟩
    · exact perm_middle.mem_iff.2 (hknown c hc)
    · exact (hpending (b, []) mem_cons_self e he).resolve_left nofun
  | (b, e :: es) :: rest =>
    have hrest : ∀ v ∈ rest, ∀ e ∈ edges v.1, e ∈ v.2 ∨ e.target ∈ seen := fun v hv => hpending v (.tail _ hv)
    have hedges : ∀ e' ∈ edges b, e' = e ∨ e' ∈ es ∨ e'.target ∈ seen := fun e' he' =>
      or_assoc.1 ((hpending (b, e :: es) mem_cons_self e' he').imp_left mem_cons.1)
    dsimp only
    split
    -- The edge leads to what is seen already, so following it adds nothing.
    next hseen =>
      have hseen : e.target ∈ seen := Std.ExtTreeSet.contains_iff_mem.1 hseen
      have hpending' : ∀ v ∈ (b, es) :: rest, ∀ e ∈ edges v.1, e ∈ v.2 ∨ e.target ∈ seen := by
        refine forall_mem_cons.2 ⟨fun e' he' => ?_, hrest⟩
        rcases hedges e' he' with rfl | he'
        · exact .inr hseen
        · exact he'
      split <;> exact ⟨hroot, hknown, hpending', hfinished⟩
    -- The edge leads to a new block, all of whose edges wait.
    · have hmore : ∀ c ∈ seen, c ∈ seen.insert e.target := fun c hc => Std.ExtTreeSet.mem_insert.2 (.inr hc)
      refine ⟨hmore _ hroot, fun c hc => ?_, forall_mem_cons.2 ⟨fun e' he' => .inl he', ?_⟩,
        fun c hc e' he' => hmore _ (hfinished c hc e' he')⟩
      · rcases Std.ExtTreeSet.mem_insert.1 hc with hc | hc
        · cases Nat.compare_eq_eq.1 hc
          exact mem_cons_self
        · exact .tail _ (hknown c hc)
      · refine forall_mem_cons.2 ⟨fun e' he' => ?_, fun v hv e' he' => (hrest v hv e' he').imp_right (hmore _)⟩
        rcases hedges e' he' with rfl | he' | he'
        · exact .inr Std.ExtTreeSet.mem_insert_self
        · exact .inl he'
        · exact .inr (hmore _ he')

theorem Covering.run (h : Covering edges root w) (fuel : Nat) : Covering edges root (w.run edges fuel) := by
  induction fuel generalizing w with
  | zero => exact h
  | succ fuel ih => exact ih h.step

/-! ## How long a walk takes -/

def outdegree (edges : BlockId → List Edge) (bs : List BlockId) : Nat := (bs.flatMap edges).length

/-- A walk that is still under way has taken one step for each block that is done and one for each edge that
it has followed. -/
def Spent (edges : BlockId → List Edge) (n : Nat) (w : Walk) : Prop :=
  w.stack = [] ∨ n + (w.stack.map (·.2.length)).sum =
    w.order.length + outdegree edges (w.stack.map (·.1) ++ w.order)

theorem Spent.start (edges : BlockId → List Edge) (b : BlockId) : Spent edges 0 (.start edges b) :=
  .inr (by simp [Walk.start, outdegree])

theorem Spent.step {n : Nat} (h : Spent edges n w) : Spent edges (n + 1) (w.step edges) := by
  obtain ⟨stack, seen, order, retreating⟩ := w
  unfold Walk.step
  match stack with
  | [] => exact .inl rfl
  | (b, []) :: rest =>
    have h := h.resolve_left nofun
    simp [outdegree] at h
    refine .inr ?_
    simp [outdegree]
    omega
  | (b, e :: es) :: rest =>
    have h := h.resolve_left nofun
    simp [outdegree] at h
    dsimp only
    split
    · split <;> refine .inr ?_ <;> simp [outdegree] <;> omega
    · refine .inr ?_
      simp [outdegree]
      omega

theorem Spent.run {n : Nat} (h : Spent edges n w) (fuel : Nat) : Spent edges (n + fuel) (w.run edges fuel) := by
  induction fuel generalizing w n with
  | zero => exact h
  | succ fuel ih =>
    rw [Nat.add_succ, ← Nat.succ_add]
    exact ih h.step

end Walk

/-! ## Graphs -/

variable {g : FlowGraph}

theorem Mirrored.target_lt (hg : g.Mirrored) {b : BlockId} {e : Edge} (he : e ∈ g.edges b) : e.target < g.size := by
  have hs : e ∈ (g.block e.source).successors := by rwa [hg.source_eq he]
  by_contra hlt
  have ht := (hg.mem_iff e).1 hs
  rw [block_of_size_le (Nat.not_lt.1 hlt)] at ht
  cases ht

theorem outdegree_le {bs : List BlockId} (hnodup : bs.Nodup) (hbs : ∀ b ∈ bs, b < g.size) :
    bs.length ≤ g.size ∧ Walk.outdegree g.edges bs ≤ g.edgeCount := by
  have hsubperm : bs.Subperm (List.range g.size) := hnodup.subperm fun b hb => mem_range.2 (hbs b hb)
  have hcount : g.edgeCount = ((List.range g.size).flatMap g.edges).length := by
    rw [edgeCount, toList_blocks, flatMap_map]
    rfl
  constructor
  · simpa using hsubperm.length_le
  · obtain ⟨bs', hperm, hsub⟩ := hsubperm
    rw [hcount, Walk.outdegree, ← (hperm.flatMap fun _ _ => List.Perm.refl _).length_eq]
    exact (hsub.flatMap _).length_le

theorem stack_walk (hg : g.Mirrored) (hentry : g.entry < g.size) : g.walk.stack = [] := by
  have honce : g.walk.Once := (Walk.Once.start _ _).run _
  have hsound : Walk.Sound g.edges g.entry g.walk := (Walk.Sound.start _ _).run hg.source_eq _
  have hspent : Walk.Spent g.edges (0 + g.walkFuel) g.walk := (Walk.Spent.start _ _).run _
  have hlt : ∀ b ∈ g.walk.stack.map (·.1) ++ g.walk.order, b < g.size := by
    intro b hb
    obtain ⟨path, hpath⟩ := hsound.reached b (honce.visited b hb)
    cases hpath with
    | start => exact hentry
    | follow _ he => exact hg.target_lt he
  obtain ⟨hblocks, hedges⟩ := outdegree_le honce.nodup hlt
  by_contra hstack
  -- A block under visit is one that is not done, so there is a step left.
  have hpos : 0 < g.walk.stack.length := length_pos_of_ne_nil hstack
  have hsteps := hspent.resolve_left hstack
  simp only [length_append, length_map, walkFuel] at hblocks hsteps
  omega

theorem mem_reversePostorder (hg : g.Mirrored) (hentry : g.entry < g.size) {b : BlockId} (hb : g.Reachable b) :
    b ∈ g.reversePostorder := by
  have hcover : Walk.Covering g.edges g.entry g.walk := (Walk.Covering.start _ _).run _
  have hdone : ∀ c ∈ g.walk.seen, c ∈ g.walk.order := by
    intro c hc
    simpa [stack_walk hg hentry] using hcover.known c hc
  refine hdone b ?_
  induction hb with
  | refl => exact hcover.root
  | tail _ hc ih =>
    obtain ⟨e, he, rfl⟩ := List.mem_map.1 hc
    exact hcover.finished _ (hdone _ ih) e he

end FlowGraph
end PointsTo
