import Mathlib.Algebra.Order.Group.Multiset
import PointsTo.Proofs.Flow.Settled

/-! # An inventory of the steps

What the steps of a graph take in, counted over all blocks. New blocks and edges leave it as it is, and a new step adds
what it takes in itself. -/

namespace PointsTo

open List

/-- The ways in which a step takes in a part of a statement. -/
inductive StepRole where
  | exec | test | iterate | handle | enter
deriving DecidableEq, Inhabited, Repr

namespace Step

/-- What a step takes in, and how. Steps that only move values between temporaries take in nothing. -/
def role? : Step → Option (StepRole × NodeId)
  | .exec n => some (.exec, n.id)
  | .test n => some (.test, n.id)
  | .iterate target _ => some (.iterate, target.id)
  | .handle n => some (.handle, n.id)
  | .enter n => some (.enter, n.id)
  | .parameters _ | .eval _ | .bind _ _ | .returnNone => none

end Step

namespace FlowGraph

def steps (g : FlowGraph) : List Step := g.blocks.toList.flatMap (·.steps)

def roles (g : FlowGraph) : List (StepRole × NodeId) := g.steps.filterMap Step.role?

variable {g g' : FlowGraph}

theorem steps_eq_range (g : FlowGraph) : g.steps = (List.range g.size).flatMap fun b => (g.block b).steps := by
  rw [steps, toList_blocks, flatMap_map]

theorem Quiet.steps (h : g.Quiet g') : g'.steps = g.steps := by
  obtain ⟨k, hk⟩ := Nat.exists_eq_add_of_le h.size_le
  rw [steps_eq_range, steps_eq_range, hk, range_add, flatMap_append]
  have hold : ((List.range g.size).flatMap fun b => (g'.block b).steps) =
      (List.range g.size).flatMap fun b => (g.block b).steps := by
    simp only [h.steps_eq]
  have hnew : (((List.range k).map (g.size + ·)).flatMap fun b => (g'.block b).steps) = [] := by
    refine flatMap_eq_nil_iff.2 fun b hb => ?_
    obtain ⟨i, -, rfl⟩ := List.mem_map.1 hb
    have hle : g.blocks.size ≤ g.size + i := Nat.le_add_right _ _
    rw [h.steps_eq, block, Array.getElem?_eq_none hle, Option.getD_none]
  rw [hold, hnew, append_nil]

theorem steps_addStep_perm {id : BlockId} (hid : id < g.size) (s : Step) :
    (g.addStep id s).steps.Perm (s :: g.steps) := by
  have hmodify : ∀ (blocks : List Block) (i : Nat), i < blocks.length →
      ((blocks.modify i fun b => { b with steps := b.steps ++ [s] }).flatMap (·.steps)).Perm
        (s :: blocks.flatMap (·.steps)) := by
    intro blocks
    induction blocks with
    | nil => exact fun i hi => absurd hi (Nat.not_lt_zero i)
    | cons b blocks ih =>
      intro i hi
      cases i with
      | zero =>
        simp only [modify_zero_cons, flatMap_cons]
        exact (perm_append_singleton s b.steps).append_right _
      | succ i =>
        simp only [modify_succ_cons, flatMap_cons]
        exact ((ih i (Nat.lt_of_succ_lt_succ hi)).append_left b.steps).trans perm_middle
  unfold steps addStep modifyBlock
  rw [Array.toList_modify]
  exact hmodify g.blocks.toList id (by simpa [size] using hid)

theorem roles_addStep {id : BlockId} (hid : id < g.size) (s : Step) :
    (↑(g.addStep id s).roles : Multiset (StepRole × NodeId)) = ↑g.roles + ↑s.role?.toList := by
  have hroles : (s :: g.steps).filterMap Step.role? = s.role?.toList ++ g.roles := by
    rw [roles]
    cases h : s.role? <;> simp [h]
  rw [Multiset.coe_add, Multiset.coe_eq_coe]
  exact (((steps_addStep_perm hid s).filterMap Step.role?).trans (.of_eq hroles)).trans perm_append_comm

theorem Quiet.roles (h : g.Quiet g') : g'.roles = g.roles := by
  rw [FlowGraph.roles, h.steps, FlowGraph.roles]

end FlowGraph
end PointsTo
