import PointsTo.Flow.Graph
import Mathlib.Logic.Relation
import Mathlib.Tactic.Set

/-! # Mirrored edge lists

A block lists the edges into it and the edges out of it. In a mirrored graph the two kinds of list tell
the same story, so that what a block sends out is what its successors take in. The graph without edges is
mirrored, and every way to change a graph keeps it so, as long as an edge joins two blocks that exist. -/

namespace PointsTo
namespace FlowGraph

/-- Every edge stands both in the list of its source and in the list of its target. -/
structure Mirrored (g : FlowGraph) : Prop where
  source_eq : ∀ {b e}, e ∈ (g.block b).successors → e.source = b
  target_eq : ∀ {b e}, e ∈ (g.block b).predecessors → e.target = b
  mem_iff : ∀ e : Edge, e ∈ (g.block e.source).successors ↔ e ∈ (g.block e.target).predecessors

/-- A path leads from the entry to the block. -/
def Reachable (g : FlowGraph) (b : BlockId) : Prop :=
  Relation.ReflTransGen (fun b c => c ∈ g.successors b) g.entry b

variable {g : FlowGraph}

namespace Mirrored

theorem mem_successors (hg : g.Mirrored) {b : BlockId} {e : Edge}
    (he : e ∈ (g.block b).predecessors) : b ∈ g.successors e.source := by
  have ht := hg.target_eq he
  have hs : e ∈ (g.block e.source).successors := (hg.mem_iff e).2 (by rwa [ht])
  exact List.mem_map.2 ⟨e, hs, ht⟩

theorem exists_predecessor (hg : g.Mirrored) {b c : BlockId} (hc : c ∈ g.successors b) :
    ∃ e ∈ (g.block c).predecessors, e.source = b := by
  obtain ⟨e, he, rfl⟩ := List.mem_map.1 hc
  have hs := hg.source_eq he
  refine ⟨e, (hg.mem_iff e).1 ?_, hs⟩
  rwa [hs]

end Mirrored

theorem toList_blocks (g : FlowGraph) : g.blocks.toList = (List.range g.size).map g.block := by
  refine List.ext_getElem (by simp [size]) fun b hb _ => ?_
  have hb : b < g.blocks.size := hb
  simp [block, hb]

/-! ## Changes to a graph -/

theorem block_modifyBlock (g : FlowGraph) (id b : BlockId) (f : Block → Block) :
    (g.modifyBlock id f).block b = if id = b ∧ b < g.size then f (g.block b) else g.block b := by
  unfold modifyBlock block size
  rw [Array.getElem?_modify]
  by_cases h : id = b
  · by_cases hb : b < g.blocks.size
    · simp [h, hb]
    · simp [h, hb]
  · simp [h]

@[simp] theorem size_modifyBlock (g : FlowGraph) (id : BlockId) (f : Block → Block) :
    (g.modifyBlock id f).size = g.size := by
  simp [modifyBlock, size]

/-- Another graph has all the blocks of this one, with the numbers and guards they were made with. -/
structure Extends (g g' : FlowGraph) : Prop where
  size_le : g.size ≤ g'.size
  entry_eq : g'.entry = g.entry
  exit_eq : g'.exit = g.exit
  raiseExit_eq : g'.raiseExit = g.raiseExit
  guards_eq : ∀ {b}, b < g.size → (g'.block b).guards = (g.block b).guards
  id_eq : ∀ b, (g'.block b).id = (g.block b).id

theorem Extends.refl (g : FlowGraph) : Extends g g :=
  ⟨Nat.le_refl _, rfl, rfl, rfl, fun _ => rfl, fun _ => rfl⟩

theorem Extends.trans {g g' g'' : FlowGraph} (h : Extends g g') (h' : Extends g' g'') : Extends g g'' where
  size_le := Nat.le_trans h.size_le h'.size_le
  entry_eq := h'.entry_eq.trans h.entry_eq
  exit_eq := h'.exit_eq.trans h.exit_eq
  raiseExit_eq := h'.raiseExit_eq.trans h.raiseExit_eq
  guards_eq hb := (h'.guards_eq (Nat.lt_of_lt_of_le hb h.size_le)).trans (h.guards_eq hb)
  id_eq b := (h'.id_eq b).trans (h.id_eq b)

structure Widens (g g' : FlowGraph) : Prop extends Extends g g' where
  keeps : ∀ b, (g.block b).successors ⊆ (g'.block b).successors

theorem Widens.refl (g : FlowGraph) : Widens g g := ⟨.refl g, fun _ => List.Subset.refl _⟩

theorem Widens.trans {g g' g'' : FlowGraph} (h : Widens g g') (h' : Widens g' g'') : Widens g g'' :=
  ⟨h.toExtends.trans h'.toExtends, fun b => List.Subset.trans (h.keeps b) (h'.keeps b)⟩

theorem Extends.entry_lt (h : initial.Extends g) : g.entry < g.size := by
  rw [h.entry_eq]
  exact Nat.lt_of_lt_of_le (by decide) h.size_le

theorem Extends.id_block (h : initial.Extends g) (b : BlockId) : (g.block b).id = b := by
  rw [h.id_eq]
  match b with
  | 0 | 1 | 2 => rfl
  | b + 3 => rfl

structure Grows (g g' : FlowGraph) : Prop extends Extends g g' where
  mirrored : g'.Mirrored

theorem Grows.trans {g g' g'' : FlowGraph} (h : Grows g g') (h' : Grows g' g'') : Grows g g'' :=
  ⟨h.toExtends.trans h'.toExtends, h'.mirrored⟩

theorem Mirrored.congr {g' : FlowGraph} (hg : g.Mirrored)
    (hs : ∀ b, (g'.block b).successors = (g.block b).successors)
    (hp : ∀ b, (g'.block b).predecessors = (g.block b).predecessors) : g'.Mirrored where
  source_eq he := hg.source_eq (hs _ ▸ he)
  target_eq he := hg.target_eq (hp _ ▸ he)
  mem_iff e := by rw [hs, hp, hg.mem_iff]

theorem Mirrored.modifyBlock {id : BlockId} {f : Block → Block} (hg : g.Mirrored)
    (hs : ∀ b, (f b).successors = b.successors) (hp : ∀ b, (f b).predecessors = b.predecessors)
    (hk : ∀ b, (f b).guards = b.guards) (hi : ∀ b, (f b).id = b.id) : Grows g (g.modifyBlock id f) where
  mirrored := by
    refine hg.congr (fun b => ?_) fun b => ?_
    all_goals
      rw [block_modifyBlock]
      split
    · exact hs _
    · rfl
    · exact hp _
    · rfl
  size_le := by simp
  entry_eq := rfl
  exit_eq := rfl
  raiseExit_eq := rfl
  guards_eq _ := by
    rw [block_modifyBlock]
    split
    · exact hk _
    · rfl
  id_eq _ := by
    rw [block_modifyBlock]
    split
    · exact hi _
    · rfl

theorem Mirrored.setTerminator (hg : g.Mirrored) (id : BlockId) (t : Terminator) :
    Grows g (g.setTerminator id t) := hg.modifyBlock (fun _ => rfl) (fun _ => rfl) (fun _ => rfl) fun _ => rfl

theorem Mirrored.addStep (hg : g.Mirrored) (id : BlockId) (s : Step) : Grows g (g.addStep id s) :=
  hg.modifyBlock (fun _ => rfl) (fun _ => rfl) (fun _ => rfl) fun _ => rfl

theorem block_addBlock (g : FlowGraph) (d : Nat) (gs : List BlockId) (b : BlockId) : (g.addBlock d gs).2.block b =
      if b = g.size then { id := b, loopDepth := d, guards := gs } else g.block b := by
  unfold addBlock block size
  simp only [Array.getElem?_push]
  split
  next h => simp [h]
  next => rfl

theorem block_of_size_le {b : BlockId} (h : g.size ≤ b) : g.block b = { id := b, loopDepth := 0 } := by
  unfold size at h
  simp [block, h]

theorem Mirrored.addBlock (hg : g.Mirrored) (d : Nat) (gs : List BlockId := []) : Grows g (g.addBlock d gs).2 where
  mirrored := by
    refine hg.congr (fun b => ?_) fun b => ?_
    all_goals
      rw [block_addBlock]
      split
      next h => rw [block_of_size_le (Nat.le_of_eq h.symm)]
      next => rfl
  size_le := by simp [FlowGraph.addBlock, size]
  entry_eq := rfl
  exit_eq := rfl
  raiseExit_eq := rfl
  guards_eq hb := by rw [block_addBlock, if_neg (Nat.ne_of_lt hb)]
  id_eq b := by
    rw [block_addBlock]
    split
    next h => rw [block_of_size_le (Nat.le_of_eq h.symm)]
    next => rfl

theorem size_addBlock (g : FlowGraph) (d : Nat) (gs : List BlockId) : (g.addBlock d gs).2.size = g.size + 1 := by
  simp [addBlock, size]

theorem Mirrored.addEdge {source target : BlockId} (hg : g.Mirrored) (hs : source < g.size)
    (ht : target < g.size) (kind : EdgeKind) : Grows g (g.addEdge source target kind) := by
  unfold FlowGraph.addEdge
  extract_lets e
  split
  · exact ⟨.refl g, hg⟩
  · set g' := g.modifyBlock source fun b => { b with successors := b.successors ++ [e] }
    set g'' := g'.modifyBlock target fun b => { b with predecessors := b.predecessors ++ [e] }
    have hsize : g'.size = g.size := size_modifyBlock ..
    have hsucc : ∀ b, (g''.block b).successors =
        (g.block b).successors ++ if source = b then [e] else [] := by
      intro b
      rw [block_modifyBlock, block_modifyBlock]
      split <;> split <;> grind
    have hpred : ∀ b, (g''.block b).predecessors =
        (g.block b).predecessors ++ if target = b then [e] else [] := by
      intro b
      rw [block_modifyBlock, block_modifyBlock]
      split <;> split <;> grind
    have hkept : ∀ b, (g''.block b).guards = (g.block b).guards ∧ (g''.block b).id = (g.block b).id := by
      intro b
      rw [block_modifyBlock, block_modifyBlock]
      split <;> split <;> exact ⟨rfl, rfl⟩
    refine ⟨⟨by simp [g'', g'], rfl, rfl, rfl, fun _ => (hkept _).1, fun _ => (hkept _).2⟩, ?_, ?_, ?_⟩
    · intro b d hd
      rw [hsucc] at hd
      rcases List.mem_append.1 hd with hd | hd
      · exact hg.source_eq hd
      · grind
    · intro b d hd
      rw [hpred] at hd
      rcases List.mem_append.1 hd with hd | hd
      · exact hg.target_eq hd
      · grind
    · intro d
      rw [hsucc, hpred, List.mem_append, List.mem_append, hg.mem_iff]
      grind

theorem Mirrored.initial : FlowGraph.initial.Mirrored := by
  have hblock : ∀ b, (FlowGraph.initial.block b).successors = [] ∧
      (FlowGraph.initial.block b).predecessors = [] := by
    intro b
    match b with
    | 0 | 1 | 2 => exact ⟨rfl, rfl⟩
    | b + 3 => exact ⟨rfl, rfl⟩
  constructor
  · intro b e he
    simp [hblock] at he
  · intro b e he
    simp [hblock] at he
  · intro e
    simp [hblock]

theorem block_finish (g : FlowGraph) (b : BlockId) :
    ∃ dead, g.finish.block b = { g.block b with unreachable := dead } := by
  have hblock : g.finish.blocks[b]? =
      g.blocks[b]?.map fun c : Block => { c with unreachable := !g.walk.seen.contains c.id } := Array.getElem?_map
  rw [block, hblock, block]
  cases g.blocks[b]? <;> exact ⟨_, rfl⟩

theorem successors_finish (g : FlowGraph) (b : BlockId) : (g.finish.block b).successors = (g.block b).successors ∧
      (g.finish.block b).predecessors = (g.block b).predecessors := by
  obtain ⟨dead, hblock⟩ := g.block_finish b
  rw [hblock]
  exact ⟨rfl, rfl⟩

theorem Mirrored.finish (hg : g.Mirrored) : g.finish.Mirrored :=
  hg.congr (fun b => (successors_finish g b).1) fun b => (successors_finish g b).2

theorem Mirrored.of_finish (hg : g.finish.Mirrored) : g.Mirrored :=
  hg.congr (fun b => (successors_finish g b).1.symm) fun b => (successors_finish g b).2.symm

end FlowGraph
end PointsTo
