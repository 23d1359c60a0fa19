import Mathlib.Data.List.Chain
import PointsTo.Proofs.Flow.Mirrored

/-! # Guards of blocks

A block is guarded by the last parts of the regions that it was made in. An edge respects them if it stays
under each one or enters it. In a confined graph every edge does, so that a path gets out from under a last
part only by passing through its entry. -/

namespace PointsTo
namespace FlowGraph

structure MadeUnder (g : FlowGraph) (b : BlockId) (guards : List BlockId) : Prop where
  lt_size : b < g.size
  guards_eq : (g.block b).guards = guards

/-- What stands under the given guards may lead to the block: each of them either guards the block too or is
entered there. -/
structure Admits (g : FlowGraph) (guards : List BlockId) (b : BlockId) : Prop where
  lt_size : b < g.size
  enters_or_stays : ∀ f ∈ guards, b = f ∨ f ∈ (g.block b).guards

/-- Every edge leads to a block that the guards of its source admit. -/
def Confined (g : FlowGraph) : Prop := ∀ b, ∀ e ∈ (g.block b).successors, g.Admits (g.block b).guards e.target

variable {g g' : FlowGraph} {b : BlockId} {guards : List BlockId}

theorem MadeUnder.mono (h : g.MadeUnder b guards) (hg : g.Extends g') : g'.MadeUnder b guards :=
  ⟨Nat.lt_of_lt_of_le h.lt_size hg.size_le, (hg.guards_eq h.lt_size).trans h.guards_eq⟩

theorem Admits.mono (h : g.Admits guards b) (hg : g.Extends g') : g'.Admits guards b :=
  ⟨Nat.lt_of_lt_of_le h.lt_size hg.size_le, hg.guards_eq h.lt_size ▸ h.enters_or_stays⟩

theorem MadeUnder.admits (h : g.MadeUnder b guards) : g.Admits guards b :=
  ⟨h.lt_size, fun _ hf => .inr (h.guards_eq ▸ hf)⟩

theorem MadeUnder.admits_cons (h : g.MadeUnder b guards) : g.Admits (b :: guards) b := by
  refine ⟨h.lt_size, fun f hf => ?_⟩
  rcases List.mem_cons.1 hf with rfl | hf
  · exact .inl rfl
  · exact h.admits.enters_or_stays f hf

/-- A path from a block to one that a guard of the first does not guard enters the last part of that guard. -/
theorem Confined.mem_path (hg : g.Confined) {f c : BlockId} {path : List BlockId}
    (hb : f ∈ (g.block b).guards) (hc : f ∉ (g.block c).guards)
    (hpath : (b :: path ++ [c]).IsChain fun x y => y ∈ g.successors x) : f ∈ path ++ [c] := by
  induction path generalizing b with
  | nil =>
    obtain ⟨hbc, -⟩ := List.isChain_cons_cons.1 hpath
    obtain ⟨e, he, rfl⟩ := List.mem_map.1 hbc
    have hf : e.target = f := ((hg b e he).enters_or_stays f hb).resolve_right hc
    simp [hf]
  | cons d path ih =>
    obtain ⟨hbd, hpath⟩ := List.isChain_cons_cons.1 hpath
    obtain ⟨e, he, rfl⟩ := List.mem_map.1 hbd
    rcases (hg b e he).enters_or_stays f hb with rfl | hd
    · exact List.mem_cons_self
    · exact List.mem_cons_of_mem _ (ih hd hpath)

/-! ## Changes to a graph -/

theorem Confined.extend (hg : g.Confined) (h : g.Extends g') (he : ∀ b, ∀ e ∈ (g'.block b).successors,
      e ∈ (g.block b).successors ∨ g'.Admits (g'.block b).guards e.target) : g'.Confined := by
  intro b e hmem
  rcases he b e hmem with hold | hnew
  · have hb : b < g.size := by
      by_contra hb
      simp [block_of_size_le (Nat.not_lt.1 hb)] at hold
    exact h.guards_eq hb ▸ (hg b e hold).mono h
  · exact hnew

structure Advances (g g' : FlowGraph) : Prop extends Grows g g', Widens g g' where
  confined : g'.Confined

theorem Advances.trans {g'' : FlowGraph} (h : Advances g g') (h' : Advances g' g'') : Advances g g'' :=
  ⟨h.toGrows.trans h'.toGrows, (h.toWidens.trans h'.toWidens).keeps, h'.confined⟩

theorem Grows.advances (h : g.Grows g') (hg : g.Confined)
    (hs : ∀ b, (g'.block b).successors = (g.block b).successors) : Advances g g' :=
  ⟨h, fun b => (hs b).symm ▸ List.Subset.refl _, hg.extend h.toExtends fun b _ he => .inl (hs b ▸ he)⟩

theorem successors_modifyBlock (g : FlowGraph) (id b : BlockId) {f : Block → Block}
    (hf : ∀ c, (f c).successors = c.successors) :
    ((g.modifyBlock id f).block b).successors = (g.block b).successors := by
  rw [block_modifyBlock]
  split
  · exact hf _
  · rfl

theorem Confined.setTerminator (hc : g.Confined) (hg : g.Mirrored) (id : BlockId) (t : Terminator) :
    Advances g (g.setTerminator id t) :=
  (hg.setTerminator id t).advances hc fun b => successors_modifyBlock g id b fun _ => rfl

theorem Confined.addStep (hc : g.Confined) (hg : g.Mirrored) (id : BlockId) (s : Step) :
    Advances g (g.addStep id s) :=
  (hg.addStep id s).advances hc fun b => successors_modifyBlock g id b fun _ => rfl

theorem Confined.addBlock (hc : g.Confined) (hg : g.Mirrored) (d : Nat) (guards : List BlockId) :
    Advances g (g.addBlock d guards).2 := by
  refine (hg.addBlock d guards).advances hc fun b => ?_
  rw [block_addBlock]
  split
  next h => rw [block_of_size_le (Nat.le_of_eq h.symm)]
  next => rfl

theorem madeUnder_addBlock (g : FlowGraph) (d : Nat) (guards : List BlockId) :
    (g.addBlock d guards).2.MadeUnder g.size guards := by
  refine ⟨by simp [size_addBlock], ?_⟩
  rw [block_addBlock, if_pos rfl]

theorem mem_successors_addEdge {source target : BlockId} {kind : EdgeKind} {e : Edge}
    (h : e ∈ ((g.addEdge source target kind).block b).successors) :
    e ∈ (g.block b).successors ∨ b = source ∧ e = ⟨source, target, kind⟩ := by
  unfold FlowGraph.addEdge at h
  extract_lets e' at h
  split at h
  · exact .inl h
  · rw [block_modifyBlock, block_modifyBlock] at h
    split at h <;> split at h
    all_goals grind

theorem successors_subset_addEdge (g : FlowGraph) (source target : BlockId) (kind : EdgeKind) (b : BlockId) :
    (g.block b).successors ⊆ ((g.addEdge source target kind).block b).successors := by
  unfold FlowGraph.addEdge
  extract_lets e
  split
  · exact .refl _
  · rw [block_modifyBlock, block_modifyBlock]
    split <;> split
    all_goals simp

theorem Confined.addEdge {source target : BlockId} (hc : g.Confined) (hg : g.Mirrored)
    (hs : g.MadeUnder source guards) (ht : g.Admits guards target) (kind : EdgeKind) :
    Advances g (g.addEdge source target kind) := by
  have hgrows := hg.addEdge hs.lt_size ht.lt_size kind
  refine ⟨hgrows, g.successors_subset_addEdge source target kind, hc.extend hgrows.toExtends fun b e he => ?_⟩
  rcases mem_successors_addEdge he with he | ⟨rfl, rfl⟩
  · exact .inl he
  · exact .inr ((hs.mono hgrows.toExtends).guards_eq ▸ ht.mono hgrows.toExtends)

theorem Confined.initial : FlowGraph.initial.Confined := by
  intro b e he
  match b with
  | 0 | 1 | 2 => cases he
  | b + 3 => cases he

theorem extends_finish (g : FlowGraph) : g.Extends g.finish := by
  have hsame : ∀ b, (g.finish.block b).guards = (g.block b).guards ∧ (g.finish.block b).id = (g.block b).id := by
    intro b
    obtain ⟨dead, hblock⟩ := g.block_finish b
    rw [hblock]
    exact ⟨rfl, rfl⟩
  exact ⟨by simp [finish, size], rfl, rfl, rfl, fun _ => (hsame _).1, fun b => (hsame b).2⟩

theorem Confined.finish (hc : g.Confined) : g.finish.Confined :=
  hc.extend g.extends_finish fun b _ he => .inl ((successors_finish g b).1 ▸ he)

end FlowGraph
end PointsTo
