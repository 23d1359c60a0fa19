import Mathlib.Order.Defs.PartialOrder
import PointsTo.Proofs.Flow.FirstBranch
import PointsTo.Proofs.Flow.Guards

/-! # Following a lowering

A statement about lowering often speaks of more than the builder: of something laid down for each block that has
been made, and of where lowering stands, such as the nodes that are still to come. The first is a world that only
ever grows, so that what is known of it stays known; the second is a stage, which changes with every action. Given
what ties the two to the builder, the rules here take an action apart along its binds. -/

namespace PointsTo

namespace FlowGraph

/-- Another graph has the same blocks with the same steps. All edges that it has in addition satisfy a
condition. -/
structure Joins (g g' : FlowGraph) (p : BlockId → Edge → Prop) : Prop extends Quiet g g' where
  size_eq : g'.size = g.size
  entry_eq : g'.entry = g.entry
  exit_eq : g'.exit = g.exit
  raiseExit_eq : g'.raiseExit = g.raiseExit
  depth_eq : ∀ b, (g'.block b).loopDepth = (g.block b).loopDepth
  guards_eq : ∀ b, (g'.block b).guards = (g.block b).guards
  keeps : ∀ {b e}, e ∈ (g.block b).successors → e ∈ (g'.block b).successors
  edges : ∀ {b e}, e ∈ (g'.block b).successors → e ∈ (g.block b).successors ∨ p b e

namespace Joins

variable {g g' g'' : FlowGraph} {p : BlockId → Edge → Prop}

theorem trans (h : g.Joins g' p) (h' : g'.Joins g'' p) : g.Joins g'' p where
  toQuiet := h.toQuiet.trans h'.toQuiet
  size_eq := h'.size_eq.trans h.size_eq
  entry_eq := h'.entry_eq.trans h.entry_eq
  exit_eq := h'.exit_eq.trans h.exit_eq
  raiseExit_eq := h'.raiseExit_eq.trans h.raiseExit_eq
  depth_eq b := (h'.depth_eq b).trans (h.depth_eq b)
  guards_eq b := (h'.guards_eq b).trans (h.guards_eq b)
  keeps he := h'.keeps (h.keeps he)
  edges he := (h'.edges he).elim h.edges .inr

variable (g : FlowGraph)

theorem refl (p : BlockId → Edge → Prop) : g.Joins g p :=
  ⟨.refl g, rfl, rfl, rfl, rfl, fun _ => rfl, fun _ => rfl, id, .inl⟩

theorem modifyBlock {id : BlockId} {f : Block → Block} (hs : ∀ b, (f b).steps = b.steps)
    (hd : ∀ b, (f b).loopDepth = b.loopDepth) (hg : ∀ b, (f b).guards = b.guards)
    (hk : ∀ b, b.successors ⊆ (f b).successors)
    (he : ∀ b, ∀ e ∈ (f b).successors, e ∈ b.successors ∨ p id e) : g.Joins (g.modifyBlock id f) p where
  toQuiet := .modifyBlock g id hs
  size_eq := size_modifyBlock ..
  entry_eq := rfl
  exit_eq := rfl
  raiseExit_eq := rfl
  depth_eq b := by
    rw [block_modifyBlock]
    split
    · exact hd _
    · rfl
  guards_eq b := by
    rw [block_modifyBlock]
    split
    · exact hg _
    · rfl
  keeps h := by
    rw [block_modifyBlock]
    split
    · exact hk _ h
    · exact h
  edges {b e} h := by
    rw [block_modifyBlock] at h
    split at h
    next hb =>
      obtain ⟨rfl, -⟩ := hb
      exact he _ e h
    next => exact .inl h

theorem setTerminator (id : BlockId) (t : Terminator) (p : BlockId → Edge → Prop) :
    g.Joins (g.setTerminator id t) p :=
  modifyBlock g (fun _ => rfl) (fun _ => rfl) (fun _ => rfl) (fun _ => .refl _) fun _ _ => .inl

theorem addEdge {source target : BlockId} {kind : EdgeKind}
    (h : p source ⟨source, target, kind⟩) : g.Joins (g.addEdge source target kind) p := by
  unfold FlowGraph.addEdge
  extract_lets new
  split
  · exact refl g p
  · set g' := g.modifyBlock source fun b => { b with successors := b.successors ++ [new] }
    have hsource : g.Joins g' p := by
      refine modifyBlock g (fun _ => rfl) (fun _ => rfl) (fun _ => rfl) (fun _ => List.subset_append_left _ _)
        fun b e he => ?_
      rcases List.mem_append.1 he with he | he
      · exact .inl he
      · exact .inr (List.mem_singleton.1 he ▸ h)
    exact hsource.trans (modifyBlock g' (fun _ => rfl) (fun _ => rfl) (fun _ => rfl) (fun _ => .refl _) fun _ _ => .inl)

theorem finish (p : BlockId → Edge → Prop) : g.Joins g.finish p where
  toQuiet := .finish g
  size_eq := by simp [FlowGraph.finish, size]
  entry_eq := rfl
  exit_eq := rfl
  raiseExit_eq := rfl
  depth_eq b := by
    obtain ⟨dead, hblock⟩ := g.block_finish b
    rw [hblock]
  guards_eq b := by
    obtain ⟨dead, hblock⟩ := g.block_finish b
    rw [hblock]
  keeps he := (successors_finish g _).1 ▸ he
  edges he := .inl ((successors_finish g _).1 ▸ he)

end Joins

end FlowGraph

namespace Builder

variable {Γ σ α β : Type} [Preorder Γ]

/-- Started at a stage, in a world that has grown from a known one, an action ends at another stage in a world
that has grown further, and its result fits both. -/
def Carries (holds : σ → Γ → Builder → Prop) (w : Γ) (s : σ) (act : Build α) (result : α → Γ → σ → Prop) : Prop :=
  ∀ w₁ b x b', w ≤ w₁ → holds s w₁ b → act.run b = .ok (x, b') →
    ∃ w₂ s', w₁ ≤ w₂ ∧ holds s' w₂ b' ∧ result x w₂ s'

namespace Carries

variable {holds : σ → Γ → Builder → Prop} {w w' : Γ} {s : σ} {act : Build α} {next : α → Build β}
  {mid mid' : α → Γ → σ → Prop} {result : β → Γ → σ → Prop}

theorem weaken (h : Carries holds w s act mid) (hw : w ≤ w') : Carries holds w' s act mid :=
  fun w₁ b x b' hw₁ hb hrun => h w₁ b x b' (hw.trans hw₁) hb hrun

theorem imp (h : Carries holds w s act mid) (hm : ∀ x w' s', w ≤ w' → mid x w' s' → mid' x w' s') :
    Carries holds w s act mid' := by
  intro w₁ b x b' hw hb hrun
  obtain ⟨w₂, s', hw₂, hb', hx⟩ := h w₁ b x b' hw hb hrun
  exact ⟨w₂, s', hw₂, hb', hm x w₂ s' (hw.trans hw₂) hx⟩

theorem pure {x : α} (h : ∀ w', w ≤ w' → mid x w' s) : Carries holds w s (pure x) mid := by
  intro w₁ b y b' hw hb hrun
  cases hrun
  exact ⟨w₁, s, le_rfl, hb, h w₁ hw⟩

theorem bind (h : Carries holds w s act mid)
    (h' : ∀ x w' s', w ≤ w' → mid x w' s' → Carries holds w' s' (next x) result) :
    Carries holds w s (act >>= next) result := by
  intro w₁ b y b'' hw hb hrun
  obtain ⟨x, b', hact, hnext⟩ := run_bind_eq_ok hrun
  obtain ⟨w₂, s', hw₂, hb', hx⟩ := h w₁ b x b' hw hb hact
  obtain ⟨w₃, s'', hw₃, hb'', hy⟩ := h' x w₂ s' (hw.trans hw₂) hx w₂ b' y b'' le_rfl hb' hnext
  exact ⟨w₃, s'', hw₂.trans hw₃, hb'', hy⟩

theorem andThen {act : Build Unit} {next : Unit → Build β} {s₁ : σ}
    (h : Carries holds w s act fun _ _ s' => s' = s₁) (h' : Carries holds w s₁ (next ()) result) :
    Carries holds w s (act >>= next) result := by
  refine h.bind fun _ w' s' hw hs => ?_
  subst hs
  exact h'.weaken hw

theorem giving {s₁ : σ} {fits : α → Γ → Prop} (h : Carries holds w s act fun x w' s' => s' = s₁ ∧ fits x w')
    (h' : ∀ x w', w ≤ w' → fits x w' → Carries holds w' s₁ (next x) result) :
    Carries holds w s (act >>= next) result := by
  refine h.bind fun x w' s' hw hx => ?_
  obtain ⟨rfl, hx⟩ := hx
  exact h' x w' hw hx

theorem throw (e : Fault) : Carries holds w s (throw e : Build α) mid := by
  intro w₁ b x b' _ _ hrun
  cases hrun

theorem start (h : ∀ w₁ b, w ≤ w₁ → holds s w₁ b → Carries holds w₁ s act mid) : Carries holds w s act mid :=
  fun w₁ b x b' hw hb hrun => h w₁ b hw hb w₁ b x b' le_rfl hb hrun

theorem revise (h : ∀ w₁ b, w ≤ w₁ → holds s w₁ b →
      ∃ w₂ s', w₁ ≤ w₂ ∧ holds s' w₂ b ∧ Carries holds w₂ s' act mid) : Carries holds w s act mid := by
  intro w₁ b x b' hw hb hrun
  obtain ⟨w₂, s', hw₂, hb₂, h'⟩ := h w₁ b hw hb
  obtain ⟨w₃, s'', hw₃, hb₃, hx⟩ := h' w₂ b x b' le_rfl hb₂ hrun
  exact ⟨w₃, s'', hw₂.trans hw₃, hb₃, hx⟩

theorem get : Carries holds w s (get : Build Builder) fun b w' s' => s' = s ∧ holds s w' b := by
  intro w₁ b x b' _ hb hrun
  cases hrun
  exact ⟨w₁, s, le_rfl, hb, rfl, hb⟩

theorem withState {next : Builder → Build β}
    (h : ∀ w₁ b x b', w ≤ w₁ → holds s w₁ b → (next b).run b = .ok (x, b') →
      ∃ w₂ s', w₁ ≤ w₂ ∧ holds s' w₂ b' ∧ result x w₂ s') :
    Carries holds w s (MonadStateOf.get >>= next) result := h

theorem modify {f : Builder → Builder} {post : Γ → σ → Prop}
    (h : ∀ w₁ b, w ≤ w₁ → holds s w₁ b → ∃ w₂ s', w₁ ≤ w₂ ∧ holds s' w₂ (f b) ∧ post w₂ s') :
    Carries holds w s (modify f) fun _ => post := by
  intro w₁ b x b' hw hb hrun
  cases hrun
  exact h w₁ b hw hb

theorem forM {xs : List α} {f : α → Build Unit} (h : ∀ x ∈ xs, Carries holds w s (f x) fun _ _ s' => s' = s) :
    Carries holds w s (xs.forM f) fun _ _ s' => s' = s := by
  induction xs with
  | nil => exact pure fun _ _ => rfl
  | cons x xs ih =>
    change Carries holds w s (f x >>= fun _ => xs.forM f) _
    exact (h x (by simp)).andThen (ih fun y hy => h y (by simp [hy]))

end Carries

end Builder
end PointsTo
