import PointsTo.Proofs.Flow.Mirrored

/-! # Depth-first walks

The blocks under visit form a path from the start on which no block stands twice. So whatever a walk has seen
lies on a path, and an edge found to lead back starts at the end of a path that its target lies on. With the
edges into one block left out, what is seen can be reached around that block. -/

namespace PointsTo
namespace FlowGraph

open List

def edges (g : FlowGraph) (b : BlockId) : List Edge := (g.block b).successors

/-- The blocks on a path from the start, latest first. -/
inductive Path (edges : BlockId → List Edge) (root : BlockId) : List BlockId → Prop
  | start : Path edges root [root]
  | follow {b : BlockId} {path : List BlockId} {e : Edge} (h : Path edges root (b :: path))
      (he : e ∈ edges b) : Path edges root (e.target :: b :: path)

/-- An edge leads from the end of a path without repetition back to a block on it. -/
structure Retreats (edges : BlockId → List Edge) (root : BlockId) (e : Edge) : Prop where
  mem : e ∈ edges e.source
  path : ∃ path, Path edges root (e.source :: path) ∧ (e.source :: path).Nodup ∧ e.target ∈ e.source :: path

variable {edges : BlockId → List Edge} {root : BlockId}

theorem Path.of_append {b : BlockId} {later path : List BlockId} (h : Path edges root (later ++ b :: path)) :
    Path edges root (b :: path) := by
  induction later with
  | nil => exact h
  | cons c later ih =>
    obtain ⟨d, rest, hrest⟩ := exists_cons_of_ne_nil (l := later ++ b :: path) (by simp)
    rw [cons_append, hrest] at h
    cases h with
    | follow h he => exact ih (hrest ▸ h)

theorem Path.mono {more : BlockId → List Edge} {path : List BlockId} (h : Path edges root path)
    (hsub : ∀ b, edges b ⊆ more b) : Path more root path := by
  induction h with
  | start => exact .start
  | follow _ he ih => exact ih.follow (hsub _ he)

theorem Path.not_mem {avoided : BlockId} {path : List BlockId} (h : Path edges root path)
    (hstart : avoided ≠ root) (hedges : ∀ b, ∀ e ∈ edges b, avoided ≠ e.target) : avoided ∉ path := by
  induction h with
  | start => simpa using hstart
  | follow _ he ih => simpa using ⟨hedges _ _ he, by simpa using ih⟩

namespace Walk

structure Sound (edges : BlockId → List Edge) (root : BlockId) (w : Walk) : Prop where
  path : w.stack = [] ∨ Path edges root (w.stack.map (·.1))
  nodup : (w.stack.map (·.1)).Nodup
  /-- What a block has yet to follow are edges out of it. -/
  rest : ∀ v ∈ w.stack, v.2 ⊆ edges v.1
  visited : ∀ v ∈ w.stack, v.1 ∈ w.seen
  reached : ∀ b ∈ w.seen, ∃ path, Path edges root (b :: path)
  retreats : ∀ e ∈ w.retreating, Retreats edges root e

theorem Sound.start (edges : BlockId → List Edge) (b : BlockId) : Sound edges b (.start edges b) where
  path := .inr .start
  nodup := by simp [Walk.start]
  rest v hv := by
    cases mem_singleton.1 hv
    exact List.Subset.refl _
  visited v hv := by
    cases mem_singleton.1 hv
    exact Std.ExtTreeSet.mem_ofList.2 (by simp)
  reached c hc := by
    obtain rfl : b = c := by simpa [Walk.start, Std.ExtTreeSet.mem_ofList] using hc
    exact ⟨[], .start⟩
  retreats := nofun

theorem Sound.step {w : Walk} (hsource : ∀ {b e}, e ∈ edges b → e.source = b) (h : Sound edges root w) :
    Sound edges root (w.step edges) := by
  obtain ⟨stack, seen, order, retreating⟩ := w
  obtain ⟨hpath, hnodup, hrest, hvisited, hreached, hretreats⟩ := h
  unfold Walk.step
  match stack with
  | [] => exact ⟨hpath, hnodup, hrest, hvisited, hreached, hretreats⟩
  | (b, []) :: rest =>
    refine ⟨?_, hnodup.of_cons, fun v hv => hrest v (.tail _ hv), fun v hv => hvisited v (.tail _ hv), hreached,
      hretreats⟩
    cases rest with
    | nil => exact .inl rfl
    | cons c rest =>
      have hpath : Path edges root ([b] ++ c.1 :: rest.map (·.1)) := hpath.resolve_left nofun
      exact .inr hpath.of_append
  | (b, e :: es) :: rest =>
    have hpath : Path edges root (b :: rest.map (·.1)) := hpath.resolve_left nofun
    obtain ⟨he, hes⟩ := cons_subset.1 (hrest _ mem_cons_self)
    have hrest' : ∀ v ∈ (b, es) :: rest, v.2 ⊆ edges v.1 :=
      forall_mem_cons.2 ⟨hes, fun v hv => hrest v (.tail _ hv)⟩
    have hvisited' : ∀ v ∈ (b, es) :: rest, v.1 ∈ seen :=
      forall_mem_cons.2 ⟨hvisited (b, e :: es) mem_cons_self, fun v hv => hvisited v (.tail _ hv)⟩
    dsimp only
    split
    next hseen =>
      split
      -- The edge leads back to a block under visit.
      next hstack =>
        refine ⟨.inr hpath, hnodup, hrest', hvisited', hreached, forall_mem_append.2 ⟨hretreats, ?_⟩⟩
        obtain ⟨v, hv, hvt⟩ := List.any_eq_true.1 hstack
        have hmem : e.target ∈ b :: rest.map (·.1) := beq_iff_eq.1 hvt ▸ List.mem_map_of_mem hv
        cases hsource he
        exact forall_mem_singleton.2 ⟨he, _, hpath, hnodup, hmem⟩
      next => exact ⟨.inr hpath, hnodup, hrest', hvisited', hreached, hretreats⟩
    -- The edge leads to a block that is not seen yet, so not one under visit.
    next hseen =>
      have hpath' := hpath.follow he
      refine ⟨.inr hpath', nodup_cons.2 ⟨fun hmem => hseen ?_, hnodup⟩,
        forall_mem_cons.2 ⟨.refl _, hrest'⟩, fun v hv => ?_, fun c hc => ?_, hretreats⟩
      · obtain ⟨v, hv, hvt : v.1 = e.target⟩ := List.mem_map.1 hmem
        exact Std.ExtTreeSet.contains_iff_mem.2 (hvt ▸ hvisited' v hv)
      · rcases mem_cons.1 hv with rfl | hv
        · exact Std.ExtTreeSet.mem_insert_self
        · exact Std.ExtTreeSet.mem_insert.2 (.inr (hvisited' v hv))
      · rcases Std.ExtTreeSet.mem_insert.1 hc with hc | hc
        · cases Nat.compare_eq_eq.1 hc
          exact ⟨_, hpath'⟩
        · exact hreached c hc

theorem Sound.run {w : Walk} (hsource : ∀ {b e}, e ∈ edges b → e.source = b) (h : Sound edges root w)
    (fuel : Nat) : Sound edges root (w.run edges fuel) := by
  induction fuel generalizing w with
  | zero => exact h
  | succ fuel ih => exact ih (h.step hsource)

structure Once (w : Walk) : Prop where
  nodup : (w.stack.map (·.1) ++ w.order).Nodup
  visited : ∀ b ∈ w.stack.map (·.1) ++ w.order, b ∈ w.seen

theorem Once.start (edges : BlockId → List Edge) (b : BlockId) : Once (.start edges b) where
  nodup := by simp [Walk.start]
  visited c hc := by
    obtain rfl : c = b := by simpa [Walk.start] using hc
    exact Std.ExtTreeSet.mem_ofList.2 (by simp)

theorem Once.step {w : Walk} (h : Once w) : Once (w.step edges) := by
  obtain ⟨stack, seen, order, retreating⟩ := w
  obtain ⟨hnodup, hvisited⟩ := h
  unfold Walk.step
  match stack with
  | [] => exact ⟨hnodup, hvisited⟩
  | (b, []) :: rest =>
    have hperm : List.Perm (rest.map (·.1) ++ b :: order) (b :: (rest.map (·.1) ++ order)) := perm_middle
    exact ⟨hperm.nodup_iff.2 hnodup, fun c hc => hvisited c (hperm.mem_iff.1 hc)⟩
  | (b, e :: es) :: rest =>
    dsimp only
    split
    next => split <;> exact ⟨hnodup, hvisited⟩
    next hseen =>
      refine ⟨nodup_cons.2 ⟨fun hmem => hseen ?_, hnodup⟩, fun c hc => Std.ExtTreeSet.mem_insert.2 ?_⟩
      · exact Std.ExtTreeSet.contains_iff_mem.2 (hvisited _ hmem)
      · rcases mem_cons.1 hc with rfl | hc
        · exact .inl Std.ReflCmp.compare_self
        · exact .inr (hvisited c hc)

theorem Once.run {w : Walk} (h : Once w) (fuel : Nat) : Once (w.run edges fuel) := by
  induction fuel generalizing w with
  | zero => exact h
  | succ fuel ih => exact ih h.step

end Walk

variable {g : FlowGraph}

theorem nodup_reversePostorder (g : FlowGraph) : g.reversePostorder.Nodup :=
  (nodup_append.1 ((Walk.Once.start _ _).run _).nodup).2.1

/-- Every path from the entry to one block passes through another. -/
def Dominates (g : FlowGraph) (a b : BlockId) : Prop :=
  ∀ path, Path g.edges g.entry (b :: path) → a ∈ b :: path

theorem retreats_of_mem_walk (hg : g.Mirrored) {e : Edge} (he : e ∈ g.walk.retreating) :
    Retreats g.edges g.entry e :=
  ((Walk.Sound.start _ _).run hg.source_eq _).retreats e he

/-- A test that tells of every block that dominates another one. -/
def FindsDominators (g : FlowGraph) (dominates : BlockId → BlockId → Bool) : Prop :=
  ∀ a b, g.Dominates a b → dominates a b = true

theorem irreducibleBy_eq_nil (hg : g.Mirrored) {dominates : BlockId → BlockId → Bool}
    (hdominates : g.FindsDominators dominates)
    (h : ∀ e, Retreats g.edges g.entry e → g.Dominates e.target e.source) : g.irreducibleBy dominates = [] := by
  have hall : ∀ e ∈ g.walk.retreating, dominates e.target e.source = true := fun e he =>
    hdominates _ _ (h e (retreats_of_mem_walk hg he))
  simpa [irreducibleBy] using hall

theorem findsDominators_dominates (hg : g.Mirrored) : g.FindsDominators g.dominates := by
  intro a b h
  rw [dominates, Bool.not_eq_true', Bool.eq_false_iff]
  intro hb
  rw [Std.ExtTreeSet.contains_iff_mem, reachableAvoiding] at hb
  split at hb
  next => exact Std.ExtTreeSet.not_mem_empty hb
  next hentry =>
    set around := fun b => (g.block b).successors.filter (·.target != a)
    have hsource : ∀ {b e}, e ∈ around b → e.source = b := fun he => hg.source_eq (mem_filter.1 he).1
    obtain ⟨path, hpath⟩ := ((Walk.Sound.start around g.entry).run hsource g.walkFuel).reached b hb
    have ha : a ∉ b :: path := by
      refine hpath.not_mem (fun ha => hentry (beq_iff_eq.2 ha.symm)) fun c e he => ?_
      exact fun ha => (bne_iff_ne.1 (mem_filter.1 he).2) ha.symm
    exact ha (h path (hpath.mono fun _ => filter_sublist.subset))

end FlowGraph
end PointsTo
