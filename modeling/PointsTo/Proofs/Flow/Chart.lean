import Mathlib.Algebra.Order.Field.Basic
import Mathlib.Algebra.Order.Field.Rat
import Mathlib.Data.Finset.Max
import Mathlib.Data.List.Chain
import Mathlib.Order.SetNotation
import PointsTo.Flow.Builder
import PointsTo.Proofs.Flow.DepthFirst
import PointsTo.Proofs.Program.Numbering

/-! # Charts of flow graphs

A chart lays down for every block where it stands in the text of the unit, which loops are around it, and which
temporaries hold a value whenever it is entered. It fits a graph if every edge leads on in the text, or back to
the header of a loop around its source; if no edge enters a loop but through its header; and if what a block or
a step relies on has been assigned. A graph that has a chart has no cycle outside its loops, a path gets into a
loop only through the header, and no step reads a temporary ahead of its assignment. -/

namespace PointsTo

open List

def Step.assigns : Step → List NodeId
  | .eval expr => [expr.id]
  | .bind into _ => [into.id]
  | _ => []

namespace Node

variable (hoisted : NodeId → Bool)

mutual

/-- The hoisted nodes at or below an expression. What has become branches is taken out of its temporary, and
nothing inside it counts. What was evaluated ahead as a whole may be looked into again. -/
def held : Node → List NodeId
  | ⟨id, kind, span, parent, children⟩ =>
    (if hoisted id then [id] else []) ++
      if hoisted id && isExpandable ⟨id, kind, span, parent, children⟩ then [] else heldAll children

def heldAll : List Node → List NodeId
  | [] => []
  | n :: rest => held n ++ heldAll rest

end

variable {hoisted : NodeId → Bool} {n : Node} {i : NodeId}

theorem mem_heldAll {ns : List Node} : i ∈ heldAll hoisted ns ↔ ∃ n ∈ ns, i ∈ n.held hoisted := by
  induction ns with
  | nil => simp [heldAll]
  | cons m ns ih => simp [heldAll, ih]

theorem mem_held (h : i ∈ n.held hoisted) : i = n.id ∧ hoisted n.id = true ∨
      i ∈ heldAll hoisted n.children ∧ (hoisted n.id = true → n.isExpandable = false) := by
  obtain ⟨id, kind, span, parent, children⟩ := n
  unfold held at h
  rcases mem_append.1 h with h | h
  · split at h
    next hid => exact .inl ⟨mem_singleton.1 h, hid⟩
    next => cases h
  · split at h
    next => cases h
    next hx => exact .inr ⟨h, fun hid => by simpa [hid] using hx⟩

mutual

theorem mem_ids_of_mem_held : ∀ {n : Node} {i : NodeId}, i ∈ n.held hoisted → i ∈ n.ids ∧ hoisted i = true
  | ⟨nid, kind, span, parent, children⟩, i, h => by
    rw [ids_mk]
    rcases mem_held h with ⟨rfl, hid⟩ | ⟨h, -⟩
    · exact ⟨mem_cons_self, hid⟩
    · exact (mem_idsAll_of_mem_heldAll h).imp_left (mem_cons_of_mem _)

theorem mem_idsAll_of_mem_heldAll : ∀ {ns : List Node} {i : NodeId}, i ∈ heldAll hoisted ns →
    i ∈ idsAll ns ∧ hoisted i = true
  | [], _, h => by cases h
  | n :: ns, i, h => by
    rw [idsAll_cons, mem_append]
    rw [heldAll, mem_append] at h
    rcases h with h | h
    · exact (mem_ids_of_mem_held h).imp_left .inl
    · exact (mem_idsAll_of_mem_heldAll h).imp_left .inr

end

end Node

/-- The temporaries that a step reads: it copies one, takes the elements of one, or finds them in the expressions
that it evaluates. Parameters take their values from the callers, and of a handler only what it names is
evaluated. -/
def Step.reads (hoisted : NodeId → Bool) : Step → List NodeId
  | .exec n | .eval n | .enter n => Node.heldAll hoisted n.children
  | .bind _ value => [value.id]
  | .test n => n.held hoisted
  | .iterate target iterable => iterable.id :: target.held hoisted
  | .handle n => Node.heldAll hoisted n.children.dropLast
  | .parameters _ | .returnNone => []

/-- Where the given temporaries hold a value at first, every step reads only what holds one by then. -/
def Covered (hoisted : NodeId → Bool) : List NodeId → List Step → Prop
  | _, [] => True
  | known, s :: rest => s.reads hoisted ⊆ known ∧ Covered hoisted (s.assigns ++ known) rest

theorem Covered.append {hoisted : NodeId → Bool} {known : List NodeId} {steps : List Step} {s : Step}
    (h : Covered hoisted known steps) (hs : ∀ n ∈ s.reads hoisted, n ∈ known ∨ n ∈ steps.flatMap Step.assigns) :
    Covered hoisted known (steps ++ [s]) := by
  induction steps generalizing known with
  | nil => exact ⟨fun n hn => (hs n hn).resolve_right (by simp), trivial⟩
  | cons t steps ih =>
    refine ⟨h.1, ih h.2 fun n hn => ?_⟩
    simpa [or_assoc, or_comm, or_left_comm] using hs n hn

theorem Covered.mem_reads {hoisted : NodeId → Bool} {known : List NodeId} {before after : List Step} {s : Step}
    (h : Covered hoisted known (before ++ s :: after)) {n : NodeId} (hn : n ∈ s.reads hoisted) :
    n ∈ known ∨ n ∈ before.flatMap Step.assigns := by
  induction before generalizing known with
  | nil => exact .inl (h.1 hn)
  | cons t before ih =>
    have h := ih h.2
    simpa [or_assoc, or_comm, or_left_comm] using h

/-- What is laid down about a block when it is made. -/
structure Spot where
  /-- Where the block stands in the text of the unit. -/
  rank : ℚ
  /-- The headers of the loops around the block. The header of a loop counts itself. -/
  nest : List BlockId
  /-- Temporaries that hold a value whenever the block is entered. -/
  known : List NodeId

/-- An edge of a kind may lead from one spot, where the steps assign the given temporaries, to a target at
another one. -/
structure Spot.Leads (p : Spot) (made : List NodeId) (kind : EdgeKind) (target : BlockId) (q : Spot) : Prop where
  forward : kind ≠ .loopBack → p.rank < q.rank
  back : kind = .loopBack → target ∈ p.nest
  nest : ∀ h ∈ q.nest, h = target ∨ h ∈ p.nest
  known : ∀ n ∈ q.known, n ∈ p.known ∨ kind ≠ .exception ∧ n ∈ made

theorem Spot.Leads.mono {p q : Spot} {made made' : List NodeId} {kind : EdgeKind} {target : BlockId}
    (h : p.Leads made kind target q) (hm : made ⊆ made') : p.Leads made' kind target q :=
  { h with known := fun n hn => (h.known n hn).imp id fun hn => ⟨hn.1, hm hn.2⟩ }

/-- The spots of the blocks in the order in which they were made, and the sets of nodes that may turn out to be
the hoisted ones. -/
structure Chart where
  spots : List Spot
  outlook : Set (NodeId → Bool)

/-- A chart grows by more spots and by fewer sets of nodes. -/
instance : Preorder Chart where
  le w w' := w.spots <+: w'.spots ∧ w'.outlook ⊆ w.outlook
  le_refl _ := ⟨prefix_rfl, subset_rfl⟩
  le_trans _ _ _ h h' := ⟨h.1.trans h'.1, h'.2.trans h.2⟩

theorem Chart.spots_mono {w w' : Chart} (h : w ≤ w') {b : BlockId} {p : Spot} (hb : w.spots[b]? = some p) :
    w'.spots[b]? = some p := by
  obtain ⟨more, hmore⟩ := h.1
  rw [← hmore, getElem?_append_left (List.getElem?_eq_some_iff.1 hb).1, hb]

namespace FlowGraph

def made (g : FlowGraph) (b : BlockId) : List NodeId := (g.block b).steps.flatMap Step.assigns

def Allows (g : FlowGraph) (w : Chart) (b : BlockId) (e : Edge) : Prop :=
  ∃ p q, w.spots[b]? = some p ∧ w.spots[e.target]? = some q ∧ p.Leads (g.made b) e.kind e.target q

/-- The chart fits the graph, whichever of the sets in its outlook is that of the hoisted nodes. -/
structure Charted (g : FlowGraph) (w : Chart) : Prop where
  length_eq : w.spots.length = g.size
  entry : ∃ r, w.spots[g.entry]? = some ⟨r, [], []⟩
  depth : ∀ {b p}, w.spots[b]? = some p → (g.block b).loopDepth = p.nest.length
  edges : ∀ {b e}, e ∈ (g.block b).successors → g.Allows w b e
  steps : ∀ {b p}, w.spots[b]? = some p → ∀ hoisted ∈ w.outlook, Covered hoisted p.known (g.block b).steps

variable {g : FlowGraph} {w : Chart}

/-! ## Loops -/

def nest (w : Chart) (b : BlockId) : List BlockId := (w.spots[b]?.map (·.nest)).getD []

def rank (w : Chart) (b : BlockId) : ℚ := (w.spots[b]?.map (·.rank)).getD 0

variable {b : BlockId} {path : List BlockId}
variable (hg : g.Charted w)
include hg

/-- A step along an edge stays inside a loop, or enters it at the header. It leads on, unless it leads back to
the header of a loop around it. -/
theorem Charted.step {c : BlockId} (h : c ∈ g.successors b) :
    (∀ x ∈ nest w c, x = c ∨ x ∈ nest w b) ∧ (rank w b < rank w c ∨ c ∈ nest w b) := by
  obtain ⟨e, he, rfl⟩ := List.mem_map.1 h
  obtain ⟨p, q, hp, hq, hleads⟩ := hg.edges he
  simp only [nest, rank, hp, hq, Option.map_some, Option.getD_some]
  refine ⟨hleads.nest, ?_⟩
  by_cases hk : e.kind = .loopBack
  · exact .inr (hleads.back hk)
  · exact .inl (hleads.forward hk)

/-- A path from the entry to a block inside a loop passes through the header of the loop. -/
theorem Charted.mem_path_of_mem_nest {h : BlockId}
    (hpath : Path g.edges g.entry (b :: path)) (hb : h ∈ nest w b) : h ∈ b :: path := by
  generalize hall : b :: path = all at hpath
  induction hpath generalizing b path with
  | start =>
    obtain ⟨rfl, rfl⟩ := List.cons.inj hall
    obtain ⟨r, hentry⟩ := hg.entry
    simp [nest, hentry] at hb
  | follow hpath he ih =>
    obtain ⟨rfl, rfl⟩ := List.cons.inj hall
    rcases (hg.step (List.mem_map_of_mem he)).1 h hb with rfl | hb
    · exact mem_cons_self
    · exact mem_cons_of_mem _ (ih hb rfl)

/-- Going backwards from inside a loop along blocks that stand no further up than its header stays inside. -/
theorem Charted.mem_nest_of_chain {h z : BlockId}
    (hpath : (path ++ [z]).IsChain fun x y => y ∈ g.successors x) (hz : z = h ∨ h ∈ nest w z)
    (hmin : ∀ y ∈ path, rank w h ≤ rank w y) : ∀ y ∈ path, h ∈ nest w y := by
  induction path with
  | nil => nofun
  | cons y path ih =>
    obtain ⟨c, rest, hrest⟩ := exists_cons_of_ne_nil (l := path ++ [z]) (by simp)
    rw [cons_append, hrest, isChain_cons_cons, ← hrest] at hpath
    have hpath' := ih hpath.2 fun x hx => hmin x (by simp [hx])
    have hc : c = h ∨ h ∈ nest w c := by
      cases path with
      | nil => exact (List.cons.inj hrest).1 ▸ hz
      | cons x path => exact .inr (hpath' c (by simp [(List.cons.inj hrest).1]))
    have hy : h ∈ nest w y := by
      obtain ⟨hstay, hback⟩ := hg.step hpath.1
      rcases hc with rfl | hc
      -- The edge leads to the header itself, which stands no further down than its source.
      · exact hback.resolve_left (not_lt.2 (hmin y mem_cons_self))
      · rcases hstay h hc with rfl | hy
        · exact hback.resolve_left (not_lt.2 (hmin y mem_cons_self))
        · exact hy
    rw [forall_mem_cons]
    exact ⟨hy, hpath'⟩

/-- Every cycle goes through the header of a loop that is around all of it. -/
theorem Charted.exists_header (hpath : (b :: path ++ [b]).IsChain fun x y => y ∈ g.successors x) :
    ∃ h ∈ b :: path, ∀ y ∈ b :: path, h ∈ nest w y := by
  obtain ⟨h, hmem, hmin⟩ := (b :: path).toFinset.exists_min_image (rank w) ⟨b, by simp⟩
  rw [List.mem_toFinset] at hmem
  have hmin : ∀ y ∈ b :: path, rank w h ≤ rank w y := fun y hy => hmin y (List.mem_toFinset.2 hy)
  obtain ⟨before, after, hsplit⟩ := append_of_mem hmem
  rw [hsplit] at hpath hmin ⊢
  have hto : (before ++ [h]).IsChain fun x y => y ∈ g.successors x := hpath.left_of_append.prefix (by simp)
  have hbefore := hg.mem_nest_of_chain hto (.inl rfl) fun y hy => hmin y (by simp [hy])
  -- The walk from the header on ends at the first block, which is the header or stands before it.
  have hb : b = h ∨ h ∈ nest w b := by
    cases before with
    | nil => exact .inl (List.cons.inj hsplit).1
    | cons c before => exact .inr (hbefore b (by simp [(List.cons.inj hsplit).1]))
  have hfrom : (h :: after ++ [b]).IsChain fun x y => y ∈ g.successors x := hpath.suffix ⟨before, by simp⟩
  have hafter := hg.mem_nest_of_chain hfrom hb fun y hy => hmin y (mem_append_right _ hy)
  refine ⟨h, by simp, fun y hy => ?_⟩
  rcases mem_append.1 hy with hy | hy
  · exact hbefore y hy
  · exact hafter y hy

theorem Charted.loopDepth_pos
    (hpath : (b :: path ++ [b]).IsChain fun x y => y ∈ g.successors x) : 1 ≤ (g.block b).loopDepth := by
  obtain ⟨h, -, hnest⟩ := hg.exists_header hpath
  have hb := hnest b mem_cons_self
  unfold nest at hb
  cases hspot : w.spots[b]? with
  | none => simp [hspot] at hb
  | some p =>
    rw [hg.depth hspot]
    exact length_pos_of_mem (by simpa [hspot] using hb)

omit hg

theorem Path.isChain (h : Path g.edges g.entry path) : path.IsChain fun y x => y ∈ g.successors x := by
  induction h with
  | start => exact .singleton _
  | follow _ he ih => exact .cons_cons (List.mem_map_of_mem he) ih

/-- An edge that leads back leads to the header of a loop around its source, which dominates the source. -/
theorem Charted.dominates_of_retreats (hg : g.Charted w) {e : Edge} (he : Retreats g.edges g.entry e) :
    g.Dominates e.target e.source := by
  obtain ⟨hmem, path, hpath, hnodup, htarget⟩ := he
  obtain ⟨later, earlier, hsplit⟩ := append_of_mem htarget
  have hchain := (hpath.follow hmem).isChain
  rw [hsplit] at hchain hnodup hpath
  -- The blocks from the target of the edge on form a cycle.
  have hcycle : (e.target :: later.reverse ++ [e.target]).IsChain fun x y => y ∈ g.successors x := by
    have hback : (e.target :: (later ++ [e.target])).IsChain _ := hchain.prefix ⟨earlier, by simp⟩
    rw [← isChain_reverse]
    simpa [flip] using hback
  have hsource : e.source ∈ e.target :: later.reverse := by
    cases later with
    | nil => exact (List.cons.inj hsplit).1 ▸ mem_cons_self
    | cons c later => simp [(List.cons.inj hsplit).1]
  obtain ⟨h, hh, hnest⟩ := hg.exists_header hcycle
  -- The way to the target passes through the header of the cycle as well, so the target is the header.
  have hearlier := hg.mem_path_of_mem_nest hpath.of_append (hnest e.target mem_cons_self)
  obtain rfl : h = e.target := by
    by_contra hne
    refine disjoint_of_nodup_append hnodup (a := h) ?_ hearlier
    simpa [hne] using hh
  exact fun path hpath => hg.mem_path_of_mem_nest hpath (hnest e.source hsource)

/-! ## Temporaries -/

/-- A path from the entry to the start of a block takes the given steps: all those of each block that it leaves,
or any number of the first ones where an exception is raised. -/
inductive Takes (g : FlowGraph) : List Step → BlockId → Prop
  | entry : Takes g [] g.entry
  | leave {taken : List Step} {b : BlockId} {e : Edge} (h : Takes g taken b) (he : e ∈ (g.block b).successors)
      (hk : e.kind ≠ .exception) : Takes g (taken ++ (g.block b).steps) e.target
  | raise {taken first : List Step} {b : BlockId} {e : Edge} (h : Takes g taken b)
      (he : e ∈ (g.block b).successors) (hk : e.kind = .exception) (hf : first <+: (g.block b).steps) :
      Takes g (taken ++ first) e.target

theorem Charted.assigned (hg : g.Charted w) {taken : List Step} (h : g.Takes taken b) {p : Spot}
    (hp : w.spots[b]? = some p) : p.known ⊆ taken.flatMap Step.assigns := by
  induction h generalizing p with
  | entry =>
    obtain ⟨r, hentry⟩ := hg.entry
    cases Option.some.inj (hentry.symm.trans hp)
    exact nil_subset _
  | leave h he hk ih =>
    intro n hn
    obtain ⟨q, _, hq, hp', hleads⟩ := hg.edges he
    cases Option.some.inj (hp'.symm.trans hp)
    rw [flatMap_append, mem_append]
    exact (hleads.known n hn).imp (fun hn => ih hq hn) (·.2)
  | raise h he hk hf ih =>
    intro n hn
    obtain ⟨q, _, hq, hp', hleads⟩ := hg.edges he
    cases Option.some.inj (hp'.symm.trans hp)
    rw [flatMap_append, mem_append]
    exact .inl (ih hq ((hleads.known n hn).resolve_right fun hn => hn.1 hk))

theorem Charted.mem_assigns (hg : g.Charted w) {taken before after : List Step} {s : Step}
    (h : g.Takes taken b) (hs : (g.block b).steps = before ++ s :: after) {hoisted : NodeId → Bool}
    (hh : hoisted ∈ w.outlook) {n : NodeId} (hn : n ∈ s.reads hoisted) :
    n ∈ (taken ++ before).flatMap Step.assigns := by
  have hb : b < w.spots.length := by
    by_contra hb
    rw [hg.length_eq] at hb
    simp [block_of_size_le (Nat.not_lt.1 hb)] at hs
  have hp := getElem?_eq_getElem hb
  rw [flatMap_append, mem_append]
  have hcovered := hg.steps hp hoisted hh
  rw [hs] at hcovered
  exact (hcovered.mem_reads hn).imp (fun hn => hg.assigned h hp hn) id

end FlowGraph
end PointsTo
