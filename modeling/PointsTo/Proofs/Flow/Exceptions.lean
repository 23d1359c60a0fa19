import PointsTo.Proofs.Flow.Placement

/-! # Where exceptions go

Where an exception goes that is raised in a block is settled when the block is made: to the innermost target in
force at that time. A register keeps that for every block, and for every node where it was lowered. A statement is
lowered into blocks made under the targets in force, except where a guarded body has just ended: what follows may
begin in the block in which the body has ended, and that block was made under one target more. -/

namespace PointsTo

open List FlowGraph Option

theorem Node.id_mem_ids (n : Node) : n.id ∈ n.ids := by
  rw [ids_eq]
  exact mem_cons_self

theorem Node.mem_idsAll {ns : List Node} {i : NodeId} : i ∈ idsAll ns ↔ ∃ n ∈ ns, i ∈ n.ids := by
  induction ns with
  | nil => simp
  | cons n ns ih => simp [ih]

theorem Node.ids_subset_of_mem {n m : Node} (h : m ∈ n.children) : m.ids ⊆ n.ids := fun i hi => by
  rw [ids_eq n]
  exact mem_cons_of_mem _ (mem_idsAll.2 ⟨m, h, hi⟩)

/-- The node that a step belongs to. Binding the parameters is no part of a statement. -/
def Step.owner? : Step → Option NodeId
  | .parameters _ => none
  | s => s.node?.map (·.id)

/-- An exception raised in the block may go to the target. -/
def FlowGraph.RaisesTo (g : FlowGraph) (b target : BlockId) : Prop :=
  ∃ e ∈ (g.block b).successors, e.kind = .exception ∧ e.target = target

instance (g : FlowGraph) (b target : BlockId) : Decidable (g.RaisesTo b target) :=
  inferInstanceAs (Decidable (∃ e ∈ (g.block b).successors, e.kind = .exception ∧ e.target = target))

/-- How a block was made: in which regions, innermost first, and for which handler of which dispatch, if it starts
one. -/
structure Origin where
  regions : List Region
  handler : Option (BlockId × Node)

/-- Where exceptions may go that are raised in the block. -/
abbrev Origin.targets (o : Origin) : List BlockId := o.regions.map Region.target

/-- Where a node is lowered: in which regions, and perhaps beginning in a block that was made in others. -/
structure Place where
  regions : List Region
  seam : Option BlockId

abbrev Place.targets (p : Place) : List BlockId := p.regions.map Region.target

/-- How the blocks were made, in this order, and where nodes are lowered. -/
structure Register where
  origins : List Origin
  places : NodeId → Option Place

/-- A register grows by more blocks and by more nodes. -/
instance : Preorder Register where
  le w w' := w.origins <+: w'.origins ∧ ∀ i p, w.places i = some p → w'.places i = some p
  le_refl _ := ⟨prefix_rfl, fun _ _ => id⟩
  le_trans _ _ _ h h' := ⟨h.1.trans h'.1, fun i p hp => h'.2 i p (h.2 i p hp)⟩

namespace Register

variable {w w' : Register} {p : Place} {c d : BlockId} {o : Origin} {ids : List NodeId} {regions : List Region}

/-- The block was made in the given regions, and not to start a handler. -/
def Made (w : Register) (c : BlockId) (regions : List Region) : Prop := w.origins[c]? = some ⟨regions, none⟩

/-- More edges may lead to the block: it does not start a handler. -/
def Free (w : Register) (c : BlockId) : Prop := ∃ regions, w.Made c regions

/-- What is lowered at the place may stand in the block. -/
def Fits (w : Register) (p : Place) (c : BlockId) : Prop :=
  (∃ o, w.origins[c]? = some o ∧ o.regions = p.regions) ∨ p.seam = some c

/-- The block in which lowering may begin was made in all regions that are open, and perhaps in others. -/
def Valid (w : Register) (p : Place) : Prop :=
  ∀ c ∈ p.seam, ∃ o, w.origins[c]? = some o ∧ p.regions ⊆ o.regions

def Puts (w : Register) (p : Place) (ids : List NodeId) : Prop := ∀ i ∈ ids, w.places i = some p

theorem origins_mono (hw : w ≤ w') (h : w.origins[c]? = some o) : w'.origins[c]? = some o := by
  obtain ⟨more, hmore⟩ := hw.1
  rw [← hmore, getElem?_append_left (List.getElem?_eq_some_iff.1 h).1, h]

theorem Made.mono (h : w.Made c regions) (hw : w ≤ w') : w'.Made c regions := origins_mono hw h

theorem Free.mono (h : w.Free c) (hw : w ≤ w') : w'.Free c := h.imp fun _ h => h.mono hw

theorem Made.free (h : w.Made c regions) : w.Free c := ⟨regions, h⟩

theorem Free.lt_length (h : w.Free c) : c < w.origins.length := by
  obtain ⟨_, h⟩ := h
  exact (List.getElem?_eq_some_iff.1 h).1

theorem Fits.mono (h : w.Fits p c) (hw : w ≤ w') : w'.Fits p c :=
  h.imp_left fun ⟨o, ho, heq⟩ => ⟨o, origins_mono hw ho, heq⟩

theorem Valid.mono (h : w.Valid p) (hw : w ≤ w') : w'.Valid p := fun c hc =>
  (h c hc).imp fun _ ho => ⟨origins_mono hw ho.1, ho.2⟩

theorem valid_none (w : Register) (regions : List Region) : w.Valid ⟨regions, none⟩ := nofun

theorem Puts.mono (h : w.Puts p ids) (hw : w ≤ w') : w'.Puts p ids := fun i hi => hw.2 i p (h i hi)

theorem Puts.subset {ids' : List NodeId} (h : w.Puts p ids) (hs : ids' ⊆ ids) : w.Puts p ids' :=
  fun i hi => h i (hs hi)

theorem puts_append {ids' : List NodeId} : w.Puts p (ids ++ ids') ↔ w.Puts p ids ∧ w.Puts p ids' :=
  forall_mem_append

theorem Valid.regions_subset (h : w.Valid p) (hc : w.Fits p c) :
    ∃ o, w.origins[c]? = some o ∧ p.regions ⊆ o.regions := by
  rcases hc with ⟨o, ho, heq⟩ | hc
  · exact ⟨o, ho, heq ▸ .refl _⟩
  · exact h c hc

def add (w : Register) (o : Origin) : Register := { w with origins := w.origins ++ [o] }

theorem le_add (w : Register) (o : Origin) : w ≤ w.add o := ⟨prefix_append _ _, fun _ _ => id⟩

theorem origins_add (w : Register) (o : Origin) : (w.add o).origins[w.origins.length]? = some o :=
  getElem?_concat_length

theorem origins_of_add {o' : Origin} (h : (w.add o).origins[c]? = some o') :
    w.origins[c]? = some o' ∧ c ≠ w.origins.length ∨ c = w.origins.length ∧ o' = o := by
  by_cases hc : c < w.origins.length
  · rw [add, getElem?_append_left hc] at h
    exact .inl ⟨h, Nat.ne_of_lt hc⟩
  · have hle : c ≤ w.origins.length := by
      simpa [add, Nat.lt_succ_iff] using (List.getElem?_eq_some_iff.1 h).1
    cases Nat.le_antisymm hle (Nat.not_lt.1 hc)
    exact .inr ⟨rfl, some.inj (h.symm.trans (w.origins_add o))⟩

end Register

namespace FlowGraph

/-- The register fits the graph: a block is guarded by the last parts of the regions that it was made in. An exception
raised in it goes to a target of one of them, and to the innermost one, or out of the unit. A handler starts in a
block that only its dispatch leads to. Every step stands in a block that fits the place of its node. -/
structure Noted (g : FlowGraph) (w : Register) : Prop where
  length_eq : w.origins.length = g.size
  bounded : ∀ {c d}, d ∈ g.successors c → d < g.size
  guards : ∀ {c o}, w.origins[c]? = some o → (g.block c).guards = o.regions.filterMap Region.guard?
  targets : ∀ {c o d}, w.origins[c]? = some o → g.RaisesTo c d → d ∈ o.targets ∨ d = g.raiseExit
  raises : ∀ {c o d}, w.origins[c]? = some o → o.targets.head? = some d → g.RaisesTo c d
  handlers : ∀ {c o dispatch h}, w.origins[c]? = some o → o.handler = some (dispatch, h) →
    (⟨dispatch, c, .unconditional⟩ : Edge) ∈ (g.block dispatch).successors ∧
      (g.block c).steps.head? = some (.handle h) ∧ ∀ a, c ∈ g.successors a → a = dispatch
  steps : ∀ {c s i}, s ∈ (g.block c).steps → s.owner? = some i → ∃ p, w.places i = some p ∧ w.Fits p c

/-- An edge may be added: it leads to no start of a handler, and if it is for exceptions, then to a target that its
source was made under, or out of the unit. -/
def MayAdd (g : FlowGraph) (w : Register) (c : BlockId) (e : Edge) : Prop :=
  w.Free e.target ∧
    (e.kind = .exception → ∃ o, w.origins[c]? = some o ∧ (e.target ∈ o.targets ∨ e.target = g.raiseExit))

variable {g g' : FlowGraph} {w w' : Register}

theorem Noted.join (hg : g.Noted w) (h : g.Joins g' (g.MayAdd w)) : g'.Noted w where
  length_eq := hg.length_eq.trans h.size_eq.symm
  bounded {c d} hd := by
    rw [h.size_eq]
    obtain ⟨e, he, rfl⟩ := List.mem_map.1 hd
    rcases h.edges he with he | ⟨hfree, -⟩
    · exact hg.bounded (List.mem_map_of_mem he)
    · exact hg.length_eq ▸ hfree.lt_length
  guards ho := (h.guards_eq _).trans (hg.guards ho)
  targets {c o d} ho hd := by
    rw [h.raiseExit_eq]
    obtain ⟨e, he, hk, rfl⟩ := hd
    rcases h.edges he with he | ⟨-, he⟩
    · exact hg.targets ho ⟨e, he, hk, rfl⟩
    · obtain ⟨o', ho', hd⟩ := he hk
      exact some.inj (ho'.symm.trans ho) ▸ hd
  raises ho hd := by
    obtain ⟨e, he, hk, ht⟩ := hg.raises ho hd
    exact ⟨e, h.keeps he, hk, ht⟩
  handlers {c o dispatch n} ho hn := by
    obtain ⟨hedge, hhead, honly⟩ := hg.handlers ho hn
    refine ⟨h.keeps hedge, h.steps_eq c ▸ hhead, fun a ha => ?_⟩
    obtain ⟨e, he, rfl⟩ := List.mem_map.1 ha
    -- A new edge leads to a free block, which the start of a handler is not.
    rcases h.edges he with he | ⟨⟨_, hfree⟩, -⟩
    · exact honly a (List.mem_map_of_mem he)
    · cases some.inj (hfree.symm.trans ho)
      cases hn
  steps hs hi := hg.steps (h.steps_eq _ ▸ hs) hi

theorem Noted.extend (hg : g.Noted w) {o : Origin} (hsize : g'.size = g.size + 1)
    (hexit : g'.raiseExit = g.raiseExit) (hguards : ∀ c ≠ g.size, (g'.block c).guards = (g.block c).guards)
    (hguarded : (g'.block g.size).guards = o.regions.filterMap Region.guard?)
    (hsteps : ∀ c ≠ g.size, (g'.block c).steps = (g.block c).steps)
    (hkeeps : ∀ c, (g.block c).successors ⊆ (g'.block c).successors)
    (hedges : ∀ c ≠ g.size, ∀ e ∈ (g'.block c).successors,
      e ∈ (g.block c).successors ∨ e.target = g.size ∧ e.kind ≠ .exception)
    (hown : ∀ e ∈ (g'.block g.size).successors, e.target ∈ o.targets) (hfree : ∀ d ∈ o.targets, w.Free d)
    (hraises : ∀ d, o.targets.head? = some d → g'.RaisesTo g.size d)
    (hhandler : ∀ dispatch h, o.handler = some (dispatch, h) →
      (⟨dispatch, g.size, .unconditional⟩ : Edge) ∈ (g'.block dispatch).successors ∧
        (g'.block g.size).steps.head? = some (.handle h) ∧ ∀ a, g.size ∈ g'.successors a → a = dispatch)
    (howners : ∀ s ∈ (g'.block g.size).steps, ∀ i, s.owner? = some i →
      ∃ p, w.places i = some p ∧ p.regions = o.regions) :
    g'.Noted (w.add o) := by
  have hlen := hg.length_eq
  refine ⟨by simp [Register.add, hlen, hsize], fun {c d} hd => ?_, fun {c x} hx => ?_, fun {c x d} hx hd => ?_,
    fun {c x d} hx hd => ?_, fun {c x dispatch h} hx hh => ?_, fun {c s i} hs hi => ?_⟩
  · rw [hsize]
    obtain ⟨e, he, rfl⟩ := List.mem_map.1 hd
    by_cases hc : c = g.size
    -- The new block leads to targets only, and these have been made before it.
    · exact Nat.lt_succ_of_lt (hlen ▸ (hfree _ (hown e (hc ▸ he))).lt_length)
    · rcases hedges c hc e he with he | he
      · exact Nat.lt_succ_of_lt (hg.bounded (List.mem_map_of_mem he))
      · exact he.1 ▸ Nat.lt_succ_self _
  · rcases Register.origins_of_add hx with ⟨hx, hc⟩ | ⟨rfl, rfl⟩
    · rw [hguards c (hlen ▸ hc), hg.guards hx]
    · rw [hlen, hguarded]
  · rw [hexit]
    obtain ⟨e, he, hk, rfl⟩ := hd
    rcases Register.origins_of_add hx with ⟨hx, hc⟩ | ⟨rfl, rfl⟩
    · rcases hedges c (hlen ▸ hc) e he with he | he
      · exact hg.targets hx ⟨e, he, hk, rfl⟩
      · exact absurd hk he.2
    · exact .inl (hown e (hlen ▸ he))
  · rcases Register.origins_of_add hx with ⟨hx, -⟩ | ⟨rfl, rfl⟩
    · obtain ⟨e, he, hk, ht⟩ := hg.raises hx hd
      exact ⟨e, hkeeps c he, hk, ht⟩
    · exact hlen.symm ▸ hraises d hd
  · rcases Register.origins_of_add hx with ⟨hx, hc⟩ | ⟨rfl, rfl⟩
    · rw [hlen] at hc
      obtain ⟨hedge, hhead, honly⟩ := hg.handlers hx hh
      refine ⟨hkeeps _ hedge, hsteps c hc ▸ hhead, fun a ha => ?_⟩
      obtain ⟨e, he, rfl⟩ := List.mem_map.1 ha
      by_cases hnew : a = g.size
      · obtain ⟨_, hfree⟩ := hfree _ (hown e (hnew ▸ he))
        cases some.inj (hfree.symm.trans hx)
        cases hh
      · rcases hedges a hnew e he with he | he
        · exact honly a (List.mem_map_of_mem he)
        · exact absurd he.1 hc
    · exact hlen.symm ▸ hhandler dispatch h hh
  · by_cases hc : c = g.size
    · subst hc
      obtain ⟨p, hp, heq⟩ := howners s hs i hi
      exact ⟨p, hp, .inl ⟨o, hlen ▸ w.origins_add o, heq.symm⟩⟩
    · obtain ⟨p, hp, hfits⟩ := hg.steps (hsteps c hc ▸ hs) hi
      exact ⟨p, hp, hfits.mono (w.le_add o)⟩

theorem mem_successors_addEdge_self {source : BlockId} (h : source < g.size) (target : BlockId) (kind : EdgeKind) :
    (⟨source, target, kind⟩ : Edge) ∈ ((g.addEdge source target kind).block source).successors := by
  unfold addEdge
  extract_lets new
  split
  next hmem => exact contains_iff_mem.1 hmem
  next =>
    set g' := g.modifyBlock source fun b => { b with successors := b.successors ++ [new] } with hg'
    have hnew : new ∈ (g'.block source).successors := by
      rw [hg', block_modifyBlock, if_pos ⟨rfl, h⟩]
      exact mem_append_right _ mem_cons_self
    have hsame : ((g'.modifyBlock target fun b => { b with predecessors := b.predecessors ++ [new] }).block
        source).successors = (g'.block source).successors := successors_modifyBlock g' target source fun _ => rfl
    exact hsame ▸ hnew

/-- A block has been added in the given regions: it may raise to the target of the innermost one. -/
structure Sprouts (g g' : FlowGraph) (regions : List Region) : Prop where
  size_eq : g'.size = g.size + 1
  exit_eq : g'.exit = g.exit
  raiseExit_eq : g'.raiseExit = g.raiseExit
  steps_eq : ∀ c, (g'.block c).steps = (g.block c).steps
  keeps : ∀ c, (g.block c).successors ⊆ (g'.block c).successors
  edges : ∀ c ≠ g.size, (g'.block c).successors ⊆ (g.block c).successors
  guards_eq : ∀ c ≠ g.size, (g'.block c).guards = (g.block c).guards
  guards_size : (g'.block g.size).guards = regions.filterMap Region.guard?
  own : ∀ e ∈ (g'.block g.size).successors, e.target ∈ regions.map Region.target
  raises : ∀ d, (regions.map Region.target).head? = some d → g'.RaisesTo g.size d

variable {regions : List Region}

theorem Sprouts.steps_size (h : g.Sprouts g' regions) : (g'.block g.size).steps = [] := by
  rw [h.steps_eq, block_of_size_le (Nat.le_refl _)]

theorem Noted.sprout (hg : g.Noted w) (h : g.Sprouts g' regions) (hfree : ∀ d ∈ regions.map Region.target, w.Free d) :
    g'.Noted (w.add ⟨regions, none⟩) := by
  refine hg.extend h.size_eq h.raiseExit_eq h.guards_eq h.guards_size (fun c _ => h.steps_eq c) h.keeps
    (fun c hc e he => ?_) h.own hfree h.raises nofun fun s hs => ?_
  · exact .inl (h.edges c hc he)
  · rw [h.steps_size] at hs
    cases hs

theorem guards_addStep (g : FlowGraph) (c d : BlockId) (s : Step) :
    ((g.addStep c s).block d).guards = (g.block d).guards := by
  rw [addStep, block_modifyBlock]
  split <;> rfl

theorem Noted.sproutHandler {dispatch : BlockId} {handler : Node} {p : Place} (hg : g.Noted w)
    (h : g.Sprouts g' regions) (hfree : ∀ d ∈ regions.map Region.target, w.Free d) (hd : dispatch < g.size)
    (hp : w.places handler.id = some p) (ht : p.regions = regions) :
    ((g'.addEdge dispatch g.size .unconditional).addStep g.size (.handle handler)).Noted
      (w.add ⟨regions, some (dispatch, handler)⟩) := by
  set g₁ := g'.addEdge dispatch g.size .unconditional
  have hjoin : g'.Joins g₁ fun c e => c = dispatch ∧ e = ⟨dispatch, g.size, .unconditional⟩ := .addEdge g' ⟨rfl, rfl⟩
  have hsize : g₁.size = g.size + 1 := hjoin.size_eq.trans h.size_eq
  have hown : ∀ e ∈ (g₁.block g.size).successors, e.target ∈ regions.map Region.target := fun e he =>
    (hjoin.edges he).elim (h.own e) fun heq => absurd heq.1 (Nat.ne_of_gt hd)
  have hsteps : ((g₁.addStep g.size (.handle handler)).block g.size).steps = [.handle handler] := by
    rw [steps_addStep, if_pos ⟨rfl, hsize ▸ Nat.lt_succ_self _⟩, hjoin.steps_eq, h.steps_size, nil_append]
  refine hg.extend ((size_modifyBlock ..).trans hsize) (hjoin.raiseExit_eq.trans h.raiseExit_eq) (fun c hc => ?_) ?_
    (fun c hc => ?_) (fun c => ?_) (fun c hc e he => ?_) (fun e he => hown e ?_) hfree (fun d hd => ?_)
    (fun x n hx => ?_) fun s hs i hi => ?_
  · rw [guards_addStep, hjoin.guards_eq, h.guards_eq c hc]
  · rw [guards_addStep, hjoin.guards_eq, h.guards_size]
  · rw [steps_addStep, if_neg fun heq => hc heq.1.symm, append_nil, hjoin.steps_eq, h.steps_eq]
  · rw [successors_addStep]
    exact List.Subset.trans (h.keeps c) fun _ he => hjoin.keeps he
  · rw [successors_addStep] at he
    rcases hjoin.edges he with he | ⟨-, rfl⟩
    · exact .inl (h.edges c hc he)
    · exact .inr ⟨rfl, nofun⟩
  · rwa [successors_addStep] at he
  · obtain ⟨e, he, hk, ht⟩ := h.raises d hd
    refine ⟨e, ?_, hk, ht⟩
    rw [successors_addStep]
    exact hjoin.keeps he
  · obtain ⟨rfl, rfl⟩ := Prod.mk.inj (some.inj hx)
    refine ⟨?_, by rw [hsteps]; rfl, fun a ha => ?_⟩
    · rw [successors_addStep]
      exact mem_successors_addEdge_self (h.size_eq ▸ Nat.lt_succ_of_lt hd) _ _
    obtain ⟨e, he, htarget⟩ := List.mem_map.1 ha
    rw [successors_addStep] at he
    rcases hjoin.edges he with he | ⟨rfl, -⟩
    -- No other edge leads to a block that has just been made.
    · by_cases hnew : a = g.size
      · have hlt := (hfree _ (h.own e (hnew ▸ he))).lt_length
        exact absurd (hg.length_eq ▸ hlt) (Nat.not_lt.2 (Nat.le_of_eq htarget.symm))
      · have hlt := hg.bounded (List.mem_map_of_mem (f := Edge.target) (h.edges a hnew he))
        exact absurd hlt (Nat.not_lt.2 (Nat.le_of_eq htarget.symm))
    · rfl
  · rw [hsteps] at hs
    cases mem_singleton.1 hs
    cases hi
    exact ⟨p, hp, ht⟩

theorem Noted.addStep (hg : g.Noted w) {c : BlockId} {s : Step}
    (hs : ∀ i, s.owner? = some i → ∃ p, w.places i = some p ∧ w.Fits p c) : (g.addStep c s).Noted w where
  length_eq := hg.length_eq.trans (size_modifyBlock ..).symm
  bounded {b d} hd := by
    rw [successors, successors_addStep] at hd
    rw [FlowGraph.addStep, size_modifyBlock]
    exact hg.bounded hd
  guards ho := (guards_addStep ..).trans (hg.guards ho)
  targets {b o d} ho hd := by
    rw [RaisesTo, successors_addStep] at hd
    exact hg.targets ho hd
  raises {b o d} ho hd := by
    rw [RaisesTo, successors_addStep]
    exact hg.raises ho hd
  handlers {b o dispatch h} ho hh := by
    obtain ⟨hedge, hhead, honly⟩ := hg.handlers ho hh
    refine ⟨?_, ?_, fun a ha => honly a ?_⟩
    · rwa [successors_addStep]
    · rw [steps_addStep, head?_append, hhead]
      rfl
    · rwa [successors, successors_addStep] at ha
  steps {b t i} ht hi := by
    rw [steps_addStep] at ht
    rcases mem_append.1 ht with hold | hnew
    · exact hg.steps hold hi
    · split at hnew
      next hc =>
        obtain ⟨rfl, -⟩ := hc
        exact hs i (mem_singleton.1 hnew ▸ hi)
      next => cases hnew

end FlowGraph

theorem Region.guards_bare (regions : List Region) :
    (regions.map bare).filterMap guard? = regions.filterMap guard? := by
  rw [filterMap_map]
  refine filterMap_congr fun r _ => ?_
  cases r <;> rfl

/-- Where lowering stands, and the nodes that have no place yet. -/
structure Standing where
  place : Place
  todo : List NodeId

/-- The register fits the graph so far, and everything that lowering has in hand is what the standing says. -/
structure Kept (s : Standing) (w : Register) (b : Builder) : Prop where
  noted : b.graph.Noted w
  raiseExit_eq : b.graph.raiseExit = FlowGraph.initial.raiseExit
  regions_eq : b.regions.map Region.bare = s.place.regions
  free : ∀ c ∈ b.graph.exit :: b.graph.raiseExit :: s.place.targets, w.Free c
  loops : ∀ l ∈ b.loops, w.Free l.continueBlock ∧ w.Free l.breakBlock
  await : Region.Await (fun j => w.Free j.1 ∧ j.2.2 ≠ .exception) b.regions
  here : w.Fits s.place b.current
  fresh : ∀ i, s.todo.count i + (w.places i).isSome.toNat ≤ 1

namespace Kept

variable {s : Standing} {w w' : Register} {b : Builder} {g : FlowGraph}
variable (h : Kept s w b)
include h

theorem targets_eq : b.regions.map Region.target = s.place.targets := by
  simp [Place.targets, ← h.regions_eq, Function.comp_def]

theorem free_target {d : BlockId} (hd : d ∈ s.place.targets) : w.Free d :=
  h.free d (mem_cons_of_mem _ (mem_cons_of_mem _ hd))

theorem join (hg : b.graph.Joins g (b.graph.MayAdd w)) : Kept s w { b with graph := g } :=
  { h with
    noted := h.noted.join hg
    raiseExit_eq := hg.raiseExit_eq.trans h.raiseExit_eq
    free := fun c hc => h.free c (hg.exit_eq ▸ hg.raiseExit_eq ▸ hc) }

theorem extend {o : Origin} (hg : g.Noted (w.add o)) (hexit : g.exit = b.graph.exit)
    (hraise : g.raiseExit = b.graph.raiseExit) : Kept s (w.add o) { b with graph := g } := by
  have hw := w.le_add o
  exact { h with
    noted := hg
    raiseExit_eq := hraise.trans h.raiseExit_eq
    free := fun c hc => (h.free c (hexit ▸ hraise ▸ hc)).mono hw
    loops := fun l hl => (h.loops l hl).imp (·.mono hw) (·.mono hw)
    await := h.await.imp fun _ _ hj => ⟨hj.1.mono hw, hj.2⟩
    here := h.here.mono hw }

theorem exceptionTarget_eq : b.exceptionTarget = s.place.targets.headD b.graph.raiseExit := by
  rw [← h.targets_eq]
  unfold Builder.exceptionTarget
  split
  next hr => rw [hr]; rfl
  next hr => rw [hr]; rfl
  next hr => rw [hr]; rfl

theorem exceptionTarget_mem : b.exceptionTarget ∈ s.place.targets ∨ b.exceptionTarget = b.graph.raiseExit := by
  rw [h.exceptionTarget_eq]
  cases s.place.targets with
  | nil => exact .inr rfl
  | cons d _ => exact .inl mem_cons_self

theorem free_exceptionTarget : w.Free b.exceptionTarget := by
  rcases h.exceptionTarget_mem with hd | hd
  · exact h.free_target hd
  · exact hd ▸ h.free _ (by simp)

theorem mayRaise {s' : Standing} {b' : Builder} (h' : Kept s' w' b') (hw : w ≤ w') {c : BlockId}
    {o : Origin} (hc : w.origins[c]? = some o) (hs : s.place.regions ⊆ o.regions) :
    b'.graph.MayAdd w' c ⟨c, b.exceptionTarget, .exception⟩ := by
  refine ⟨h.free_exceptionTarget.mono hw, fun _ => ⟨o, Register.origins_mono hw hc, ?_⟩⟩
  rw [h'.raiseExit_eq, ← h.raiseExit_eq]
  exact h.exceptionTarget_mem.imp_left fun hd => map_subset _ hs hd

end Kept

namespace Builder

variable {β : Type} {w : Register} {s : Standing} {seam : Option BlockId} {todo : List NodeId} {c c' : BlockId}

/-! ## Single actions -/

theorem sprouts_newBlockAt {b b' : Builder} {d : Nat} {id : BlockId} (hb : Kept s w b)
    (hrun : (newBlockAt d).run b = .ok (id, b')) :
    id = b.graph.size ∧ ∃ g, b' = { b with graph := g } ∧ b.graph.Sprouts g s.place.regions := by
  cases hrun
  refine ⟨rfl, _, rfl, ?_⟩
  set g := (b.graph.addBlock d (b.regions.filterMap Region.guard?)).2 with hg
  have hsize : g.size = b.graph.size + 1 := size_addBlock ..
  have hsteps : ∀ c, (g.block c).steps = (b.graph.block c).steps := (FlowGraph.Quiet.addBlock ..).steps_eq
  have hold : ∀ c, (g.block c).successors = (b.graph.block c).successors := by
    intro c
    rw [hg, block_addBlock]
    split
    next hc => rw [FlowGraph.block_of_size_le (Nat.le_of_eq hc.symm)]
    next => rfl
  have hnew : (g.block b.graph.size).successors = [] := by
    rw [hold, FlowGraph.block_of_size_le (Nat.le_refl _)]
  have hguards : ∀ c ≠ b.graph.size, (g.block c).guards = (b.graph.block c).guards := fun c hc => by
    rw [hg, block_addBlock, if_neg hc]
  have hguarded : (g.block b.graph.size).guards = s.place.regions.filterMap Region.guard? := by
    rw [hg, block_addBlock, if_pos rfl, ← hb.regions_eq, Region.guards_bare]
  have htargets : b.regions.map Region.target = s.place.regions.map Region.target := hb.targets_eq
  split
  next hr =>
    have hnone : s.place.regions.map Region.target = [] := by rw [← htargets, List.isEmpty_iff.1 hr, map_nil]
    refine ⟨hsize, rfl, rfl, hsteps, fun c => hold c ▸ .refl _, fun c _ => hold c ▸ .refl _, hguards, hguarded,
      fun e he => ?_, fun d hd => ?_⟩
    · have he : e ∈ (g.block b.graph.size).successors := he
      rw [hnew] at he
      cases he
    · rw [hnone] at hd
      cases hd
  next hr =>
    have hne : s.place.regions.map Region.target ≠ [] := by
      rw [← htargets]
      simpa using hr
    obtain ⟨d, rest, hd⟩ := exists_cons_of_ne_nil hne
    have hraise : b.exceptionTarget = d := by
      rw [hb.exceptionTarget_eq, Place.targets, hd]
      rfl
    rw [hraise]
    have hjoin : g.Joins (g.addEdge b.graph.size d .exception) fun c e => c = b.graph.size ∧ e.target = d :=
      .addEdge g ⟨rfl, rfl⟩
    refine ⟨hjoin.size_eq.trans hsize, hjoin.exit_eq, hjoin.raiseExit_eq, fun c => ?_, fun c e he => ?_,
      fun c hc e he => ?_, fun c hc => (hjoin.guards_eq c).trans (hguards c hc), (hjoin.guards_eq _).trans hguarded,
      fun e he => ?_, fun x hx => ?_⟩
    · exact (hjoin.steps_eq c).trans (hsteps c)
    · exact hjoin.keeps (hold c ▸ he)
    · exact hold c ▸ (hjoin.edges he).resolve_right fun h => hc h.1
    · rcases hjoin.edges he with he | he
      · rw [hnew] at he
        cases he
      · exact he.2 ▸ hd ▸ mem_cons_self
    · rw [hd] at hx
      cases hx
      exact ⟨_, FlowGraph.mem_successors_addEdge_self (hsize ▸ Nat.lt_succ_self _) _ _, rfl, rfl⟩

theorem notes_newBlockAt (d : Nat) : Carries Kept w s (newBlockAt d) fun id w' s' =>
      s' = s ∧ w'.Made id s.place.regions ∧ w.origins.length ≤ id := by
  intro w₁ b id b' hw hb hrun
  obtain ⟨rfl, g, rfl, hsprouts⟩ := sprouts_newBlockAt hb hrun
  have hnoted := hb.noted.sprout hsprouts fun _ => hb.free_target
  have hlen := hb.noted.length_eq
  refine ⟨_, s, w₁.le_add _, hb.extend hnoted hsprouts.exit_eq hsprouts.raiseExit_eq, rfl, ?_, ?_⟩
  · exact hlen ▸ w₁.origins_add _
  · exact hlen ▸ hw.1.length_le

theorem notes_newBlock : Carries Kept w s newBlock fun id w' s' =>
      s' = s ∧ w'.Made id s.place.regions ∧ w.origins.length ≤ id :=
  Carries.get.giving fun _ _ hw _ => (notes_newBlockAt _).imp fun _ _ _ _ h =>
    ⟨h.1, h.2.1, hw.1.length_le.trans h.2.2⟩

theorem notes_turnTo {regions : List Region} (seam' : Option BlockId) (h : w.Made c regions) :
    Carries Kept w ⟨⟨regions, seam⟩, todo⟩ (setCurrent c) fun _ _ s' => s' = ⟨⟨regions, seam'⟩, todo⟩ :=
  .modify fun w₁ _ hw hb => ⟨w₁, ⟨⟨regions, seam'⟩, todo⟩, le_rfl,
    { hb with here := .inl ⟨_, h.mono hw, rfl⟩ }, rfl⟩

theorem notes_setCurrent (h : w.Made c s.place.regions) :
    Carries Kept w s (setCurrent c) fun _ _ s' => s' = s := notes_turnTo _ h

theorem notes_push {step : Step} (h : ∀ i, step.owner? = some i → w.places i = some s.place) :
    Carries Kept w s (push step) fun _ _ s' => s' = s := by
  intro w₁ b x b' hw hb hrun
  cases hrun
  refine ⟨w₁, s, le_rfl, { hb with noted := hb.noted.addStep fun i hi => ?_ }, rfl⟩
  exact ⟨s.place, hw.2 i _ (h i hi), hb.here⟩

theorem notes_modifyGraph {f : FlowGraph → FlowGraph}
    (h : ∀ w₁ b, w ≤ w₁ → Kept s w₁ b → b.graph.Joins (f b.graph) (b.graph.MayAdd w₁)) :
    Carries Kept w s (modifyGraph f) fun _ _ s' => s' = s :=
  .modify fun w₁ b hw hb => ⟨w₁, s, le_rfl, hb.join (h w₁ b hw hb), rfl⟩

theorem notes_setTerminator (c : BlockId) (t : Terminator) :
    Carries Kept w s (modifyGraph fun g => g.setTerminator c t) fun _ _ s' => s' = s :=
  notes_modifyGraph fun _ _ _ _ => .setTerminator _ c t _

theorem notes_markHoisted (n : Node) : Carries Kept w s (markHoisted n) fun _ _ s' => s' = s :=
  .modify fun w₁ _ _ hb => ⟨w₁, s, le_rfl, { hb with noted := { hb.noted with } }, rfl⟩

theorem notes_hoist {n : Node} (h : w.places n.id = some s.place) :
    Carries Kept w s (hoist n) fun _ _ s' => s' = s :=
  .andThen (notes_push fun _ hi => some.inj hi ▸ h) (notes_markHoisted n)

theorem notes_hoistOnce {n : Node} (h : w.places n.id = some s.place) :
    Carries Kept w s (hoistOnce n) fun _ _ s' => s' = s := by
  refine Carries.get.giving fun b w₁ hw _ => ?_
  split
  · exact notes_hoist (hw.2 _ _ h)
  · exact .pure fun _ _ => rfl

theorem mayAdd_edge {g : FlowGraph} {kind : EdgeKind} {source : BlockId} (hk : kind ≠ .exception) (hc : w.Free c) :
    g.MayAdd w source ⟨source, c, kind⟩ := ⟨hc, fun h => absurd h hk⟩

theorem notes_jumpBy {kind : EdgeKind} (hk : kind ≠ .exception) (hc : w.Free c) :
    Carries Kept w s (jumpBy kind c) fun _ _ s' => s' = s := by
  refine Carries.get.giving fun b w₁ hw hb => ?_
  split
  · refine notes_modifyGraph fun w₂ b₂ hw₂ _ => ?_
    exact (FlowGraph.Joins.setTerminator _ _ _ _).trans (.addEdge _ (mayAdd_edge hk (hc.mono (hw.trans hw₂))))
  · exact .pure fun _ _ => rfl

theorem notes_jump (hc : w.Free c) : Carries Kept w s (jump c) fun _ _ s' => s' = s := notes_jumpBy nofun hc

theorem notes_fork {t : Terminator} (hc : w.Free c) (hc' : w.Free c') :
    Carries Kept w s (fork t c c') fun _ _ s' => s' = s := by
  refine Carries.get.giving fun b w₁ hw hb => notes_modifyGraph fun w₂ b₂ hw₂ _ => ?_
  have hw := hw.trans hw₂
  refine ((FlowGraph.Joins.setTerminator _ _ _ _).trans (.addEdge _ ?_)).trans (.addEdge _ ?_)
  · exact mayAdd_edge nofun (hc.mono hw)
  · exact mayAdd_edge nofun (hc'.mono hw)

theorem notes_route {source : BlockId} {j : BlockId × Nat × EdgeKind} (hj : w.Free j.1 ∧ j.2.2 ≠ .exception) :
    Carries Kept w s (route source j.1 j.2.1 j.2.2) fun _ _ s' => s' = s := by
  refine .withState fun w₁ b x b' hw hb hrun => ?_
  have hj : w₁.Free j.1 ∧ j.2.2 ≠ .exception := ⟨hj.1.mono hw, hj.2⟩
  split at hrun
  next entry rs hdefer =>
    cases hrun
    -- The jump waits for a last part, whose entry is among the targets in force.
    obtain ⟨hawait, hbare, hentry⟩ := hb.await.deferTo hj rfl hdefer
    have hedge : b.graph.MayAdd w₁ source ⟨source, entry, .unconditional⟩ :=
      mayAdd_edge nofun (hb.free_target (hb.targets_eq ▸ hentry))
    have hkept := hb.join (.addEdge b.graph hedge)
    exact ⟨w₁, s, le_rfl, { hkept with regions_eq := hbare.trans hb.regions_eq, await := hawait }, rfl⟩
  next =>
    cases hrun
    exact ⟨w₁, s, le_rfl, hb.join (.addEdge _ (mayAdd_edge hj.2 hj.1)), rfl⟩

theorem notes_raise {b : Builder} {o : Origin} (hb : Kept s w b) (hc : w.origins[c]? = some o)
    (hs : s.place.regions ⊆ o.regions) :
    Carries Kept w s (addEdge c b.exceptionTarget .exception) fun _ _ s' => s' = s :=
  notes_modifyGraph fun _ _ hw hb' => .addEdge _ (hb.mayRaise hb' hw hc hs)

theorem notes_startDead : Carries Kept w s startDead fun _ _ s' => s' = s :=
  notes_newBlock.giving fun _ _ _ h => notes_setCurrent h.1

/-! ## Expressions -/

theorem Carries.noteBranch {node value : Node} {merge : BlockId} {next : Unit → Build β}
    {result : β → Register → Standing → Prop} (hn : w.places node.id = some s.place) (hm : w.Free merge)
    (hv : w.places value.id = some s.place) (h : Carries Kept w s (next ()) result) :
    Carries Kept w s (hoistOnce value >>= fun _ => push (.bind node value) >>= fun _ => jump merge >>= next)
      result := by
  refine .andThen (notes_hoistOnce hv) ?_
  refine .andThen (notes_push fun i hi => ?_) (.andThen (notes_jump hm) h)
  exact some.inj hi ▸ hn

mutual

theorem notes_lowerExpr : ∀ (n : Node) (w : Register) (s : Standing), w.Puts s.place n.ids →
    Carries Kept w s (lowerExpr n) fun _ _ s' => s' = s
  | ⟨id, kind, span, parent, children⟩, w, s, h => by
    unfold lowerExpr
    extract_lets node
    have hid : w.places node.id = some s.place := h node.id node.id_mem_ids
    rw [Node.ids_mk] at h
    have hchildren : w.Puts s.place (Node.idsAll children) := h.subset (subset_cons_self _ _)
    have hmeet : ∀ {w' : Register} {merge : BlockId}, w'.Made merge s.place.regions →
        Carries Kept w' s (setCurrent merge >>= fun _ => markHoisted node) fun _ _ s' => s' = s :=
      fun hm => .andThen (notes_setCurrent hm) (notes_markHoisted node)
    split
    next hneeds =>
      split
      next hx =>
        split
        next _ op =>
          refine notes_newBlock.giving fun merge w₁ hw₁ hm => ?_
          refine .andThen (notes_lowerOperands node op children w₁ _ (hw₁.2 _ _ hid) (hchildren.mono hw₁) hm.1) ?_
          exact hmeet hm.1
        next =>
          split
          next _ test body orElse =>
            simp only [Node.idsAll_cons, Node.idsAll_nil, append_nil, Register.puts_append] at hchildren
            obtain ⟨htest, hbody, hElse⟩ := hchildren
            refine .andThen (notes_lowerExpr test w _ htest) ?_
            refine .andThen (notes_push fun i hi => some.inj hi ▸ htest _ test.id_mem_ids) ?_
            refine notes_newBlock.giving fun thenBlock w₁ hw₁ hthen => ?_
            refine notes_newBlock.giving fun elseBlock w₂ hw₂ helse => ?_
            refine notes_newBlock.giving fun merge w₃ hw₃ hm => ?_
            have hw := (hw₁.trans hw₂).trans hw₃
            have hthen := hthen.1.mono (hw₂.trans hw₃)
            have helse := helse.1.mono hw₃
            have hid := hw.2 _ _ hid
            have hbody := hbody.mono hw
            have hElse := hElse.mono hw
            refine .andThen (notes_fork hthen.free helse.free) ?_
            refine .andThen (notes_setCurrent hthen) ?_
            refine .andThen (notes_lowerExpr body w₃ _ hbody) ?_
            refine .noteBranch hid hm.1.free (hbody _ body.id_mem_ids) ?_
            refine .andThen (notes_setCurrent helse) ?_
            refine .andThen (notes_lowerExpr orElse w₃ _ hElse) ?_
            exact .noteBranch hid hm.1.free (hElse _ orElse.id_mem_ids) (hmeet hm.1)
          next => exact .throw _
      next => exact notes_lowerSequence [] children w _ nofun hchildren
    next => exact .pure fun _ _ => rfl
termination_by n => sizeOf n
decreasing_by all_goals (subst_vars; simp only [Node.mk.sizeOf_spec, List.cons.sizeOf_spec]; omega)

theorem notes_lowerOperands (node : Node) (op : LogicalOp) {merge : BlockId} : ∀ (values : List Node) (w : Register)
    (s : Standing), w.places node.id = some s.place → w.Puts s.place (Node.idsAll values) →
      w.Made merge s.place.regions →
      Carries Kept w s (lowerOperands node op merge values) fun _ _ s' => s' = s
  | [], w, s, _, _, _ => by
    unfold lowerOperands
    exact .pure fun _ _ => rfl
  | value :: values, w, s, hid, hvalues, hm => by
    unfold lowerOperands
    rw [Node.idsAll_cons, Register.puts_append] at hvalues
    obtain ⟨hvalue, hvalues⟩ := hvalues
    refine .andThen (notes_lowerExpr value w _ hvalue) ?_
    refine .andThen (notes_hoistOnce (hvalue _ value.id_mem_ids)) ?_
    refine .andThen (notes_push fun i hi => some.inj hi ▸ hid) ?_
    split
    · exact notes_jump hm.free
    · refine notes_newBlock.giving fun next w₁ hw₁ hnext => ?_
      have hm := hm.mono hw₁
      have hrest : Carries Kept w₁ s (setCurrent next >>= fun _ => lowerOperands node op merge values)
          fun _ _ s' => s' = s :=
        .andThen (notes_setCurrent hnext.1)
          (notes_lowerOperands node op values w₁ s (hw₁.2 _ _ hid) (hvalues.mono hw₁) hm)
      split
      · exact .andThen (notes_fork hnext.1.free hm.free) hrest
      · exact .andThen (notes_fork hm.free hnext.1.free) hrest
termination_by values => sizeOf values

theorem notes_lowerSequence : ∀ (waiting ns : List Node) (w : Register) (s : Standing),
    (∀ m ∈ waiting, w.places m.id = some s.place) → w.Puts s.place (Node.idsAll ns) →
      Carries Kept w s (lowerSequence waiting ns) fun _ _ s' => s' = s
  | waiting, [], w, s, _, _ => by
    unfold lowerSequence
    exact .pure fun _ _ => rfl
  | waiting, n :: ns, w, s, hwaiting, hns => by
    unfold lowerSequence
    rw [Node.idsAll_cons, Register.puts_append] at hns
    obtain ⟨hn, hns⟩ := hns
    have hid := hn _ n.id_mem_ids
    split
    · refine .andThen (.forM fun m hm => notes_hoist (hwaiting m hm)) ?_
      refine .andThen (notes_lowerExpr n w s hn) ?_
      refine Carries.get.giving fun b w₁ hw₁ _ => ?_
      refine notes_lowerSequence _ ns w₁ s (fun m hm => ?_) (hns.mono hw₁)
      split at hm
      · cases hm
      · exact mem_singleton.1 hm ▸ hw₁.2 _ _ hid
    · refine notes_lowerSequence _ ns w s (fun m hm => ?_) hns
      rcases mem_append.1 hm with hm | hm
      · exact hwaiting m hm
      · exact mem_singleton.1 hm ▸ hid
termination_by _ ns => sizeOf ns

end

end Builder
end PointsTo
