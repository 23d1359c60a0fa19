import PointsTo.Proofs.Flow.Settled

/-! # Where the first branch is decided

Lowering an expression only ever adds to the blocks that are there. If something in the expression becomes
branches, then the step that takes the value on which the first of them is decided is added to the block
that was under construction before. -/

namespace PointsTo

theorem exists_ok_of_bind_eq_ok {ε α β : Type} {x : Except ε α} {f : α → Except ε β} {y : β}
    (h : x >>= f = .ok y) : ∃ a, x = .ok a ∧ f a = .ok y := by
  cases x with
  | error e => cases h
  | ok a => exact ⟨a, rfl, h⟩

theorem Node.children_ne_nil_of_isExpandable {n : Node} (h : n.isExpandable = true) : n.children ≠ [] := by
  obtain ⟨id, kind, span, parent, children⟩ := n
  rintro rfl
  obtain ⟨hkind, heffect⟩ := Bool.and_eq_true_iff.1 h
  cases kind <;> simp_all [isShortCircuit, hasEffect, anyEffect, Kind.hasSideEffect]

namespace Builder

section Rules

variable {α β : Type} {act : Build α} {next : α → Build β}

theorem run_bind_eq_ok {b b'' : Builder} {y : β} (h : (act >>= next).run b = .ok (y, b'')) :
    ∃ x b', act.run b = .ok (x, b') ∧ (next x).run b' = .ok (y, b'') := by
  obtain ⟨⟨x, b'⟩, hact, hnext⟩ := exists_ok_of_bind_eq_ok h
  exact ⟨x, b', hact, hnext⟩

/-- The graph after an action goes on where the one before it ended. -/
def Lengthens (act : Build α) : Prop :=
  ∀ b x b', act.run b = .ok (x, b') → b.graph.Prolongs b'.graph

/-- The action also goes on with the block under construction. -/
def Stays (act : Build α) : Prop :=
  ∀ b x b', act.run b = .ok (x, b') → b.graph.Prolongs b'.graph ∧ b'.current = b.current

/-- The action adds a certain step to the block under construction. -/
structure Opens (act : Build α) (p : Step → Prop) : Prop where
  lengthens : Lengthens act
  adds : ∀ b x b', b.current < b.graph.size → act.run b = .ok (x, b') →
    ∃ d, p d ∧ ((b.graph.block b.current).steps ++ [d]).Sublist (b'.graph.block b.current).steps

theorem Lengthens.pure (x : α) : Lengthens (pure x : Build α) := by
  intro b y b' hrun
  cases hrun
  exact .refl _

theorem Lengthens.bind (h : Lengthens act) (h' : ∀ x, Lengthens (next x)) : Lengthens (act >>= next) := by
  intro b y b'' hrun
  obtain ⟨x, b', hact, hnext⟩ := run_bind_eq_ok hrun
  exact (h _ _ _ hact).trans (h' x _ _ _ hnext)

theorem Lengthens.throw (e : Fault) : Lengthens (throw e : Build α) := by
  intro b x b' hrun
  cases hrun

theorem Stays.lengthens (h : Stays act) : Lengthens act := fun b x b' hrun => (h b x b' hrun).1

theorem Stays.pure (x : α) : Stays (pure x : Build α) := by
  intro b y b' hrun
  cases hrun
  exact ⟨.refl _, rfl⟩

theorem Stays.get : Stays (get : Build Builder) := by
  intro b y b' hrun
  cases hrun
  exact ⟨.refl _, rfl⟩

theorem Stays.bind (h : Stays act) (h' : ∀ x, Stays (next x)) : Stays (act >>= next) := by
  intro b y b'' hrun
  obtain ⟨x, b', hact, hnext⟩ := run_bind_eq_ok hrun
  obtain ⟨hg, hc⟩ := h _ _ _ hact
  obtain ⟨hg', hc'⟩ := h' x _ _ _ hnext
  exact ⟨hg.trans hg', hc'.trans hc⟩

theorem Stays.modifyGraph {f : FlowGraph → FlowGraph} (h : ∀ g : FlowGraph, g.Prolongs (f g)) :
    Stays (modifyGraph f) := by
  intro b y b' hrun
  cases hrun
  exact ⟨h _, rfl⟩

theorem Stays.forM {xs : List α} {f : α → Build Unit} (h : ∀ x, Stays (f x)) : Stays (xs.forM f) := by
  induction xs with
  | nil => exact pure ()
  | cons x xs ih =>
    change Stays (f x >>= fun _ => xs.forM f)
    exact (h x).bind fun _ => ih

variable {p : Step → Prop}

theorem Opens.mono {q : Step → Prop} (h : Opens act p) (hpq : ∀ d, p d → q d) : Opens act q := by
  refine ⟨h.lengthens, fun b x b' hb hrun => ?_⟩
  obtain ⟨d, hd, hsub⟩ := h.adds b x b' hb hrun
  exact ⟨d, hpq d hd, hsub⟩

theorem Opens.bind (h : Opens act p) (h' : ∀ x, Lengthens (next x)) : Opens (act >>= next) p := by
  refine ⟨h.lengthens.bind h', fun b y b'' hb hrun => ?_⟩
  obtain ⟨x, b', hact, hnext⟩ := run_bind_eq_ok hrun
  obtain ⟨d, hd, hsub⟩ := h.adds _ _ _ hb hact
  exact ⟨d, hd, hsub.trans ((h' x _ _ _ hnext).steps _).sublist⟩

theorem Stays.opens (h : Stays act) (h' : ∀ x, Opens (next x) p) : Opens (act >>= next) p := by
  refine ⟨h.lengthens.bind fun x => (h' x).lengthens, fun b y b'' hb hrun => ?_⟩
  obtain ⟨x, b', hact, hnext⟩ := run_bind_eq_ok hrun
  obtain ⟨hg, hc⟩ := h _ _ _ hact
  obtain ⟨d, hd, hsub⟩ := (h' x).adds _ _ _ (hc ▸ hg.lt_size hb) hnext
  rw [hc] at hsub
  exact ⟨d, hd, ((hg.steps _).sublist.append (.refl [d])).trans hsub⟩

end Rules

theorem stays_newBlockAt (d : Nat) : Stays (newBlockAt d) := by
  intro b x b' hrun
  have hnew := FlowGraph.Quiet.addBlock b.graph d (b.regions.filterMap Region.guard?)
  cases hrun
  refine ⟨?_, rfl⟩
  simp only
  split
  · exact hnew.prolongs
  · exact (hnew.trans (.addEdge _ _ _ _)).prolongs

theorem stays_newBlock : Stays newBlock := Stays.get.bind fun _ => stays_newBlockAt _

theorem stays_push (s : Step) : Stays (push s) :=
  Stays.get.bind fun _ => .modifyGraph fun g => g.prolongs_addStep _ s

theorem stays_markHoisted (n : Node) : Stays (markHoisted n) := .modifyGraph fun g => g.prolongs_hoist n.id

theorem stays_hoist (n : Node) : Stays (hoist n) := (stays_push _).bind fun _ => stays_markHoisted n

theorem stays_hoistOnce (n : Node) : Stays (hoistOnce n) := by
  refine Stays.get.bind fun b => ?_
  split
  · exact stays_hoist n
  · exact .pure ()

theorem stays_jumpBy (kind : EdgeKind) (target : BlockId) : Stays (jumpBy kind target) := by
  refine Stays.get.bind fun b => ?_
  split
  · exact .modifyGraph fun g => ((FlowGraph.Quiet.setTerminator g _ _).trans (.addEdge _ _ _ _)).prolongs
  · exact .pure ()

theorem stays_fork (t : Terminator) (thenBlock elseBlock : BlockId) : Stays (fork t thenBlock elseBlock) :=
  Stays.get.bind fun _ => .modifyGraph fun g =>
    (((FlowGraph.Quiet.setTerminator g _ t).trans (.addEdge _ _ _ _)).trans (.addEdge _ _ _ _)).prolongs

theorem lengthens_setCurrent (id : BlockId) : Lengthens (setCurrent id) := by
  intro b x b' hrun
  cases hrun
  exact .refl _

theorem opens_push {s : Step} {p : Step → Prop} (h : p s) : Opens (push s) p := by
  refine ⟨(stays_push s).lengthens, fun b x b' hb hrun => ⟨s, h, ?_⟩⟩
  cases hrun
  simp [FlowGraph.steps_addStep, hb]

theorem lowerExpr_of_not_needsExpansion {n : Node} (h : n.needsExpansion = false) : lowerExpr n = pure () := by
  cases n
  unfold lowerExpr
  extract_lets node
  rw [if_neg]
  simpa [node] using h

/-- An expression that needs it decides its first branch in the block that it starts in. -/
structure OpensBelow (n : Node) : Prop where
  lengthens : Lengthens (lowerExpr n)
  opens : n.needsExpansion = true → Opens (lowerExpr n) (Step.Decides n)

theorem OpensBelow.andThen {β : Type} {n : Node} {next : Unit → Build β} {p : Step → Prop} (h : OpensBelow n)
    (hp : ∀ d, d.Decides n → p d) (hnext : ∀ x, Opens (next x) p) : Opens (lowerExpr n >>= next) p := by
  by_cases hn : n.needsExpansion = true
  · exact ((h.opens hn).mono hp).bind fun x => (hnext x).lengthens
  · rw [lowerExpr_of_not_needsExpansion (by simpa using hn)]
    exact (Stays.pure ()).opens hnext

mutual

theorem opensBelow_lowerExpr : ∀ n : Node, OpensBelow n
  | ⟨id, kind, span, parent, children⟩ => by
    suffices h : Node.needsExpansion ⟨id, kind, span, parent, children⟩ = true →
        Opens (lowerExpr ⟨id, kind, span, parent, children⟩)
          (Step.Decides ⟨id, kind, span, parent, children⟩) by
      refine ⟨?_, h⟩
      by_cases hn : Node.needsExpansion ⟨id, kind, span, parent, children⟩ = true
      · exact (h hn).lengthens
      · rw [lowerExpr_of_not_needsExpansion (by simpa using hn)]
        exact .pure ()
    intro hn
    unfold lowerExpr
    extract_lets node
    rw [if_pos hn]
    split
    next hx =>
      split
      next _ op =>
        have hne : children ≠ [] := Node.children_ne_nil_of_isExpandable hx
        refine stays_newBlock.opens fun merge => ?_
        refine (((opens_lowerOperands node op merge children).2 hne).mono fun d hd => ?_).bind fun _ => ?_
        · exact hd.elim fun _ h => Step.Decides.of_child (n := node) h.1 h.2
        · exact (lengthens_setCurrent merge).bind fun _ => (stays_markHoisted node).lengthens
      next =>
        split
        next _ test body orElse =>
          have htest : ∀ d : Step, d.Decides test → d.Decides node :=
            fun d => Step.Decides.of_child (n := node) List.mem_cons_self
          refine (opensBelow_lowerExpr test).andThen htest fun _ => ?_
          refine (opens_push (htest (.test test) test.mem_preorder_self)).bind fun _ => ?_
          refine stays_newBlock.lengthens.bind fun thenBlock => ?_
          refine stays_newBlock.lengthens.bind fun elseBlock => ?_
          refine stays_newBlock.lengthens.bind fun merge => ?_
          refine (stays_fork _ _ _).lengthens.bind fun _ => ?_
          refine (lengthens_setCurrent _).bind fun _ => ?_
          refine (opensBelow_lowerExpr body).lengthens.bind fun _ => ?_
          refine (stays_hoistOnce body).lengthens.bind fun _ => ?_
          refine (stays_push _).lengthens.bind fun _ => ?_
          refine (stays_jumpBy _ _).lengthens.bind fun _ => ?_
          refine (lengthens_setCurrent _).bind fun _ => ?_
          refine (opensBelow_lowerExpr orElse).lengthens.bind fun _ => ?_
          refine (stays_hoistOnce orElse).lengthens.bind fun _ => ?_
          refine (stays_push _).lengthens.bind fun _ => ?_
          refine (stays_jumpBy _ _).lengthens.bind fun _ => ?_
          exact (lengthens_setCurrent merge).bind fun _ => (stays_markHoisted node).lengthens
        next => exact ⟨.throw _, fun b x b' _ hrun => by cases hrun⟩
    next hx =>
      have hany : Node.anyExpansion children = true := by
        unfold Node.needsExpansion at hn
        simp only [node] at hx
        simpa [hx] using (Bool.and_eq_true_iff.1 hn).2
      refine ((opens_lowerSequence [] children).2 hany).mono fun d hd => ?_
      exact hd.elim fun _ h => Step.Decides.of_child (n := node) h.1 h.2
termination_by n => sizeOf n
decreasing_by all_goals (subst_vars; simp only [Node.mk.sizeOf_spec, List.cons.sizeOf_spec]; omega)

theorem opens_lowerOperands (node : Node) (op : LogicalOp) (merge : BlockId) : ∀ values : List Node,
    Lengthens (lowerOperands node op merge values) ∧
      (values ≠ [] → Opens (lowerOperands node op merge values) fun d => ∃ value ∈ values, d.Decides value)
  | [] => by
    unfold lowerOperands
    exact ⟨.pure (), fun h => absurd rfl h⟩
  | value :: rest => by
    suffices h : Opens (lowerOperands node op merge (value :: rest))
        fun d => ∃ v ∈ value :: rest, d.Decides v from
      ⟨h.lengthens, fun _ => h⟩
    unfold lowerOperands
    refine (opensBelow_lowerExpr value).andThen (fun _ hd => ⟨value, List.mem_cons_self, hd⟩) fun _ => ?_
    refine (stays_hoistOnce value).opens fun _ => ?_
    refine (opens_push ⟨value, List.mem_cons_self, value.mem_preorder_self⟩).bind fun _ => ?_
    split
    · exact (stays_jumpBy _ _).lengthens
    · refine stays_newBlock.lengthens.bind fun block => ?_
      split
      all_goals
        refine (stays_fork _ _ _).lengthens.bind fun _ => ?_
        exact (lengthens_setCurrent block).bind fun _ => (opens_lowerOperands node _ merge rest).1
termination_by values => sizeOf values

theorem opens_lowerSequence : ∀ waiting ns : List Node, Lengthens (lowerSequence waiting ns) ∧
    (Node.anyExpansion ns = true → Opens (lowerSequence waiting ns) fun d => ∃ n ∈ ns, d.Decides n)
  | waiting, [] => by
    unfold lowerSequence
    exact ⟨.pure (), fun h => by simp [Node.anyExpansion] at h⟩
  | waiting, n :: rest => by
    unfold lowerSequence
    split
    next hn =>
      have h : Opens (waiting.forM hoist >>= fun _ => lowerExpr n >>= fun _ => get >>= fun b : Builder =>
          lowerSequence (if b.graph.isHoisted n.id then [] else [n]) rest)
          fun d => ∃ m ∈ n :: rest, d.Decides m := by
        refine (Stays.forM stays_hoist).opens fun _ => ?_
        have hlower := (opensBelow_lowerExpr n).opens hn
        refine (hlower.mono fun d hd => ⟨n, List.mem_cons_self, hd⟩).bind fun _ => ?_
        exact Stays.get.lengthens.bind fun b => (opens_lowerSequence _ rest).1
      exact ⟨h.lengthens, fun _ => h⟩
    next hn =>
      obtain ⟨hl, ho⟩ := opens_lowerSequence (waiting ++ [n]) rest
      refine ⟨hl, fun h => (ho ?_).mono fun d ⟨m, hm, hd⟩ => ⟨m, List.mem_cons_of_mem _ hm, hd⟩⟩
      simpa [Node.anyExpansion, hn] using h
termination_by _ ns => sizeOf ns

end

end Builder
end PointsTo
