import Mathlib.Data.List.Nodup
import PointsTo.Proofs.Flow.Construction

/-! # Operands evaluated ahead of branches

The flow graph of a unit is settled. Lowering is followed with an account of the nodes that it may still
hoist: as long as no number is on it twice or hoisted already, a node is found hoisted exactly if it has
become branches itself. -/

namespace PointsTo

open List FlowGraph
open Node (idsAll left)
open FlowGraph (Quiet)

namespace Builder

/-- The block under construction exists. No number stands twice on the list of the nodes that may still be hoisted, nor
is it hoisted already. The graph is settled. -/
structure Tidy (b : Builder) (todo : List NodeId) : Prop where
  current : b.current < b.graph.size
  fresh : ∀ i, todo.count i + (b.graph.isHoisted i).toNat ≤ 1
  settled : b.graph.Settled

section Account

variable {α β : Type} {g g' : FlowGraph} {todo todo₁ todo' rest : List NodeId} {b : Builder}

theorem Tidy.drop (h : b.Tidy todo) (hd : ∀ i, todo'.count i ≤ todo.count i) : b.Tidy todo' :=
  { h with fresh := fun i => by have := h.fresh i; have := hd i; omega }

theorem Tidy.quiet (h : b.Tidy todo) (hg : b.graph.Quiet g) : Tidy { b with graph := g } todo where
  current := Nat.lt_of_lt_of_le h.current hg.size_le
  fresh i := (hg.isHoisted_eq i).symm ▸ h.fresh i
  settled := hg.settled h.settled

theorem Tidy.isHoisted_eq_false {i : NodeId} (h : b.Tidy (i :: rest)) : b.graph.isHoisted i = false := by
  have hfresh := h.fresh i
  rw [count_cons_self] at hfresh
  cases hi : b.graph.isHoisted i with
  | false => rfl
  | true =>
    rw [hi, Bool.toNat_true] at hfresh
    omega

/-- Where the blocks of a graph are known, an action that may hoist some of the nodes on the list leaves the
others on it. It keeps the graph settled, and its result fits the graph it leaves behind. -/
def Arranges (todo todo' : List NodeId) (g : FlowGraph) (act : Build α) (result : α → FlowGraph → Prop) : Prop :=
  ∀ b x b', b.Tidy todo → g.Prolongs b.graph → act.run b = .ok (x, b') →
    b'.Tidy todo' ∧ b.graph.Prolongs b'.graph ∧ result x b'.graph

variable {act : Build α} {next : α → Build β} {mid : α → FlowGraph → Prop} {result : β → FlowGraph → Prop}

namespace Arranges

variable (h : Arranges todo todo' g act mid)
include h

theorem weaken (hg : g.Prolongs g') : Arranges todo todo' g' act mid :=
  fun b x b' hb hg' hrun => h b x b' hb (hg.trans hg') hrun

theorem drop (hd : ∀ i, todo.count i ≤ todo₁.count i) : Arranges todo₁ todo' g act mid :=
  fun b x b' hb hg hrun => h b x b' (hb.drop hd) hg hrun

theorem imp {mid' : α → FlowGraph → Prop}
    (hm : ∀ x g', g.Prolongs g' → mid x g' → mid' x g') : Arranges todo todo' g act mid' := by
  intro b x b' hb hg hrun
  obtain ⟨hb', hg', hx⟩ := h b x b' hb hg hrun
  exact ⟨hb', hg', hm x _ (hg.trans hg') hx⟩

omit h

theorem pure {x : α} (h : ∀ g', g.Prolongs g' → mid x g') : Arranges todo todo g (pure x) mid := by
  intro b y b' hb hg hrun
  cases hrun
  exact ⟨hb, .refl _, h _ hg⟩

theorem bind (h : Arranges todo todo₁ g act mid)
    (h' : ∀ x g', g.Prolongs g' → mid x g' → Arranges todo₁ todo' g' (next x) result) :
    Arranges todo todo' g (act >>= next) result := by
  intro b y b'' hb hg hrun
  obtain ⟨x, b', hact, hnext⟩ := run_bind_eq_ok hrun
  obtain ⟨hb', hg', hx⟩ := h b x b' hb hg hact
  obtain ⟨hb'', hg'', hy⟩ := h' x _ (hg.trans hg') hx b' y b'' hb' (.refl _) hnext
  exact ⟨hb'', hg'.trans hg'', hy⟩

theorem andThen {act : Build Unit} {next : Unit → Build β} (h : Arranges todo todo₁ g act fun _ _ => True)
    (h' : Arranges todo₁ todo' g (next ()) result) : Arranges todo todo' g (act >>= next) result :=
  h.bind fun _ _ hg _ => h'.weaken hg

theorem throw (e : Fault) : Arranges todo todo' g (throw e : Build α) mid := by
  intro b x b' _ _ hrun
  cases hrun

theorem get : Arranges todo todo g (get : Build Builder) fun b g' => b.Tidy todo ∧ b.graph = g' := by
  intro b x b' hb hg hrun
  cases hrun
  exact ⟨hb, .refl _, hb, rfl⟩

theorem modify {f : Builder → Builder}
    (h : ∀ b, b.Tidy todo → g.Prolongs b.graph → (f b).Tidy todo' ∧ b.graph.Prolongs (f b).graph) :
    Arranges todo todo' g (modify f) fun _ _ => True := by
  intro b x b' hb hg hrun
  cases hrun
  obtain ⟨hb', hg'⟩ := h b hb hg
  exact ⟨hb', hg', trivial⟩

theorem modifyGraph {f : FlowGraph → FlowGraph} (h : ∀ g : FlowGraph, g.Quiet (f g)) :
    Arranges todo todo g (modifyGraph f) fun _ _ => True :=
  modify fun b hb _ => ⟨hb.quiet (h b.graph), (h b.graph).prolongs⟩

end Arranges

/-! ## Single actions -/

theorem arranges_setCurrent {id : BlockId} (h : id < g.size) :
    Arranges todo todo g (setCurrent id) fun _ _ => True :=
  .modify fun _ hb hg => ⟨{ hb with current := hg.lt_size h }, .refl _⟩

theorem arranges_newBlockAt (d : Nat) : Arranges todo todo g (newBlockAt d) fun id g' => id < g'.size := by
  intro b id b' hb hg hrun
  have hnew := Quiet.addBlock b.graph d (b.regions.filterMap Region.guard?)
  have hsize : b.graph.size < (b.graph.addBlock d (b.regions.filterMap Region.guard?)).2.size := by
    simp [size_addBlock]
  cases hrun
  dsimp only
  split
  · exact ⟨hb.quiet hnew, hnew.prolongs, hsize⟩
  · have hedge := Quiet.addEdge (b.graph.addBlock d (b.regions.filterMap Region.guard?)).2
      b.graph.size b.exceptionTarget .exception
    exact ⟨hb.quiet (hnew.trans hedge), (hnew.trans hedge).prolongs, Nat.lt_of_lt_of_le hsize hedge.size_le⟩

theorem arranges_newBlock : Arranges todo todo g newBlock fun id g' => id < g'.size :=
  .bind .get fun _ _ _ _ => arranges_newBlockAt _

theorem arranges_push (s : Step) (hs : s.Settled g) (hne : ∀ n, s ≠ .eval n := by exact fun _ => nofun) :
    Arranges todo todo g (push s) fun _ _ => True := by
  intro b x b' hb hg hrun
  have hg' := b.graph.prolongs_addStep b.current s
  cases hrun
  refine ⟨⟨hg'.lt_size hb.current, hb.fresh, ?_⟩, hg', trivial⟩
  exact hb.settled.addStep (hs.mono hg) hne _

theorem fresh_hoist {i : NodeId} (h : ∀ j, (i :: rest).count j + (g.isHoisted j).toNat ≤ 1) (j : NodeId) :
    rest.count j + ((g.hoist i).isHoisted j).toNat ≤ 1 := by
  have hj := h j
  rw [count_cons] at hj
  rw [isHoisted_hoist]
  cases hij : i == j <;> cases hg : g.isHoisted j <;> simp_all

theorem arranges_markHoisted (n : Node) :
    Arranges (n.id :: rest) rest g (markHoisted n) fun _ g' => g'.isHoisted n.id = true := by
  intro b x b' hb hg hrun
  have hg' := b.graph.prolongs_hoist n.id
  cases hrun
  refine ⟨⟨hb.current, fresh_hoist hb.fresh, hb.settled.hoist n.id⟩, hg', ?_⟩
  exact (isHoisted_hoist _ _ _).trans (by simp)

variable {n : Node} {waiting : List Node}

theorem arranges_hoist (hn : (Step.eval n).Settled g) :
    Arranges (n.id :: rest) rest g (hoist n) fun _ _ => True := by
  intro b x b' hb hg hrun
  have hg' := (b.graph.prolongs_addStep b.current (.eval n)).trans (prolongs_hoist _ n.id)
  cases hrun
  refine ⟨⟨hg'.lt_size hb.current, fresh_hoist hb.fresh, ?_⟩, hg', trivial⟩
  exact hb.settled.evaluate (hn.mono hg) hb.isHoisted_eq_false _

theorem arranges_jumpBy (kind : EdgeKind) (target : BlockId) :
    Arranges todo todo g (jumpBy kind target) fun _ _ => True := by
  refine .bind .get fun b g' _ _ => ?_
  split
  · exact .modifyGraph fun g => (Quiet.setTerminator g _ _).trans (.addEdge _ _ _ _)
  · exact .pure fun _ _ => trivial

theorem arranges_fork (t : Terminator) (thenBlock elseBlock : BlockId) :
    Arranges todo todo g (fork t thenBlock elseBlock) fun _ _ => True :=
  .bind .get fun _ _ _ _ => .modifyGraph fun g =>
    ((Quiet.setTerminator g _ t).trans (.addEdge _ _ _ _)).trans (.addEdge _ _ _ _)

/-! ## Expressions -/

theorem isHoisted_eq_isExpandable (hb : b.Tidy (n.left ++ rest)) (hn : b.graph.Lowered n) :
    b.graph.isHoisted n.id = n.isExpandable := by
  cases hx : n.isExpandable with
  | true => exact hn.isHoisted hx
  | false =>
    rw [left, hx] at hb
    exact hb.isHoisted_eq_false

theorem arranges_hoistOnce (hn : g.Lowered n) : Arranges (n.left ++ rest) rest g (hoistOnce n) fun _ _ => True := by
  refine .bind .get fun b g' hg hb => ?_
  obtain ⟨hb, rfl⟩ := hb
  have hn := hn.mono hg
  rw [isHoisted_eq_isExpandable hb hn]
  cases hx : n.isExpandable with
  | true =>
    rw [left, hx]
    exact .pure fun _ _ => trivial
  | false =>
    rw [left, hx]
    exact arranges_hoist (hn.settled hx)

theorem Arranges.settle {next : Unit → Build β}
    (h : Arranges (n.ids ++ rest) (n.left ++ rest) g (lowerExpr n) fun _ g' => g'.Lowered n)
    (h' : Arranges rest todo' g (next ()) result) :
    Arranges (n.ids ++ rest) todo' g (lowerExpr n >>= fun _ => hoistOnce n >>= next) result :=
  h.bind fun _ _ hg hn => (arranges_hoistOnce hn).andThen (h'.weaken hg)

theorem arranges_hoistAll (h : ∀ m ∈ waiting, (Step.eval m).Settled g) :
    Arranges (waiting.map (·.id) ++ rest) rest g (waiting.forM hoist) fun _ _ => True := by
  induction waiting with
  | nil => exact .pure fun _ _ => trivial
  | cons m waiting ih =>
    change Arranges _ rest g (hoist m >>= fun _ => waiting.forM hoist) _
    exact (arranges_hoist (h m (by simp))).andThen (ih fun k hk => h k (by simp [hk]))

theorem mem_hoistAll {x : PUnit} {b' : Builder} (hb : b.current < b.graph.size)
    (hrun : (waiting.forM hoist).run b = .ok (x, b')) {m : Node} (hm : m ∈ waiting) :
    Step.eval m ∈ (b'.graph.block b.current).steps ∧ b'.graph.isHoisted m.id = true := by
  induction waiting generalizing b with
  | nil => cases hm
  | cons k waiting ih =>
    change (hoist k >>= fun _ => waiting.forM hoist).run b = _ at hrun
    obtain ⟨_, b₁, hk, hrest⟩ := run_bind_eq_ok hrun
    obtain ⟨hg, hc⟩ := stays_hoist k _ _ _ hk
    rcases mem_cons.1 hm with rfl | hm
    · have hlater := (Stays.forM stays_hoist).lengthens _ _ _ hrest
      cases hk
      refine ⟨(hlater.steps _).subset ?_, hlater.hoisted ?_⟩
      · change Step.eval m ∈ ((b.graph.addStep b.current (.eval m)).block b.current).steps
        rw [steps_addStep, if_pos ⟨rfl, hb⟩]
        exact mem_append_right _ mem_cons_self
      · exact (isHoisted_hoist _ _ _).trans (by simp)
    · exact hc ▸ ih (hc ▸ hg.lt_size hb) hrest hm

/-- Operands that wait are evaluated in the block in which the expression after them decides its first
branch. -/
theorem arranges_ahead (hw : ∀ m ∈ waiting, (Step.eval m).Settled g) (hn : n.needsExpansion = true)
    (hlower : Arranges (n.ids ++ rest) (n.left ++ rest) g (lowerExpr n) fun _ g' => g'.Lowered n) :
    Arranges (waiting.map (·.id) ++ (n.ids ++ rest)) (n.left ++ rest) g
      (waiting.forM hoist >>= fun _ => lowerExpr n)
      fun _ g' => (∀ m ∈ waiting, g'.Ahead m n) ∧ g'.Lowered n := by
  intro b x b₂ hb hg hrun
  obtain ⟨y, b₁, hhoist, hrun⟩ := run_bind_eq_ok hrun
  obtain ⟨hb₁, hg₁, -⟩ := arranges_hoistAll hw b y b₁ hb hg hhoist
  obtain ⟨hb₂, hg₂, hlowered⟩ := hlower b₁ x b₂ hb₁ (hg.trans hg₁) hrun
  have hcurrent := (Stays.forM stays_hoist _ _ _ hhoist).2
  obtain ⟨d, hd, hsub⟩ := ((opensBelow_lowerExpr n).opens hn).adds b₁ x b₂ hb₁.current hrun
  refine ⟨hb₂, hg₁.trans hg₂, fun m hm => ?_, hlowered⟩
  obtain ⟨heval, hhoisted⟩ := mem_hoistAll hb.current hhoist hm
  rw [← hcurrent] at heval
  refine ⟨hg₂.hoisted hhoisted, fun _ => ⟨b₁.current, d, hd, .trans ?_ hsub⟩⟩
  exact (singleton_sublist.2 heval).append (.refl [d])

theorem count_left_le (n : Node) (i : NodeId) : n.left.count i ≤ n.ids.count i := by
  rw [left, Node.ids_eq]
  split
  · simp
  · simp [count_cons]

mutual

theorem arranges_lowerExpr : ∀ (n : Node) (g : FlowGraph) (rest : List NodeId),
    Arranges (n.ids ++ rest) (n.left ++ rest) g (lowerExpr n) fun _ g' => g'.Lowered n
  | ⟨id, kind, span, parent, children⟩, g, rest => by
    by_cases hn : Node.needsExpansion ⟨id, kind, span, parent, children⟩ = true
    case neg =>
      have hn : Node.needsExpansion ⟨id, kind, span, parent, children⟩ = false := by simpa using hn
      rw [lowerExpr_of_not_needsExpansion hn]
      refine (Arranges.pure fun _ _ => lowered_of_not_needsExpansion hn).drop fun i => ?_
      rw [count_append, count_append]
      exact Nat.add_le_add_right (count_left_le _ i) _
    unfold lowerExpr left
    extract_lets node
    rw [if_pos hn]
    split
    next hx =>
      have hlowered : ∀ {g₁ : FlowGraph}, Arranges (id :: rest) rest g₁ (markHoisted node)
          fun _ g' => g'.Lowered node := by
        refine (arranges_markHoisted node).imp fun _ g' _ h _ => ?_
        rwa [if_pos hx]
      split
      next _ op =>
        refine .drop (?_ : Arranges (idsAll children ++ id :: rest) _ _ _ _) fun i => ?_
        · refine arranges_newBlock.bind fun merge g₁ _ hm => ?_
          refine (arranges_lowerOperands node op children g₁ _ hm).andThen ?_
          exact (arranges_setCurrent hm).andThen hlowered
        · simp [count_cons]
          omega
      next =>
        split
        next _ test body orElse =>
          refine .drop (?_ : Arranges (test.ids ++ (body.ids ++ (orElse.ids ++ id :: rest))) _ _ _ _)
            fun i => ?_
          · refine (arranges_lowerExpr test g _).bind fun _ g₀ _ ht => ?_
            refine .drop (?_ : Arranges (body.ids ++ (orElse.ids ++ id :: rest)) _ _ _ _) fun i => by simp
            refine (arranges_push (.test test) ht).andThen ?_
            refine arranges_newBlock.bind fun thenBlock g₁ _ hthen => ?_
            refine arranges_newBlock.bind fun elseBlock g₂ h₂ helse => ?_
            refine arranges_newBlock.bind fun merge g₃ h₃ hm => ?_
            refine (arranges_fork _ _ _).andThen ?_
            refine (arranges_setCurrent ((h₂.trans h₃).lt_size hthen)).andThen ?_
            refine (arranges_lowerExpr body g₃ _).settle ?_
            refine (arranges_push (.bind _ _) trivial).andThen ?_
            refine (arranges_jumpBy _ _).andThen ?_
            refine (arranges_setCurrent (h₃.lt_size helse)).andThen ?_
            refine (arranges_lowerExpr orElse g₃ _).settle ?_
            refine (arranges_push (.bind _ _) trivial).andThen ?_
            refine (arranges_jumpBy _ _).andThen ?_
            exact (arranges_setCurrent hm).andThen hlowered
          · simp [count_cons]
            omega
        next => exact .throw _
    next hx =>
      refine .drop (?_ : Arranges ([] ++ (idsAll children ++ id :: rest)) _ _ _ _) fun i => ?_
      · refine (arranges_lowerSequence [] children g (id :: rest) nofun nofun).imp fun _ g' _ h _ => ?_
        rwa [if_neg hx]
      · simp [count_cons]
        omega
termination_by n => sizeOf n
decreasing_by all_goals (subst_vars; simp only [Node.mk.sizeOf_spec, List.cons.sizeOf_spec]; omega)

theorem arranges_lowerOperands (node : Node) (op : LogicalOp) {merge : BlockId} :
    ∀ (values : List Node) (g : FlowGraph) (rest : List NodeId), merge < g.size →
      Arranges (idsAll values ++ rest) rest g (lowerOperands node op merge values) fun _ _ => True
  | [], g, rest, _ => by
    unfold lowerOperands
    exact .pure fun _ _ => trivial
  | value :: values, g, rest, hm => by
    unfold lowerOperands
    rw [Node.idsAll_cons, append_assoc]
    refine (arranges_lowerExpr value g _).settle ?_
    refine (arranges_push (.bind _ _) trivial).andThen ?_
    split
    · exact (arranges_jumpBy _ _).drop fun i => by simp
    · refine arranges_newBlock.bind fun next g' hg hnext => ?_
      have hm := hg.lt_size hm
      split
      all_goals
        refine (arranges_fork _ _ _).andThen ?_
        exact (arranges_setCurrent hnext).andThen (arranges_lowerOperands node _ values g' rest hm)
termination_by values => sizeOf values

theorem arranges_lowerSequence : ∀ (waiting ns : List Node) (g : FlowGraph) (rest : List NodeId),
    (∀ m ∈ waiting, (Step.eval m).Settled g) → (∀ k ∈ waiting.tail, k.needsExpansion = false) →
      Arranges (waiting.map (·.id) ++ (idsAll ns ++ rest)) rest g (lowerSequence waiting ns)
        fun _ g' => g'.Arranged (waiting ++ ns) ∧ g'.LoweredAll ns
  | waiting, [], g, rest, hw, ht => by
    unfold lowerSequence
    rw [append_nil]
    exact (Arranges.pure fun _ _ => ⟨arranged_of_tail ht, trivial⟩).drop fun i => by simp
  | waiting, n :: ns, g, rest, hw, ht => by
    unfold lowerSequence
    rw [Node.idsAll_cons, append_assoc]
    split
    next hn =>
      have hahead := arranges_ahead hw hn (arranges_lowerExpr n g (idsAll ns ++ rest))
      have hrest : ∀ (x : Unit) (g' : FlowGraph), g.Prolongs g' → (∀ m ∈ waiting, g'.Ahead m n) ∧ g'.Lowered n →
          Arranges (n.left ++ (idsAll ns ++ rest)) rest g' (get >>= fun b : Builder =>
            lowerSequence (if b.graph.isHoisted n.id then [] else [n]) ns)
            fun _ g' => g'.Arranged (waiting ++ n :: ns) ∧ g'.LoweredAll (n :: ns) := by
        rintro - g₁ - ⟨hm, hlowered⟩
        refine .bind .get fun b g₂ h₂ hb => ?_
        obtain ⟨hb, rfl⟩ := hb
        have hlowered := hlowered.mono h₂
        rw [isHoisted_eq_isExpandable hb hlowered]
        cases hx : n.isExpandable with
        | true =>
          rw [left, hx]
          refine (arranges_lowerSequence [] ns b.graph rest nofun nofun).imp fun _ g₃ h₃ h => ?_
          have hn' : g₃.Arranged (n :: ns) :=
            ⟨fun k _ => ⟨(hlowered.mono h₃).isHoisted hx, fun hx' => by simp [hx] at hx'⟩, h.1⟩
          exact ⟨.append hn ht (fun m hm' => ((hm m hm').mono h₂).mono h₃) hn', hlowered.mono h₃, h.2⟩
        | false =>
          rw [left, hx]
          have hsettled : ∀ m ∈ [n], (Step.eval m).Settled b.graph := fun m hm =>
            mem_singleton.1 hm ▸ hlowered.settled hx
          refine (arranges_lowerSequence [n] ns b.graph rest hsettled nofun).imp fun _ g₃ h₃ h => ?_
          exact ⟨.append hn ht (fun m hm' => ((hm m hm').mono h₂).mono h₃) h.1, hlowered.mono h₃, h.2⟩
      have h := hahead.bind hrest
      rwa [bind_assoc] at h
    next hn =>
      have hn : n.needsExpansion = false := by simpa using hn
      have hx : n.isExpandable = false := by
        cases hx : n.isExpandable with
        | true => rw [Node.needsExpansion_of_isExpandable hx] at hn; cases hn
        | false => rfl
      have hw : ∀ m ∈ waiting ++ [n], (Step.eval m).Settled g := by
        intro m hm
        rcases mem_append.1 hm with hm | hm
        · exact hw m hm
        · cases mem_singleton.1 hm
          exact ⟨hx, fun h => by simp [hn] at h⟩
      have ht : ∀ k ∈ (waiting ++ [n]).tail, k.needsExpansion = false := by
        intro k hk
        cases waiting with
        | nil => cases hk
        | cons m waiting =>
          rcases mem_append.1 hk with hk | hk
          · exact ht k hk
          · exact mem_singleton.1 hk ▸ hn
      refine .drop (?_ : Arranges ((waiting ++ [n]).map (·.id) ++ (idsAll ns ++ rest)) _ _ _ _) fun i => ?_
      · refine (arranges_lowerSequence (waiting ++ [n]) ns g rest hw ht).imp fun _ g' _ h => ?_
        rw [append_assoc] at h
        exact ⟨h.1, lowered_of_not_needsExpansion hn, h.2⟩
      · simp [Node.ids_eq, count_cons]
termination_by _ ns => sizeOf ns

end

/-! ## Jobs -/

theorem arranges_act (j : Job) : Arranges (j.ids ++ rest) rest g j.act fun _ _ => True := by
  cases j with
  | test n =>
    refine (arranges_lowerExpr n g rest).bind fun _ g' _ hn => ?_
    exact (arranges_push (.test n) hn).drop fun i => by simp
  | settle n => exact (arranges_lowerExpr n g rest).bind fun _ _ _ hn => arranges_hoistOnce hn
  | refuse n => exact (arranges_lowerExpr n g rest).bind fun _ _ _ hn => arranges_hoistOnce hn
  | exec stmt =>
    refine .drop (?_ : Arranges (idsAll stmt.operands ++ rest) _ _ _ _) fun i => by simp [Job.ids, count_cons]
    exact (arranges_lowerSequence [] _ g rest nofun nofun).bind fun _ g' _ hs => arranges_push (.exec stmt) hs
  | iterate target iterable => exact (arranges_push (.iterate target iterable) trivial).drop fun i => by simp
  | handle handler => exact (arranges_push (.handle handler) trivial).drop fun i => by simp
  | enter item =>
    refine .drop (?_ : Arranges (idsAll item.children.head?.toList ++ rest) _ _ _ _) fun i => by
      simp [Job.ids, count_cons]
    exact (arranges_lowerSequence [] _ g rest nofun nofun).bind fun _ g' _ hs => arranges_push (.enter item) hs.2
  | parameters arguments => exact arranges_push (.parameters arguments) trivial
  | returnNone => exact arranges_push .returnNone trivial

end Account

/-- No number stands twice among those of the nodes that may still be hoisted, nor is it hoisted already. -/
def Fresh (todo : Multiset NodeId) (g : FlowGraph) : Prop := ∀ i, todo.count i + (g.isHoisted i).toNat ≤ 1

/-- Jobs hoist nodes that they deal with, and keep the graph settled. -/
def hoisting : Ledger where
  rel jobs g g' := ∀ rest, Fresh (idsOf jobs + rest) g → g.Settled → Fresh rest g' ∧ g'.Settled
  quiet hq rest hfresh hsettled := by
    refine ⟨fun i => ?_, hq.settled hsettled⟩
    rw [hq.isHoisted_eq i]
    simpa using hfresh i
  trans := by
    intro jobs jobs' g g' g'' h h' rest hfresh hsettled
    rw [idsOf_add, add_assoc] at hfresh
    obtain ⟨hfresh, hsettled⟩ := h _ hfresh hsettled
    exact h' rest hfresh hsettled
  performs := by
    intro j s W H fails b b' x hb hrun rest hfresh hsettled
    have htidy : b.Tidy (j.ids ++ rest.toList) := by
      refine ⟨hb.current.lt_size, fun i => ?_, hsettled⟩
      rw [← Multiset.coe_count, ← Multiset.coe_add, Multiset.coe_toList, ← idsOf_singleton]
      exact hfresh i
    have hb' := (arranges_act j b x b' htidy (.refl _) hrun).1
    refine ⟨fun i => ?_, hb'.settled⟩
    rw [← Multiset.coe_toList rest, Multiset.coe_count]
    exact hb'.fresh i

end Builder

theorem FlowGraph.settled_of_ofUnit {policy : UnsupportedPolicy} {unit : UnitInfo} {g : FlowGraph}
    (h : FlowGraph.ofUnit policy unit = .ok g) (hbody : ∀ body ∈ unit.body, (idsAll body).Nodup) : g.Settled := by
  obtain ⟨body, hb⟩ := exists_body_of_ofUnit h
  obtain ⟨b, fails, -, hp, rfl⟩ := exists_at_of_ofUnit Builder.hoisting hb h
  refine (Quiet.finish b.graph).settled (hp.rel 0 (fun i => ?_) .initial).2
  have hnone : FlowGraph.initial.isHoisted i = false := Std.ExtTreeSet.contains_empty
  rw [add_zero, Builder.map_unit Builder.idsOf_zero Builder.idsOf_add (fun _ => rfl) rfl, hnone]
  exact (Builder.count_idsOf_jobsAll_le body i).trans (nodup_iff_count_le_one.1 (hbody body hb) i)

end PointsTo
