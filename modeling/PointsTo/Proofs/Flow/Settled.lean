import PointsTo.Flow.Builder
import PointsTo.Proofs.Flow.Mirrored
import PointsTo.Proofs.Program.Numbering

/-! # Settled graphs

An operand to the left of one that becomes branches has its value in a temporary by the time the first of
these branches is decided. A graph is settled if this is so wherever a step evaluates several operands, if
nothing that has become branches is evaluated by a step, and if each node is evaluated ahead at most once.
The graph without steps is settled, and so is each graph that has grown from it by steps that are. -/

namespace PointsTo

open List

namespace Node

theorem needsExpansion_of_isExpandable {n : Node} (h : n.isExpandable = true) : n.needsExpansion = true := by
  obtain ⟨id, kind, span, parent, children⟩ := n
  have hkind : isShortCircuit kind = true := (Bool.and_eq_true_iff.1 h).1
  rw [needsExpansion, h]
  cases kind <;> first | rfl | cases hkind

/-- What an expression leaves to be hoisted when it has been lowered: itself, unless it has become
branches. -/
def left (n : Node) : List NodeId := if n.isExpandable then [] else [n.id]

/-- The operands of a statement in the order of their evaluation, where what they contain may become
branches. -/
def operands (stmt : Node) : List Node :=
  match stmt.kind with
  | .assign => stmt.children.getLast?.toList ++ stmt.children.dropLast
  | .augAssign _ | .annAssign _ => stmt.children[1]?.toList
  | .exprStmt | .ret | .raise => stmt.children
  | _ => []

end Node

/-- The step takes the value on which a part of the expression decides where control goes on. -/
def Step.Decides (n : Node) : Step → Prop
  | .test x | .bind _ x => x ∈ n.preorder
  | _ => False

theorem Step.Decides.of_child {n c : Node} (hc : c ∈ n.children) {d : Step} (h : d.Decides c) : d.Decides n := by
  cases d with
  | test x => exact Node.mem_preorder_of_child hc h
  | bind into x => exact Node.mem_preorder_of_child hc h
  | _ => cases h

namespace FlowGraph

/-- One operand has its value in a temporary ahead of another one that becomes branches. Unless it has become
branches itself, it is evaluated in the block in which the first branch of the other one is decided. -/
def Ahead (g : FlowGraph) (m n : Node) : Prop :=
  g.isHoisted m.id = true ∧
    (m.isExpandable = false → ∃ b d, d.Decides n ∧ [Step.eval m, d].Sublist (g.block b).steps)

/-- Every operand comes ahead of the next one that becomes branches. -/
def Arranged (g : FlowGraph) : List Node → Prop
  | [] => True
  | m :: rest => (∀ n, rest.find? (·.needsExpansion) = some n → g.Ahead m n) ∧ Arranged g rest

mutual

/-- What has to become branches in an expression has become branches, with its operands arranged. -/
def Lowered (g : FlowGraph) : Node → Prop
  | ⟨id, kind, span, parent, children⟩ =>
    Node.needsExpansion ⟨id, kind, span, parent, children⟩ = true →
      if Node.isExpandable ⟨id, kind, span, parent, children⟩ then g.isHoisted id = true
      else Arranged g children ∧ LoweredAll g children

def LoweredAll (g : FlowGraph) : List Node → Prop
  | [] => True
  | n :: rest => Lowered g n ∧ LoweredAll g rest

end

end FlowGraph

/-- What a step evaluates has been lowered, and its operands are arranged. What has become branches is not
evaluated at all. -/
def Step.Settled (g : FlowGraph) : Step → Prop
  | .exec stmt => g.Arranged stmt.operands ∧ g.LoweredAll stmt.operands
  | .eval n =>
    n.isExpandable = false ∧ (n.needsExpansion = true → g.Arranged n.children ∧ g.LoweredAll n.children)
  | .test n => g.Lowered n
  | .enter item => g.LoweredAll item.children.head?.toList
  | _ => True

namespace FlowGraph

/-- All steps are settled, and each hoisted node is evaluated by at most one step. -/
structure Settled (g : FlowGraph) : Prop where
  steps : ∀ b, ∀ s ∈ (g.block b).steps, s.Settled g
  hoisted : ∀ {b m}, Step.eval m ∈ (g.block b).steps → g.isHoisted m.id = true
  once : ∀ {b c : BlockId} {i j : Nat} {m n : Node}, (g.block b).steps[i]? = some (Step.eval m) →
    (g.block c).steps[j]? = some (Step.eval n) → m.id = n.id → b = c ∧ i = j

/-! ## Longer graphs -/

/-- Another graph goes on where this one ends: its blocks have the steps of this one, perhaps followed by
more. -/
structure Prolongs (g g' : FlowGraph) : Prop where
  size_le : g.size ≤ g'.size
  steps : ∀ b, (g.block b).steps <+: (g'.block b).steps
  hoisted : ∀ {i}, g.isHoisted i = true → g'.isHoisted i = true

variable {g g' g'' : FlowGraph}

namespace Prolongs

theorem refl (g : FlowGraph) : Prolongs g g := ⟨Nat.le_refl _, fun _ => prefix_rfl, id⟩

theorem trans (h : Prolongs g g') (h' : Prolongs g' g'') : Prolongs g g'' :=
  ⟨Nat.le_trans h.size_le h'.size_le, fun b => (h.steps b).trans (h'.steps b),
    fun hi => h'.hoisted (h.hoisted hi)⟩

theorem lt_size (h : Prolongs g g') {b : BlockId} (hb : b < g.size) : b < g'.size :=
  Nat.lt_of_lt_of_le hb h.size_le

end Prolongs

theorem Ahead.mono {m n : Node} (h : g.Ahead m n) (hg : g.Prolongs g') : g'.Ahead m n := by
  refine ⟨hg.hoisted h.1, fun hm => ?_⟩
  obtain ⟨b, d, hd, hsub⟩ := h.2 hm
  exact ⟨b, d, hd, hsub.trans (hg.steps b).sublist⟩

theorem Arranged.mono {ns : List Node} (h : g.Arranged ns) (hg : g.Prolongs g') : g'.Arranged ns := by
  induction ns with
  | nil => trivial
  | cons m ns ih => exact ⟨fun n hn => (h.1 n hn).mono hg, ih h.2⟩

theorem arranged_of_tail {ns : List Node} (h : ∀ k ∈ ns.tail, k.needsExpansion = false) : g.Arranged ns := by
  induction ns with
  | nil => trivial
  | cons m ns ih =>
    have hns : ∀ k ∈ ns, k.needsExpansion = false := h
    refine ⟨fun n hn => ?_, ih fun k hk => hns k (mem_of_mem_tail hk)⟩
    have hfound := find?_some hn
    rw [hns n (mem_of_find?_eq_some hn)] at hfound
    cases hfound

theorem Arranged.append {waiting rest : List Node} {n : Node} (hn : n.needsExpansion = true)
    (ht : ∀ k ∈ waiting.tail, k.needsExpansion = false) (hw : ∀ m ∈ waiting, g.Ahead m n)
    (h : g.Arranged (n :: rest)) : g.Arranged (waiting ++ n :: rest) := by
  induction waiting with
  | nil => exact h
  | cons m waiting ih =>
    have ht : ∀ k ∈ waiting, k.needsExpansion = false := ht
    rw [cons_append]
    refine ⟨fun k hk => ?_, ih (fun k hk => ht k (mem_of_mem_tail hk)) fun k hk => hw k (by simp [hk])⟩
    have hnone : waiting.find? (·.needsExpansion) = none := find?_eq_none.2 fun k hk => by simp [ht k hk]
    rw [find?_append, hnone, Option.none_or, find?_cons, hn] at hk
    exact Option.some.inj hk ▸ hw m (by simp)

mutual

theorem Lowered.mono (hg : g.Prolongs g') : ∀ {n : Node}, g.Lowered n → g'.Lowered n
  | ⟨id, kind, span, parent, children⟩, h => by
    unfold Lowered at h ⊢
    intro hn
    have h := h hn
    split at h
    next hx =>
      rw [if_pos hx]
      exact hg.hoisted h
    next hx =>
      rw [if_neg hx]
      exact ⟨h.1.mono hg, LoweredAll.mono hg h.2⟩

theorem LoweredAll.mono (hg : g.Prolongs g') : ∀ {ns : List Node}, g.LoweredAll ns → g'.LoweredAll ns
  | [], _ => trivial
  | _ :: _, h => ⟨Lowered.mono hg h.1, LoweredAll.mono hg h.2⟩

end

theorem lowered_of_not_needsExpansion {n : Node} (h : n.needsExpansion = false) : g.Lowered n := by
  cases n
  unfold Lowered
  simp [h]

theorem Lowered.isHoisted {n : Node} (h : g.Lowered n) (hn : n.isExpandable = true) : g.isHoisted n.id = true := by
  cases n
  unfold Lowered at h
  have h := h (Node.needsExpansion_of_isExpandable hn)
  rwa [if_pos hn] at h

theorem Lowered.settled {n : Node} (h : g.Lowered n) (hn : n.isExpandable = false) : (Step.eval n).Settled g := by
  refine ⟨hn, fun hneeds => ?_⟩
  cases n
  unfold Lowered at h
  have h := h hneeds
  rwa [if_neg (by simp [hn])] at h

end FlowGraph

theorem Step.Settled.mono {g g' : FlowGraph} {s : Step} (h : s.Settled g) (hg : g.Prolongs g') : s.Settled g' := by
  cases s with
  | exec stmt => exact ⟨h.1.mono hg, h.2.mono hg⟩
  | eval n => exact ⟨h.1, fun hn => ⟨(h.2 hn).1.mono hg, (h.2 hn).2.mono hg⟩⟩
  | test n => exact FlowGraph.Lowered.mono hg h
  | enter item => exact FlowGraph.LoweredAll.mono hg h
  | _ => trivial

namespace FlowGraph

variable {g g' g'' : FlowGraph}

/-- Another graph has the same steps in more blocks. -/
structure Quiet (g g' : FlowGraph) : Prop where
  size_le : g.size ≤ g'.size
  steps_eq : ∀ b, (g'.block b).steps = (g.block b).steps
  hoisted_eq : g'.hoisted = g.hoisted

namespace Quiet

theorem refl (g : FlowGraph) : Quiet g g := ⟨Nat.le_refl _, fun _ => rfl, rfl⟩

theorem trans (h : Quiet g g') (h' : Quiet g' g'') : Quiet g g'' :=
  ⟨Nat.le_trans h.size_le h'.size_le, fun b => (h'.steps_eq b).trans (h.steps_eq b),
    h'.hoisted_eq.trans h.hoisted_eq⟩

theorem isHoisted_eq (h : Quiet g g') (i : NodeId) : g'.isHoisted i = g.isHoisted i := by
  rw [isHoisted, h.hoisted_eq, isHoisted]

theorem prolongs (h : Quiet g g') : g.Prolongs g' :=
  ⟨h.size_le, fun b => h.steps_eq b ▸ prefix_rfl, fun hi => (h.isHoisted_eq _).trans hi⟩

theorem settled (h : Quiet g g') (hg : g.Settled) : g'.Settled where
  steps b s hs := Step.Settled.mono (hg.steps b s (h.steps_eq b ▸ hs)) h.prolongs
  hoisted hm := (h.isHoisted_eq _).trans (hg.hoisted (h.steps_eq _ ▸ hm))
  once hm hn := hg.once (h.steps_eq _ ▸ hm) (h.steps_eq _ ▸ hn)

variable (g : FlowGraph)

theorem modifyBlock (id : BlockId) {f : Block → Block} (hf : ∀ b, (f b).steps = b.steps) :
    Quiet g (g.modifyBlock id f) where
  size_le := by simp
  steps_eq b := by
    rw [block_modifyBlock]
    split
    · exact hf _
    · rfl
  hoisted_eq := rfl

theorem setTerminator (id : BlockId) (t : Terminator) : Quiet g (g.setTerminator id t) :=
  modifyBlock g id fun _ => rfl

theorem addEdge (source target : BlockId) (kind : EdgeKind) : Quiet g (g.addEdge source target kind) := by
  unfold FlowGraph.addEdge
  extract_lets e
  split
  · exact refl g
  · set g' := g.modifyBlock source fun b => { b with successors := b.successors ++ [e] }
    have hsource : Quiet g g' := modifyBlock g source fun _ => rfl
    exact hsource.trans (modifyBlock g' target fun _ => rfl)

theorem addBlock (d : Nat) (guards : List BlockId) : Quiet g (g.addBlock d guards).2 where
  size_le := by simp [size_addBlock]
  steps_eq b := by
    rw [block_addBlock]
    split
    next h => rw [block_of_size_le (Nat.le_of_eq h.symm)]
    next => rfl
  hoisted_eq := rfl

theorem finish : Quiet g g.finish where
  size_le := by simp [FlowGraph.finish, size]
  steps_eq b := by
    obtain ⟨dead, hblock⟩ := g.block_finish b
    rw [hblock]
  hoisted_eq := rfl

end Quiet

/-! ## More steps -/

theorem steps_addStep (g : FlowGraph) (id b : BlockId) (s : Step) :
    ((g.addStep id s).block b).steps = (g.block b).steps ++ if id = b ∧ b < g.size then [s] else [] := by
  rw [addStep, block_modifyBlock]
  split <;> simp

theorem prolongs_addStep (g : FlowGraph) (id : BlockId) (s : Step) : g.Prolongs (g.addStep id s) where
  size_le := by simp [addStep]
  steps b := by
    rw [steps_addStep]
    exact prefix_append _ _
  hoisted h := h

def hoist (g : FlowGraph) (i : NodeId) : FlowGraph := { g with hoisted := g.hoisted.insert i }

theorem isHoisted_hoist (g : FlowGraph) (i j : NodeId) : (g.hoist i).isHoisted j = (i == j || g.isHoisted j) := by
  have hcompare : (compare i j == .eq) = (i == j) := by
    rw [Bool.eq_iff_iff, beq_iff_eq, beq_iff_eq, Nat.compare_eq_eq]
  rw [hoist, isHoisted, Std.ExtTreeSet.contains_insert, hcompare, isHoisted]

theorem prolongs_hoist (g : FlowGraph) (i : NodeId) : g.Prolongs (g.hoist i) where
  size_le := Nat.le_refl _
  steps _ := prefix_rfl
  hoisted h := by simp [isHoisted_hoist, h]

theorem Settled.hoist (hg : g.Settled) (i : NodeId) : (g.hoist i).Settled where
  steps b s hs := Step.Settled.mono (hg.steps b s hs) (prolongs_hoist g i)
  hoisted hm := (prolongs_hoist g i).hoisted (hg.hoisted hm)
  once := hg.once

theorem getElem?_addStep {id b : BlockId} {s t : Step} {i : Nat}
    (h : ((g.addStep id s).block b).steps[i]? = some t) :
    (g.block b).steps[i]? = some t ∨ t = s ∧ b = id ∧ i = (g.block id).steps.length := by
  rw [steps_addStep, getElem?_append] at h
  split at h
  · exact .inl h
  next hi =>
    split at h
    next hid =>
      obtain ⟨rfl, -⟩ := hid
      obtain ⟨hlt, ht⟩ := List.getElem?_eq_some_iff.1 h
      simp only [length_singleton, Nat.lt_one_iff] at hlt
      exact .inr ⟨by simpa using ht.symm, rfl, by omega⟩
    next => cases h

theorem mem_addStep {id b : BlockId} {s t : Step} (h : t ∈ ((g.addStep id s).block b).steps) :
    t ∈ (g.block b).steps ∨ t = s := by
  obtain ⟨i, hi⟩ := mem_iff_getElem?.1 h
  exact (getElem?_addStep hi).imp mem_of_getElem? (·.1)

theorem Settled.addStep (hg : g.Settled) {s : Step} (hs : s.Settled g) (hne : ∀ n, s ≠ .eval n) (id : BlockId) :
    (g.addStep id s).Settled := by
  have hg' := prolongs_addStep g id s
  refine ⟨fun b t ht => ?_, fun {b m} hm => ?_, fun hm hn => ?_⟩
  · rcases mem_addStep ht with ht | rfl
    · exact Step.Settled.mono (hg.steps b t ht) hg'
    · exact Step.Settled.mono hs hg'
  · exact hg.hoisted ((mem_addStep hm).resolve_right fun h => hne m h.symm)
  · exact hg.once ((getElem?_addStep hm).resolve_right fun h => hne _ h.1.symm)
      ((getElem?_addStep hn).resolve_right fun h => hne _ h.1.symm)

theorem Settled.evaluate (hg : g.Settled) {n : Node} (hs : (Step.eval n).Settled g)
    (hn : g.isHoisted n.id = false) (id : BlockId) : ((g.addStep id (.eval n)).hoist n.id).Settled := by
  have hg' := (prolongs_addStep g id (.eval n)).trans (prolongs_hoist _ n.id)
  have hold : ∀ {b : BlockId} {i : Nat} {m : Node}, (g.block b).steps[i]? = some (.eval m) → m.id ≠ n.id := by
    intro b i m hm heq
    have hm := hg.hoisted (mem_of_getElem? hm)
    rw [heq, hn] at hm
    cases hm
  refine ⟨fun b t ht => ?_, fun {b m} hm => ?_, fun {b c i j m k} hm hk heq => ?_⟩
  · rcases mem_addStep ht with ht | rfl
    · exact Step.Settled.mono (hg.steps b t ht) hg'
    · exact Step.Settled.mono hs hg'
  · rcases mem_addStep hm with hm | hm
    · exact hg'.hoisted (hg.hoisted hm)
    · cases Step.eval.inj hm
      simp [isHoisted_hoist]
  · rcases getElem?_addStep hm with hm | ⟨hm, hb, hi⟩ <;> rcases getElem?_addStep hk with hk | ⟨hk, hc, hj⟩
    · exact hg.once hm hk heq
    · exact absurd (heq.trans (congrArg Node.id (Step.eval.inj hk))) (hold hm)
    · exact absurd (heq.symm.trans (congrArg Node.id (Step.eval.inj hm))) (hold hk)
    · exact ⟨hb.trans hc.symm, hi.trans hj.symm⟩

theorem Settled.initial : FlowGraph.initial.Settled := by
  have hsteps : ∀ b, (FlowGraph.initial.block b).steps = [] := by
    intro b
    match b with
    | 0 | 1 | 2 => rfl
    | b + 3 => rfl
  refine ⟨fun b s hs => ?_, fun {b m} hm => ?_, fun {b c i j m n} hm => ?_⟩
  · simp [hsteps] at hs
  · simp [hsteps] at hm
  · simp [hsteps] at hm

end FlowGraph

end PointsTo
