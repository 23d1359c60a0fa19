import PointsTo.Proofs.Flow.Guards

/-! # How blocks end

A block ends with a terminator, and edges lead out of it. The two agree if the edges along which a condition decides
are those that a branch or a loop names, and if nothing but an exception leads out of a block that raises. A block that
is still open agrees with whatever it is closed by, as long as the edges that come along are the right ones. -/

namespace PointsTo

/-- Whether a condition decides that control passes along such an edge. -/
def EdgeKind.isDecided : EdgeKind → Bool
  | .whenTrue | .whenFalse => true
  | .unconditional | .loopBack | .exception => false

structure Ending where
  terminator : Option Terminator
  edges : List Edge

def Block.ending (b : Block) : Ending := ⟨b.terminator, b.successors⟩

namespace Ending

/-- Where the edges lead along which a condition decides. -/
def choices (x : Ending) : List (EdgeKind × BlockId) :=
  (x.edges.filter (·.kind.isDecided)).map fun e => (e.kind, e.target)

structure Agrees (x : Ending) : Prop where
  branch : ∀ {n t e}, x.terminator = some (.branch n t e) → x.choices = [(.whenTrue, t), (.whenFalse, e)]
  loop : ∀ {n t e}, x.terminator = some (.loop n t e) → x.choices = [(.whenTrue, t), (.whenFalse, e)]
  raise : x.terminator = some .raise → x.edges ≠ [] ∧ ∀ e ∈ x.edges, e.kind = .exception
  decided : x.choices ≠ [] →
    ∃ n t e, x.terminator = some (.branch n t e) ∨ x.terminator = some (.loop n t e)

/-- Nothing has been decided yet about where control goes on, apart from exceptions. -/
structure Open (x : Ending) : Prop where
  terminator : x.terminator = none
  edges : ∀ e ∈ x.edges, e.kind = .exception

/-- No condition is decided, and no exception is raised for sure. -/
structure Plain (x : Ending) : Prop where
  terminator : ∀ t, x.terminator = some t → t = .ret ∨ ∃ d, t = .goto d
  choices : x.choices = []

/-- Control may go on elsewhere without an exception. -/
def Left (x : Ending) : Prop := ∃ e ∈ x.edges, e.kind ≠ .exception

/-- An exception is raised for sure, and still control may go on without one. -/
structure Failed (x : Ending) : Prop where
  terminator : x.terminator = some .raise
  left : x.Left

def close (x : Ending) (t : Terminator) : Ending := { x with terminator := some t }

def join (x : Ending) (e : Edge) : Ending := if e ∈ x.edges then x else { x with edges := x.edges ++ [e] }

variable {x : Ending} {e : Edge}

@[simp] theorem terminator_join (x : Ending) (e : Edge) : (x.join e).terminator = x.terminator := by
  unfold join
  split <;> rfl

theorem mem_edges_join {d : Edge} : d ∈ (x.join e).edges ↔ d ∈ x.edges ∨ d = e := by
  unfold join
  split
  next h => exact ⟨.inl, fun hd => hd.elim id (· ▸ h)⟩
  next => simp

theorem choices_join (h : e.kind.isDecided = false) : (x.join e).choices = x.choices := by
  unfold join
  split
  · rfl
  · simp [choices, h]

theorem choices_join_of_not_mem (h : e.kind.isDecided = true) (he : e ∉ x.edges) :
    (x.join e).choices = x.choices ++ [(e.kind, e.target)] := by
  simp [join, he, choices, h]

theorem Open.choices (h : x.Open) : x.choices = [] := by
  have hnone : x.edges.filter (·.kind.isDecided) = [] :=
    List.filter_eq_nil_iff.2 fun e he => by simp [h.edges e he, EdgeKind.isDecided]
  rw [Ending.choices, hnone, List.map_nil]

theorem Left.not_open (h : x.Left) : ¬x.Open := fun ho => h.elim fun e he => he.2 (ho.edges e he.1)

theorem Failed.not_agrees (h : x.Failed) : ¬x.Agrees :=
  fun ha => h.left.elim fun e he => he.2 ((ha.raise h.terminator).2 e he.1)

theorem Plain.not_failed (h : x.Plain) : ¬x.Failed := fun hf => by simpa using h.terminator _ hf.terminator

theorem Open.plain (h : x.Open) : x.Plain := ⟨fun t ht => by simp [h.terminator] at ht, h.choices⟩

theorem Open.join (h : x.Open) (he : e.kind = .exception) : (x.join e).Open := by
  refine ⟨(terminator_join x e).trans h.terminator, fun d hd => ?_⟩
  rcases mem_edges_join.1 hd with hd | rfl
  · exact h.edges d hd
  · exact he

theorem Plain.agrees (h : x.Plain) : x.Agrees where
  branch ht := by simpa using h.terminator _ ht
  loop ht := by simpa using h.terminator _ ht
  raise ht := by simpa using h.terminator _ ht
  decided hc := absurd h.choices hc

theorem Plain.join (h : x.Plain) (he : e.kind.isDecided = false) : (x.join e).Plain :=
  ⟨fun t ht => h.terminator t (terminator_join x e ▸ ht), (choices_join he).trans h.choices⟩

theorem Plain.close (h : x.Plain) {t : Terminator} (ht : t = .ret ∨ ∃ d, t = .goto d) : (x.close t).Plain :=
  ⟨fun _ heq => Option.some.inj heq ▸ ht, h.choices⟩

theorem Open.fork (h : x.Open) (b t e : BlockId) {c : Terminator}
    (hc : (∃ n, c = .branch n t e) ∨ ∃ n, c = .loop n t e) :
    (((x.close c).join ⟨b, t, .whenTrue⟩).join ⟨b, e, .whenFalse⟩).Agrees := by
  have hexception : ∀ d ∈ x.edges, d.kind = .exception := h.edges
  have htrue : ⟨b, t, .whenTrue⟩ ∉ (x.close c).edges := fun hd => by cases hexception _ hd
  have hfalse : ⟨b, e, .whenFalse⟩ ∉ ((x.close c).join ⟨b, t, .whenTrue⟩).edges := fun hd => by
    rcases mem_edges_join.1 hd with hd | hd
    · cases hexception _ hd
    · cases hd
  have hterminator : (((x.close c).join ⟨b, t, .whenTrue⟩).join ⟨b, e, .whenFalse⟩).terminator = some c := by
    simp [Ending.close]
  have hchoices : (((x.close c).join ⟨b, t, .whenTrue⟩).join ⟨b, e, .whenFalse⟩).choices =
      [(.whenTrue, t), (.whenFalse, e)] := by
    rw [choices_join_of_not_mem rfl hfalse, choices_join_of_not_mem rfl htrue]
    exact congrArg (· ++ [_] ++ [_]) h.choices
  rcases hc with ⟨n, rfl⟩ | ⟨n, rfl⟩
  all_goals
    constructor
    all_goals grind

theorem Open.raise (h : x.Open) (he : e.kind = .exception) : ((x.close .raise).join e).Agrees := by
  have hopen := h.join he
  have hedges : ((x.close .raise).join e).edges = (x.join e).edges := by
    unfold Ending.join Ending.close
    dsimp only
    split <;> rfl
  have hchoices : ((x.close .raise).join e).choices = [] := by
    rw [Ending.choices, hedges]
    exact hopen.choices
  constructor
  · exact fun ht => by simp [Ending.close] at ht
  · exact fun ht => by simp [Ending.close] at ht
  · rw [hedges]
    exact fun _ => ⟨List.ne_nil_of_mem (mem_edges_join.2 (.inr rfl)), hopen.edges⟩
  · exact fun hc => absurd hchoices hc

end Ending

namespace FlowGraph

variable {g : FlowGraph} {id i : BlockId}

def ending (g : FlowGraph) (b : BlockId) : Ending := (g.block b).ending

theorem ending_setTerminator (h : id < g.size) (t : Terminator) (i : BlockId) :
    (g.setTerminator id t).ending i = if i = id then (g.ending i).close t else g.ending i := by
  rw [ending, setTerminator, block_modifyBlock]
  by_cases hi : i = id
  · subst hi
    rw [if_pos ⟨rfl, h⟩, if_pos rfl]
    rfl
  · rw [if_neg fun hid => hi hid.1.symm, if_neg hi]
    rfl

theorem ending_addEdge (h : id < g.size) (target : BlockId) (kind : EdgeKind) (i : BlockId) :
    (g.addEdge id target kind).ending i =
      if i = id then (g.ending i).join ⟨id, target, kind⟩ else g.ending i := by
  have hpred : ∀ (g : FlowGraph) (e : Edge), (g.modifyBlock target
      fun b => { b with predecessors := b.predecessors ++ [e] }).ending i = g.ending i := by
    intro g e
    rw [ending, block_modifyBlock]
    split <;> rfl
  unfold FlowGraph.addEdge Ending.join
  extract_lets e
  by_cases he : e ∈ (g.block id).successors
  · rw [if_pos (List.contains_iff_mem.2 he)]
    split
    next hi =>
      subst hi
      exact (if_pos he).symm
    next => rfl
  · rw [if_neg (by simpa using he), hpred, ending, block_modifyBlock]
    by_cases hi : i = id
    · subst hi
      rw [if_pos ⟨rfl, h⟩, if_pos rfl]
      exact (if_neg he).symm
    · rw [if_neg fun hid => hi hid.1.symm, if_neg hi]
      rfl

theorem ending_addStep (g : FlowGraph) (id : BlockId) (s : Step) (i : BlockId) :
    (g.addStep id s).ending i = g.ending i := by
  rw [ending, addStep, block_modifyBlock]
  split <;> rfl

theorem ending_addBlock (g : FlowGraph) (d : Nat) (guards : List BlockId) (i : BlockId) :
    (g.addBlock d guards).2.ending i = g.ending i := by
  rw [ending, block_addBlock]
  split
  next h => rw [ending, block_of_size_le (Nat.le_of_eq h.symm)]; rfl
  next => rfl

theorem Widens.left {g' : FlowGraph} (hg : g.Widens g') (h : (g.ending i).Left) : (g'.ending i).Left :=
  h.imp fun _ he => ⟨hg.keeps i he.1, he.2⟩

theorem ending_of_size_le {b : BlockId} (h : g.size ≤ b) : (g.ending b).Open := by
  rw [ending, block_of_size_le h]
  exact ⟨rfl, nofun⟩

theorem ending_finish (g : FlowGraph) (i : BlockId) : g.finish.ending i = g.ending i := by
  obtain ⟨dead, hblock⟩ := g.block_finish i
  rw [ending, hblock, ending]
  rfl

end FlowGraph
end PointsTo
