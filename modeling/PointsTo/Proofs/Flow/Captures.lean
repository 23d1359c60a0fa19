import PointsTo.Proofs.Evaluation.MarkedBlock
import PointsTo.Proofs.Flow.Construction
import PointsTo.Proofs.Scope.Visibility

/-! # Captured variables

The code around a lambda or comprehension uses what its body captures: the variables read there that live outside the
scope of the body. So a read comes up through one body after another, as long as each of them has a scope that the
variable lives outside of. A body without a scope of its own counts with the scope of the unit, and there the variables
of the unit get stuck. -/

namespace PointsTo

open List
open FlowEvent (ofBlock flattenAll)

theorem FlowEvent.sizeOf_lt_of_mem {node : NodeId} {events es : List FlowEvent} (h : .body node events ∈ es) :
    sizeOf events < sizeOf es := by
  have := List.sizeOf_lt_of_mem h
  simp only [body.sizeOf_spec] at this
  omega

theorem ScopeTree.Ordered.isWithin_trans {t : ScopeTree} {s u v : ScopeId} (ht : t.Ordered) (hu : t.isWithin s u = true)
    (hv : t.isWithin u v = true) : t.isWithin s v = true := by
  simp only [isWithin, contains_iff_mem] at hu hv ⊢
  by_cases hs : s < t.size
  · have hup := (mem_ancestry ht hs).1 hu
    have hle : u ≤ s := by
      rcases Relation.reflTransGen_iff_eq_or_transGen.1 hup with rfl | hup
      · exact Nat.le_refl _
      · exact Nat.le_of_lt (ht.lt_of_encloses hup)
    exact (mem_ancestry ht hs).2 (hup.trans ((mem_ancestry ht (Nat.lt_of_le_of_lt hle hs)).1 hv))
  · have hparent : (t.scope s).parent = none := by
      rw [scope, Array.getElem?_eq_none (Nat.le_of_not_lt hs)]
      rfl
    have hself : t.ancestry s ⊆ [s] := by
      unfold ancestry
      cases t.size <;> simp [chain, hparent]
    obtain rfl : u = s := mem_singleton.1 (hself hu)
    exact hv

namespace Gathered

section

variable (scopes : ScopeTree) (home : ScopeId)

def isOutside (scope : ScopeId) : Location → Bool
  | .var owner _ => !scopes.isWithin owner scope
  | _ => false

def nestedFlow (node : NodeId) (events : List FlowEvent) : NestedFlow :=
  let scope := (scopes.scopeOf? node).getD home
  let facts := ((({} : Gathered).addAll scopes home events).settle node).facts
  ⟨node, scope, facts, capturedBy scopes scope facts⟩

/-- What an event lets the code around it use. -/
def brought : FlowEvent → List Location
  | .use l => [l]
  | .body node events => (nestedFlow scopes home node events).captured
  | _ => []

def contained : FlowEvent → List NestedFlow
  | .body node events => (({} : Gathered).addAll scopes home events).nested ++ [nestedFlow scopes home node events]
  | _ => []

/-- A location is read among the events, or in a body among them that it lives outside of. -/
inductive Surfaces (l : Location) : List FlowEvent → Prop
  | here {es : List FlowEvent} : .use l ∈ es → Surfaces l es
  | through {es events : List FlowEvent} {node : NodeId} : .body node events ∈ es →
      isOutside scopes (nestedFlow scopes home node events).scope l = true → Surfaces l events → Surfaces l es

end

def allUses (a : Gathered) : List Location := a.facts.flatMap (·.uses) ++ a.uses

variable {scopes : ScopeTree} {home : ScopeId}
variable {l : Location}

theorem isOutside_of_isWithin {inner outer : ScopeId} (ht : scopes.Ordered)
    (h : scopes.isWithin inner outer = true) (hl : isOutside scopes outer l = true) :
    isOutside scopes inner l = true := by
  cases l with
  | var owner name =>
    simp only [isOutside, Bool.not_eq_true', Bool.eq_false_iff] at hl ⊢
    exact fun howner => hl (ht.isWithin_trans howner h)
  | _ => cases hl

variable (a : Gathered)

theorem allUses_settle (node : NodeId) : (a.settle node).allUses = a.allUses := by
  unfold settle
  split
  · rfl
  · simp [allUses]

theorem uses_settle (node : NodeId) : (a.settle node).uses = [] := by
  unfold settle
  split
  next h => exact List.isEmpty_iff.1 h
  next => rfl

theorem allUses_addAll (es : List FlowEvent) :
    (a.addAll scopes home es).allUses = a.allUses ++ es.flatMap (brought scopes home) := by
  induction es generalizing a with
  | nil => simp [addAll]
  | cons e es ih =>
    rw [addAll, ih, flatMap_cons, ← append_assoc]
    congr 1
    cases e with
    | settle node => exact (allUses_settle a node).trans (append_nil _).symm
    | _ => simp [add, allUses, brought, define, enclose, nestedFlow]

theorem nested_addAll (es : List FlowEvent) :
    (a.addAll scopes home es).nested = a.nested ++ es.flatMap (contained scopes home) := by
  induction es generalizing a with
  | nil => simp [addAll]
  | cons e es ih =>
    rw [addAll, ih, flatMap_cons, ← append_assoc]
    congr 1
    cases e with
    | settle node => exact (nested_settle a node).trans (append_nil _).symm
    | _ => simp [add, contained, define, enclose, nestedFlow]

theorem addAll_append (es es' : List FlowEvent) :
    a.addAll scopes home (es ++ es') = (a.addAll scopes home es).addAll scopes home es' := by
  induction es generalizing a with
  | nil => rfl
  | cons e es ih => exact ih _

theorem uses_steps {p : Declarations} {g : FlowGraph} {u : UnitInfo} (b : Block) :
    (({} : Gathered).addAll scopes home (ofBlock p g u b)).uses = [] := by
  obtain hsteps | ⟨steps, s, hsteps⟩ := eq_nil_or_concat b.steps
  · rw [ofBlock, hsteps]
    rfl
  · rw [ofBlock, hsteps, concat_eq_append, flatMap_append, flatMap_singleton, addAll_append,
      addAll_append]
    exact uses_settle _ _

theorem uses_nestedFlow (node : NodeId) (events : List FlowEvent) :
    (nestedFlow scopes home node events).facts.flatMap (·.uses) = events.flatMap (brought scopes home) := by
  have h := allUses_settle (({} : Gathered).addAll scopes home events) node
  rw [allUses, uses_settle, allUses_addAll, append_nil] at h
  exact h

theorem mem_captured {node : NodeId} {events : List FlowEvent} : l ∈ (nestedFlow scopes home node events).captured ↔
      isOutside scopes (nestedFlow scopes home node events).scope l = true ∧
        ∃ e ∈ events, l ∈ brought scopes home e := by
  rw [← mem_flatMap, ← uses_nestedFlow node, and_comm]
  refine mem_foldl_addNew.trans ?_
  rw [mem_filter]
  cases l <;> simp [isOutside, nestedFlow]

theorem surfaces_of_brought : ∀ es : List FlowEvent, (∃ e ∈ es, l ∈ brought scopes home e) →
    Surfaces scopes home l es
  | es, ⟨.use l', he, hl⟩ => .here (mem_singleton.1 hl ▸ he)
  | es, ⟨.body node events, he, hl⟩ => by
    obtain ⟨hout, hl⟩ := mem_captured.1 hl
    exact .through he hout (surfaces_of_brought events hl)
termination_by es => sizeOf es
decreasing_by exact FlowEvent.sizeOf_lt_of_mem he

theorem Surfaces.brought {es : List FlowEvent} (h : Surfaces scopes home l es) :
    ∃ e ∈ es, l ∈ brought scopes home e := by
  induction h with
  | here h => exact ⟨_, h, mem_singleton_self _⟩
  | through h hout _ ih => exact ⟨_, h, mem_captured.2 ⟨hout, ih⟩⟩

end Gathered

namespace FlowEvent

theorem flattenAll_eq (es : List FlowEvent) : flattenAll es = es.flatMap flatten := by
  induction es with
  | nil => rfl
  | cons e es ih => rw [flattenAll, ih, flatMap_cons]

theorem mem_flattenAll_of_body {node : NodeId} {events es : List FlowEvent} {e : FlowEvent}
    (h : .body node events ∈ es) (he : e ∈ flattenAll events) : e ∈ flattenAll es := by
  rw [flattenAll_eq es]
  exact mem_flatMap.2 ⟨_, h, by rw [flatten]; exact mem_cons_of_mem _ he⟩

theorem surfaces_of_read {scopes : ScopeTree} {home : ScopeId} {l : Location} (es : List FlowEvent)
    (hl : .use l ∈ flattenAll es) (h : ∀ node events, .body node events ∈ flattenAll es →
      Gathered.isOutside scopes (Gathered.nestedFlow scopes home node events).scope l = true) :
    Gathered.Surfaces scopes home l es := by
  obtain ⟨e, he, hle⟩ := mem_flatMap.1 (flattenAll_eq es ▸ hl)
  cases e with
  | body node events =>
    have hinside : .use l ∈ flattenAll events := by simpa [flatten] using hle
    refine .through he (h node events ((sublist_flattenAll es).subset he)) ?_
    exact surfaces_of_read events hinside fun node' events' h' => h node' events' (mem_flattenAll_of_body he h')
  | use l' =>
    have heq : l = l' := by simpa [flatten] using hle
    exact .here (heq ▸ he)
  | _ => simp [flatten] at hle
termination_by sizeOf es
decreasing_by exact FlowEvent.sizeOf_lt_of_mem he

end FlowEvent

namespace UnitFlow

open Gathered (nestedFlow isOutside Surfaces)

variable (p : Declarations) (g : FlowGraph) (u : UnitInfo)

/-- The facts of a block or of a body, together with a body that stands in it. -/
inductive Encloses : List FlowFact → NodeId → List FlowEvent → Prop
  | block {b : BlockId} {node : NodeId} {events : List FlowEvent} :
      .body node events ∈ ofBlock p g u (g.block b) →
      Encloses ((ofUnit p g u).blocks[b]?.getD []) node events
  | body {facts : List FlowFact} {node inner : NodeId} {events innerEvents : List FlowEvent} :
      Encloses facts node events → .body inner innerEvents ∈ events →
      Encloses (nestedFlow p.scopes u.scope node events).facts inner innerEvents

variable {p g u} {facts : List FlowFact} {node : NodeId} {events : List FlowEvent}

theorem nested_eq : (ofUnit p g u).nested =
    (List.range g.size).flatMap fun b => (ofBlock p g u (g.block b)).flatMap
      (Gathered.contained p.scopes u.scope) := by
  rw [(ofUnit_eq_gathered p g u).2]
  simp [gathered, Gathered.nested_addAll]

theorem lt_size_of_mem_ofBlock {b : BlockId} {e : FlowEvent} (h : e ∈ ofBlock p g u (g.block b)) :
    b < g.size := by
  by_contra hb
  rw [FlowGraph.block, Array.getElem?_eq_none (Nat.le_of_not_lt hb)] at h
  cases h

theorem Encloses.contained_subset (h : Encloses p g u facts node events) :
    Gathered.contained p.scopes u.scope (.body node events) ⊆ (ofUnit p g u).nested := by
  induction h with
  | block he =>
    intro N hN
    rw [nested_eq]
    exact mem_flatMap.2 ⟨_, mem_range.2 (lt_size_of_mem_ofBlock he), mem_flatMap.2 ⟨_, he, hN⟩⟩
  | body _ he ih =>
    refine fun N hN => ih (mem_append_left _ ?_)
    rw [Gathered.nested_addAll]
    exact mem_append_right _ (mem_flatMap.2 ⟨_, he, hN⟩)

theorem exists_encloses {facts : List FlowFact} {N : NestedFlow} (es : List FlowEvent)
    (h : ∀ node events, .body node events ∈ es → Encloses p g u facts node events)
    (hN : N ∈ es.flatMap (Gathered.contained p.scopes u.scope)) :
    ∃ facts node events, Encloses p g u facts node events ∧ N = nestedFlow p.scopes u.scope node events := by
  obtain ⟨e, he, hN⟩ := mem_flatMap.1 hN
  cases e with
  | body node events =>
    rcases mem_append.1 hN with hN | hN
    · rw [Gathered.nested_addAll, nil_append] at hN
      exact exists_encloses events (fun _ _ => .body (h node events he)) hN
    · exact ⟨facts, node, events, h node events he, mem_singleton.1 hN⟩
  | _ => cases hN
termination_by sizeOf es
decreasing_by exact FlowEvent.sizeOf_lt_of_mem he

theorem Encloses.uses (h : Encloses p g u facts node events) :
    (nestedFlow p.scopes u.scope node events).captured ⊆ facts.flatMap (·.uses) := by
  cases h with
  | @block b _ _ he =>
    have huses : (gathered p g u b).facts.flatMap (·.uses) =
        (ofBlock p g u (g.block b)).flatMap (Gathered.brought p.scopes u.scope) := by
      have h : (gathered p g u b).allUses = _ := Gathered.allUses_addAll {} (ofBlock p g u (g.block b))
      rwa [Gathered.allUses, gathered, Gathered.uses_steps, append_nil] at h
    rw [facts_gathered, huses]
    exact fun l hl => mem_flatMap.2 ⟨_, he, hl⟩
  | body _ he =>
    rw [Gathered.uses_nestedFlow]
    exact fun l hl => mem_flatMap.2 ⟨_, he, hl⟩

theorem Encloses.flattenAll_subset (h : Encloses p g u facts node events) : flattenAll events ⊆
      flattenAll (g.blocks.toList.map (ofBlock p g u)).flatten := by
  induction h with
  | block he =>
    refine fun e => FlowEvent.mem_flattenAll_of_body (mem_flatten.2 ⟨_, List.mem_map_of_mem ?_, he⟩)
    rw [g.toList_blocks]
    exact List.mem_map_of_mem (mem_range.2 (lt_size_of_mem_ofBlock he))
  | body _ he ih => exact fun e h => ih (FlowEvent.mem_flattenAll_of_body he h)

/-- The nested flows of a unit are those of the bodies in its blocks, and in such bodies. Each captures, once, the
variables outside its scope that surface in its body, and the code around it uses them. A variable of another unit that
is read at any depth is a free read. If every body inside a flow has a scope inside that of the flow, the flow captures
all that is read at any depth and lives outside its scope. -/
theorem captures_iff_surfaces (tree : SyntaxTree) (s : Settings) (g : FlowGraph) (u : UnitInfo) :
    let p := (Program.ofTree tree s).toDeclarations
    (∀ N, N ∈ (ofUnit p g u).nested ↔ ∃ facts node events, Encloses p g u facts node events ∧
      N = nestedFlow p.scopes u.scope node events) ∧
    ∀ facts node events, Encloses p g u facts node events →
      let N := nestedFlow p.scopes u.scope node events
      N.captured.Nodup ∧ N.captured ⊆ facts.flatMap (·.uses) ∧
      (∀ l, l ∈ N.captured ↔ isOutside p.scopes N.scope l = true ∧ Surfaces p.scopes u.scope l events) ∧
      (∀ l, .use l ∈ flattenAll events → isForeign p.scopes u.scope l = true →
        l ∈ (ofUnit p g u).freeReads) ∧
      ((∀ inner innerEvents, .body inner innerEvents ∈ flattenAll events →
          p.scopes.isWithin (nestedFlow p.scopes u.scope inner innerEvents).scope N.scope = true) →
        ∀ l, .use l ∈ flattenAll events → isOutside p.scopes N.scope l = true → l ∈ N.captured) := by
  intro p
  constructor
  · intro N
    constructor
    · intro hN
      rw [nested_eq] at hN
      obtain ⟨b, -, hN⟩ := mem_flatMap.1 hN
      exact exists_encloses _ (fun _ _ => .block) hN
    · rintro ⟨facts, node, events, h, rfl⟩
      exact h.contained_subset (mem_append_right _ mem_cons_self)
  · intro facts node events h N
    have hcaptured : ∀ l, l ∈ N.captured ↔ isOutside p.scopes N.scope l = true ∧ Surfaces p.scopes u.scope l events :=
      fun l => Gathered.mem_captured.trans (and_congr_right fun _ =>
        ⟨Gathered.surfaces_of_brought events, Gathered.Surfaces.brought⟩)
    refine ⟨nodup_foldl_addNew .nil, h.uses, hcaptured, fun l hl hforeign => ?_, fun hnest l hl hout => ?_⟩
    · refine Std.ExtTreeSet.mem_ofList.2 (contains_iff_mem.2 (mem_filter.2 ⟨?_, hforeign⟩))
      exact mem_filterMap.2 ⟨_, h.flattenAll_subset hl, rfl⟩
    · refine (hcaptured l).2 ⟨hout, FlowEvent.surfaces_of_read events hl fun inner innerEvents hinner => ?_⟩
      exact Gathered.isOutside_of_isWithin (ScopeTree.ordered_ofTree tree) (hnest inner innerEvents hinner) hout

/-- The first lambda or comprehension in the first block of a module, with what happens in its body. -/
def firstBody? (raw : RawNode) : Option (SyntaxTree × PreparedUnit × NodeId × List FlowEvent) := do
  let tree ← (SyntaxTree.ofModule raw).toOption
  let p := Program.ofTree tree {}
  let u ← (Preparation.ofProgram p).unit? 0
  (ofBlock p u.graph u.info (u.graph.block 0)).findSome? fun
    | .body node events => some (tree, u, node, events)
    | _ => none

theorem encloses_of_firstBody? {raw : RawNode} {tree : SyntaxTree} {u : PreparedUnit}
    (h : firstBody? raw = some (tree, u, node, events)) :
    ∃ facts, Encloses (Program.ofTree tree {}).toDeclarations u.graph u.info facts node events := by
  obtain ⟨tree', -, h⟩ := Option.bind_eq_some_iff.1 h
  obtain ⟨u', -, h⟩ := Option.bind_eq_some_iff.1 h
  obtain ⟨e, he, h⟩ := exists_of_findSome?_eq_some h
  cases e with
  | body node' events' =>
    cases h
    exact ⟨_, .block he⟩
  | _ => cases h

theorem mem_of_any_use? {es : List FlowEvent} {l : Location} (h : es.any (·.use? == some l) = true) : .use l ∈ es := by
  obtain ⟨e, he, hl⟩ := List.any_eq_true.1 h
  cases e with
  | use l' => exact Option.some.inj (beq_iff_eq.1 hl) ▸ he
  | _ => cases hl

open Build in
/-- A list of functions that read a variable of the module and one of the comprehension. -/
def readers : RawNode :=
  module [assign (name "k") int,
    assign (name "fs") (listComp (lambda [] (tuple [name "k", name "x"])) (name "x") (list []))]

/-- The variable of the module is read two bodies deep, and the comprehension captures it. -/
theorem captures_on_readers : ∃ tree u node events, firstBody? readers = some (tree, u, node, events) ∧
    .use (.var 0 "k") ∉ events ∧ .use (.var 0 "k") ∈ flattenAll events ∧
    .var 0 "k" ∈ (nestedFlow (Program.ofTree tree {}).scopes u.info.scope node events).captured := by
  have h : ((firstBody? readers).map fun (tree, u, node, events) =>
      let scopes := (Program.ofTree tree {}).scopes
      let scope := (nestedFlow scopes u.info.scope node events).scope
      (events.any (·.use? == some (.var 0 "k")), (flattenAll events).any (·.use? == some (.var 0 "k")),
        isOutside scopes scope (.var 0 "k"), (flattenAll events).all fun
          | .body inner innerEvents => scopes.isWithin (nestedFlow scopes u.info.scope inner innerEvents).scope scope
          | _ => true)) = some (false, true, true, true) := by
    decide +kernel
  obtain ⟨⟨tree, u, node, events⟩, hbody, h⟩ := Option.map_eq_some_iff.1 h
  simp only [Prod.mk.injEq] at h
  obtain ⟨hhere, hread, hout, hnest⟩ := h
  obtain ⟨facts, hencloses⟩ := encloses_of_firstBody? hbody
  have hhere : .use (.var 0 "k") ∉ events := fun h => by simpa [FlowEvent.use?] using List.any_eq_false.1 hhere _ h
  have hread := mem_of_any_use? hread
  obtain ⟨-, -, -, -, hall⟩ := (captures_iff_surfaces tree {} u.graph u.info).2 facts node events hencloses
  exact ⟨tree, u, node, events, hbody, hhere, hread,
    hall (fun inner innerEvents hinner => List.all_eq_true.1 hnest _ hinner) _ hread hout⟩

open Build in
/-- A comprehension that binds an entry of a mapping, under a function that reads a variable of the module. -/
def keyedByReader : RawNode :=
  module [assign (name "k") int, assign (name "a") (dict []),
    expr (listComp int (subscript (name "a") (lambda [] (name "k"))) (list []))]

/-- A function in the target of a comprehension has no scope of its own. So it does not capture the variable that it
reads, and neither does the comprehension. -/
theorem not_captured_on_keyedByReader : ∃ tree u node events, firstBody? keyedByReader = some (tree, u, node, events) ∧
    .use (.var 0 "k") ∈ flattenAll events ∧
    let N := nestedFlow (Program.ofTree tree {}).scopes u.info.scope node events
    isOutside (Program.ofTree tree {}).scopes N.scope (.var 0 "k") = true ∧ N.captured = [.var 0 "a"] := by
  have h : ((firstBody? keyedByReader).map fun (tree, u, node, events) =>
      let N := nestedFlow (Program.ofTree tree {}).scopes u.info.scope node events
      ((flattenAll events).any (·.use? == some (.var 0 "k")),
        isOutside (Program.ofTree tree {}).scopes N.scope (.var 0 "k"), N.captured)) =
      some (true, true, [.var 0 "a"]) := by
    decide +kernel
  obtain ⟨⟨tree, u, node, events⟩, hbody, h⟩ := Option.map_eq_some_iff.1 h
  simp only [Prod.mk.injEq] at h
  obtain ⟨hread, hout, hcaptured⟩ := h
  exact ⟨tree, u, node, events, hbody, mem_of_any_use? hread, hout, hcaptured⟩

end UnitFlow
end PointsTo
