import PointsTo.Proofs.Evaluation.MarkedEvents

/-! # Marks and events of blocks

Statements and blocks are regular when their expressions are and when they have the form that the grammar
gives them. Then their marks are the definitions among their events. The flow facts of a block hold the
definitions among its events that stand outside nested bodies. -/

namespace PointsTo

open List Mark

namespace Node

variable (p : Declarations) (g : FlowGraph) (u : UnitInfo) (n : Node)

instance : Decidable (RegularAt p g u n) :=
  decidable_of_iff (wellShaped n.kind n.children = true ∧ grammatical n.kind n.children = true ∧
      (n.kind.isWrapper = true → g.isHoisted n.id = true →
        FlowEvent.spliced u (FlowEvent.visitAll p g .load n.children) = []) ∧
      (∀ l ∈ p.moduleAttribute? n, u.defines l = false) ∧
      (n.kind = .lambda → FlowEvent.spliced u
        (FlowEvent.lambdaParams p n.children ++ FlowEvent.visitLambda p g n.id n.children) = []))
    ⟨fun ⟨h₁, h₂, h₃, h₄, h₅⟩ => ⟨h₁, h₂, h₃, h₄, h₅⟩, fun ⟨h₁, h₂, h₃, h₄, h₅⟩ => ⟨h₁, h₂, h₃, h₄, h₅⟩⟩

instance : Decidable (Regular p g u n) :=
  decidable_of_iff (n.kind.isValue = true ∧ ∀ x ∈ n.preorder, RegularAt p g u x)
    ⟨fun ⟨h₁, h₂⟩ => ⟨h₁, h₂⟩, fun ⟨h₁, h₂⟩ => ⟨h₁, h₂⟩⟩

instance : Decidable (RegularParam p g u n) :=
  decidable_of_iff (n.children.length ≤ 1 ∧ ∀ c ∈ n.children, Regular p g u c)
    ⟨fun ⟨h₁, h₂⟩ => ⟨h₁, h₂⟩, fun ⟨h₁, h₂⟩ => ⟨h₁, h₂⟩⟩

/-- Whether a target can be deleted, or changed in place: a bound name, an attribute or a subscript. -/
def isPlace : Bool :=
  match n.kind with
  | .name _ => (p.table.location? n.id).isSome
  | .attribute _ | .subscript => true
  | _ => false

def namesMember : Bool :=
  match n.kind with
  | .alias name _ => name != "*"
  | _ => false

def bindsParam : Bool :=
  match n.kind with
  | .param name _ _ => p.table.location? n.id == some (.var u.scope name)
  | _ => false

/-- Whether a simple statement has the form that the grammar gives it, with regular expressions. -/
def regularStatement : Bool :=
  match n.kind with
  | .assign | .annAssign _ | .exprStmt | .raise | .unsupported _ => decide (∀ c ∈ n.children, Regular p g u c)
  | .ret => decide (n.children.length ≤ 1) && decide (∀ c ∈ n.children, Regular p g u c)
  | .augAssign _ => match n.children with
    | [target, _] => isPlace p target && decide (∀ c ∈ n.children, Regular p g u c)
    | _ => true
  | .delete => decide (∀ c ∈ n.children, isPlace p c = true ∧ Regular p g u c)
  | .functionDef _ => match n.children with
    | [arguments, body] => arguments.kind == .arguments && body.kind == .block &&
      decide (∀ param ∈ arguments.children, RegularParam p g u param)
    | _ => false
  | .classDef _ => match n.children with
    | body :: bases => body.kind == .block && decide (∀ c ∈ bases, Regular p g u c)
    | [] => false
  | .importModules => n.children.all fun item => (p.importedModule? item).isSome
  | .importFrom _ => n.children.all namesMember
  | .globalNames _ | .nonlocalNames _ | .pass | .breakLoop | .continueLoop => true
  -- An assertion becomes branches, so no step runs one as a whole.
  | .assertion => false
  | _ => decide (FlowEvent.spliced u (FlowEvent.visit p g .load n) = [])

end Node

def Step.regular (p : Declarations) (g : FlowGraph) (u : UnitInfo) : Step → Bool
  | .parameters arguments => arguments.children.all (Node.bindsParam p u)
  | .exec stmt => Node.regularStatement p g u stmt
  | .eval expr => decide (Node.Regular p g u expr)
  | .test condition => decide (Node.Regular p g u condition)
  | .iterate target _ => decide (Node.Regular p g u target)
  | .handle handler => match handler.children with
    | named :: _ :: _ => decide (Node.Regular p g u named)
    | _ => true
  | .enter item => decide (∀ c ∈ item.children, Node.Regular p g u c)
  | .bind _ _ | .returnNone => true

def Block.regular (p : Declarations) (g : FlowGraph) (u : UnitInfo) (b : Block) : Bool :=
  b.steps.all (Step.regular p g u)

namespace FlowEvent

open Mark (locations)

variable {p : Declarations} {g : FlowGraph} {u : UnitInfo}

theorem spliced_load {n : Node} (h : n.Regular p g u) :
    spliced u (visit p g .load n) = locations (ofExpr p g u false n) := spliced_load_of (spliced_compute n h)

theorem spliced_store {n : Node} (h : n.Regular p g u) :
    spliced u (visit p g .store n) = locations (ofTarget p g u n) :=
  spliced_store_of (spliced_compute n h) (spliced_pattern n h)

theorem spliced_delete {n : Node} (hn : n.isPlace p = true) (h : n.Regular p g u) :
    spliced u (visit p g .store n) = locations (ofDeletion p g u n) := by
  have hpattern := spliced_pattern n h
  have hshape := (h.at_all n (Node.mem_preorder_self n)).shape
  obtain ⟨id, kind, span, parent, children⟩ := n
  cases kind with
  | name _ => simpa [ofDeletion, ofPattern] using hpattern rfl
  | «attribute» attr =>
    match children with
    | [receiver] => simpa [ofDeletion, ofPattern, ofExprs] using hpattern rfl
  | subscript =>
    match children with
    | [container, index] => simpa [ofDeletion, ofPattern, ofExprs] using hpattern rfl
  | _ => cases hn

theorem spliced_flatMap {α : Type} {events : α → List FlowEvent} {marks : α → List Mark} {xs : List α}
    (h : ∀ x ∈ xs, spliced u (events x) = locations (marks x)) :
    spliced u (xs.flatMap events) = locations (xs.flatMap marks) := by
  induction xs with
  | nil => simp
  | cons x xs ih =>
    simp only [flatMap_cons, spliced_append, locations_append, h x (by simp)]
    rw [ih fun y hy => h y (by simp [hy])]

theorem visitAll_eq_flatMap (access : Access) (ns : List Node) :
    visitAll p g access ns = ns.flatMap (visit p g access) := by
  induction ns with
  | nil => rw [visitAll]; rfl
  | cons n ns ih => rw [visitAll, ih]; rfl

theorem spliced_storeAll {ns : List Node} {marks : Node → List Mark}
    (h : ∀ n ∈ ns, spliced u (visit p g .store n) = locations (marks n)) :
    spliced u (visitAll p g .store ns) = locations (ns.flatMap marks) := by
  rw [visitAll_eq_flatMap]
  exact spliced_flatMap h

theorem spliced_augmented {target value : Node} (ht : target.isPlace p = true) (htarget : target.Regular p g u)
    (hvalue : value.Regular p g u) :
    spliced u (ofAugmented p g target value) = locations (Mark.ofAugmented p g u target value) := by
  have hpattern := spliced_pattern target htarget
  have hshape := (htarget.at_all target (Node.mem_preorder_self target)).shape
  have hload := spliced_load hvalue
  obtain ⟨id, kind, span, parent, children⟩ := target
  cases kind with
  | name _ =>
    obtain ⟨l, hl⟩ := Option.isSome_iff_exists.1 ht
    simp [ofAugmented, Mark.ofAugmented, hload, hl]
  | «attribute» attr =>
    match children with
    | [receiver] => simp [ofAugmented, Mark.ofAugmented, hload, hpattern rfl, ofPattern]
  | subscript =>
    match children with
    | [container, index] => simp [ofAugmented, Mark.ofAugmented, hload, hpattern rfl, ofPattern]
  | _ => cases ht

theorem spliced_result (node : NodeId) : spliced u [.define (.ret u.node.id) node] = locations [Mark.result u] := by
  simp [spliced, flattenAll, flatten, define?, locations, Mark.result, Mark.define?, UnitInfo.defines]

theorem spliced_import {stmt : Node} {marks : Node → List Mark}
    (h : ∀ item ∈ stmt.children, ofName p u item.id = marks item) :
    spliced u (ofImport p stmt) = locations (stmt.children.flatMap marks) := by
  rw [ofImport, spliced_append, spliced_calls, nil_append]
  refine spliced_flatMap fun item hitem => ?_
  rw [spliced_append, spliced_nameDef, h item hitem]
  split <;> rfl

theorem spliced_statement {stmt : Node} (h : stmt.regularStatement p g u = true) :
    spliced u (ofStatement p g u stmt) = locations (Mark.ofStatement p g u stmt) := by
  obtain ⟨id, kind, span, parent, children⟩ := stmt
  cases kind with
  | assign =>
    have hall : ∀ c ∈ children, c.Regular p g u := of_decide_eq_true h
    simp only [ofStatement, Mark.ofStatement]
    cases hlast : children.getLast? with
    | none => simp
    | some value =>
      simp only [spliced_append, locations_append]
      rw [spliced_load (hall value (mem_of_getLast? hlast)),
        spliced_storeAll fun n hn => spliced_store (hall n (dropLast_subset _ hn))]
  | augAssign op =>
    simp only [ofStatement, Mark.ofStatement]
    rcases children with _ | ⟨target, _ | ⟨value, _ | _⟩⟩
    case cons.cons.nil =>
      obtain ⟨hplace, hall⟩ := Bool.and_eq_true_iff.1 h
      have hall : ∀ c ∈ [target, value], c.Regular p g u := of_decide_eq_true hall
      exact spliced_augmented hplace (hall target (by simp)) (hall value (by simp))
    all_goals rfl
  | annAssign hint =>
    have hall : ∀ c ∈ children, c.Regular p g u := of_decide_eq_true h
    simp only [ofStatement, Mark.ofStatement]
    rcases children with _ | ⟨target, _ | ⟨value, _ | _⟩⟩
    case cons.cons.nil =>
      rw [spliced_append, locations_append, spliced_load (hall value (by simp)),
        spliced_store (hall target (by simp))]
    all_goals rfl
  | delete =>
    have hall : ∀ c ∈ children, c.isPlace p = true ∧ c.Regular p g u := of_decide_eq_true h
    exact spliced_storeAll fun n hn => spliced_delete (hall n hn).1 (hall n hn).2
  | ret =>
    obtain ⟨hlen, hall⟩ := Bool.and_eq_true_iff.1 h
    have hall : ∀ c ∈ children, c.Regular p g u := of_decide_eq_true hall
    have hall := spliced_all children hall
    simp only [ofStatement, Mark.ofStatement, spliced_append, locations_append, spliced_result, hall]
    rcases children with _ | ⟨value, _ | _⟩
    · rfl
    · simp [ofExprs, ofFirst]
    · simp at hlen
  | functionDef name =>
    rcases children with _ | ⟨arguments, _ | ⟨block, _ | _⟩⟩
    case cons.cons.nil =>
      simp only [Node.regularStatement, Bool.and_eq_true, beq_iff_eq, decide_eq_true_eq] at h
      obtain ⟨⟨harguments, hblock⟩, hparams⟩ := h
      have hfound : Node.childOfKind? ⟨id, .functionDef name, span, parent, [arguments, block]⟩ "Arguments" =
          some arguments := by
        simp [Node.childOfKind?, harguments, Kind.word]
      simp [ofStatement, Mark.ofStatement, ofDefinition, harguments, hblock, hfound, spliced_defaults _ hparams]
    all_goals cases h
  | classDef name =>
    cases children with
    | nil => cases h
    | cons block bases =>
      simp only [Node.regularStatement, Bool.and_eq_true, beq_iff_eq, decide_eq_true_eq] at h
      obtain ⟨hblock, hbases⟩ := h
      have hvisit : ofDefinition p g (block :: bases) = visitAll p g .load bases := by
        rw [ofDefinition, flatMap_cons, hblock, nil_append, visitAll_eq_flatMap, flatMap_def,
          flatMap_def]
        refine congrArg List.flatten (map_congr_left fun base hbase => ?_)
        have hvalue := (hbases base hbase).isValue
        cases hkind : base.kind <;> simp_all [Kind.isValue]
      simp [ofStatement, Mark.ofStatement, hvisit, spliced_all bases hbases]
  | importModules =>
    refine spliced_import fun item hitem => ?_
    obtain ⟨module, hmodule⟩ := Option.isSome_iff_exists.1 (List.all_eq_true.1 h item hitem)
    simp [ofImported, hmodule]
  | importFrom module =>
    refine spliced_import fun item hitem => ?_
    have hitem := List.all_eq_true.1 h item hitem
    unfold Node.namesMember at hitem
    unfold ofMember
    cases hkind : item.kind with
    | «alias» name asName => simp_all
    | _ => simp [hkind] at hitem
  | exprStmt | raise | unsupported _ => exact spliced_all children (of_decide_eq_true h)
  | globalNames _ | nonlocalNames _ | pass | breakLoop | continueLoop => rfl
  | assertion => cases h
  | _ => exact of_decide_eq_true h

theorem spliced_item {item : Node} (h : ∀ c ∈ item.children, c.Regular p g u) :
    spliced u (visitFirst p g .load item.children ++ visitFirst p g .store (item.children.drop 1)) =
      locations (ofItem p g u item) := by
  unfold ofItem
  match hitem : item.children with
  | [] => simp [visitFirst]
  | [context] => simp [visitFirst, spliced_load (h context (by simp [hitem]))]
  | context :: target :: _ =>
    simp [visitFirst, spliced_load (h context (by simp [hitem])), spliced_store (h target (by simp [hitem]))]

theorem spliced_step {s : Step} (h : s.regular p g u = true) :
    spliced u (ofStep p g u s) = locations (Mark.ofStep p g u s) := by
  cases s with
  | parameters arguments =>
    refine spliced_flatMap fun param hparam => ?_
    have hbinds := List.all_eq_true.1 h param hparam
    unfold Node.bindsParam at hbinds
    unfold ofParam
    cases hkind : param.kind with
    | param name hint kind =>
      simp only [hkind, beq_iff_eq] at hbinds
      simp [ofName, hbinds, UnitInfo.defines]
    | _ => simp [hkind] at hbinds
  | exec stmt => exact spliced_statement h
  | eval expr =>
    have hexpr : expr.Regular p g u := of_decide_eq_true h
    simp only [ofStep, spliced_append, spliced_compute expr hexpr, Mark.ofStep]
    rw [show spliced u [.define (.temp expr.id) expr.id] = [] from rfl, append_nil]
  | bind into value => rfl
  | test condition => exact spliced_load (of_decide_eq_true h)
  | iterate target iterable =>
    simp only [ofStep]
    rw [spliced_cons, spliced_use, nil_append]
    exact spliced_store (of_decide_eq_true h)
  | handle handler =>
    simp only [ofStep, Mark.ofStep, ofHandler, spliced_append, locations_append]
    congr 1
    · rcases hnamed : handler.children with _ | ⟨named, _ | _⟩
      · rfl
      · rfl
      · simp only [Step.regular, hnamed, decide_eq_true_eq] at h
        exact spliced_load h
    · unfold ofCaught
      cases handler.kind with
      | handler name => cases name <;> simp
      | _ => simp
  | enter item => exact spliced_item (of_decide_eq_true h)
  | returnNone => exact spliced_result _

theorem spliced_block {b : Block} (h : b.regular p g u = true) :
    spliced u (ofBlock p g u b) = locations (Mark.ofBlock p g u b) := by
  refine spliced_flatMap fun s hs => ?_
  rw [spliced_append, spliced_settle, append_nil]
  exact spliced_step (List.all_eq_true.1 h s hs)

/-! ## Flow facts -/

/-- The definitions of the unit among events, nested bodies apart. -/
def listed (u : UnitInfo) (es : List FlowEvent) : List Location := (es.filterMap define?).filter u.defines

theorem listed_cons (e : FlowEvent) (es : List FlowEvent) : listed u (e :: es) = listed u [e] ++ listed u es := by
  rw [listed, ← singleton_append, filterMap_append, filter_append]
  rfl

mutual

theorem sublist_flatten : ∀ e : FlowEvent, [e].Sublist (flatten e)
  | .body _ events => by
    rw [flatten]
    exact .cons_cons _ (nil_sublist _)
  | .use _ | .define _ _ | .settle _ | .call _ | .escape _ | .unresolved _ _ => .refl _

theorem sublist_flattenAll : ∀ es : List FlowEvent, es.Sublist (flattenAll es)
  | [] => nil_sublist _
  | e :: es => by
    rw [flattenAll]
    exact (sublist_flatten e).append (sublist_flattenAll es)

end

theorem listed_sublist_spliced (es : List FlowEvent) : (listed u es).Sublist (spliced u es) :=
  ((sublist_flattenAll es).filterMap _).filter _

end FlowEvent

def UnitInfo.definedBy (u : UnitInfo) (facts : List FlowFact) : List Location :=
  (facts.filterMap (·.target)).filter u.defines

namespace Gathered

open FlowEvent (listed spliced)

variable (scopes : ScopeTree) (home : ScopeId) (u : UnitInfo)

theorem definedBy_define (a : Gathered) (l : Location) (node : NodeId) :
    u.definedBy (a.define l node).facts = u.definedBy a.facts ++ listed u [.define l node] := by
  rw [define, UnitInfo.definedBy, filterMap_append, filter_append]
  rfl

theorem definedBy_settle (a : Gathered) (node : NodeId) :
    u.definedBy (a.settle node).facts = u.definedBy a.facts := by
  unfold settle
  split
  · rfl
  · simp [UnitInfo.definedBy]

theorem definedBy_addAll (a : Gathered) (es : List FlowEvent) :
    u.definedBy (a.addAll scopes home es).facts = u.definedBy a.facts ++ listed u es := by
  induction es generalizing a with
  | nil => simp [addAll, listed]
  | cons e es ih =>
    rw [addAll, ih, FlowEvent.listed_cons, ← append_assoc]
    congr 1
    cases e with
    | define l node => exact definedBy_define u a l node
    | settle node => exact (definedBy_settle u a node).trans (append_nil _).symm
    | _ => exact (append_nil _).symm

/-- How many definitions of the unit the nested flows have. -/
def nestedDefinitions (a : Gathered) : Nat := (a.nested.flatMap fun flow => u.definedBy flow.facts).length

theorem nestedDefinitions_enclose (a inner : Gathered) (node : NodeId) :
    (a.enclose scopes home node inner).nestedDefinitions u =
      a.nestedDefinitions u + inner.nestedDefinitions u + (u.definedBy inner.facts).length := by
  simp only [nestedDefinitions, enclose, flatMap_append, length_append, flatMap_singleton,
    definedBy_settle]

theorem nested_settle (a : Gathered) (node : NodeId) : (a.settle node).nested = a.nested := by
  unfold settle
  split <;> rfl

mutual

theorem nestedDefinitions_add (a : Gathered) : ∀ e : FlowEvent,
    (a.add scopes home e).nestedDefinitions u + (listed u [e]).length =
      a.nestedDefinitions u + (spliced u [e]).length
  | .body node events => by
    have hinner := nestedDefinitions_addAll {} events
    have hstart : ({} : Gathered).nestedDefinitions u = 0 := rfl
    have hfacts : u.definedBy (({} : Gathered).addAll scopes home events).facts = listed u events :=
      definedBy_addAll scopes home u {} events
    have houter : (listed u [.body node events]).length = 0 := rfl
    rw [add, nestedDefinitions_enclose, hfacts, FlowEvent.spliced_body]
    omega
  | .settle node => by
    rw [add, nestedDefinitions, nested_settle]
    rfl
  | .define _ _ => by
    rw [add, nestedDefinitions, define]
    rfl
  | .use _ | .call _ | .escape _ | .unresolved _ _ => rfl

theorem nestedDefinitions_addAll (a : Gathered) : ∀ es : List FlowEvent,
    (a.addAll scopes home es).nestedDefinitions u + (listed u es).length =
      a.nestedDefinitions u + (spliced u es).length
  | [] => by simp [addAll, listed]
  | e :: es => by
    have he := nestedDefinitions_add a e
    have hes := nestedDefinitions_addAll (a.add scopes home e) es
    rw [addAll, FlowEvent.listed_cons, FlowEvent.spliced_cons, length_append, length_append]
    omega

end

theorem spliced_eq_listed_iff (es : List FlowEvent) : spliced u es = listed u es ↔
      ∀ flow ∈ (({} : Gathered).addAll scopes home es).nested, u.definedBy flow.facts = [] := by
  have hcount := nestedDefinitions_addAll scopes home u {} es
  have hstart : ({} : Gathered).nestedDefinitions u = 0 := rfl
  rw [← flatMap_eq_nil_iff, ← length_eq_zero_iff]
  constructor
  · intro h
    rw [h, nestedDefinitions, hstart] at hcount
    omega
  · intro h
    rw [nestedDefinitions, h, hstart] at hcount
    exact ((FlowEvent.listed_sublist_spliced es).eq_of_length (by omega)).symm

end Gathered

namespace UnitFlow

variable (p : Declarations) (g : FlowGraph) (u : UnitInfo) (b : BlockId)

def gathered : Gathered := ({} : Gathered).addAll p.scopes u.scope (FlowEvent.ofBlock p g u (g.block b))

theorem foldl_addBlock (scopes : ScopeTree) (home : ScopeId) (acc : List (List FlowFact) × List NestedFlow)
    (blocks : List (List FlowEvent)) : blocks.foldl (Gathered.addBlock scopes home) acc =
      (acc.1 ++ blocks.map fun es => (({} : Gathered).addAll scopes home es).facts,
        acc.2 ++ blocks.flatMap fun es => (({} : Gathered).addAll scopes home es).nested) := by
  induction blocks generalizing acc with
  | nil => simp
  | cons es blocks ih => simp [ih, Gathered.addBlock]

theorem ofUnit_eq_gathered : (ofUnit p g u).blocks = (List.range g.size).map (fun b => (gathered p g u b).facts) ∧
      (ofUnit p g u).nested = (List.range g.size).flatMap fun b => (gathered p g u b).nested := by
  have hfold := foldl_addBlock p.scopes u.scope ([], []) (g.blocks.toList.map (FlowEvent.ofBlock p g u))
  simp only [nil_append] at hfold
  constructor
  · refine (congrArg Prod.fst hfold).trans ?_
    rw [g.toList_blocks, List.map_map, List.map_map]
    rfl
  · refine (congrArg Prod.snd hfold).trans ?_
    dsimp only
    rw [g.toList_blocks, List.map_map, flatMap_map]
    rfl

theorem facts_gathered : (ofUnit p g u).blocks[b]?.getD [] = (gathered p g u b).facts := by
  rw [(ofUnit_eq_gathered p g u).1, getElem?_map]
  by_cases hb : b < g.size
  · rw [getElem?_range hb]
    rfl
  · rw [getElem?_eq_none (by simpa using hb), gathered, FlowGraph.block_of_size_le (Nat.not_lt.1 hb)]
    rfl

theorem definedBy_gathered : u.definedBy (gathered p g u b).facts =
    FlowEvent.listed u (FlowEvent.ofBlock p g u (g.block b)) :=
  Gathered.definedBy_addAll p.scopes u.scope u {} _

end UnitFlow
end PointsTo
