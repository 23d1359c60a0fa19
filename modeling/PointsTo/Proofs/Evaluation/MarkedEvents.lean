import PointsTo.Proofs.Evaluation.Marks
import PointsTo.Proofs.Flow.Settled

/-! # Marks and flow events

Flow events are found by another walk over the same syntax. In code that is regular the two walks agree:
the marks are the definitions among the events, where the body of a comprehension counts as code of the
unit. The flow facts of a block leave these bodies out, so they list less wherever one of them defines a
variable of the unit. -/

namespace PointsTo

open List Mark

namespace FlowEvent

variable (u : UnitInfo)

/-- The definitions of the unit among events, with those of nested bodies in their places. -/
def spliced (es : List FlowEvent) : List Location := ((flattenAll es).filterMap define?).filter u.defines

theorem flattenAll_append (es es' : List FlowEvent) : flattenAll (es ++ es') = flattenAll es ++ flattenAll es' := by
  induction es with
  | nil => simp [flattenAll]
  | cons e es ih => simp [flattenAll, ih]

@[simp] theorem spliced_nil : spliced u [] = [] := by simp [spliced, flattenAll]

@[simp] theorem spliced_append (es es' : List FlowEvent) : spliced u (es ++ es') = spliced u es ++ spliced u es' := by
  simp [spliced, flattenAll_append]

theorem spliced_cons (e : FlowEvent) (es : List FlowEvent) : spliced u (e :: es) = spliced u [e] ++ spliced u es :=
  spliced_append u [e] es

@[simp] theorem spliced_use (l : Location) : spliced u [.use l] = [] := rfl

@[simp] theorem spliced_settle (node : NodeId) : spliced u [.settle node] = [] := rfl

@[simp] theorem spliced_body (node : NodeId) (es : List FlowEvent) : spliced u [.body node es] = spliced u es := by
  simp only [spliced, flattenAll, flatten, append_nil]
  rfl

theorem spliced_eq_nil {es : List FlowEvent} (h : ∀ e ∈ es, spliced u [e] = []) : spliced u es = [] := by
  induction es with
  | nil => simp
  | cons e es ih => rw [spliced_cons, h e (by simp), ih fun e he => h e (by simp [he])]; rfl

variable (p : Declarations) (g : FlowGraph)

@[simp] theorem spliced_nameUse (node : NodeId) : spliced u (nameUse p node) = [] := by
  unfold nameUse
  split <;> rfl

@[simp] theorem spliced_nameDef (node : NodeId) :
    spliced u (nameDef p node) = Mark.locations (ofName p u node) := by
  unfold nameDef ofName
  cases p.table.location? node with
  | none => rfl
  | some l =>
    by_cases hl : u.defines l <;>
      simp [spliced, flattenAll, flatten, define?, Mark.locations, Mark.define?, hl]

@[simp] theorem spliced_escapes (units : List UnitId) : spliced u (units.map .escape) = [] :=
  spliced_eq_nil u fun e he => by
    obtain ⟨_, -, rfl⟩ := List.mem_map.1 he
    rfl

@[simp] theorem spliced_calls (units : List UnitId) : spliced u (units.map .call) = [] :=
  spliced_eq_nil u fun e he => by
    obtain ⟨_, -, rfl⟩ := List.mem_map.1 he
    rfl

@[simp] theorem spliced_calledThrough (units : List UnitId) : spliced u (calledThrough p units) = [] := by
  unfold calledThrough
  induction units with
  | nil => simp
  | cons unit units ih =>
    rw [flatMap_cons, spliced_append, ih, spliced_cons, spliced_calls]
    rfl

@[simp] theorem spliced_callees (callee : Node) : spliced u (callees p callee) = [] := by
  unfold callees
  split <;> simp

@[simp] theorem spliced_globalUse (node : Node) : spliced u (globalUse p node) = [] := by
  unfold globalUse
  split <;> simp

theorem spliced_globalDef {p : Declarations} {node : Node}
    (h : ∀ l, p.moduleAttribute? node = some l → u.defines l = false) : spliced u (globalDef p node) = [] := by
  unfold globalDef
  split
  next l hl => simp [spliced, flattenAll, flatten, define?, h l hl]
  next => rfl

end FlowEvent

/-! ## Regular expressions -/

def Kind.isValue : Kind → Bool
  | .literal _ | .name _ | .binary _ | .unary _ | .logical _ | .conditional | .compare _ | .call | .attribute _
  | .subscript | .slice | .list | .tuple | .set | .dict | .listComp | .setComp | .dictComp | .generatorExp
  | .joinedStr | .formattedValue | .yielding | .yieldFrom | .await | .starred | .keyword _ | .namedExpr
  | .lambda | .unsupported _ => true
  | _ => false

def Kind.isIdentifier : Kind → Bool
  | .name _ => true
  | _ => false

def Kind.isParam : Kind → Bool
  | .param _ _ _ => true
  | _ => false

namespace Node

/-- Whether every child is of a kind that may stand there: clauses only in comprehensions, parameters only
in lambdas, and values everywhere else. -/
def grammatical (kind : Kind) (children : List Node) : Bool :=
  match kind with
  | .listComp | .setComp | .dictComp | .generatorExp =>
    children.all fun c => c.kind.isValue || c.kind == .comprehension
  | .lambda => match children with
    | [arguments, body] => arguments.kind == .arguments && body.kind.isValue
    | _ => false
  | .arguments => children.all (·.kind.isParam)
  | .namedExpr => match children with
    | [target, source] => target.kind.isIdentifier && source.kind.isValue
    | _ => false
  | _ => children.all (·.kind.isValue)

variable (p : Declarations) (g : FlowGraph) (u : UnitInfo)

/-- A node whose definitions both walks find alike: it has the children that its kind calls for, its value
is not in a temporary while its part is evaluated again, it does not name a variable of the unit through
the module that it is in, and if it is a lambda, its body binds nothing of the unit. -/
structure RegularAt (n : Node) : Prop where
  shape : wellShaped n.kind n.children = true
  parts : grammatical n.kind n.children = true
  unwrapped : n.kind.isWrapper = true → g.isHoisted n.id = true →
    FlowEvent.spliced u (FlowEvent.visitAll p g .load n.children) = []
  foreign : ∀ l, p.moduleAttribute? n = some l → u.defines l = false
  closed : n.kind = .lambda → FlowEvent.spliced u
    (FlowEvent.lambdaParams p n.children ++ FlowEvent.visitLambda p g n.id n.children) = []

structure Regular (n : Node) : Prop where
  isValue : n.kind.isValue = true
  at_all : ∀ x ∈ n.preorder, RegularAt p g u x

/-- A part of a comprehension: a clause or a value. -/
structure RegularPart (n : Node) : Prop where
  isPart : n.kind.isValue = true ∨ n.kind = .comprehension
  at_all : ∀ x ∈ n.preorder, RegularAt p g u x

/-- A parameter has at most a default, which is a value. -/
structure RegularParam (param : Node) : Prop where
  atMostOne : param.children.length ≤ 1
  default : ∀ c ∈ param.children, Regular p g u c

variable {p g u}

theorem Regular.children {n : Node} (h : Regular p g u n)
    (hkind : grammatical n.kind n.children = n.children.all (·.kind.isValue)) :
    ∀ c ∈ n.children, Regular p g u c := by
  intro c hc
  have hparts := (h.at_all n (mem_preorder_self n)).parts
  rw [hkind] at hparts
  exact ⟨List.all_eq_true.1 hparts c hc, fun x hx => h.at_all x (mem_preorder_of_child hc hx)⟩

theorem Regular.inner {id : NodeId} {kind : Kind} {span : Span} {parent : Option NodeId} {inner : Node}
    {more : List Node} (h : Regular p g u ⟨id, kind, span, parent, inner :: more⟩)
    (hkind : kind.isWrapper = true) : more = [] ∧ Regular p g u inner := by
  have hshape := (h.at_all _ (mem_preorder_self _)).shape
  cases kind with
  | starred => exact ⟨by simpa [wellShaped] using hshape, h.children rfl inner (by simp)⟩
  | keyword arg => exact ⟨by simpa [wellShaped] using hshape, h.children rfl inner (by simp)⟩
  | _ => cases hkind

theorem Regular.regularParts {n : Node} (h : Regular p g u n) (hkind : n.kind.isComprehension = true) :
    ∀ c ∈ n.children, RegularPart p g u c := by
  intro c hc
  refine ⟨?_, fun x hx => h.at_all x (mem_preorder_of_child hc hx)⟩
  have hparts := (h.at_all n (mem_preorder_self n)).parts
  obtain ⟨id, kind, span, parent, children⟩ := n
  cases kind <;> simp_all [grammatical, Kind.isComprehension]

theorem RegularPart.clause {id : NodeId} {span : Span} {parent : Option NodeId} {parts : List Node}
    (h : RegularPart p g u ⟨id, .comprehension, span, parent, parts⟩) :
    2 ≤ parts.length ∧ ∀ c ∈ parts, Regular p g u c := by
  have hat := h.at_all _ (mem_preorder_self _)
  refine ⟨by simpa [wellShaped] using hat.shape, fun c hc => ⟨?_, fun x hx => h.at_all x (mem_preorder_of_child hc hx)⟩⟩
  exact List.all_eq_true.1 hat.parts c hc

theorem RegularPart.value {n : Node} (h : RegularPart p g u n) (hn : n.kind ≠ .comprehension) : Regular p g u n :=
  ⟨h.isPart.resolve_right hn, h.at_all⟩

theorem RegularParam.of_arguments {arguments : Node} (hkind : arguments.kind = .arguments)
    (h : ∀ x ∈ arguments.preorder, RegularAt p g u x) : ∀ param ∈ arguments.children, RegularParam p g u param := by
  intro param hparam
  have harguments := (h arguments (mem_preorder_self _)).parts
  have hat := h param (mem_preorder_of_child hparam (mem_preorder_self _))
  rw [hkind] at harguments
  have hisParam := List.all_eq_true.1 harguments param hparam
  obtain ⟨id, kind, span, parent, children⟩ := param
  cases kind with
  | param name hint kind =>
    refine ⟨by simpa [wellShaped] using hat.shape, fun c hc => ⟨List.all_eq_true.1 hat.parts c hc, fun x hx => ?_⟩⟩
    exact h x (mem_preorder_of_child hparam (mem_preorder_of_child hc hx))
  | _ => cases hisParam

end Node

namespace FlowEvent

open Mark (locations)

variable {p : Declarations} {g : FlowGraph} {u : UnitInfo}

theorem spliced_visit_load (n : Node) :
    spliced u (visit p g .load n) = if g.isHoisted n.id then [] else spliced u (visit p g .compute n) := by
  obtain ⟨id, kind, span, parent, children⟩ := n
  rw [visit.eq_def, visit.eq_def p g .compute]
  by_cases hid : g.isHoisted id = true
  · simp [hid]
  · cases kind <;> simp [hid]

theorem ofExpr_load (n : Node) : ofExpr p g u false n = if g.isHoisted n.id then [] else ofExpr p g u true n := by
  obtain ⟨id, kind, span, parent, children⟩ := n
  rw [Mark.ofExpr.eq_def, Mark.ofExpr.eq_def p g u true]
  by_cases hid : g.isHoisted id = true <;> simp [hid]

theorem spliced_visit_callee (n : Node) : spliced u (visit p g .callee n) = spliced u (visit p g .load n) := by
  obtain ⟨id, kind, span, parent, children⟩ := n
  rw [visit.eq_def, visit.eq_def p g .load]
  by_cases hid : g.isHoisted id = true
  · simp [hid]
  · cases kind <;> simp [hid]

theorem visit_store_of_not_isPattern {n : Node} (h : n.kind.isPattern = false) :
    visit p g .store n = visit p g .load n := by
  obtain ⟨id, kind, span, parent, children⟩ := n
  rw [visit.eq_def, visit.eq_def p g .load]
  by_cases hid : g.isHoisted id = true
  · simp_all
  · cases kind <;> simp_all [Kind.isPattern]

theorem spliced_load_of {n : Node} (h : spliced u (visit p g .compute n) = locations (ofExpr p g u true n)) :
    spliced u (visit p g .load n) = locations (ofExpr p g u false n) := by
  rw [spliced_visit_load, ofExpr_load, h]
  split <;> rfl

theorem spliced_store_of {n : Node} (h : spliced u (visit p g .compute n) = locations (ofExpr p g u true n))
    (h' : n.kind.isPattern = true → spliced u (visit p g .store n) = locations (ofPattern p g u n)) :
    spliced u (visit p g .store n) = locations (ofTarget p g u n) := by
  unfold ofTarget
  split
  next hp => exact h' hp
  next hp =>
    rw [visit_store_of_not_isPattern (by simpa using hp)]
    exact spliced_load_of h

theorem spliced_wrapper {id : NodeId} {kind : Kind} {span : Span} {parent : Option NodeId} {inner : Node}
    {more : List Node} (h : Node.Regular p g u ⟨id, kind, span, parent, inner :: more⟩)
    (hkind : kind.isWrapper = true)
    (hinner : spliced u (visit p g .load inner) = locations (ofExpr p g u false inner)) :
    spliced u (visit p g .load ⟨id, kind, span, parent, inner :: more⟩) =
      locations (ofExpr p g u false inner) := by
  obtain ⟨rfl, -⟩ := h.inner hkind
  have hall : spliced u (visitAll p g .load [inner]) = locations (ofExpr p g u false inner) := by
    simpa [visitAll] using hinner
  rw [spliced_visit_load]
  split
  next hid => rw [← hall, (h.at_all _ (Node.mem_preorder_self _)).unwrapped hkind hid]
  next =>
    rw [visit.eq_def, ← hall]
    cases kind with
    | starred => simp
    | keyword arg => simp
    | _ => cases hkind

mutual

theorem spliced_compute : ∀ n : Node, n.Regular p g u →
    spliced u (visit p g .compute n) = locations (ofExpr p g u true n)
  | ⟨id, kind, span, parent, children⟩, h => by
    have hat := h.at_all _ (Node.mem_preorder_self _)
    have hshape := hat.shape
    rw [visit.eq_def, Mark.ofExpr.eq_def]
    simp only [ne_eq, not_true_eq_false, false_and, if_false, Bool.not_true, Bool.false_and, Bool.false_eq_true]
    cases kind with
    | literal l =>
      match children with
      | [] => rfl
    | name _ => simp
    | binary _ | subscript =>
      have hall := spliced_all children (h.children rfl)
      match children with
      | [l, r] => simpa [ofExprs] using hall
    | unary _ | «attribute» _ | yieldFrom | await | starred | keyword _ =>
      have hall := spliced_all children (h.children rfl)
      match children with
      | [c] => simpa [ofExprs, ofFirst] using hall
    | logical _ | compare _ | slice | joinedStr | formattedValue | unsupported _ =>
      exact spliced_all children (h.children rfl)
    | conditional =>
      have hall := spliced_all children (h.children rfl)
      match children with
      | [test, first, second] => simpa [ofExprs] using hall
    | call =>
      have hchildren := h.children rfl
      match children with
      | callee :: args =>
        simp only [spliced_append, spliced_callees, spliced_visit_callee, locations_append, nil_append]
        rw [spliced_load_of (spliced_compute callee (hchildren callee (by simp))),
          spliced_arguments args fun c hc => hchildren c (by simp [hc])]
    | list | tuple | set => exact spliced_elements children (h.children rfl)
    | dict => exact spliced_entries children (by simpa [Node.wellShaped] using hshape) (h.children rfl)
    | listComp | setComp | dictComp | generatorExp =>
      have hparts := h.regularParts rfl
      simp [← (spliced_clauses children hparts).1, ← spliced_parts children hparts]
    | yielding =>
      have hall := spliced_all children (h.children rfl)
      match children with
      | [] => rfl
      | [c] => simpa [ofExprs, ofFirst] using hall
    | namedExpr =>
      have hparts := hat.parts
      match children with
      | [target, source] =>
        obtain ⟨htarget, hvalue⟩ : target.kind.isIdentifier = true ∧ source.kind.isValue = true := by
          simpa [Node.grammatical] using hparts
        have hsource : source.Regular p g u :=
          ⟨hvalue, fun x hx => h.at_all x (Node.mem_preorder_of_child (by simp) hx)⟩
        obtain ⟨tid, tkind, tspan, tparent, tchildren⟩ := target
        cases tkind with
        | name _ => simp [spliced_load_of (spliced_compute source hsource), ofPattern, Kind.isPattern]
        | _ => cases htarget
    | lambda =>
      have hparts := hat.parts
      have hclosed := hat.closed rfl
      match children with
      | [⟨aid, akind, aspan, aparent, params⟩, value] =>
        have harguments : akind = .arguments := by
          simp only [Node.grammatical, Bool.and_eq_true, beq_iff_eq] at hparts
          exact hparts.1
        have hparams := Node.RegularParam.of_arguments harguments fun x hx =>
          h.at_all x (Node.mem_preorder_of_child (c := ⟨aid, akind, aspan, aparent, params⟩) (by simp) hx)
        rw [spliced_append, spliced_body, hclosed, append_nil, visitDefaults, ofDefaults]
        exact spliced_defaults params hparams
    | _ => exact absurd h.isValue (by simp [Kind.isValue])

theorem spliced_all : ∀ ns : List Node, (∀ n ∈ ns, n.Regular p g u) →
    spliced u (visitAll p g .load ns) = locations (ofExprs p g u ns)
  | [], _ => by
    rw [visitAll, ofExprs]
    rfl
  | n :: rest, h => by
    rw [visitAll, ofExprs, spliced_append, locations_append,
      spliced_load_of (spliced_compute n (h n (by simp))), spliced_all rest fun c hc => h c (by simp [hc])]

theorem spliced_arguments : ∀ ns : List Node, (∀ n ∈ ns, n.Regular p g u) →
    spliced u (visitAll p g .load ns) = locations (ofArguments p g u ns)
  | [], _ => by
    rw [visitAll, ofArguments]
    rfl
  | ⟨id, kind, span, parent, []⟩ :: rest, h => by
    rw [visitAll, ofArguments, spliced_append, locations_append,
      spliced_load_of (spliced_compute _ (h _ (by simp))), spliced_arguments rest fun c hc => h c (by simp [hc])]
  | ⟨id, kind, span, parent, inner :: more⟩ :: rest, h => by
    rw [visitAll, ofArguments, spliced_append, locations_append,
      spliced_arguments rest fun c hc => h c (by simp [hc])]
    split
    next hkind =>
      have hn := h _ mem_cons_self
      rw [spliced_wrapper hn hkind (spliced_load_of (spliced_compute inner (hn.inner hkind).2))]
    next => rw [spliced_load_of (spliced_compute _ (h _ mem_cons_self))]

theorem spliced_elements : ∀ ns : List Node, (∀ n ∈ ns, n.Regular p g u) →
    spliced u (visitAll p g .load ns) = locations (ofElements p g u ns)
  | [], _ => by
    rw [visitAll, ofElements]
    rfl
  | ⟨id, kind, span, parent, []⟩ :: rest, h => by
    rw [visitAll, ofElements, spliced_append, locations_append,
      spliced_load_of (spliced_compute _ (h _ (by simp))), spliced_elements rest fun c hc => h c (by simp [hc])]
  | ⟨id, kind, span, parent, inner :: more⟩ :: rest, h => by
    rw [visitAll, ofElements, spliced_append, locations_append,
      spliced_elements rest fun c hc => h c (by simp [hc])]
    split
    next hkind =>
      subst hkind
      have hn := h _ mem_cons_self
      rw [spliced_wrapper hn rfl (spliced_load_of (spliced_compute inner (hn.inner rfl).2))]
    next => rw [spliced_load_of (spliced_compute _ (h _ mem_cons_self))]

theorem spliced_entries : ∀ ns : List Node, ns.length % 2 = 0 → (∀ n ∈ ns, n.Regular p g u) →
    spliced u (visitAll p g .load ns) = locations (ofEntries p g u ns)
  | [], _, _ => by
    rw [visitAll, Mark.ofEntries.eq_def]
    rfl
  | [_], hlen, _ => by simp at hlen
  | k :: v :: rest, hlen, h => by
    have hrest := spliced_entries rest (by simp at hlen; omega) fun c hc => h c (by simp [hc])
    rw [visitAll, visitAll, ofEntries, spliced_append, spliced_append, locations_append,
      locations_append, spliced_load_of (spliced_compute k (h k (by simp))),
      spliced_load_of (spliced_compute v (h v (by simp))), hrest]

theorem spliced_clauses : ∀ ns : List Node, (∀ n ∈ ns, n.RegularPart p g u) →
    spliced u (visitFirstIterable p g ns) ++ spliced u (visitClauses p g true ns) =
        locations (ofClauses p g u ns) ∧
      spliced u (visitClauses p g false ns) = locations (ofClauses p g u ns)
  | [], _ => by
    rw [visitFirstIterable, visitClauses, visitClauses, ofClauses]
    exact ⟨rfl, rfl⟩
  | ⟨id, kind, span, parent, parts⟩ :: rest, h => by
    have hrest := spliced_clauses rest fun c hc => h c (by simp [hc])
    rw [visitFirstIterable, visitClauses, visitClauses, ofClauses]
    split
    next hkind =>
      subst hkind
      obtain ⟨hlen, hparts⟩ := (h _ mem_cons_self).clause
      obtain ⟨hfirst, hlater⟩ := spliced_clause parts hlen hparts
      rw [locations_append, ← hrest.2, spliced_append, spliced_append, spliced_cons, spliced_settle]
      exact ⟨by simp [← hfirst], by simp [← hlater]⟩
    next => exact hrest

theorem spliced_clause : ∀ ns : List Node, 2 ≤ ns.length → (∀ n ∈ ns, n.Regular p g u) →
    spliced u (visitSecond p g ns) ++ spliced u (visitParts p g true ns) = locations (ofClause p g u ns) ∧
      spliced u (visitParts p g false ns) = locations (ofClause p g u ns)
  | [], hlen, _ => by simp at hlen
  | [_], hlen, _ => by simp at hlen
  | target :: iterable :: conditions, _, h => by
    have htarget := spliced_store_of (spliced_compute target (h target (by simp)))
      (spliced_pattern target (h target (by simp)))
    have hiterable := spliced_load_of (spliced_compute iterable (h iterable (by simp)))
    have hconditions := spliced_all conditions fun c hc => h c (by simp [hc])
    rw [visitSecond, visitParts, visitParts, ofClause]
    simp [htarget, hiterable, hconditions, ofTarget]

theorem spliced_parts : ∀ ns : List Node, (∀ n ∈ ns, n.RegularPart p g u) →
    spliced u (visitElements p g ns) = locations (ofParts p g u ns)
  | [], _ => by
    rw [visitElements, ofParts]
    rfl
  | ⟨id, kind, span, parent, children⟩ :: rest, h => by
    rw [visitElements, ofParts]
    have hrest := spliced_parts rest fun c hc => h c (by simp [hc])
    split
    next => exact hrest
    next hkind =>
      rw [spliced_append, locations_append, hrest,
        spliced_load_of (spliced_compute _ ((h _ mem_cons_self).value hkind))]

theorem spliced_defaults : ∀ params : List Node, (∀ n ∈ params, n.RegularParam p g u) →
    spliced u (visitGrandchildren p g params) = locations (ofParamDefaults p g u params)
  | [], _ => by
    rw [visitGrandchildren, ofParamDefaults]
    rfl
  | ⟨id, kind, span, parent, []⟩ :: rest, h => by
    rw [visitGrandchildren, ofParamDefaults, visitAll]
    exact spliced_defaults rest fun c hc => h c (by simp [hc])
  | ⟨id, kind, span, parent, d :: more⟩ :: rest, h => by
    have hparam := h _ mem_cons_self
    obtain rfl : more = [] := by simpa using hparam.atMostOne
    rw [visitGrandchildren, ofParamDefaults, visitAll, visitAll, append_nil, spliced_append,
      locations_append, spliced_load_of (spliced_compute d (hparam.default d (by simp))),
      spliced_defaults rest fun c hc => h c (by simp [hc])]

theorem spliced_pattern : ∀ n : Node, n.Regular p g u → n.kind.isPattern = true →
    spliced u (visit p g .store n) = locations (ofPattern p g u n)
  | ⟨id, kind, span, parent, children⟩, h, hpattern => by
    have hat := h.at_all _ (Node.mem_preorder_self _)
    have hshape := hat.shape
    rw [visit.eq_def, Mark.ofPattern.eq_def]
    simp only [hpattern, and_self, not_true_eq_false, and_false, if_false]
    cases kind with
    | name _ => simp
    | tuple | list => exact spliced_targets children (h.children rfl)
    | starred =>
      have hchildren := h.children rfl
      match children with
      | [c] =>
        rw [visitFirst, ofFirstPattern]
        exact spliced_store_of (spliced_compute c (hchildren c (by simp))) (spliced_pattern c (hchildren c (by simp)))
    | «attribute» attr =>
      have hall := spliced_all children (h.children rfl)
      have hforeign := hat.foreign
      match children with
      | [c] =>
        rw [spliced_append, spliced_globalDef u hforeign]
        simpa [ofExprs] using hall
    | subscript =>
      have hall := spliced_all children (h.children rfl)
      match children with
      | [container, index] => simpa [ofExprs] using hall
    | _ => cases hpattern

theorem spliced_targets : ∀ ns : List Node, (∀ n ∈ ns, n.Regular p g u) →
    spliced u (visitAll p g .store ns) = locations (ofPatterns p g u ns)
  | [], _ => by
    rw [visitAll, ofPatterns]
    rfl
  | n :: rest, h => by
    have hn := spliced_store_of (spliced_compute n (h n (by simp))) (spliced_pattern n (h n (by simp)))
    rw [visitAll, ofPatterns, spliced_append, locations_append, hn,
      spliced_targets rest fun c hc => h c (by simp [hc])]
    rfl

end

end FlowEvent
end PointsTo
