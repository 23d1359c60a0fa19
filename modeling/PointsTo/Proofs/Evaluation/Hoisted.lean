import PointsTo.Evaluation.Step

/-! # Hoisted operands

A step takes the value of a hoisted operand out of its temporary, so that what stands inside the operand is of
no account. There are exceptions: an argument that is starred or given by keyword and a starred element of a
display are looked through, and a target is taken apart, although they may be hoisted. Pruning takes away what
is inside all other hoisted operands, and no step runs differently for it. -/

namespace PointsTo

open List

/-- The part that a node plays where it stands. -/
inductive Role where
  /-- Its value is taken. -/
  | value
  /-- An argument of a call. -/
  | argument
  /-- An element of a display. -/
  | element
  /-- A value is stored into it. -/
  | target
  /-- Values are taken of the nodes so many levels below its children. -/
  | holder (depth : Nat)
  /-- It does not run here. -/
  | idle

/-- The role of a child, by the kind of its parent, the number of its siblings and its place among them. -/
def Kind.role (count i : Nat) : Kind → Role
  | .call => if i = 0 then .value else .argument
  | .list | .tuple | .set => .element
  | .namedExpr | .comprehension | .augAssign _ | .annAssign _ => if i = 0 then .target else .value
  | .assign => if i + 1 = count then .value else .target
  | .delete => .holder 0
  | .functionDef _ => .holder 1
  | .lambda => if i = 0 then .holder 1 else .idle
  | .classDef _ => if i = 0 then .idle else .value
  | .importModules | .importFrom _ => .idle
  | _ => .value

namespace Role

def takesWhole (kind : Kind) : Role → Bool
  | .value => kind != .comprehension
  | .argument => match kind with
    | .starred | .keyword _ | .comprehension => false
    | _ => true
  | .element => kind != .starred && kind != .comprehension
  | .target => !kind.isPattern && kind != .comprehension
  | .holder _ | .idle => false

def part (kind : Kind) (count i : Nat) : Role → Role
  | .value | .argument | .element => kind.role count i
  | .target => match kind with
    | .tuple | .list | .starred => .target
    | _ => kind.role count i
  | .holder 0 => .value
  | .holder (depth + 1) => .holder depth
  | .idle => .idle

theorem part_target {kind : Kind} (h : kind.isPattern = false) (count i : Nat) :
    Role.target.part kind count i = kind.role count i := by
  cases kind <;> first | rfl | cases h

end Role

namespace Node

mutual

/-- Takes away what is inside the hoisted nodes that are evaluated as a whole. -/
def prune (g : FlowGraph) (role : Role) : Node → Node
  | ⟨id, kind, span, parent, children⟩ =>
    if role.takesWhole kind && g.isHoisted id then ⟨id, kind, span, parent, []⟩
    else ⟨id, kind, span, parent, pruneAll g (role.part kind children.length) children⟩

def pruneAll (g : FlowGraph) (roles : Nat → Role) : List Node → List Node
  | [] => []
  | n :: rest => prune g (roles 0) n :: pruneAll g (fun i => roles (i + 1)) rest

end

def pruneParts (g : FlowGraph) (roles : Nat → Role) (n : Node) : Node :=
  { n with children := pruneAll g roles n.children }

def pruneBelow (g : FlowGraph) (n : Node) : Node := n.pruneParts g (n.kind.role n.children.length)

end Node

def Step.prune (g : FlowGraph) : Step → Step
  | .exec stmt => .exec (stmt.pruneBelow g)
  | .eval expr => .eval (expr.pruneBelow g)
  | .test condition => .test (condition.prune g .value)
  | .iterate target iterable => .iterate (target.prune g .target) iterable
  | .handle handler => .handle (handler.pruneParts g fun i => if i = 0 then .value else .idle)
  | .enter item => .enter (item.pruneParts g fun i => if i = 0 then .value else .target)
  | s => s

variable {g : FlowGraph}

namespace Node

@[simp] theorem id_prune (role : Role) (n : Node) : (n.prune g role).id = n.id := by
  cases n
  unfold prune
  split <;> rfl

@[simp] theorem kind_prune (role : Role) (n : Node) : (n.prune g role).kind = n.kind := by
  cases n
  unfold prune
  split <;> rfl

@[simp] theorem prune_leaf (role : Role) (id : NodeId) (kind : Kind) (span : Span) (parent : Option NodeId) :
    prune g role ⟨id, kind, span, parent, []⟩ = ⟨id, kind, span, parent, []⟩ := by
  unfold prune
  split <;> rfl

theorem prune_eq_pruneParts {role : Role} {n : Node} (h : role.takesWhole n.kind = false) :
    n.prune g role = n.pruneParts g (role.part n.kind n.children.length) := by
  cases n
  rw [prune, if_neg (by simp_all)]
  rfl

theorem pruneAll_eq_map (role : Role) (ns : List Node) : pruneAll g (fun _ => role) ns = ns.map (prune g role) := by
  induction ns with
  | nil => rfl
  | cons n ns ih => simp only [pruneAll, ih, map_cons]

theorem pruneAll_concat {roles : Nat → Role} {role : Role} {ns : List Node} {n : Node}
    (h : ∀ i < ns.length, roles i = role) :
    pruneAll g roles (ns ++ [n]) = ns.map (prune g role) ++ [n.prune g (roles ns.length)] := by
  induction ns generalizing roles with
  | nil => rfl
  | cons k ns ih =>
    have hrest : ∀ i < ns.length, roles (i + 1) = role := fun i hi => h (i + 1) (by simpa using hi)
    simp only [cons_append, pruneAll, ih hrest, map_cons, length_cons, h 0 (by simp)]

mutual

theorem prune_idle : ∀ n : Node, n.prune g .idle = n
  | ⟨id, kind, span, parent, children⟩ => congrArg (Node.mk id kind span parent) (pruneAll_idle children)

theorem pruneAll_idle : ∀ ns : List Node, pruneAll g (fun _ => .idle) ns = ns
  | [] => rfl
  | n :: rest => by rw [pruneAll, prune_idle n, pruneAll_idle rest]

end

end Node

open Node (pruneAll pruneParts pruneBelow kind_prune)

namespace Eval

variable (f : Frame) (lambda : LambdaCall)

theorem partCount_pruneAll (roles : Nat → Role) (ns : List Node) :
    partCount (pruneAll g roles ns) = partCount ns := by
  induction ns generalizing roles with
  | nil => rfl
  | cons n ns ih =>
    have ih := ih fun i => roles (i + 1)
    unfold partCount at ih ⊢
    simp only [pruneAll, filter_cons, kind_prune]
    split <;> simp [ih]

/-! ## What is looked through -/

section Wrappers

variable {kind : Kind} {node : NodeId} {inner inner' whole : Eval TypeSet}

theorem addArgument_of_takesWhole (h : Role.argument.takesWhole kind = true) {args : CallArgs} :
    addArgument f args node kind inner whole = do return args.addPositional (← whole) := by
  cases kind <;> first | rfl | cases h

theorem addArgument_congr {count : Nat} (args : CallArgs) (whole : Eval TypeSet)
    (h : kind.role count 0 = .value → inner = inner') :
    addArgument f args node kind inner whole = addArgument f args node kind inner' whole := by
  cases kind <;> first | rfl | rw [h rfl]

theorem spreadOr_of_takesWhole (h : Role.element.takesWhole kind = true) :
    spreadOr f node kind inner whole = whole := by
  cases kind <;> first | rfl | cases h

theorem spreadOr_congr {count : Nat} (whole : Eval TypeSet) (h : kind.role count 0 = .value → inner = inner') :
    spreadOr f node kind inner whole = spreadOr f node kind inner' whole := by
  cases kind <;> first | rfl | rw [h rfl]

end Wrappers

/-! ## Expressions -/

variable {m : Mode}

theorem eval_of_isHoisted (hm : m.ahead = false) {n : Node} (h : f.graph.isHoisted n.id = true) :
    eval f lambda m n = recorded n.id (readSlot f (.temp n.id)) := by
  cases n
  unfold eval evaluated
  rw [if_pos (by simpa [hm] using h)]

/-- A node is evaluated without what is inside it if it is hoisted, and otherwise with its children pruned. -/
theorem eval_prune_of_below (role : Role) (hm : m.ahead = false) {n : Node}
    (hrole : ∀ count i, role.part n.kind count i = n.kind.role count i)
    (h : eval f lambda m (n.pruneBelow f.graph) = eval f lambda m n) :
    eval f lambda m (n.prune f.graph role) = eval f lambda m n := by
  obtain ⟨id, kind, span, parent, children⟩ := n
  unfold Node.prune
  split
  next hcut =>
    have hid : f.graph.isHoisted id = true := (Bool.and_eq_true_iff.1 hcut).2
    rw [eval_of_isHoisted f lambda hm hid, eval_of_isHoisted f lambda hm hid]
  next =>
    have hroles : role.part kind children.length = kind.role children.length := funext (hrole _)
    rw [hroles]
    exact h

theorem eval_prune_value (hm : m.ahead = false) {n : Node}
    (h : eval f lambda m (n.pruneBelow f.graph) = eval f lambda m n) :
    eval f lambda m (n.prune f.graph .value) = eval f lambda m n :=
  eval_prune_of_below f lambda .value hm (fun _ _ => rfl) h

theorem storeOrEval_prune (hm : m.ahead = false) {n : Node} {v : TypeSet}
    (h : eval f lambda m (n.pruneBelow f.graph) = eval f lambda m n) (hstore : n.kind.isPattern = true →
      store f lambda m v (n.prune f.graph .target) = store f lambda m v n) :
    storeOrEval (n.prune f.graph .target) (store f lambda m v (n.prune f.graph .target))
      (eval f lambda m (n.prune f.graph .target)) =
    storeOrEval n (store f lambda m v n) (eval f lambda m n) := by
  unfold storeOrEval
  rw [kind_prune]
  split
  next hpattern => exact hstore hpattern
  next hvalue =>
    rw [eval_prune_of_below f lambda .target hm (Role.part_target (by simpa using hvalue)) h]

mutual

theorem eval_pruneBelow (m : Mode) : ∀ n : Node, eval f lambda m (n.pruneBelow f.graph) = eval f lambda m n
  | ⟨id, kind, span, parent, children⟩ => by
    have ho : m.operand.ahead = false := rfl
    have hall := evalAll_pruneAll m.operand ho children
    cases kind with
    | logical | compare | slice | joinedStr | formattedValue | unsupported =>
      simp only [pruneBelow, pruneParts, eval, Kind.role, hall]
    | list | tuple | set =>
      simp only [pruneBelow, pruneParts, eval, Kind.role, evalElements_pruneAll m.operand ho children]
    | dict =>
      simp only [pruneBelow, pruneParts, eval, Kind.role, evalEntries_pruneAll m.operand ho children]
    | listComp | setComp | dictComp | generatorExp =>
      simp only [pruneBelow, pruneParts, eval, Kind.role, evalClauses_pruneAll children,
        evalParts_pruneAll _ children, comprehend, partCount_pruneAll]
    | lambda =>
      have hroles : (Kind.lambda.role children.length) = fun i => if i = 0 then .holder 1 else .idle := rfl
      simp only [pruneBelow, pruneParts, eval, hroles, evalDefaults_pruneAll m.operand ho children]
    | unary | «attribute» | yielding | yieldFrom | await | starred | keyword =>
      cases children with
      | nil => rfl
      | cons n rest =>
        have hn := eval_prune_value f lambda ho (eval_pruneBelow m.operand n)
        simp only [pruneBelow, pruneParts, eval, Kind.role, pruneAll, hn]
    | binary op =>
      match children with
      | [] | [_] | _ :: _ :: _ :: _ => rfl
      | [l, r] =>
        have hl := eval_prune_value f lambda ho (eval_pruneBelow m.operand l)
        have hr := eval_prune_value f lambda ho (eval_pruneBelow m.operand r)
        simp only [pruneBelow, pruneParts, eval, Kind.role, pruneAll, hl, hr]
    | subscript =>
      match children with
      | [] | [_] | _ :: _ :: _ :: _ => rfl
      | [container, index] =>
        have hc := eval_prune_value f lambda ho (eval_pruneBelow m.operand container)
        have hi := eval_prune_value f lambda ho (eval_pruneBelow m.operand index)
        simp only [pruneBelow, pruneParts, eval, Kind.role, pruneAll, hc, hi, kind_prune]
    | conditional =>
      match children with
      | [] | [_] | [_, _] | _ :: _ :: _ :: _ :: _ => rfl
      | [test, first, second] =>
        have ht := eval_prune_value f lambda ho (eval_pruneBelow m.operand test)
        have h₁ := eval_prune_value f lambda ho (eval_pruneBelow m.operand first)
        have h₂ := eval_prune_value f lambda ho (eval_pruneBelow m.operand second)
        simp only [pruneBelow, pruneParts, eval, Kind.role, pruneAll, ht, h₁, h₂]
    | call =>
      cases children with
      | nil => rfl
      | cons callee args =>
        have hc := eval_prune_value f lambda ho (eval_pruneBelow m.operand callee)
        have hroles : (fun i => Kind.role (callee :: args).length (i + 1) .call) = fun _ => .argument := by
          simp [Kind.role]
        have hargs := evalArguments_pruneAll m.operand ho {} args
        simp only [pruneBelow, pruneParts, eval, pruneAll, hroles, hargs]
        simp only [Kind.role, if_true, hc]
    | namedExpr =>
      match children with
      | [] | [_] | _ :: _ :: _ :: _ => rfl
      | [target, source] =>
        have hs := eval_prune_value f lambda ho (eval_pruneBelow m.operand source)
        have ht := fun v => storeOrEval_prune f lambda ho (v := v) (eval_pruneBelow m.operand target)
          (store_prune m.operand ho v target)
        simp only [pruneBelow, pruneParts, eval, pruneAll]
        simp only [Kind.role, if_true, hs, ht, Nat.zero_add, Nat.one_ne_zero, if_false]
    | _ => simp only [pruneBelow, pruneParts, eval]

theorem evalAll_pruneAll (m : Mode) (hm : m.ahead = false) : ∀ ns : List Node,
    evalAll f lambda m (pruneAll f.graph (fun _ => .value) ns) = evalAll f lambda m ns
  | [] => rfl
  | n :: rest => by
    have hn := eval_prune_value f lambda hm (eval_pruneBelow m n)
    simp only [pruneAll, evalAll, hn, evalAll_pruneAll m hm rest]

theorem evalArguments_pruneAll (m : Mode) (hm : m.ahead = false) (args : CallArgs) : ∀ ns : List Node,
    evalArguments f lambda m args (pruneAll f.graph (fun _ => .argument) ns) =
      evalArguments f lambda m args ns
  | [] => rfl
  | ⟨id, kind, span, parent, []⟩ :: rest => by
    simp only [pruneAll, Node.prune_leaf, evalArguments, evalArguments_pruneAll m hm _ rest]
  | ⟨id, kind, span, parent, inner :: more⟩ :: rest => by
    have hinner := eval_prune_value f lambda hm (eval_pruneBelow m inner)
    have hwhole := eval_prune_of_below f lambda .argument hm (fun _ _ => rfl)
      (eval_pruneBelow m ⟨id, kind, span, parent, inner :: more⟩)
    have hrest := fun args => evalArguments_pruneAll m hm args rest
    unfold Node.prune at hwhole
    unfold pruneAll Node.prune
    split at hwhole
    next hcut =>
      have hkind := (Bool.and_eq_true_iff.1 hcut).1
      simp only [if_pos hcut, evalArguments, addArgument_of_takesWhole f hkind, hwhole, hrest, bind_assoc,
        pure_bind]
    next hcut =>
      simp only [if_neg hcut, pruneAll, evalArguments, hrest]
      simp only [pruneAll] at hwhole
      rw [hwhole, addArgument_congr f _ _ fun hrole => hrole ▸ hinner]

theorem evalElements_pruneAll (m : Mode) (hm : m.ahead = false) : ∀ ns : List Node,
    evalElements f lambda m (pruneAll f.graph (fun _ => .element) ns) = evalElements f lambda m ns
  | [] => rfl
  | ⟨id, kind, span, parent, []⟩ :: rest => by
    simp only [pruneAll, Node.prune_leaf, evalElements, evalElements_pruneAll m hm rest]
  | ⟨id, kind, span, parent, inner :: more⟩ :: rest => by
    have hinner := eval_prune_value f lambda hm (eval_pruneBelow m inner)
    have hwhole := eval_prune_of_below f lambda .element hm (fun _ _ => rfl)
      (eval_pruneBelow m ⟨id, kind, span, parent, inner :: more⟩)
    have hrest := evalElements_pruneAll m hm rest
    unfold Node.prune at hwhole
    unfold pruneAll Node.prune
    split at hwhole
    next hcut =>
      have hkind := (Bool.and_eq_true_iff.1 hcut).1
      simp only [if_pos hcut, evalElements, spreadOr_of_takesWhole f hkind, hwhole, hrest]
    next hcut =>
      simp only [if_neg hcut, pruneAll, evalElements, hrest]
      simp only [pruneAll] at hwhole
      rw [hwhole, spreadOr_congr f _ fun hrole => hrole ▸ hinner]

theorem evalEntries_pruneAll (m : Mode) (hm : m.ahead = false) : ∀ ns : List Node,
    evalEntries f lambda m (pruneAll f.graph (fun _ => .value) ns) = evalEntries f lambda m ns
  | [] => rfl
  | [n] => rfl
  | k :: v :: rest => by
    have hk := eval_prune_value f lambda hm (eval_pruneBelow m k)
    have hv := eval_prune_value f lambda hm (eval_pruneBelow m v)
    simp only [pruneAll, evalEntries, hk, hv, evalEntries_pruneAll m hm rest]

theorem evalClauses_pruneAll : ∀ ns : List Node,
    evalClauses f lambda (pruneAll f.graph (fun _ => .value) ns) = evalClauses f lambda ns
  | [] => rfl
  | ⟨id, kind, span, parent, parts⟩ :: rest => by
    have hrest := evalClauses_pruneAll rest
    by_cases hkind : kind = .comprehension
    · subst hkind
      rw [pruneAll, Node.prune_eq_pruneParts rfl]
      simp only [pruneParts, Role.part, evalClauses, if_true, evalClause_pruneAll parts, hrest]
    · unfold pruneAll Node.prune
      split <;> simp only [evalClauses, hkind, if_false, hrest]

theorem evalClause_pruneAll : ∀ parts : List Node,
    evalClause f lambda (pruneAll f.graph (Kind.role parts.length · .comprehension) parts) =
      evalClause f lambda parts
  | [] => rfl
  | [_] => rfl
  | target :: iterable :: conditions => by
    have ht := fun v => storeOrEval_prune f lambda (m := .body) rfl (v := v) (eval_pruneBelow .body target)
      (store_prune .body rfl v target)
    have hi := eval_prune_value f lambda (m := .body) rfl (eval_pruneBelow .body iterable)
    have hroles : (fun i => Kind.role (target :: iterable :: conditions).length (i + 1 + 1) .comprehension) =
        fun _ => .value := by
      simp [Kind.role]
    simp only [pruneAll, evalClause, hroles, evalAll_pruneAll .body rfl conditions]
    simp only [Kind.role, if_true, ht, hi, Nat.zero_add, Nat.one_ne_zero, if_false, Node.id_prune]

theorem evalParts_pruneAll (each : TypeSet → Eval Unit) : ∀ ns : List Node,
    evalParts f lambda each (pruneAll f.graph (fun _ => .value) ns) = evalParts f lambda each ns
  | [] => rfl
  | n :: rest => by
    have hn := eval_prune_value f lambda (m := .body) rfl (eval_pruneBelow .body n)
    simp only [pruneAll, evalParts, kind_prune, hn, evalParts_pruneAll each rest]

theorem evalDefaults_pruneAll (m : Mode) (hm : m.ahead = false) : ∀ ns : List Node,
    evalDefaults f lambda m (pruneAll f.graph (fun i => if i = 0 then .holder 1 else .idle) ns) =
      evalDefaults f lambda m ns
  | [] => rfl
  | ⟨id, kind, span, parent, params⟩ :: rest => by
    rw [pruneAll, if_pos rfl, Node.prune_eq_pruneParts rfl]
    simp only [pruneParts, Role.part, evalDefaults, evalParamDefaults_pruneAll m hm params]

theorem evalParamDefaults_pruneAll (m : Mode) (hm : m.ahead = false) : ∀ ns : List Node,
    evalParamDefaults f lambda m (pruneAll f.graph (fun _ => .holder 0) ns) =
      evalParamDefaults f lambda m ns
  | [] => rfl
  | ⟨id, kind, span, parent, []⟩ :: rest => by
    simp only [pruneAll, Node.prune_leaf, evalParamDefaults, evalParamDefaults_pruneAll m hm rest]
  | ⟨id, kind, span, parent, d :: more⟩ :: rest => by
    have hd := eval_prune_value f lambda hm (eval_pruneBelow m d)
    rw [pruneAll, Node.prune_eq_pruneParts rfl]
    simp only [pruneParts, pruneAll, Role.part, evalParamDefaults, hd, Node.id_prune,
      evalParamDefaults_pruneAll m hm rest]

theorem store_prune (m : Mode) (hm : m.ahead = false) (v : TypeSet) : ∀ n : Node, n.kind.isPattern = true →
    store f lambda m v (n.prune f.graph .target) = store f lambda m v n
  | ⟨id, kind, span, parent, children⟩ => by
    intro hpattern
    rw [Node.prune_eq_pruneParts (by simp [Role.takesWhole, hpattern]), pruneParts]
    cases kind with
    | tuple | list => simp only [store, Role.part, storeAll_pruneAll m hm _ children]
    | starred => simp only [store, Role.part, storeFirst_pruneAll m hm _ children]
    | «attribute» attr =>
      cases children with
      | nil => rfl
      | cons receiver rest =>
        have hr := eval_prune_value f lambda hm (eval_pruneBelow m receiver)
        simp only [store, Role.part, Kind.role, pruneAll, hr]
    | subscript =>
      match children with
      | [] | [_] | _ :: _ :: _ :: _ => rfl
      | [container, index] =>
        have hc := eval_prune_value f lambda hm (eval_pruneBelow m container)
        have hi := eval_prune_value f lambda hm (eval_pruneBelow m index)
        simp only [store, Role.part, Kind.role, pruneAll, hc, hi, kind_prune]
    | _ => simp only [store]

theorem storeAll_pruneAll (m : Mode) (hm : m.ahead = false) (v : TypeSet) : ∀ ns : List Node,
    storeAll f lambda m v (pruneAll f.graph (fun _ => .target) ns) = storeAll f lambda m v ns
  | [] => rfl
  | target :: rest => by
    have ht := storeOrEval_prune f lambda hm (v := v) (eval_pruneBelow m target) (store_prune m hm v target)
    simp only [pruneAll, storeAll, ht, storeAll_pruneAll m hm v rest]

theorem storeFirst_pruneAll (m : Mode) (hm : m.ahead = false) (v : TypeSet) : ∀ ns : List Node,
    storeFirst f lambda m v (pruneAll f.graph (fun _ => .target) ns) = storeFirst f lambda m v ns
  | [] => rfl
  | target :: rest => by
    simp only [pruneAll, storeFirst]
    exact storeOrEval_prune f lambda hm (eval_pruneBelow m target) (store_prune m hm v target)

end

/-! ## Steps -/

theorem evaluate_prune (n : Node) : evaluate f (n.prune f.graph .value) = evaluate f n :=
  eval_prune_value f _ rfl (eval_pruneBelow f _ _ n)

theorem evaluateAll_pruneAll (ns : List Node) :
    evaluateAll f (pruneAll f.graph (fun _ => .value) ns) = evaluateAll f ns := by
  rw [evaluateAll, evalAll_pruneAll f _ _ rfl ns, evaluateAll]

theorem storeTo_prune (v : TypeSet) (n : Node) : storeTo f v (n.prune f.graph .target) = storeTo f v n :=
  storeOrEval_prune f _ rfl (eval_pruneBelow f _ _ n) (store_prune f _ _ rfl v n)

theorem delete_prune (n : Node) : delete f (n.prune f.graph (.holder 0)) = delete f n := by
  rw [Node.prune_eq_pruneParts rfl]
  simp only [delete, pruneParts, Role.part, evaluateAll_pruneAll]

theorem augmented_prune (stmt : NodeId) (op : BinaryOp) (target value : Node) :
    augmented f stmt op (target.prune f.graph .target) (value.prune f.graph .value) =
      augmented f stmt op target value := by
  obtain ⟨id, kind, span, parent, children⟩ := target
  cases kind with
  | name x => simp only [augmented, augmentName, kind_prune, Node.id_prune, evaluate_prune]
  | «attribute» attr =>
    rw [Node.prune_eq_pruneParts rfl]
    cases children with
    | nil => simp only [augmented, augmentAttr, pruneParts, pruneAll]
    | cons receiver rest =>
      simp only [augmented, augmentAttr, pruneParts, pruneAll, Role.part, Kind.role, evaluate_prune]
  | subscript =>
    rw [Node.prune_eq_pruneParts rfl]
    match children with
    | [] | [_] | _ :: _ :: _ :: _ => rfl
    | [container, index] =>
      simp only [augmented, augmentItem, pruneParts, pruneAll, Role.part, Kind.role, evaluate_prune,
        kind_prune]
  | _ => simp only [augmented, kind_prune, evaluate_prune]

theorem exec_pruneBelow (stmt : Node) : exec f (stmt.pruneBelow f.graph) = exec f stmt := by
  obtain ⟨id, kind, span, parent, children⟩ := stmt
  cases kind with
  | assign =>
    rcases eq_nil_or_concat children with rfl | ⟨targets, value, rfl⟩
    · rfl
    · rw [concat_eq_append]
      have hroles : ∀ i < targets.length, Kind.assign.role (targets ++ [value]).length i = .target := by
        intro i hi
        simp [Kind.role, Nat.ne_of_lt hi]
      have hvalue : Kind.assign.role (targets ++ [value]).length targets.length = .value := by
        simp [Kind.role]
      simp only [exec, pruneBelow, pruneParts, Node.pruneAll_concat hroles, hvalue,
        getLast?_concat, dropLast_concat, evaluate_prune, List.forM_eq_forM, List.forM_map,
        storeTo_prune]
  | augAssign op =>
    match children with
    | [] | [_] | _ :: _ :: _ :: _ => rfl
    | [target, value] =>
      exact augmented_prune f id op target value
  | annAssign hint =>
    match children with
    | [] | [_] | _ :: _ :: _ :: _ => rfl
    | [target, value] =>
      simp only [exec, pruneBelow, pruneParts, pruneAll, Kind.role, if_true, evaluate_prune,
        Nat.zero_add, Nat.one_ne_zero, if_false, storeTo_prune]
  | delete =>
    simp only [exec, pruneBelow, pruneParts, Kind.role, Node.pruneAll_eq_map, List.forM_eq_forM,
      List.forM_map, delete_prune]
  | ret =>
    cases children with
    | nil => rfl
    | cons value rest =>
      simp only [exec, pruneBelow, pruneParts, Kind.role, pruneAll, evaluate_prune]
  | functionDef name =>
    simp only [exec, pruneBelow, pruneParts, Kind.role, Node.pruneAll_eq_map, Node.childOfKind?,
      find?_map, Function.comp_def, kind_prune]
    cases List.find? (fun n : Node => n.kind.word == "Arguments") children with
    | none => rfl
    | some arguments =>
      rw [Option.map_some, Node.prune_eq_pruneParts rfl]
      simp only [pruneParts, Role.part, evalParamDefaults_pruneAll f (lambdas f) {} rfl]
  | classDef name =>
    cases children with
    | nil => rfl
    | cons body bases =>
      have hroles : (fun i => Kind.role (body :: bases).length (i + 1) (.classDef name)) = fun _ => .value := by
        simp [Kind.role]
      simp only [exec, pruneBelow, pruneParts, pruneAll, hroles, drop_succ_cons,
        drop_zero, evaluateAll_pruneAll]
  | importModules | importFrom =>
    simp only [exec, pruneBelow, pruneParts, Kind.role, Node.pruneAll_idle]
  | exprStmt | raise | assertion | unsupported =>
    simp only [exec, pruneBelow, pruneParts, Kind.role, evaluateAll_pruneAll]
  | _ => rfl

theorem enterItem_pruneParts (item : Node) :
    enterItem f (item.pruneParts f.graph fun i => if i = 0 then .value else .target) = enterItem f item := by
  obtain ⟨id, kind, span, parent, children⟩ := item
  match children with
  | [] => rfl
  | [context] => simp only [enterItem, pruneParts, pruneAll, if_true, evaluate_prune]
  | context :: target :: rest =>
    simp only [enterItem, pruneParts, pruneAll, if_true, evaluate_prune, Nat.add_eq_zero_iff,
      Nat.one_ne_zero, and_false, if_false, storeTo_prune]

theorem runStep_prune (s : Step) : runStep f (s.prune f.graph) = runStep f s := by
  cases s with
  | exec stmt => exact exec_pruneBelow f stmt
  | eval expr =>
    simp only [Step.prune, runStep, eval_pruneBelow]
    rfl
  | test condition => simp only [Step.prune, runStep, evaluate_prune]
  | iterate target iterable => simp only [Step.prune, runStep, storeTo_prune]
  | enter item => exact enterItem_pruneParts f item
  | _ => rfl

end Eval

namespace Frame

variable (f : Frame)

theorem handle_pruneParts (handler : Node) (m : Machine) :
    f.handle (handler.pruneParts f.graph fun i => if i = 0 then .value else .idle) m = f.handle handler m := by
  obtain ⟨id, kind, span, parent, children⟩ := handler
  match children with
  | [] | [_] => rfl
  | named :: body :: rest =>
    simp only [handle, pruneParts, pruneAll, if_true, Eval.evaluate_prune]
    rfl

theorem step_prune (m : Machine) (s : Step) : f.step m (s.prune f.graph) = f.step m s := by
  cases s with
  | handle handler => exact f.handle_pruneParts handler m
  | _ => exact congrArg (fun act : Eval Unit => some (act.run m).2) (Eval.runStep_prune f _)

end Frame
end PointsTo
