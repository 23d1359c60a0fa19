import PointsTo.Proofs.Evaluation.Expressions

/-! # Readings of steps

Statements and steps are made of expressions and definitions, and their marks of the marks of these. So a reading of all
that blocks do says of every step what it says of its parts. -/

namespace PointsTo

open TypeSet Mark

namespace Eval

open Reading (Full)

variable {f : Frame} {L : Language} {known : Set Node} {R : Reading f L known}

/-! ## Parameters -/

theorem spells_positionalParam (l : Location) (param : Node) : Spells R (positionalParam f l param) := by
  have hpassed : (if isOpen f then TypeSet.top else (f.env.get? l).getD .bottom).In L := by
    split
    · trivial
    · exact R.env.stored l
  unfold positionalParam
  extract_lets passed
  split
  · exact (spells_readSlot _).bind fun v hv => .pure (TypeSet.In.join hpassed hv)
  · exact .pure hpassed

section Collected

variable {span : Span} (hspan : span ∈ L.spans)
include hspan

theorem spells_restParam : Spells R (restParam f span) := by
  have hr := R.collector hspan R.ownScope .tuple trivial
  exact .ite ((stays_writeElements hr in_top).andThen (.pure (in_object hr)))
    (.pure (in_object hr))

theorem spells_keywordsParam : Spells R (keywordsParam f span) := by
  have hr := R.collector hspan R.ownScope .dict trivial
  refine (stays_writeKeys hr (in_scalar _)).andThen ?_
  exact .ite ((stays_writeElements hr in_top).andThen (.pure (in_object hr)))
    (.pure (in_object hr))

end Collected

theorem yields_paramValue (isFirst : Bool) {part : Nat} (hpart : part ≤ 255) (l : Location) {param : Node}
    (hparam : param ∈ known) (hint : Option String) (kind : ParamKind) :
    Yields R (paramValue f isFirst part l param hint kind) fun v => v.1.In L ∧ v.2 ≤ 255 := by
  have hspan := R.span hparam
  unfold paramValue
  split
  next cls hcls =>
    have hcls : f.unit.methodOf = some cls := by
      split at hcls
      · exact hcls
      · cases hcls
    exact .pure ⟨in_single.2 (R.inst (R.methodOf hcls)), hpart⟩
  next => exact yields_hintValue hspan part _ hpart (Hint.in_ofString _)
  next => exact (spells_positionalParam l param).bind fun v hv => .pure ⟨hv, hpart⟩
  next => exact (spells_restParam hspan).bind fun v hv => .pure ⟨hv, hpart⟩
  next => exact (spells_keywordsParam hspan).bind fun v hv => .pure ⟨hv, hpart⟩

theorem spells_entered {item : NodeId} (hitem : item ∈ L.numbers) {manager : TypeTag} (hmanager : manager.In L) :
    Spells R (entered f item manager) := by
  unfold entered
  split
  · exact (yields_callSpecial? hitem _ hmanager _ CallArgs.in_empty).bind fun o ho =>
      .pure (in_getD ho (in_single.2 hmanager))
  · exact .pure (in_single.2 hmanager)

variable [R.Full]

theorem says_enterParams (hblock : f.block.bindsParameters = true) (isFirst : Bool) {part : Nat} (hpart : part ≤ 255)
    {params : List Node} (hparams : ∀ n ∈ params, n ∈ known) :
    Says R (params.flatMap (ofParam f.unit)) (enterParams f isFirst part params) fun _ => True := by
  induction params generalizing isFirst part with
  | nil => exact .pure trivial
  | cons param params ih =>
    have hparam := hparams param (by simp)
    have hrest : ∀ n ∈ params, n ∈ known := fun n hn => hparams n (by simp [hn])
    rw [List.flatMap_cons]
    unfold enterParams
    cases hkind : param.kind with
    | param name hint kind =>
      have hl : (Location.var f.unit.scope name).In L := ⟨R.ownScope, R.word hparam (by simp [Node.words, hkind])⟩
      have hmark : ofParam f.unit param = ofWrite f.unit (.var f.unit.scope name) := by
        simp [ofParam, hkind, ofWrite, UnitInfo.defines]
      rw [hmark]
      refine (yields_paramValue isFirst hpart _ hparam hint kind).bind fun v hv => (stays_record _ v.1).andThen ?_
      refine Says.andThen (Full.note _) ?_
      have hbind : Stays R (do
          publish (.var f.unit.scope name) v.1
          setSlot (.var f.unit.scope name) v.1) := Full.replace hl hv.1 (.inr ⟨hblock, name, rfl⟩)
      simpa only [bind_assoc] using hbind.andThen (ih false hv.2 hrest)
    | _ =>
      have hnone : ofParam f.unit param = [] := by simp [ofParam, hkind]
      rw [hnone]
      exact ih false hpart hrest

/-! ## Statements -/

theorem says_evaluate {n : Node} (hn : n ∈ known) :
    Says R (ofExpr f.program f.graph f.unit false n) (evaluate f n) (TypeSet.In L) :=
  says_eval hears_lambdas {} n hn

theorem says_evaluateAll {ns : List Node} (hns : ∀ n ∈ ns, n ∈ known) :
    Says R (ofExprs f.program f.graph f.unit ns) (evaluateAll f ns) fun _ => True :=
  (says_evalAll hears_lambdas {} ns hns).discard

theorem says_storeTo {v : TypeSet} (hv : v.In L) {target : Node} (htarget : target ∈ known) :
    Says R (ofTarget f.program f.graph f.unit target) (storeTo f v target) fun _ => True :=
  says_storeInto hears_lambdas hv htarget

theorem says_delete {target : Node} (htarget : target ∈ known) :
    Says R (ofDeletion f.program f.graph f.unit target) (delete f target) fun _ => True := by
  unfold delete ofDeletion
  cases target.kind with
  | name _ => exact says_bindName (in_scalar _) _ _
  | _ => exact says_evaluateAll fun c hc => R.child htarget hc

theorem says_augmented {stmt : NodeId} (hstmt : stmt ∈ L.numbers) (op : BinaryOp) {target value : Node}
    (htarget : target ∈ known) (hvalue : value ∈ known) :
    Says R (Mark.ofAugmented f.program f.graph f.unit target value) (augmented f stmt op target value)
      fun _ => True := by
  unfold augmented Mark.ofAugmented
  cases hkind : target.kind with
  | name _ =>
    unfold augmentName ofName
    cases hl : f.program.table.location? target.id with
    | some l =>
      refine (spells_readSlot l).bind fun current hcurrent => (stays_record _ _).andThen ?_
      refine (says_evaluate hvalue).bind fun operand hoperand => ?_
      exact (spells_augment hstmt hoperand op hcurrent).bind fun v hv => says_assign hv _ (R.location? hl)
    | none => exact .pure trivial
  | «attribute» attr =>
    have hattr : attr ∈ L.words := R.word htarget (by simp [Node.words, hkind])
    unfold augmentAttr
    match hchildren : target.children with
    | receiver :: _ =>
      refine (says_evaluate (R.child htarget (by simp [hchildren]))).bind fun r hr => ?_
      refine (spells_loadAttr hattr _ hr).bind fun current hcurrent => ?_
      refine (says_evaluate hvalue).bind fun operand hoperand => ?_
      exact (spells_augment hstmt hoperand op hcurrent).bind fun v hv => says_storeAttr hv hattr hr
    | [] => exact .pure trivial
  | subscript =>
    unfold augmentItem
    match hchildren : target.children with
    | [container, index] =>
      refine (says_evaluate (R.child htarget (by simp [hchildren]))).bind fun c hc => ?_
      refine (says_evaluate (R.child htarget (by simp [hchildren]))).bind fun i hi => ?_
      refine (spells_loadItem (R.id htarget) _ hi hc).bind fun current hcurrent => ?_
      refine (says_evaluate hvalue).thenQuiet fun operand hoperand => ?_
      exact (spells_augment hstmt hoperand op hcurrent).bind fun v hv => stays_storeItem (R.id htarget) _ hi hv hc
    | [] | [_] | _ :: _ :: _ :: _ => exact .pure trivial
  | _ => exact (says_evaluate hvalue).discard

theorem says_importMember {stmt item : Node} {module : String} (hstmt : stmt ∈ known)
    (hmodule : stmt.kind = .importFrom module) (hitem : item ∈ stmt.children) :
    Says R (ofMember f.program f.unit item) (importMember f module item) fun _ => True := by
  unfold importMember ofMember
  cases hkind : item.kind with
  | «alias» name _ =>
    refine .choose (.pure trivial) ?_
    split
    next => exact (spells_readSlot _).bind fun v hv => says_bindName (hv.without _) _ _
    next other hother => exact says_bindName ((in_single (t := .module _)).2 (R.submodule hother)) _ _
    next =>
      have hword : module ++ "." ++ name ∈ L.words := by
        refine R.word hstmt ?_
        simp only [Node.words, hmodule, List.mem_filterMap]
        exact ⟨item, hitem, by simp [hkind]⟩
      exact says_bindName ((in_single (t := .module _)).2 hword) _ _
  | _ => exact .pure trivial

theorem says_exec {stmt : Node} (hstmt : stmt ∈ known) :
    Says R (Mark.ofStatement f.program f.graph f.unit stmt) (exec f stmt) fun _ => True := by
  have hid := R.id hstmt
  have hchildren : ∀ c ∈ stmt.children, c ∈ known := fun c hc => R.child hstmt hc
  unfold exec Mark.ofStatement
  cases hkind : stmt.kind with
  | assign =>
    cases hvalue : stmt.children.getLast? with
    | some value =>
      refine (says_evaluate (hchildren value (List.mem_of_getLast? hvalue))).bind fun v hv => ?_
      exact .forMarked fun target htarget => says_storeTo hv (hchildren target (List.mem_of_mem_dropLast htarget))
    | none => exact .pure trivial
  | augAssign op =>
    match heq : stmt.children with
    | [target, value] =>
      exact says_augmented hid _ (hchildren target (by simp [heq])) (hchildren value (by simp [heq]))
    | [] | [_] | _ :: _ :: _ :: _ => exact .pure trivial
  | annAssign _ =>
    match heq : stmt.children with
    | [target, value] =>
      exact (says_evaluate (hchildren value (by simp [heq]))).bind fun v hv =>
        says_storeTo hv (hchildren target (by simp [heq]))
    | [] | [_] | _ :: _ :: _ :: _ => exact .pure trivial
  | delete => exact .forMarked fun target htarget => says_delete (hchildren target htarget)
  | ret =>
    match heq : stmt.children with
    | value :: _ =>
      rw [ofFirst]
      exact (says_evaluate (hchildren value (by simp [heq]))).bind fun v hv => says_result hv
    | [] => exact says_result (in_scalar _)
  | functionDef _ =>
    have hbind := says_bindName (R := R) (v := .single (.function stmt.id)) (in_single.2 hid) false stmt.id
    cases harguments : stmt.childOfKind? "Arguments" with
    | some arguments =>
      have hknown := R.childOfKind? hstmt harguments
      exact (says_evalParamDefaults hears_lambdas {} _ fun c hc => R.child hknown hc).andThen hbind
    | none => exact hbind
  | classDef _ =>
    refine (says_evaluateAll fun c hc => hchildren c (List.mem_of_mem_drop hc)).andThen (says_bindName ?_ _ _)
    split
    next cls hcls => exact in_single.2 (R.classOf hcls)
    next => trivial
  | importModules =>
    refine .forMarked fun item hitem => ?_
    unfold ofImported
    cases hmodule : f.program.importedModule? item with
    | some module =>
      exact says_bindName ((in_single (t := .module _)).2 (R.imported (hchildren item hitem) hmodule)) _ _
    | none => exact .pure trivial
  | importFrom module => exact .forMarked fun item hitem => says_importMember hstmt hkind hitem
  | exprStmt | raise | assertion => exact says_evaluateAll hchildren
  | unsupported word => exact (stays_flag _ _).andThen (says_evaluateAll hchildren)
  | _ => exact .pure trivial

theorem says_enterItem {item : Node} (hitem : item ∈ known) :
    Says R (ofItem f.program f.graph f.unit item) (enterItem f item) fun _ => True := by
  have hentered : ∀ {manager : TypeSet}, manager.In L → Spells R (joinEach (entered f item.id) manager.toList) :=
    fun hmanager => .joinEach fun t ht => spells_entered (R.id hitem) (hmanager.of_mem_toList ht)
  unfold enterItem ofItem
  match heq : item.children with
  | [] => exact .pure trivial
  | [context] =>
    exact (says_evaluate (R.child hitem (by simp [heq]))).thenQuiet fun _ hmanager =>
      (hentered hmanager).bind fun _ _ => .pure trivial
  | context :: target :: _ =>
    refine (says_evaluate (R.child hitem (by simp [heq]))).bind fun _ hmanager => (hentered hmanager).bind
      fun bound hbound => says_storeTo ?_ (R.child hitem (by simp [heq]))
    split
    · trivial
    · exact hbound

theorem says_bindCaught (handler : Node) {v : TypeSet} (hv : v.In L) :
    Says R (ofCaught f.program f.unit handler) (bindCaught f handler v) fun _ => True := by
  unfold bindCaught ofCaught
  cases handler.kind with
  | handler name =>
    cases name with
    | some name => exact (stays_record _ v).andThen (says_bindName hv _ _)
    | none => exact .pure trivial
  | _ => exact .pure trivial

end Eval

/-! ## Steps -/

def Step.nodes : Step → List Node
  | .parameters n | .exec n | .eval n | .test n | .handle n | .enter n => [n]
  | .bind into value => [into, value]
  | .iterate target iterable => [target, iterable]
  | .returnNone => []

open Eval in
theorem Eval.says_runStep {f : Frame} {L : Language} {known : Set Node} {R : Reading f L known} [R.Full] {s : Step}
    (hs : s ∈ f.block.steps) (hknown : ∀ n ∈ s.nodes, n ∈ known) (hhandle : ∀ handler, s ≠ .handle handler) :
    Says R (Mark.ofStep f.program f.graph f.unit s) (runStep f s) fun _ => True := by
  cases s with
  | parameters arguments =>
    exact says_enterParams (List.any_eq_true.2 ⟨_, hs, rfl⟩) true (Nat.zero_le _) fun c hc =>
      R.child (hknown arguments (by simp [Step.nodes])) hc
  | exec stmt => exact says_exec (hknown stmt (by simp [Step.nodes]))
  | eval expr =>
    have hexpr := hknown expr (by simp [Step.nodes])
    exact (says_eval hears_lambdas { ahead := true } expr hexpr).thenQuiet fun v hv => Reading.Full.hold (R.id hexpr) hv
  | bind into value =>
    have hinto := hknown into (by simp [Step.nodes])
    exact (spells_readSlot _).bind fun v hv => Reading.Full.hold (R.id hinto) hv
  | test condition => exact (says_evaluate (hknown condition (by simp [Step.nodes]))).discard
  | iterate target iterable =>
    refine (spells_readSlot _).bind fun v hv => ?_
    refine (spells_iterate (R.id (hknown iterable (by simp [Step.nodes]))) hv).bind fun w hw => ?_
    exact says_storeTo hw (hknown target (by simp [Step.nodes]))
  | handle handler => exact absurd rfl (hhandle handler)
  | enter item => exact says_enterItem (hknown item (by simp [Step.nodes]))
  | returnNone => exact says_result (in_scalar _)

end PointsTo
