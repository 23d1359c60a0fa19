import Mathlib.Data.List.Perm.Subperm
import PointsTo.Proofs.Evaluation.Limits
import PointsTo.Evaluation.Step

/-! # Calls inside expressions

An expression runs the lambdas it calls, and builtins run the functions they are given. Both recursions count
down. A builtin passes on fewer arguments than it was given. A lambda that runs already is not run again, and
evaluation calls no lambdas but those of the program, so there is an end to how many can run at once. -/

namespace PointsTo
namespace Eval

open List

variable (f : Frame)

/-- Two ways to call lambdas that give the same for every lambda of the program. -/
def Agree (lambda lambda' : LambdaCall) : Prop :=
  ∀ d, f.program.tree.kind d = .lambda → ∀ call args,
    lambda call (f.program.tree.node d) args = lambda' call (f.program.tree.node d) args

section Calls

variable (call : NodeId)

theorem bind_congr_value {α β : Type} {act : Eval α} {next next' : α → Eval β}
    (h : ∀ m, next (act.run m).1 = next' (act.run m).1) : act >>= next = act >>= next' :=
  funext fun m => congrFun (h m) (act.run m).2

theorem length_iterateEach (vs : List TypeSet) (m : Machine) :
    ((iterateEach f call vs).run m).1.length = vs.length := by
  induction vs generalizing m with
  | nil => rfl
  | cons v vs ih => exact congrArg (· + 1) (ih _)

variable {again again' : TypeSet → List TypeSet → Eval TypeSet} {args : CallArgs}

theorem callBuiltin_congr (name : String)
    (h : ∀ callee vs, vs.length < args.positional.length → again callee vs = again' callee vs) :
    callBuiltin f call again name args = callBuiltin f call again' name args := by
  obtain ⟨positional, keywords, spread⟩ := args
  unfold callBuiltin
  cases Builtin.call? name with
  | none => rfl
  | some b =>
    cases b with
    | map =>
      match positional with
      | [] => rfl
      | function :: iterables =>
        refine bind_congr_value fun m => ?_
        rw [h function _ (by simp [length_iterateEach])]
    | filter =>
      match positional with
      | [] | [_] | _ :: _ :: _ :: _ => rfl
      | [test, iterable] =>
        have htest : ∀ items, again test [items] = again' test [items] := fun items => h test [items] (by simp)
        simp only [htest]
    | _ => rfl

variable {f} {lambda lambda' : LambdaCall}
variable (hlambda : Agree f lambda lambda')
include hlambda

theorem callTag_congr
    (h : ∀ callee vs, vs.length < args.positional.length → again callee vs = again' callee vs) (t : TypeTag) :
    callTag f lambda call again args t = callTag f lambda' call again' args t := by
  cases t with
  | function d =>
    unfold callTag
    dsimp only
    split
    next hd => exact hlambda d hd call args
    next => rfl
  | builtin name => exact callBuiltin_congr f call name h
  | object r =>
    obtain ⟨site, kind⟩ := r
    cases kind <;> rfl
  | _ => rfl

theorem callEach_congr
    (h : ∀ callee vs, vs.length < args.positional.length → again callee vs = again' callee vs) (callee : TypeSet) :
    callEach f lambda call again callee args = callEach f lambda' call again' callee args := by
  unfold callEach
  rw [funext (callTag_congr call hlambda h)]

theorem callUpTo_congr {n n' : Nat} {positional : List TypeSet}
    (hn : positional.length ≤ n) (hn' : positional.length ≤ n') (callee : TypeSet) :
    callUpTo f lambda call n callee positional = callUpTo f lambda' call n' callee positional := by
  induction n generalizing n' positional callee with
  | zero =>
    obtain rfl : positional = [] := eq_nil_of_length_eq_zero (by omega)
    cases n' <;> exact callEach_congr call hlambda (by simp) callee
  | succ n ih =>
    cases n' with
    | zero =>
      obtain rfl : positional = [] := eq_nil_of_length_eq_zero (by omega)
      exact callEach_congr call hlambda (by simp) callee
    | succ n' =>
      refine callEach_congr call hlambda (fun callee vs hvs => ?_) callee
      dsimp only at hvs
      exact ih (by omega) (by omega) callee

theorem callValue_congr (callee : TypeSet) (args : CallArgs) :
    callValue f lambda call callee args = callValue f lambda' call callee args :=
  callEach_congr call hlambda (fun callee _ hvs => callUpTo_congr call hlambda hvs.le hvs.le callee) callee

omit hlambda

theorem settles_callUpTo (lambda : LambdaCall) (callee : TypeSet) (args : CallArgs) :
    Settles (fun n => callEach f lambda call (callUpTo f lambda call n) callee args)
      (callValue f lambda call callee args) := by
  have hlambda : Agree f lambda lambda := fun _ _ _ _ => rfl
  exact ⟨args.positional.length, fun n hn => callEach_congr call hlambda
    (fun callee _ hvs => callUpTo_congr call hlambda (hvs.le.trans hn) hvs.le callee) callee⟩

end Calls

section Expressions

variable {f} {lambda lambda' : LambdaCall}

mutual

theorem eval_congr (h : Agree f lambda lambda') (m : Mode) : ∀ n : Node, eval f lambda m n = eval f lambda' m n
  | ⟨id, kind, span, parent, children⟩ => by
    cases kind with
    | logical | compare | slice | joinedStr | formattedValue | unsupported =>
      simp only [eval, evalAll_congr h m.operand children]
    | list | tuple | set => simp only [eval, evalElements_congr h m.operand children]
    | dict => simp only [eval, evalEntries_congr h m.operand children]
    | listComp | setComp | dictComp | generatorExp =>
      simp only [eval, evalClauses_congr h children, evalParts_congr h _ children]
    | lambda => simp only [eval, evalDefaults_congr h m.operand children]
    | unary | «attribute» | yielding | yieldFrom | await | starred | keyword =>
      cases children with
      | nil => rfl
      | cons n rest => simp only [eval, eval_congr h m.operand n]
    | binary | subscript =>
      match children with
      | [] | [_] | _ :: _ :: _ :: _ => rfl
      | [l, r] => simp only [eval, eval_congr h m.operand l, eval_congr h m.operand r]
    | conditional =>
      match children with
      | [] | [_] | [_, _] | _ :: _ :: _ :: _ :: _ => rfl
      | [test, first, second] =>
        simp only [eval, eval_congr h m.operand test, eval_congr h m.operand first, eval_congr h m.operand second]
    | call =>
      cases children with
      | nil => rfl
      | cons callee args =>
        simp only [eval, eval_congr h m.operand callee, evalArguments_congr h m.operand {} args, callValue_congr id h]
    | namedExpr =>
      match children with
      | [] | [_] | _ :: _ :: _ :: _ => rfl
      | [target, source] =>
        simp only [eval, eval_congr h m.operand source, eval_congr h m.operand target, store_congr h m.operand _ target]
    | _ => simp only [eval]

theorem evalAll_congr (h : Agree f lambda lambda') (m : Mode) : ∀ ns : List Node,
    evalAll f lambda m ns = evalAll f lambda' m ns
  | [] => by simp only [evalAll]
  | n :: rest => by simp only [evalAll, eval_congr h m n, evalAll_congr h m rest]

theorem evalArguments_congr (h : Agree f lambda lambda') (m : Mode) (args : CallArgs) : ∀ ns : List Node,
    evalArguments f lambda m args ns = evalArguments f lambda' m args ns
  | [] => by simp only [evalArguments]
  | ⟨id, kind, span, parent, []⟩ :: rest => by
    simp only [evalArguments, eval_congr h m ⟨id, kind, span, parent, []⟩, evalArguments_congr h m _ rest]
  | ⟨id, kind, span, parent, inner :: more⟩ :: rest => by
    simp only [evalArguments, eval_congr h m inner, eval_congr h m ⟨id, kind, span, parent, inner :: more⟩,
      evalArguments_congr h m _ rest]

theorem evalElements_congr (h : Agree f lambda lambda') (m : Mode) : ∀ ns : List Node,
    evalElements f lambda m ns = evalElements f lambda' m ns
  | [] => by simp only [evalElements]
  | ⟨id, kind, span, parent, []⟩ :: rest => by
    simp only [evalElements, eval_congr h m ⟨id, kind, span, parent, []⟩, evalElements_congr h m rest]
  | ⟨id, kind, span, parent, inner :: more⟩ :: rest => by
    simp only [evalElements, eval_congr h m inner, eval_congr h m ⟨id, kind, span, parent, inner :: more⟩,
      evalElements_congr h m rest]

theorem evalEntries_congr (h : Agree f lambda lambda') (m : Mode) : ∀ ns : List Node,
    evalEntries f lambda m ns = evalEntries f lambda' m ns
  | [] | [_] => by simp only [evalEntries]
  | k :: v :: rest => by simp only [evalEntries, eval_congr h m k, eval_congr h m v, evalEntries_congr h m rest]

theorem evalClauses_congr (h : Agree f lambda lambda') : ∀ ns : List Node,
    evalClauses f lambda ns = evalClauses f lambda' ns
  | [] => by simp only [evalClauses]
  | ⟨id, kind, span, parent, parts⟩ :: rest => by
    simp only [evalClauses, evalClause_congr h parts, evalClauses_congr h rest]

theorem evalClause_congr (h : Agree f lambda lambda') : ∀ parts : List Node,
    evalClause f lambda parts = evalClause f lambda' parts
  | [] | [_] => by simp only [evalClause]
  | target :: iterable :: conditions => by
    simp only [evalClause, eval_congr h .body iterable, eval_congr h .body target, store_congr h .body _ target,
      evalAll_congr h .body conditions]

theorem evalParts_congr (h : Agree f lambda lambda') (each : TypeSet → Eval Unit) : ∀ ns : List Node,
    evalParts f lambda each ns = evalParts f lambda' each ns
  | [] => by simp only [evalParts]
  | n :: rest => by simp only [evalParts, eval_congr h .body n, evalParts_congr h each rest]

theorem evalDefaults_congr (h : Agree f lambda lambda') (m : Mode) : ∀ ns : List Node,
    evalDefaults f lambda m ns = evalDefaults f lambda' m ns
  | [] => by simp only [evalDefaults]
  | ⟨id, kind, span, parent, params⟩ :: rest => by simp only [evalDefaults, evalParamDefaults_congr h m params]

theorem evalParamDefaults_congr (h : Agree f lambda lambda') (m : Mode) : ∀ ns : List Node,
    evalParamDefaults f lambda m ns = evalParamDefaults f lambda' m ns
  | [] => by simp only [evalParamDefaults]
  | ⟨id, kind, span, parent, []⟩ :: rest => by simp only [evalParamDefaults, evalParamDefaults_congr h m rest]
  | ⟨id, kind, span, parent, d :: more⟩ :: rest => by
    simp only [evalParamDefaults, eval_congr h m d, evalParamDefaults_congr h m rest]

theorem store_congr (h : Agree f lambda lambda') (m : Mode) (v : TypeSet) : ∀ n : Node,
    store f lambda m v n = store f lambda' m v n
  | ⟨id, kind, span, parent, children⟩ => by
    cases kind with
    | tuple | list => simp only [store, storeAll_congr h m _ children]
    | starred => simp only [store, storeFirst_congr h m _ children]
    | «attribute» =>
      cases children with
      | nil => rfl
      | cons receiver rest => simp only [store, eval_congr h m receiver]
    | subscript =>
      match children with
      | [] | [_] | _ :: _ :: _ :: _ => rfl
      | [container, index] => simp only [store, eval_congr h m container, eval_congr h m index]
    | _ => simp only [store]

theorem storeAll_congr (h : Agree f lambda lambda') (m : Mode) (v : TypeSet) : ∀ ns : List Node,
    storeAll f lambda m v ns = storeAll f lambda' m v ns
  | [] => by simp only [storeAll]
  | target :: rest => by
    simp only [storeAll, store_congr h m v target, eval_congr h m target, storeAll_congr h m v rest]

theorem storeFirst_congr (h : Agree f lambda lambda') (m : Mode) (v : TypeSet) : ∀ ns : List Node,
    storeFirst f lambda m v ns = storeFirst f lambda' m v ns
  | [] => by simp only [storeFirst]
  | target :: rest => by simp only [storeFirst, store_congr h m v target, eval_congr h m target]

end

end Expressions

section Lambdas

variable {active : List NodeId}

/-- The lambdas that run are different nodes of the program. -/
structure Running (f : Frame) (active : List NodeId) : Prop where
  nodup : active.Nodup
  nodes : active ⊆ f.program.tree.nodes.toList.map (·.id)

variable {f}

namespace Running

theorem nil : Running f [] := ⟨.nil, nil_subset _⟩

theorem cons (h : Running f active) {d : NodeId} (hd : (f.program.tree.node d).id ∉ active) :
    Running f ((f.program.tree.node d).id :: active) where
  nodup := nodup_cons.2 ⟨hd, h.nodup⟩
  nodes := cons_subset.2 ⟨List.mem_map_of_mem (f.program.tree.node_mem_nodes d), h.nodes⟩

theorem mem_of_size_le (h : Running f active) (hfull : f.program.tree.size ≤ active.length) (d : NodeId) :
    (f.program.tree.node d).id ∈ active := by
  have hperm : active.Perm (f.program.tree.nodes.toList.map (·.id)) :=
    (h.nodup.subperm h.nodes).perm_of_length_le (by simpa [SyntaxTree.size] using hfull)
  exact hperm.mem_iff.2 (List.mem_map_of_mem (f.program.tree.node_mem_nodes d))

end Running

theorem callLambda_agree {n n' : Nat} (h : Running f active) (hn : f.program.tree.size ≤ n + active.length)
    (hn' : f.program.tree.size ≤ n' + active.length) : Agree f (callLambda f n active) (callLambda f n' active) := by
  induction n generalizing n' active with
  | zero =>
    -- There is no depth left only when every lambda runs, and then none is run again.
    intro d hd call args
    have hactive := h.mem_of_size_le (by omega) d
    cases n' <;> simp [callLambda, hactive]
  | succ n ih =>
    intro d hd call args
    by_cases hactive : (f.program.tree.node d).id ∈ active
    · cases n' <;> simp [callLambda, hactive]
    obtain _ | n' := n'
    · exact absurd (h.mem_of_size_le (by omega) d) hactive
    have hbody : Agree f (callLambda f n _) (callLambda f n' _) :=
      ih (h.cons hactive) (by rw [length_cons]; omega) (by rw [length_cons]; omega)
    simp only [callLambda, eval_congr hbody]

theorem settles_callLambda (call : NodeId) {d : NodeId} (hd : f.program.tree.kind d = .lambda) (args : CallArgs) :
    Settles (callLambda f · [] call (f.program.tree.node d) args) (lambdas f call (f.program.tree.node d) args) :=
  ⟨f.program.tree.size, fun _ hn =>
    callLambda_agree .nil (by simpa using hn) (by simp) d hd call args⟩

end Lambdas

end Eval
end PointsTo
