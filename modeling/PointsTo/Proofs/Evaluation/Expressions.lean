import PointsTo.Proofs.Evaluation.Calls

/-! # Readings of expressions

Expressions define what their marks say: the syntax decides it, except where a call writes to parameters and where the
receiver decides what an attribute stands for. A reading that knows how definitions are made therefore says of an
expression what it says of its parts, and of a lambda that it runs no more than of any call. -/

namespace PointsTo

open TypeSet Mark

namespace Eval

variable {f : Frame} {L : Language} {known : Set Node} {R : Reading f L known}

/-! ## Parts of expressions -/

section Parts

variable {ms ms' : List Mark}

theorem says_recorded (node : NodeId) {act : Eval TypeSet} (h : Says R ms act (TypeSet.In L)) :
    Says R ms (recorded node act) (TypeSet.In L) :=
  h.thenQuiet fun v hv => (stays_record node v).andThen (.pure hv)

theorem says_evaluated (m : Mode) (node : NodeId) {act : Eval TypeSet} (h : Says R ms act (TypeSet.In L)) :
    Says R (if !m.ahead && f.graph.isHoisted node then [] else ms) (evaluated f m node act) (TypeSet.In L) :=
  says_recorded node (.choose (spells_readSlot _) h)

theorem says_storeOrEval (target : Node) {asPattern : Eval Unit} {asValue : Eval TypeSet} {good : TypeSet → Prop}
    (h : Says R ms asPattern fun _ => True) (h' : Says R ms' asValue good) :
    Says R (if target.kind.isPattern then ms else ms') (storeOrEval target asPattern asValue) fun _ => True :=
  .choose h h'.discard

theorem spells_loadName (node : NodeId) : Spells R (loadName f node) := by
  unfold loadName
  split
  next => exact spells_readSlot _
  next name hname =>
    exact .pure (in_getD (fun v hv => Builtin.in_constant? R.ownWord hv)
      (in_single.2 (R.builtin hname)))
  next => exact spells_giveUp node _
  next => exact .pure trivial

theorem spells_yieldValue {v : TypeSet} (hv : v.In L) : Spells R (yieldValue f v) :=
  .ite ((stays_writeElements (R.generatorOf _ R.ownScope) hv).andThen (.pure (in_scalar _)))
    (.pure (in_scalar _))

theorem spells_mappingValues {v : TypeSet} (hv : v.In L) : Spells R (mappingValues f v) := by
  refine .withState (fun _ _ => rfl) fun s hs => .pure (hv.flatMap fun t _ => ?_)
  split
  · split
    · exact R.value hs _
    · trivial
  · trivial

theorem spells_freshDict (node : NodeId) {keys values : TypeSet} (hkeys : keys.In L) (hvalues : values.In L) :
    Spells R (freshDict f node keys values) := by
  have hr : (f.alloc node .dict).In L := R.alloc node .dict trivial (Nat.zero_le _)
  exact (stays_writeKeys hr hkeys).andThen ((stays_writeElements hr hvalues).andThen (.pure (in_object hr)))

theorem says_comprehend (node : NodeId) (kind : ObjKind) (hkind : kind.In L) (children : List Node)
    {clauses : Eval Unit} {parts : (TypeSet → Eval Unit) → Eval (List TypeSet)}
    (hclauses : Says R ms clauses fun _ => True)
    (hparts : ∀ each, (∀ v, v.In L → Stays R (each v)) → Says R ms' (parts each) fun vs => ∀ v ∈ vs, v.In L) :
    Says R (ms ++ ms') (comprehend f node kind children clauses parts) (TypeSet.In L) := by
  have hr : (f.alloc node kind).In L := R.alloc node kind hkind (Nat.zero_le _)
  unfold comprehend
  refine hclauses.andThen ?_
  extract_lets r
  refine .ite ?_ ?_
  · refine (hparts _ fun _ _ => .pure trivial).thenQuiet fun vs hvs => ?_
    split
    next key v =>
      exact (stays_writeKeys hr (hvs key (by simp))).andThen
        ((stays_writeElements hr (hvs v (by simp))).andThen (.pure (in_object hr)))
    next => exact .pure (in_object hr)
  · exact (hparts _ fun v hv => stays_writeElements hr hv).discard.thenQuiet fun _ _ => .pure (in_object hr)

section Operands

variable {node : NodeId} (hnode : node ∈ L.numbers) (kind : Kind) {inner whole : Eval TypeSet}
  (hinner : Says R ms inner (TypeSet.In L)) (hwhole : Says R ms' whole (TypeSet.In L))
include hnode hinner hwhole

theorem says_spreadOr :
    Says R (if kind = .starred then ms else ms') (spreadOr f node kind inner whole) (TypeSet.In L) :=
  .choose (hinner.thenQuiet fun _ hv => spells_iterate hnode hv) hwhole

theorem says_addArgument {args : CallArgs} (hargs : args.In L) :
    Says R (if kind.isWrapper then ms else ms') (addArgument f args node kind inner whole) (CallArgs.In L) := by
  have hpositional : Says R ms' (do return args.addPositional (← whole)) (CallArgs.In L) :=
    hwhole.thenQuiet fun v hv => .pure (hargs.addPositional hv)
  cases kind with
  | starred =>
    exact hinner.thenQuiet fun v hv => (spells_iterate hnode hv).bind fun w hw => .pure (hargs.addSpread hw)
  | keyword name =>
    cases name with
    | some name => exact hinner.thenQuiet fun v hv => .pure (hargs.addKeyword hv)
    | none =>
      exact hinner.thenQuiet fun v hv => (spells_mappingValues hv).bind fun w hw => .pure (hargs.addSpread hw)
  | _ => exact hpositional

end Operands

end Parts

end Eval

/-! ## Definitions -/

def Block.bindsParameters (b : Block) : Bool :=
  b.steps.any fun
    | .parameters _ => true
    | _ => false

/-- A reading of all that blocks do: they also make definitions, replace variables and use temporaries. -/
class Reading.Full {f : Frame} {L : Language} {known : Set Node} (R : Reading f L known) : Prop where
  mark : ∀ {l : Location} {v : TypeSet}, l.In L → v.In L →
    R.holds (ofWrite f.unit l) (Eval.writeSlot f l v) fun _ => True
  note : ∀ l, R.holds (ofWrite f.unit l) (Eval.noteDefinition f l) fun _ => True
  replace : ∀ {l : Location} {v : TypeSet}, l.In L → v.In L →
    f.replaces false l = true ∨ f.block.bindsParameters = true ∧ (∃ name, l = .var f.unit.scope name) →
    R.holds [] (do Eval.publish l v; Eval.setSlot l v) fun _ => True
  keep : ∀ {node : NodeId} {v : TypeSet}, node ∈ L.numbers → v.In L →
    R.holds [] (Eval.keepDefault node v) fun _ => True
  hold : ∀ {node : NodeId} {v : TypeSet}, node ∈ L.numbers → v.In L →
    R.holds [] (Eval.setSlot (.temp node) v) fun _ => True
  /-- What is marked may be left to what the values decide. -/
  relax : ∀ {α : Type} {ms ms' : List Mark} {act : Eval α} {good : α → Prop}, R.holds ms act good →
    Mark.locations ms' = [] →
    (∀ l, f.unit.defines l = true → .define l ∈ ms ∨ (∃ attr, .store attr ∈ ms ∧ f.program.Attribute attr l) →
      f.Undecided ms' l) → R.holds ms' act good

/-- A full reading, and what it takes a way to call lambdas to do. -/
structure Reading.Hears {f : Frame} {L : Language} {known : Set Node} (R : Reading f L known)
    (lambda : Eval.LambdaCall) : Prop where
  full : R.Full
  spells : ∀ {d}, f.program.tree.kind d = .lambda → ∀ {call args}, call ∈ L.numbers → args.In L →
    Eval.Spells R (lambda call (f.program.tree.node d) args)

namespace Eval

open Reading (Full)

variable {f : Frame} {L : Language} {known : Set Node} {R : Reading f L known} [R.Full]

theorem Says.forStores {α : Type} {attr : String} {xs : List α} {g : α → Eval Unit}
    (h : ∀ x ∈ xs, Says R [.store attr] (g x) fun _ => True) : Says R [.store attr] (xs.forM g) fun _ => True := by
  induction xs with
  | nil => exact Full.relax (Says.pure trivial) rfl (by simp)
  | cons x xs ih =>
    have hboth := (h x (by simp)).bind fun _ _ => ih fun y hy => h y (by simp [hy])
    refine Full.relax hboth rfl fun l hown hl => ⟨hown, .inr ?_⟩
    simpa using hl

section Definitions

variable {v : TypeSet} (hv : v.In L)
include hv

theorem says_assign (nested : Bool) {l : Location} (hl : l.In L) :
    Says R (ofWrite f.unit l) (assign f nested l v) fun _ => True := by
  unfold assign
  split
  next h =>
    subst h
    exact .pure trivial
  next =>
    split
    next h =>
      refine Says.thenQuiet (Full.note l) fun _ _ => Full.replace hl hv (.inl ?_)
      cases nested
      · exact h
      · simp [Frame.replaces] at h
    next => exact Full.mark hl hv

theorem says_bindName (nested : Bool) (node : NodeId) :
    Says R (ofName f.program f.unit node) (bindName f nested node v) fun _ => True := by
  unfold bindName ofName
  cases hl : f.program.table.location? node with
  | some l => exact says_assign hv nested (R.location? hl)
  | none => exact .pure trivial

theorem says_result : Says R [Mark.result f.unit] (writeSlot f (.ret f.unit.node.id) v) fun _ => True := by
  have h := Full.mark (R := R) (l := .ret f.unit.node.id) R.unitNode hv
  rwa [ofWrite, if_pos (by simp [UnitInfo.defines])] at h

theorem says_storeAttr {attr : String} (hattr : attr ∈ L.words) {receiver : TypeSet} (hreceiver : receiver.In L) :
    Says R [.store attr] (storeAttr f receiver attr v) fun _ => True := by
  have hquiet : ∀ {act : Eval Unit}, Stays R act → Says R [.store attr] act fun _ => True := fun h =>
    Full.relax h rfl (by simp)
  have hwrite : ∀ {l : Location}, l.In L → f.program.Attribute attr l →
      Says R [.store attr] (writeSlot f l v) fun _ => True := by
    refine fun {l} hl ha => Full.relax (Full.mark hl hv) rfl fun l' hown h => ⟨hown, .inr ⟨attr, by simp, ?_⟩⟩
    obtain rfl : l' = l := by
      unfold ofWrite at h
      split at h <;> simp_all
    exact ha
  refine .forStores fun t hmem => ?_
  have ht := hreceiver.of_mem_toList hmem
  clear hmem
  split
  next r => exact hquiet (stays_writeHeap rfl (HeapRef.In.field ht hattr) hv)
  next cls => exact hwrite ⟨R.classScope cls, hattr⟩ (.cls cls)
  next module =>
    split
    next l hl => exact hwrite (R.global hattr hl) (.global hl)
    next => exact hquiet (.pure trivial)
  next => exact hquiet (.pure trivial)

end Definitions

/-! ## Expressions -/

section Expressions

variable {lambda : LambdaCall}

omit [R.Full]

mutual

theorem says_eval (hR : R.Hears lambda) : ∀ (m : Mode) (n : Node), n ∈ known →
    Says R (ofExpr f.program f.graph f.unit m.ahead n) (eval f lambda m n) (TypeSet.In L)
  | m, ⟨id, kind, span, parent, children⟩, hn => by
    have hid : id ∈ L.numbers := R.id hn
    have hchildren : ∀ c ∈ children, c ∈ known := fun c hc => R.child hn hc
    rw [eval, Mark.ofExpr.eq_def]
    refine says_evaluated m id ?_
    cases kind with
    | literal l =>
      refine .pure (in_single.2 ?_)
      cases l <;> trivial
    | name _ => exact spells_loadName id
    | binary op =>
      match children with
      | [l, r] =>
        refine (says_eval hR m.operand l (hchildren l (by simp))).bind fun left hleft => ?_
        exact (says_eval hR m.operand r (hchildren r (by simp))).thenQuiet fun right hright =>
          spells_binary hid hright op hleft
      | [] | [_] | _ :: _ :: _ :: _ => exact .pure trivial
    | unary op =>
      match children with
      | operand :: _ =>
        rw [ofFirst]
        exact (says_eval hR m.operand operand (hchildren operand (by simp))).thenQuiet fun v hv =>
          spells_unary hid hv op
      | [] => exact spells_unary hid in_top op
    | logical _ =>
      exact (says_evalAll hR m children hchildren).thenQuiet fun vs hvs => .pure (in_joinAll hvs)
    | conditional =>
      match children with
      | [test, first, second] =>
        refine (says_eval hR m.operand test (hchildren test (by simp))).discard.andThen ?_
        refine (says_eval hR m.operand first (hchildren first (by simp))).bind fun v hv => ?_
        exact (says_eval hR m.operand second (hchildren second (by simp))).thenQuiet fun w hw => .pure (hv.join hw)
      | [] | [_] | [_, _] | _ :: _ :: _ :: _ :: _ => exact .pure trivial
    | compare _ | joinedStr | formattedValue =>
      exact (says_evalAll hR m children hchildren).discard.thenQuiet fun _ _ => .pure (in_scalar _)
    | call =>
      match children with
      | callee :: args =>
        refine (says_eval hR m.operand callee (hchildren callee (by simp))).bind fun target htarget => ?_
        refine (says_evalArguments hR m {} args CallArgs.in_empty fun c hc => hchildren c (by simp [hc])).thenQuiet
          fun a ha => ?_
        exact spells_callValue hid ha hR.spells htarget
      | [] => exact .pure in_bottom
    | «attribute» attr =>
      match children with
      | receiver :: _ =>
        have hattr : attr ∈ L.words := R.word hn (by simp [Node.words])
        rw [ofFirst]
        exact (says_eval hR m.operand receiver (hchildren receiver (by simp))).thenQuiet fun v hv =>
          spells_loadAttr hattr id hv
      | [] => exact .pure trivial
    | subscript =>
      match children with
      | [container, index] =>
        refine (says_eval hR m.operand container (hchildren container (by simp))).bind fun v hv => ?_
        exact (says_eval hR m.operand index (hchildren index (by simp))).thenQuiet fun i hi =>
          spells_loadItem hid _ hi hv
      | [] | [_] | _ :: _ :: _ :: _ => exact .pure trivial
    | slice =>
      have hr := R.alloc id (.builtin "slice") (R.ownWord (by decide)) (Nat.zero_le 255)
      exact (says_evalAll hR m children hchildren).discard.thenQuiet fun _ _ => .pure (in_object hr)
    | list | tuple | set =>
      exact (says_evalElements hR m children hchildren).thenQuiet fun v hv =>
        spells_fresh id _ (by trivial) hv (Nat.zero_le _)
    | dict => exact (says_evalEntries hR m children hchildren).thenQuiet fun e he => spells_freshDict id he.1 he.2
    | listComp | setComp | dictComp =>
      exact says_comprehend id _ (by trivial) children (says_evalClauses hR children hchildren)
        fun _ h => says_evalParts hR h children hchildren
    | generatorExp =>
      exact says_comprehend id .generator (R.ownWord (by decide)) children (says_evalClauses hR children hchildren)
        fun _ h => says_evalParts hR h children hchildren
    | yielding =>
      match children with
      | v :: _ =>
        rw [ofFirst]
        exact (says_eval hR m.operand v (hchildren v (by simp))).thenQuiet fun _ hv => spells_yieldValue hv
      | [] => exact spells_yieldValue (in_scalar _)
    | yieldFrom =>
      match children with
      | source :: _ =>
        rw [ofFirst]
        exact (says_eval hR m.operand source (hchildren source (by simp))).thenQuiet fun _ hv =>
          (spells_iterate hid hv).bind fun _ hw => spells_yieldValue hw
      | [] => exact .pure (in_scalar _)
    | await | starred | keyword _ =>
      match children with
      | v :: _ => exact says_eval hR m.operand v (hchildren v (by simp))
      | [] => exact .pure in_bottom
    | namedExpr =>
      match children with
      | [target, source] =>
        have htarget := hchildren target (by simp)
        refine (says_eval hR m.operand source (hchildren source (by simp))).bind fun v hv => ?_
        have hstore := says_storeOrEval target (says_store hR m v target hv htarget)
          (says_eval hR m.operand target htarget)
        exact hstore.thenQuiet fun _ _ => .pure hv
      | [] | [_] | _ :: _ :: _ :: _ => exact .pure trivial
    | lambda =>
      exact (says_evalDefaults hR m children hchildren).thenQuiet fun _ _ => .pure (in_single.2 hid)
    | comprehension => exact .pure in_bottom
    | unsupported word =>
      exact (says_evalAll hR m children hchildren).discard.thenQuiet fun _ _ => spells_giveUp id _
    | _ => exact spells_giveUp id _

theorem says_evalAll (hR : R.Hears lambda) : ∀ (m : Mode) (ns : List Node), (∀ n ∈ ns, n ∈ known) →
    Says R (ofExprs f.program f.graph f.unit ns) (evalAll f lambda m.operand ns) fun vs => ∀ v ∈ vs, v.In L
  | m, [], _ => by
    rw [evalAll, ofExprs]
    exact .pure nofun
  | m, n :: rest, hns => by
    rw [evalAll, ofExprs]
    refine (says_eval hR m.operand n (hns n (by simp))).bind fun v hv => ?_
    exact (says_evalAll hR m rest fun c hc => hns c (by simp [hc])).thenQuiet fun vs hvs =>
      .pure (List.forall_mem_cons.2 ⟨hv, hvs⟩)

theorem says_evalArguments (hR : R.Hears lambda) : ∀ (m : Mode) (args : CallArgs) (ns : List Node), args.In L →
    (∀ n ∈ ns, n ∈ known) →
    Says R (ofArguments f.program f.graph f.unit ns) (evalArguments f lambda m.operand args ns) (CallArgs.In L)
  | m, args, [], hargs, _ => by
    rw [evalArguments, ofArguments]
    exact .pure hargs
  | m, args, ⟨id, kind, span, parent, []⟩ :: rest, hargs, hns => by
    rw [evalArguments, ofArguments]
    exact (says_eval hR m.operand _ (hns _ (by simp))).bind fun v hv =>
      says_evalArguments hR m _ rest (hargs.addPositional hv) fun c hc => hns c (by simp [hc])
  | m, args, ⟨id, kind, span, parent, inner :: more⟩ :: rest, hargs, hns => by
    have hn := hns ⟨id, kind, span, parent, inner :: more⟩ (by simp)
    have hinner : inner ∈ known := R.child hn (by simp)
    rw [evalArguments, ofArguments]
    refine (says_addArgument (R.id hn) kind (says_eval hR m.operand inner hinner)
      (says_eval hR m.operand _ hn) hargs).bind fun args' hargs' => ?_
    exact says_evalArguments hR m _ rest hargs' fun c hc => hns c (by simp [hc])

theorem says_evalElements (hR : R.Hears lambda) : ∀ (m : Mode) (ns : List Node), (∀ n ∈ ns, n ∈ known) →
    Says R (ofElements f.program f.graph f.unit ns) (evalElements f lambda m.operand ns) (TypeSet.In L)
  | m, [], _ => by
    rw [evalElements, ofElements]
    exact .pure in_bottom
  | m, ⟨id, kind, span, parent, []⟩ :: rest, hns => by
    rw [evalElements, ofElements]
    exact (says_eval hR m.operand _ (hns _ (by simp))).bind fun v hv =>
      (says_evalElements hR m rest fun c hc => hns c (by simp [hc])).thenQuiet fun w hw => .pure (hv.join hw)
  | m, ⟨id, kind, span, parent, inner :: more⟩ :: rest, hns => by
    have hn := hns ⟨id, kind, span, parent, inner :: more⟩ (by simp)
    have hinner : inner ∈ known := R.child hn (by simp)
    rw [evalElements, ofElements]
    refine (says_spreadOr (R.id hn) kind (says_eval hR m.operand inner hinner) (says_eval hR m.operand _ hn)).bind
      fun v hv => ?_
    exact (says_evalElements hR m rest fun c hc => hns c (by simp [hc])).thenQuiet fun w hw => .pure (hv.join hw)

theorem says_evalEntries (hR : R.Hears lambda) : ∀ (m : Mode) (ns : List Node), (∀ n ∈ ns, n ∈ known) →
    Says R (ofEntries f.program f.graph f.unit ns) (evalEntries f lambda m.operand ns)
      fun e => e.1.In L ∧ e.2.In L
  | m, [], _ => by
    rw [evalEntries.eq_def, Mark.ofEntries.eq_def]
    exact .pure ⟨in_bottom, in_bottom⟩
  | m, [_], _ => by
    rw [evalEntries.eq_def, Mark.ofEntries.eq_def]
    exact .pure ⟨in_bottom, in_bottom⟩
  | m, k :: v :: rest, hns => by
    rw [evalEntries, ofEntries]
    refine (says_eval hR m.operand k (hns k (by simp))).bind fun key hkey => ?_
    refine (says_eval hR m.operand v (hns v (by simp))).bind fun value hvalue => ?_
    exact (says_evalEntries hR m rest fun c hc => hns c (by simp [hc])).thenQuiet fun e he =>
      .pure ⟨hkey.join he.1, hvalue.join he.2⟩

theorem says_evalClauses (hR : R.Hears lambda) : ∀ ns : List Node, (∀ n ∈ ns, n ∈ known) →
    Says R (ofClauses f.program f.graph f.unit ns) (evalClauses f lambda ns) fun _ => True
  | [], _ => by
    rw [evalClauses, ofClauses]
    exact .pure trivial
  | ⟨id, kind, span, parent, parts⟩ :: rest, hns => by
    have hn := hns ⟨id, kind, span, parent, parts⟩ (by simp)
    have hrest := says_evalClauses hR rest fun c hc => hns c (by simp [hc])
    rw [evalClauses, ofClauses]
    split
    · exact (says_evalClause hR parts fun c hc => R.child hn hc).andThen hrest
    · exact hrest

theorem says_evalClause (hR : R.Hears lambda) : ∀ ns : List Node, (∀ n ∈ ns, n ∈ known) →
    Says R (ofClause f.program f.graph f.unit ns) (evalClause f lambda ns) fun _ => True
  | [], _ => by
    rw [evalClause.eq_def, Mark.ofClause.eq_def]
    exact .pure trivial
  | [_], _ => by
    rw [evalClause.eq_def, Mark.ofClause.eq_def]
    exact .pure trivial
  | target :: iterable :: conditions, hns => by
    have htarget := hns target (by simp)
    have hiterable := hns iterable (by simp)
    rw [evalClause, ofClause]
    refine (says_eval hR .body iterable hiterable).bind fun _ hv => (spells_iterate (R.id hiterable) hv).bind
      fun w hw => ?_
    exact (says_storeOrEval target (says_store hR .body w target hw htarget)
      (says_eval hR .body target htarget)).andThen
      (says_evalAll hR .body conditions fun c hc => hns c (by simp [hc])).discard

theorem says_evalParts (hR : R.Hears lambda) {each : TypeSet → Eval Unit} (heach : ∀ v, v.In L → Stays R (each v)) :
    ∀ ns : List Node, (∀ n ∈ ns, n ∈ known) →
      Says R (ofParts f.program f.graph f.unit ns) (evalParts f lambda each ns) fun vs => ∀ v ∈ vs, v.In L
  | [], _ => by
    rw [evalParts, ofParts]
    exact .pure nofun
  | n :: rest, hns => by
    have hrest := says_evalParts hR heach rest fun c hc => hns c (by simp [hc])
    rw [evalParts, ofParts]
    refine .choose hrest ((says_eval hR .body n (hns n (by simp))).bind fun v hv => (heach v hv).andThen ?_)
    exact hrest.thenQuiet fun vs hvs => .pure (List.forall_mem_cons.2 ⟨hv, hvs⟩)

theorem says_evalDefaults (hR : R.Hears lambda) : ∀ (m : Mode) (ns : List Node), (∀ n ∈ ns, n ∈ known) →
    Says R (ofDefaults f.program f.graph f.unit ns) (evalDefaults f lambda m.operand ns) fun _ => True
  | m, [], _ => by
    rw [evalDefaults, ofDefaults]
    exact .pure trivial
  | m, ⟨id, kind, span, parent, params⟩ :: rest, hns => by
    have hn := hns ⟨id, kind, span, parent, params⟩ (by simp)
    rw [evalDefaults, ofDefaults]
    exact says_evalParamDefaults hR m params fun c hc => R.child hn hc

theorem says_evalParamDefaults (hR : R.Hears lambda) : ∀ (m : Mode) (ns : List Node), (∀ n ∈ ns, n ∈ known) →
    Says R (ofParamDefaults f.program f.graph f.unit ns) (evalParamDefaults f lambda m.operand ns) fun _ => True
  | m, [], _ => by
    rw [evalParamDefaults, ofParamDefaults]
    exact .pure trivial
  | m, ⟨id, kind, span, parent, []⟩ :: rest, hns => by
    rw [evalParamDefaults, ofParamDefaults]
    exact says_evalParamDefaults hR m rest fun c hc => hns c (by simp [hc])
  | m, ⟨id, kind, span, parent, d :: more⟩ :: rest, hns => by
    have hd : d ∈ known := R.child (hns ⟨id, kind, span, parent, d :: more⟩ (by simp)) (by simp)
    have := hR.full
    rw [evalParamDefaults, ofParamDefaults]
    exact (says_eval hR m.operand d hd).bind fun v hv => Yields.andThen (Full.keep (R.id hd) hv)
      (says_evalParamDefaults hR m rest fun c hc => hns c (by simp [hc]))

theorem says_store (hR : R.Hears lambda) : ∀ (m : Mode) (v : TypeSet) (n : Node), v.In L → n ∈ known →
    Says R (ofPattern f.program f.graph f.unit n) (store f lambda m.operand v n) fun _ => True
  | m, v, ⟨id, kind, span, parent, children⟩, hv, hn => by
    have hid : id ∈ L.numbers := R.id hn
    have hchildren : ∀ c ∈ children, c ∈ known := fun c hc => R.child hn hc
    have := hR.full
    rw [store.eq_def, Mark.ofPattern.eq_def]
    cases kind with
    | name _ => exact (stays_record id v).andThen (says_bindName hv _ id)
    | tuple | list => exact (spells_iterate hid hv).bind fun w hw => says_storeAll hR m w children hw hchildren
    | starred =>
      exact (spells_fresh id .list trivial hv (Nat.zero_le _)).bind fun w hw =>
        says_storeFirst hR m w children hw hchildren
    | «attribute» attr =>
      match children with
      | receiver :: _ =>
        have hattr : attr ∈ L.words := R.word hn (by simp [Node.words])
        exact (says_eval hR m.operand receiver (hchildren receiver (by simp))).bind fun r hr =>
          says_storeAttr hv hattr hr
      | [] => exact .pure trivial
    | subscript =>
      match children with
      | [container, index] =>
        refine (says_eval hR m.operand container (hchildren container (by simp))).bind fun c hc => ?_
        exact (says_eval hR m.operand index (hchildren index (by simp))).thenQuiet fun i hi =>
          stays_storeItem hid _ hi hv hc
      | [] | [_] | _ :: _ :: _ :: _ => exact .pure trivial
    | _ => exact .pure trivial

theorem says_storeAll (hR : R.Hears lambda) : ∀ (m : Mode) (v : TypeSet) (ns : List Node), v.In L →
    (∀ n ∈ ns, n ∈ known) →
    Says R (ofPatterns f.program f.graph f.unit ns) (storeAll f lambda m.operand v ns) fun _ => True
  | m, v, [], _, _ => by
    rw [storeAll, ofPatterns]
    exact .pure trivial
  | m, v, target :: rest, hv, hns => by
    have htarget := hns target (by simp)
    rw [storeAll, ofPatterns]
    exact (says_storeOrEval target (says_store hR m v target hv htarget)
      (says_eval hR m.operand target htarget)).andThen
      (says_storeAll hR m v rest hv fun c hc => hns c (by simp [hc]))

theorem says_storeFirst (hR : R.Hears lambda) : ∀ (m : Mode) (v : TypeSet) (ns : List Node), v.In L →
    (∀ n ∈ ns, n ∈ known) →
    Says R (ofFirstPattern f.program f.graph f.unit ns) (storeFirst f lambda m.operand v ns) fun _ => True
  | m, v, [], _, _ => by
    rw [storeFirst, ofFirstPattern]
    exact .pure trivial
  | m, v, target :: rest, hv, hns => by
    have htarget := hns target (by simp)
    rw [storeFirst, ofFirstPattern]
    exact says_storeOrEval target (says_store hR m v target hv htarget) (says_eval hR m.operand target htarget)

end

theorem says_storeInto (hR : R.Hears lambda) {v : TypeSet} (hv : v.In L) {target : Node} (htarget : target ∈ known) :
    Says R (ofTarget f.program f.graph f.unit target) (storeInto f lambda {} v target) fun _ => True :=
  says_storeOrEval target (says_store hR {} v target hv htarget) (says_eval hR {} target htarget)

end Expressions

/-! ## Lambdas -/

theorem spells_callLambda (depth : Nat) (active : List NodeId) {d : NodeId} (hd : f.program.tree.kind d = .lambda)
    {call : NodeId} (hcall : call ∈ L.numbers) {args : CallArgs} (hargs : args.In L) :
    Spells R (callLambda f depth active call (f.program.tree.node d) args) := by
  induction depth generalizing active d call args with
  | zero => exact spells_readSlot _
  | succ depth ih =>
    have hn := R.node d
    have hscope : ((f.program.scopes.scopeOf? (f.program.tree.node d).id).getD f.unit.scope) ∈ L.numbers := by
      cases h : f.program.scopes.scopeOf? (f.program.tree.node d).id with
      | none => exact R.ownScope
      | some s => exact R.opened h
    have hchild : ∀ {i c}, (f.program.tree.node d).child? i = some c → c ∈ known := fun h =>
      R.child hn (List.mem_of_getElem? h)
    unfold callLambda
    extract_lets scope finish run
    refine .ite (spells_readSlot _) ?_
    have hfinish : ∀ v, v.In L → Spells R (finish v) := fun v hv =>
      (stays_writeSlot (l := .ret _) (R.id hn) hv (R.called (.lambdaResult hd))).andThen
        (spells_contextualize hcall scope hv)
    have hrun : Spells R (run ()) := by
      unfold run
      split
      next body hbody =>
        have heval := says_eval ⟨‹_›, fun h _ _ hc ha => ih ((f.program.tree.node d).id :: active) h hc ha⟩ .body body
          (hchild hbody)
        refine Yields.bind (Full.relax heval rfl fun l hown hl => ⟨hown, .inl ?_⟩) hfinish
        rcases hl with hl | ⟨attr, hattr, hl⟩
        · exact .lambdaBody hd hbody hl
        · exact .lambdaStore hd hbody hattr hl
      next => exact (Says.pure in_bottom).bind hfinish
    split
    next arguments harguments =>
      refine (stays_bindArguments hargs true hscope (fun n hn => ?_) fun t ht => (by cases ht)).andThen hrun
      exact R.takes hscope (hchild harguments) hn fun hkind => .lambdaParam hd harguments hn hkind
    next => exact hrun

theorem hears_lambdas : R.Hears (lambdas f) := ⟨‹_›, fun hd _ _ hcall hargs => spells_callLambda _ [] hd hcall hargs⟩

end Eval
end PointsTo
