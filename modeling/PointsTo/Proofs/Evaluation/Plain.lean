import PointsTo.Proofs.Evaluation.Provenance
import PointsTo.Proofs.Evaluation.Scalar

/-! # Plain blocks

A plain block binds names to what it makes of names, literals and temporaries, without a call and without
looking into an object. Such a block keeps the order of states. The proof runs the block on two ordered states
side by side and follows the program: whatever the first run computes is below what the second one computes.
Operators, subscripts and loops are plain as long as the unit's own locations hold only scalars, or anything
at all; otherwise an operand may have methods. -/

namespace PointsTo

open TypeSet AbstractState
open Bool (and_eq_true_iff)

/-! ## Runs on ordered states -/

namespace AbstractState

variable (s : AbstractState)

theorem read_set (l m : Location) (v : TypeSet) : (s.set l v).read m = if l = m then v else s.read m := by
  rw [read, get?_set]
  split
  · rfl
  · rfl

/-- What stays at a location when a value is written to it. -/
def kept (l : Location) : TypeSet :=
  match l with
  | .var _ _ => (s.read l).without .unbound
  | _ => s.read l

end AbstractState

theorem Deed.read_write (s : AbstractState) {l : Location} (hl : l ≠ .universal) (v : TypeSet)
    (m : Location) : ((Deed.write l v).onState s).read m =
      if l = m then (s.kept l).join (stored l v) else s.read m := by
  have hweak : ∀ (s : AbstractState) (v : TypeSet), (s.weakUpdate l v).read m =
      if l = m then ((s.get? l).getD .bottom).join v else s.read m := by
    intro s v
    rw [AbstractState.read, get?_weakUpdate]
    split <;> rfl
  cases l with
  | universal => exact absurd rfl hl
  | var scope name =>
    refine (hweak _ _).trans ?_
    split
    next h =>
      have hbound : TypeSet.unbound.without .unbound = .bottom := rfl
      rw [get?_discardUnbound, if_pos rfl]
      cases hs : s.get? (.var scope name) with
      | some w => simp [AbstractState.kept, AbstractState.read, hs, stored]
      | none => simp [AbstractState.kept, AbstractState.read, hs, stored, Location.initial, hbound]
    next h => rw [AbstractState.read, get?_discardUnbound, if_neg h, AbstractState.read]
  | _ => exact hweak s _

namespace Frame

variable (f : Frame) (scalars : Bool)

/-- Whether a location belongs to the unit alone: its variables and its temporaries. -/
def isPrivate (l : Location) : Bool := f.owns l || l.isTemp

/-- Whether a state holds only scalars in the variables and temporaries of the unit. -/
def isScalar (s : AbstractState) : Bool := s.slots.all fun l v => !f.isPrivate l || v.isScalar

theorem isScalar_read {f : Frame} {s : AbstractState} (h : f.isScalar s = true) {l : Location}
    (hl : f.isPrivate l = true) : (s.read l).isScalar = true := by
  cases hs : s.get? l with
  | some v =>
    have hv := all_eq_true_iff.1 h l v hs
    simpa [AbstractState.read, hs, hl] using hv
  | none =>
    rw [AbstractState.read, hs]
    cases l with
    | var scope name => simp [Location.initial, TypeSet.unbound, TypeSet.single]
    | temp node => exact TypeSet.isScalar_bottom
    | _ => cases hl

/-- If only scalars are dealt with, nothing else is published for the unit's own locations. -/
def SharesScalars : Prop := scalars = true → f.isScalar f.env = true

/-- Two states are ordered, and if only scalars are dealt with, the unit's own locations hold no others. -/
structure Ordered (s t : AbstractState) : Prop where
  le : ∀ l, s.read l ≤ t.read l
  scalar : scalars = true → ∀ l, f.isPrivate l = true →
    (s.read l).isScalar = true ∧ (t.read l).isScalar = true

end Frame

/-- Two values are ordered, and if only scalars are dealt with, they are scalars. -/
structure TypeSet.Ordered (scalars : Bool) (v w : TypeSet) : Prop where
  le : v ≤ w
  scalar : scalars = true → v.isScalar = true ∧ w.isScalar = true

/-- Run on ordered states, the first action gives results related to those of the second one, and the states
stay ordered. Nobody watches. -/
def Rises (f : Frame) (scalars : Bool) {α : Type} (R : α → α → Prop) (act act' : Eval α) : Prop :=
  ∀ s t, f.Ordered scalars s t → ∃ v w s' t', act.run ⟨s, none⟩ = (v, ⟨s', none⟩) ∧
    act'.run ⟨t, none⟩ = (w, ⟨t', none⟩) ∧ R v w ∧ f.Ordered scalars s' t'

/-- Actions that give ordered values. -/
abbrev Lifts (f : Frame) (scalars : Bool) : Eval TypeSet → Eval TypeSet → Prop :=
  Rises f scalars (TypeSet.Ordered scalars)

abbrev Moves (f : Frame) (scalars : Bool) : Eval Unit → Eval Unit → Prop := Rises f scalars fun _ _ => True

namespace Rises

variable {f : Frame} {scalars : Bool} {α β : Type} {R : α → α → Prop} {R' : β → β → Prop} {act act' : Eval α}

theorem pure {v w : α} (h : R v w) : Rises f scalars R (pure v) (pure w) :=
  fun s t hst => ⟨v, w, s, t, rfl, rfl, h, hst⟩

theorem bind {next next' : α → Eval β} (h : Rises f scalars R act act')
    (h' : ∀ v w, R v w → Rises f scalars R' (next v) (next' w)) :
    Rises f scalars R' (act >>= next) (act' >>= next') := by
  intro s t hst
  obtain ⟨v, w, s', t', hv, hw, hvw, hst'⟩ := h s t hst
  obtain ⟨x, y, s'', t'', hx, hy, hxy, hst''⟩ := h' v w hvw s' t' hst'
  refine ⟨x, y, s'', t'', ?_, ?_, hxy, hst''⟩
  · rw [StateT.run_bind, hv]
    exact hx
  · rw [StateT.run_bind, hw]
    exact hy

theorem andThen {next next' : Unit → Eval β} {act act' : Eval Unit} {R : Unit → Unit → Prop}
    (h : Rises f scalars R act act') (h' : Rises f scalars R' (next ()) (next' ())) :
    Rises f scalars R' (act >>= next) (act' >>= next') := h.bind fun _ _ _ => h'

theorem discard (h : Rises f scalars R act act') :
    Moves f scalars (discard act) (discard act') := by
  change Rises f scalars _ (Functor.map _ act) (Functor.map _ act')
  rw [map_eq_pure_bind, map_eq_pure_bind]
  exact h.bind fun _ _ _ => .pure trivial

theorem observe (change change' : Recorder → Recorder) :
    Moves f scalars (Eval.observe change) (Eval.observe change') :=
  fun s t hst => ⟨(), (), s, t, rfl, rfl, trivial, hst⟩

theorem update {u u' : AbstractState → AbstractState}
    (h : ∀ s t, f.Ordered scalars s t → f.Ordered scalars (u s) (u' t)) :
    Moves f scalars (modify fun m : Machine => { m with state := u m.state })
      (modify fun m : Machine => { m with state := u' m.state }) :=
  fun s t hst => ⟨(), (), u s, u' t, rfl, rfl, trivial, h s t hst⟩

end Rises

section Slots

variable {f : Frame} {scalars : Bool} {s t : AbstractState} {l : Location} {v w : TypeSet}

theorem Frame.Ordered.set (hst : f.Ordered scalars s t) (h : v.Ordered scalars w) (l : Location) :
    f.Ordered scalars (s.set l v) (t.set l w) where
  le m := by
    rw [AbstractState.read_set, AbstractState.read_set]
    split
    · exact h.le
    · exact hst.le m
  scalar hs m hm := by
    rw [AbstractState.read_set, AbstractState.read_set]
    split
    · exact h.scalar hs
    · exact hst.scalar hs m hm

theorem Frame.Ordered.write (hst : f.Ordered scalars s t) (h : v.Ordered scalars w) (hl : l ≠ .universal) :
    f.Ordered scalars ((Deed.write l v).onState s) ((Deed.write l w).onState t) where
  le m := by
    rw [Deed.read_write s hl, Deed.read_write t hl]
    split
    · refine TypeSet.join_mono ?_ ?_
      · cases l with
        | var scope name => exact without_mono (hst.le _) _
        | _ => exact hst.le _
      · cases l with
        | var scope name => exact h.le
        | _ => exact without_mono h.le _
    · exact hst.le m
  scalar hs m hm := by
    rw [Deed.read_write s hl, Deed.read_write t hl]
    split
    next heq =>
      subst heq
      obtain ⟨hv, hw⟩ := h.scalar hs
      obtain ⟨hsl, htl⟩ := hst.scalar hs l hm
      cases l with
      | var scope name =>
        exact ⟨TypeSet.isScalar_join (isScalar_without hsl _) hv,
          TypeSet.isScalar_join (isScalar_without htl _) hw⟩
      | temp node =>
        exact ⟨TypeSet.isScalar_join hsl (isScalar_without hv _),
          TypeSet.isScalar_join htl (isScalar_without hw _)⟩
      | _ => cases hm
    next => exact hst.scalar hs m hm

namespace Eval

theorem rises_writeSlot (h : v.Ordered scalars w) (l : Location) :
    Moves f scalars (writeSlot f l v) (writeSlot f l w) := by
  have hwrite : ∀ l : Location, l ≠ .universal → Moves f scalars
      (do
        publish l (Deed.stored l v)
        modify fun m => { m with state := (Deed.write l v).onState m.state })
      (do
        publish l (Deed.stored l w)
        modify fun m => { m with state := (Deed.write l w).onState m.state }) :=
    fun l hl => (Rises.observe _ _).andThen (.update fun _ _ hst => hst.write h hl)
  cases l with
  | universal => exact .pure trivial
  | var scope name => exact (Rises.observe _ _).andThen (hwrite (.var scope name) nofun)
  | ret node => exact (Rises.observe _ _).andThen (hwrite (.ret node) nofun)
  | _ => exact hwrite _ (by simp)

theorem rises_assign (h : v.Ordered scalars w) (nested : Bool) (l : Location) :
    Moves f scalars (assign f nested l v) (assign f nested l w) := by
  unfold assign
  split
  · exact .pure trivial
  · split
    · exact (Rises.observe _ _).andThen ((Rises.observe _ _).andThen (.update fun _ _ hst => hst.set h l))
    · exact rises_writeSlot h l

theorem rises_bindName (h : v.Ordered scalars w) (nested : Bool) (node : NodeId) :
    Moves f scalars (bindName f nested node v) (bindName f nested node w) := by
  unfold bindName
  split
  · exact rises_assign h nested _
  · exact .pure trivial

theorem rises_recorded {act act' : Eval TypeSet} (h : Lifts f scalars act act')
    (node : NodeId) : Lifts f scalars (recorded node act) (recorded node act') :=
  h.bind fun _ _ hvw => (Rises.observe _ _).andThen (.pure hvw)

end Eval
end Slots

/-! ## Plain blocks -/

def Kind.isName : Kind → Bool
  | .name _ => true
  | _ => false

namespace Frame

variable (f : Frame) (scalars : Bool)

/-- Whether a name stands for a variable of the unit or for something that no state changes. -/
def isPlainName (node : NodeId) : Bool :=
  match f.program.table.get? node with
  | some (.location l) => f.owns l
  | some (.builtin name) => !scalars || ((Builtin.constant? name).getD (.single (.builtin name))).isScalar
  | _ => true

/-- Whether no parameter on a list of arguments has a default. -/
def hasNoDefaults (arguments : Option Node) : Bool :=
  arguments.all fun n => n.children.all (·.children.isEmpty)

def isUnshared (node : NodeId) : Bool := (f.env.get? (.temp node)).isNone

mutual

/-- Whether an expression only combines names, literals and temporaries: by operators and subscripts if only
scalars are dealt with, and otherwise by displays. -/
def isPlain (ahead : Bool) : Node → Bool
  | ⟨id, kind, _, _, children⟩ => if !ahead && f.graph.isHoisted id then f.isUnshared id else match kind with
    | .literal _ => true
    | .name _ => f.isPlainName scalars id
    | .binary _ | .unary _ | .yieldFrom => scalars && arePlain children
    | .subscript => match children with
      | [container, index] =>
        scalars && index.kind != .slice && isPlain false container && isPlain false index
      | _ => true
    | .list | .tuple | .set => !scalars && children.all (·.kind != .starred) && arePlain children
    | .dict | .slice => !scalars && arePlain children
    | .lambda => !scalars && hasNoDefaults children.head?
    | .logical _ | .conditional | .compare _ | .joinedStr | .formattedValue | .yielding | .await | .starred
    | .keyword _ => arePlain children
    | .namedExpr => match children with
      | [target, source] => target.kind.isName && isPlain false source
      | _ => true
    | _ => false

def arePlain : List Node → Bool
  | [] => true
  | n :: rest => isPlain false n && arePlain rest

end

/-- Whether a statement evaluates plain expressions and assigns to nothing but names. -/
def isPlainStmt (stmt : Node) : Bool :=
  match stmt.kind with
  | .assign => f.arePlain scalars stmt.children.getLast?.toList && stmt.children.dropLast.all (·.kind.isName)
  | .annAssign _ => match stmt.children with
    | [target, value] => target.kind.isName && f.isPlain scalars false value
    | _ => true
  | .augAssign _ => match stmt.children with
    | [target, value] =>
      target.kind.isName && scalars && f.isPlainName scalars target.id && f.isPlain scalars false value
    | _ => true
  | .delete => stmt.children.all (·.kind.isName)
  | .ret | .exprStmt | .raise | .assertion => f.arePlain scalars stmt.children
  | .functionDef _ => !scalars && hasNoDefaults (stmt.childOfKind? "Arguments")
  | .classDef _ => !scalars && f.arePlain scalars (stmt.children.drop 1)
  | .importModules => !scalars
  | .pass | .globalNames _ | .nonlocalNames _ | .breakLoop | .continueLoop => true
  | _ => false

/-- Whether a parameter has no hint, and holds only scalars if nothing else is dealt with. -/
def isPlainParam (isFirst : Bool) (param : Node) : Bool :=
  match param.kind with
  | .param name hint kind =>
    match (if isFirst && kind == .positional then f.unit.methodOf else none), hint, kind with
    | some _, _, _ => !scalars
    | none, some _, _ => false
    | none, none, .positional =>
      (!scalars || Eval.isOpen f || ((f.env.get? (.var f.unit.scope name)).getD .bottom).isScalar) &&
        param.children.head?.all fun d => f.isUnshared d.id
    | none, none, .varArgs | none, none, .kwArgs => !scalars
  | _ => true

def arePlainParams : Bool → List Node → Bool
  | _, [] => true
  | isFirst, param :: rest => f.isPlainParam scalars isFirst param && arePlainParams false rest

/-- Whether a step runs a plain statement, evaluates a plain expression or iterates over a scalar. -/
def isPlainStep : Step → Bool
  | .parameters arguments => f.arePlainParams scalars true arguments.children
  | .exec stmt => f.isPlainStmt scalars stmt
  | .eval expr => f.isPlain scalars true expr
  | .bind _ value => f.isUnshared value.id
  | .test condition => f.isPlain scalars false condition
  | .iterate target iterable => scalars && target.kind.isName && f.isUnshared iterable.id
  | .returnNone => true
  | _ => false

def isPlainBlock (b : Block) : Bool := b.steps.all ({ f with block := b }.isPlainStep scalars)

end Frame

namespace TypeSet.Ordered

variable {scalars : Bool} {v v' w w' : TypeSet}

theorem refl (h : scalars = true → v.isScalar = true) : v.Ordered scalars v :=
  ⟨le_refl v, fun hs => ⟨h hs, h hs⟩⟩

theorem ofScalar (s : Scalar) : (single (.scalar s)).Ordered scalars (single (.scalar s)) :=
  .refl fun _ => by simp [single]

theorem join (h : v.Ordered scalars w) (h' : v'.Ordered scalars w') : (v.join v').Ordered scalars (w.join w') where
  le := join_mono h.le h'.le
  scalar hs :=
    ⟨isScalar_join (h.scalar hs).1 (h'.scalar hs).1, isScalar_join (h.scalar hs).2 (h'.scalar hs).2⟩

theorem joinAll {vs ws : List TypeSet} (h : List.Forall₂ (TypeSet.Ordered scalars) vs ws) :
    (TypeSet.joinAll vs).Ordered scalars (TypeSet.joinAll ws) := by
  have hfold : ∀ {v w : TypeSet}, v.Ordered scalars w →
      (vs.foldl TypeSet.join v).Ordered scalars (ws.foldl TypeSet.join w) := by
    induction h with
    | nil => exact fun h => h
    | cons h _ ih => exact fun h' => ih (h'.join h)
  exact hfold (.refl fun _ => isScalar_bottom)

end TypeSet.Ordered

namespace Eval

variable {f : Frame} {scalars : Bool}

theorem ordered_value (henv : f.SharesScalars scalars) {l : Location}
    (hl : f.isPrivate l = true) (hshared : l.isTemp = true → f.env.get? l = none) {s t : AbstractState}
    (hst : f.Ordered scalars s t) : (f.value s l).Ordered scalars (f.value t l) := by
  have hread : (s.read l).Ordered scalars (t.read l) := ⟨hst.le l, fun hs => hst.scalar hs l hl⟩
  cases l with
  | var scope name =>
    have hown : f.owns (.var scope name) = true := by simpa [Frame.isPrivate, Location.isTemp] using hl
    unfold Frame.value
    simp only [hown, if_true]
    split
    · refine hread.join (.refl fun hs => ?_)
      cases hget : f.env.get? (.var scope name) with
      | none => exact TypeSet.isScalar_bottom
      | some v =>
        have hv := Frame.isScalar_read (henv hs) hl
        rwa [AbstractState.read, hget] at hv
    · exact hread
  | temp node =>
    have hvalue : ∀ s : AbstractState, f.value s (.temp node) = s.read (.temp node) := by
      intro s
      simp [Frame.value, AbstractState.read, hshared rfl, Location.initial]
    rwa [hvalue, hvalue]
  | _ => cases hl

theorem rises_readSlot (henv : f.SharesScalars scalars) {l : Location} (hl : f.owns l = true) :
    Lifts f scalars (readSlot f l) (readSlot f l) := by
  have hprivate : f.isPrivate l = true := by simp [Frame.isPrivate, hl]
  have htemp : l.isTemp = true → f.env.get? l = none := by
    cases l <;> first | cases hl | exact fun h => nomatch h
  exact fun s t hst => ⟨f.value s l, f.value t l, s, t, rfl, rfl, ordered_value henv hprivate htemp hst, hst⟩

theorem rises_readTemp (henv : f.SharesScalars scalars) {node : NodeId} (h : f.isUnshared node = true) :
    Lifts f scalars (readSlot f (.temp node)) (readSlot f (.temp node)) := by
  have hprivate : f.isPrivate (.temp node) = true := by simp [Frame.isPrivate, Location.isTemp]
  have hshared : (Location.temp node).isTemp = true → f.env.get? (.temp node) = none :=
    fun _ => Option.isNone_iff_eq_none.1 h
  intro s t hst
  exact ⟨f.value s _, f.value t _, s, t, rfl, rfl, ordered_value henv hprivate hshared hst, hst⟩

theorem rises_loadName (henv : f.SharesScalars scalars) {node : NodeId} (h : f.isPlainName scalars node = true) :
    Lifts f scalars (loadName f node) (loadName f node) := by
  unfold Frame.isPlainName at h
  unfold loadName
  split at h
  next hget =>
    simp only [hget]
    exact rises_readSlot henv h
  next hget =>
    simp only [hget]
    exact .pure (.refl fun hs => by simpa [hs] using h)
  next hlocation hbuiltin =>
    split
    next hget => exact absurd hget (hlocation _)
    next hget => exact absurd hget (hbuiltin _)
    next => exact (Rises.observe _ _).andThen (.pure (.refl fun _ => rfl))
    next => exact .pure (.refl fun _ => rfl)

theorem ordered_binaryValue (op : BinaryOp) (hs : scalars = true) {v v' w w' : TypeSet}
    (h : v.Ordered scalars w) (h' : v'.Ordered scalars w') :
    (binaryValue op v v').Ordered scalars (binaryValue op w w') where
  le := binaryValue_mono op h.le h'.le
  scalar _ := ⟨isScalar_binaryValue op (h.scalar hs).1 (h'.scalar hs).1,
    isScalar_binaryValue op (h.scalar hs).2 (h'.scalar hs).2⟩

theorem rises_binary (node : NodeId) (op : BinaryOp) (hs : scalars = true) {v v' w w' : TypeSet}
    (h : v.Ordered scalars w) (h' : v'.Ordered scalars w') :
    Lifts f scalars (binary f node op v v') (binary f node op w w') := by
  rw [binary_scalar f node op (h.scalar hs).1 (h'.scalar hs).1,
    binary_scalar f node op (h.scalar hs).2 (h'.scalar hs).2]
  exact .pure (ordered_binaryValue op hs h h')

theorem rises_unary (node : NodeId) (op : UnaryOp) (hs : scalars = true) {v w : TypeSet} (h : v.Ordered scalars w) :
    Lifts f scalars (unary f node op v) (unary f node op w) := by
  rw [unary_scalar f node op (h.scalar hs).1, unary_scalar f node op (h.scalar hs).2]
  refine .pure ⟨unaryValue_mono op h.le, fun _ => ⟨?_, ?_⟩⟩
  · exact isScalar_unaryValue op (h.scalar hs).1
  · exact isScalar_unaryValue op (h.scalar hs).2

theorem ordered_items {v w : TypeSet} (h : v.Ordered scalars w) :
    (v.spread TypeTag.items).Ordered scalars (w.spread TypeTag.items) where
  le := spread_mono _ h.le
  scalar _ := ⟨isScalar_spread TypeTag.isScalar_items v, isScalar_spread TypeTag.isScalar_items w⟩

theorem rises_iterate (node : NodeId) (hs : scalars = true) {v w : TypeSet} (h : v.Ordered scalars w) :
    Lifts f scalars (iterate f node v) (iterate f node w) := by
  rw [iterate_scalar f node (h.scalar hs).1, iterate_scalar f node (h.scalar hs).2]
  exact .pure (ordered_items h)

theorem rises_loadItem (node : NodeId) (hs : scalars = true) {isSlice : Bool} (hslice : isSlice = false)
    (index index' : TypeSet) {v w : TypeSet} (h : v.Ordered scalars w) :
    Lifts f scalars (loadItem f node isSlice index v)
      (loadItem f node isSlice index' w) := by
  subst hslice
  rw [loadItem_scalar f node index (h.scalar hs).1, loadItem_scalar f node index' (h.scalar hs).2]
  exact .pure (ordered_items h)

theorem rises_fresh (node : NodeId) (kind : ObjKind) (hs : scalars = false) {v w : TypeSet}
    (h : v.Ordered scalars w) :
    Lifts f scalars (fresh f node kind v) (fresh f node kind w) :=
  (rises_writeSlot h _).andThen (.pure (.refl fun h => by simp [hs] at h))

theorem rises_yieldValue {v w : TypeSet} (h : v.Ordered scalars w) :
    Lifts f scalars (yieldValue f v) (yieldValue f w) := by
  unfold yieldValue
  split
  · exact (rises_writeSlot h _).andThen (.pure (.ofScalar .none))
  · exact .pure (.ofScalar .none)

theorem rises_evalParamDefaults (lambda : LambdaCall) (m : Mode) {params : List Node}
    (h : params.all (·.children.isEmpty) = true) : Moves f scalars
      (evalParamDefaults f lambda m params) (evalParamDefaults f lambda m params) := by
  induction params with
  | nil => exact .pure trivial
  | cons param params ih =>
    obtain ⟨hp, hps⟩ := and_eq_true_iff.1 h
    obtain ⟨id, kind, span, parent, children⟩ := param
    cases List.isEmpty_iff.1 hp
    exact ih hps

theorem rises_evalDefaults (lambda : LambdaCall) (m : Mode) {children : List Node}
    (h : Frame.hasNoDefaults children.head? = true) : Moves f scalars
      (evalDefaults f lambda m children) (evalDefaults f lambda m children) := by
  cases children with
  | nil => exact .pure trivial
  | cons arguments rest =>
    obtain ⟨id, kind, span, parent, params⟩ := arguments
    exact rises_evalParamDefaults lambda m h

theorem rises_storeInto (lambda : LambdaCall) (m : Mode) {target : Node} (ht : target.kind.isName = true)
    {v w : TypeSet} (h : v.Ordered scalars w) :
    Moves f scalars (storeInto f lambda m v target) (storeInto f lambda m w target) := by
  obtain ⟨id, kind, span, parent, children⟩ := target
  cases kind with
  | name x => exact (Rises.observe _ _).andThen (rises_bindName h _ id)
  | _ => cases ht

mutual

theorem rises_eval (henv : f.SharesScalars scalars) (lambda : LambdaCall) (m : Mode) :
    ∀ n : Node, f.isPlain scalars m.ahead n = true →
    Lifts f scalars (eval f lambda m n) (eval f lambda m n)
  | ⟨id, kind, span, parent, children⟩, h => by
    unfold Frame.isPlain at h
    unfold eval evaluated
    refine rises_recorded ?_ id
    extract_lets o
    by_cases hhoisted : (!m.ahead && f.graph.isHoisted id) = true
    · rw [if_pos hhoisted] at h ⊢
      exact rises_readTemp henv h
    -- Nothing was computed ahead, so that the cases are those of the evaluator.
    rw [if_neg hhoisted] at h ⊢
    have htop : TypeSet.top.Ordered scalars .top := .refl fun _ => rfl
    cases kind with
    | literal l => exact .pure (.refl fun _ => by cases l <;> simp [TypeSet.single, TypeTag.ofLiteral])
    | name => exact rises_loadName henv h
    | binary op =>
      obtain ⟨hs, h⟩ := and_eq_true_iff.1 h
      match children, h with
      | [l, r], h =>
        obtain ⟨hl, hr⟩ : f.isPlain scalars false l = true ∧ f.isPlain scalars false r = true := by
          simpa [Frame.arePlain] using h
        refine (rises_eval henv lambda o l hl).bind fun _ _ hv => ?_
        exact (rises_eval henv lambda o r hr).bind fun _ _ hw => rises_binary id op hs hv hw
      | [], _ | [_], _ | _ :: _ :: _ :: _, _ => exact .pure htop
    | unary op =>
      obtain ⟨hs, h⟩ := and_eq_true_iff.1 h
      cases children with
      | nil => exact rises_unary id op hs htop
      | cons operand rest =>
        obtain ⟨hn, -⟩ := and_eq_true_iff.1 h
        exact (rises_eval henv lambda o operand hn).bind fun _ _ hv => rises_unary id op hs hv
    | subscript =>
      match children, h with
      | [container, index], h =>
        simp only [Bool.and_eq_true] at h
        obtain ⟨⟨⟨hs, hslice⟩, hc⟩, hi⟩ := h
        refine (rises_eval henv lambda o container hc).bind fun _ _ hv => ?_
        refine (rises_eval henv lambda o index hi).bind fun v w _ => ?_
        exact rises_loadItem id hs (by simpa using hslice) v w hv
      | [], _ | [_], _ | _ :: _ :: _ :: _, _ => exact .pure htop
    | list | tuple | set =>
      simp only [Bool.and_eq_true] at h
      obtain ⟨⟨hs, hwhole⟩, h⟩ := h
      refine (rises_evalElements henv lambda (m := o) rfl children hwhole h).bind fun _ _ hv => ?_
      exact rises_fresh id _ (by simpa using hs) hv
    | dict =>
      obtain ⟨hs, h⟩ := and_eq_true_iff.1 h
      refine (rises_evalEntries henv lambda (m := o) rfl children h).bind fun _ _ hkv => ?_
      refine (rises_writeSlot hkv.1 _).andThen ((rises_writeSlot hkv.2 _).andThen (.pure (.refl fun h => ?_)))
      simp [h] at hs
    | slice =>
      obtain ⟨hs, h⟩ := and_eq_true_iff.1 h
      refine (rises_evalAll henv lambda (m := o) rfl children h).discard.andThen (.pure (.refl fun h => ?_))
      simp [h] at hs
    | lambda =>
      obtain ⟨hs, h⟩ := and_eq_true_iff.1 h
      refine (rises_evalDefaults lambda o h).andThen (.pure (.refl fun h => ?_))
      simp [h] at hs
    | logical =>
      exact (rises_evalAll henv lambda (m := o) rfl children h).bind fun _ _ hvs => .pure (.joinAll hvs)
    | conditional =>
      match children, h with
      | [test, first, second], h =>
        obtain ⟨ht, hf, hs⟩ : f.isPlain scalars false test = true ∧ f.isPlain scalars false first = true ∧
            f.isPlain scalars false second = true := by
          simpa [Frame.arePlain] using h
        refine (rises_eval henv lambda o test ht).discard.andThen ?_
        refine (rises_eval henv lambda o first hf).bind fun _ _ hv => ?_
        exact (rises_eval henv lambda o second hs).bind fun _ _ hw => .pure (hv.join hw)
      | [], _ | [_], _ | [_, _], _ | _ :: _ :: _ :: _ :: _, _ => exact .pure htop
    | compare | joinedStr | formattedValue =>
      exact (rises_evalAll henv lambda (m := o) rfl children h).discard.andThen (.pure (.ofScalar _))
    | yielding =>
      cases children with
      | nil => exact rises_yieldValue (.ofScalar .none)
      | cons v rest =>
        obtain ⟨hv, -⟩ := and_eq_true_iff.1 h
        exact (rises_eval henv lambda o v hv).bind fun _ _ hv => rises_yieldValue hv
    | yieldFrom =>
      obtain ⟨hs, h⟩ := and_eq_true_iff.1 h
      cases children with
      | nil => exact .pure (.ofScalar .none)
      | cons source rest =>
        obtain ⟨hn, -⟩ := and_eq_true_iff.1 h
        refine (rises_eval henv lambda o source hn).bind fun _ _ hv => ?_
        exact (rises_iterate id hs hv).bind fun _ _ hw => rises_yieldValue hw
    | await | starred | keyword =>
      cases children with
      | nil => exact .pure (.refl fun _ => TypeSet.isScalar_bottom)
      | cons v rest =>
        obtain ⟨hv, -⟩ := and_eq_true_iff.1 h
        exact rises_eval henv lambda o v hv
    | namedExpr =>
      match children, h with
      | [target, source], h =>
        obtain ⟨ht, hs⟩ := and_eq_true_iff.1 h
        refine (rises_eval henv lambda o source hs).bind fun _ _ hv => ?_
        exact (rises_storeInto lambda o ht hv).andThen (.pure hv)
      | [], _ | [_], _ | _ :: _ :: _ :: _, _ => exact .pure htop
    | _ => cases h

theorem rises_evalAll (henv : f.SharesScalars scalars) (lambda : LambdaCall) {m : Mode}
    (hm : m.ahead = false) : ∀ ns : List Node, f.arePlain scalars ns = true →
    Rises f scalars (List.Forall₂ (TypeSet.Ordered scalars)) (evalAll f lambda m ns) (evalAll f lambda m ns)
  | [], _ => .pure .nil
  | n :: rest, h => by
    unfold Frame.arePlain at h
    obtain ⟨hn, hrest⟩ := and_eq_true_iff.1 h
    refine (rises_eval henv lambda m n (hm ▸ hn)).bind fun _ _ hv => ?_
    exact (rises_evalAll henv lambda hm rest hrest).bind fun _ _ hvs => .pure (.cons hv hvs)

theorem rises_evalElements (henv : f.SharesScalars scalars) (lambda : LambdaCall) {m : Mode}
    (hm : m.ahead = false) : ∀ ns : List Node, ns.all (·.kind != .starred) = true →
      f.arePlain scalars ns = true →
      Lifts f scalars (evalElements f lambda m ns) (evalElements f lambda m ns)
  | [], _, _ => .pure (.refl fun _ => TypeSet.isScalar_bottom)
  | ⟨id, kind, span, parent, children⟩ :: rest, hwhole, h => by
    unfold Frame.arePlain at h
    obtain ⟨hn, hrest⟩ := and_eq_true_iff.1 h
    obtain ⟨hkind, hwhole⟩ := and_eq_true_iff.1 hwhole
    have helements : evalElements f lambda m (⟨id, kind, span, parent, children⟩ :: rest) = (do
        let v ← eval f lambda m ⟨id, kind, span, parent, children⟩
        return v.join (← evalElements f lambda m rest)) := by
      cases children with
      | nil => rfl
      | cons inner more =>
        rw [evalElements, spreadOr, if_neg (by simpa using hkind)]
    rw [helements]
    refine (rises_eval henv lambda m _ (hm ▸ hn)).bind fun _ _ hv => ?_
    exact (rises_evalElements henv lambda hm rest hwhole hrest).bind fun _ _ hvs => .pure (hv.join hvs)

theorem rises_evalEntries (henv : f.SharesScalars scalars) (lambda : LambdaCall) {m : Mode}
    (hm : m.ahead = false) : ∀ ns : List Node, f.arePlain scalars ns = true →
    Rises f scalars (fun p q => p.1.Ordered scalars q.1 ∧ p.2.Ordered scalars q.2) (evalEntries f lambda m ns)
      (evalEntries f lambda m ns)
  | [], _ | [_], _ => .pure ⟨.refl fun _ => TypeSet.isScalar_bottom, .refl fun _ => TypeSet.isScalar_bottom⟩
  | k :: v :: rest, h => by
    unfold Frame.arePlain at h
    obtain ⟨hk, h⟩ := and_eq_true_iff.1 h
    unfold Frame.arePlain at h
    obtain ⟨hv, hrest⟩ := and_eq_true_iff.1 h
    refine (rises_eval henv lambda m k (hm ▸ hk)).bind fun _ _ hk => ?_
    refine (rises_eval henv lambda m v (hm ▸ hv)).bind fun _ _ hv => ?_
    refine (rises_evalEntries henv lambda hm rest hrest).bind fun _ _ hrest => ?_
    exact .pure ⟨hk.join hrest.1, hv.join hrest.2⟩

end

/-! ### Statements -/

theorem rises_forM {α : Type} {act act' : α → Eval Unit} {xs : List α}
    (h : ∀ a ∈ xs, Moves f scalars (act a) (act' a)) :
    Moves f scalars (xs.forM act) (xs.forM act') := by
  induction xs with
  | nil => exact .pure trivial
  | cons a xs ih => exact (h a (by simp)).andThen (ih fun b hb => h b (by simp [hb]))

theorem owns_of_isPlainName {node : NodeId} (h : f.isPlainName scalars node = true) {l : Location}
    (hl : f.program.table.location? node = some l) : f.owns l = true ∨ l = .universal := by
  obtain ⟨r, hr, hl⟩ := Option.bind_eq_some_iff.1 hl
  rw [Frame.isPlainName, hr] at h
  cases r with
  | location m =>
    cases hl
    exact .inl h
  | builtin name => cases hl
  | unresolved name => exact .inr (Option.some.inj hl).symm

theorem rises_augmentName (henv : f.SharesScalars scalars) (hs : scalars = true) (stmt : NodeId)
    (op : BinaryOp) {target value : Node} (ht : f.isPlainName scalars target.id = true)
    (hv : f.isPlain scalars false value = true) : Moves f scalars
      (augmentName f stmt op target value) (augmentName f stmt op target value) := by
  unfold augmentName
  split
  next l hl =>
    have hread : Lifts f scalars (readSlot f l) (readSlot f l) := by
      rcases owns_of_isPlainName ht hl with hown | rfl
      · exact rises_readSlot henv hown
      · exact fun s t hst => ⟨.top, .top, s, t, rfl, rfl, .refl fun _ => rfl, hst⟩
    refine hread.bind fun v w hvw => (Rises.observe _ _).andThen ?_
    refine (rises_eval henv _ _ value hv).bind fun v' w' hvw' => ?_
    rw [augment_scalar f stmt op (hvw.scalar hs).1 (hvw'.scalar hs).1,
      augment_scalar f stmt op (hvw.scalar hs).2 (hvw'.scalar hs).2]
    exact (Rises.pure (ordered_binaryValue op hs hvw hvw')).bind fun _ _ h => rises_assign h false l
  next => exact .pure trivial

theorem rises_exec (henv : f.SharesScalars scalars) {stmt : Node} (h : f.isPlainStmt scalars stmt = true) :
    Moves f scalars (exec f stmt) (exec f stmt) := by
  obtain ⟨id, kind, span, parent, children⟩ := stmt
  cases kind with
  | assign =>
    obtain ⟨hvalue, htargets⟩ := and_eq_true_iff.1 h
    simp only [exec]
    split
    next value hlast =>
      have hv : f.isPlain scalars false value = true := by simpa [hlast, Frame.arePlain] using hvalue
      refine (rises_eval henv _ _ value hv).bind fun v w hvw => rises_forM fun target ht => ?_
      exact rises_storeInto _ _ (List.all_eq_true.1 htargets target ht) hvw
    next => exact .pure trivial
  | annAssign hint =>
    match children, h with
    | [target, value], h =>
      obtain ⟨ht, hv⟩ := and_eq_true_iff.1 h
      exact (rises_eval henv _ _ value hv).bind fun v w hvw => rises_storeInto _ _ ht hvw
    | [], _ | [_], _ | _ :: _ :: _ :: _, _ => exact .pure trivial
  | augAssign op =>
    match children, h with
    | [target, value], h =>
      simp only [Frame.isPlainStmt, Bool.and_eq_true] at h
      obtain ⟨⟨⟨hname, hs⟩, ht⟩, hv⟩ := h
      have haugment := rises_augmentName henv hs id op ht hv
      obtain ⟨tid, kind, tspan, tparent, parts⟩ := target
      cases kind with
      | name x => exact haugment
      | _ => cases hname
    | [], _ | [_], _ | _ :: _ :: _ :: _, _ => exact .pure trivial
  | delete =>
    refine rises_forM fun target ht => ?_
    have hname := List.all_eq_true.1 h target ht
    obtain ⟨tid, kind, tspan, tparent, parts⟩ := target
    cases kind with
    | name x => exact rises_bindName (.ofScalar .unbound) false tid
    | _ => cases hname
  | ret =>
    cases children with
    | nil => exact rises_writeSlot (.ofScalar .none) (.ret f.unit.node.id)
    | cons value rest =>
      obtain ⟨hv, -⟩ := and_eq_true_iff.1 h
      exact (rises_eval henv _ _ value hv).bind fun v w hvw => rises_writeSlot hvw _
  | exprStmt | raise | assertion => exact (rises_evalAll henv _ rfl children h).discard
  | functionDef name =>
    obtain ⟨hs, hdefaults⟩ := and_eq_true_iff.1 h
    have hbind : Moves f scalars (bindName f false id (.single (.function id)))
        (bindName f false id (.single (.function id))) :=
      rises_bindName (.refl fun h => by simp [h] at hs) false id
    simp only [exec]
    split
    next arguments ha =>
      rw [ha] at hdefaults
      exact (rises_evalParamDefaults _ _ hdefaults).andThen hbind
    next => exact hbind
  | classDef name =>
    obtain ⟨hs, hbases⟩ := and_eq_true_iff.1 h
    refine (rises_evalAll henv _ rfl _ hbases).discard.andThen ?_
    exact rises_bindName (.refl fun h => by simp [h] at hs) false id
  | importModules =>
    refine rises_forM fun item _ => ?_
    split
    · exact rises_bindName (.refl fun hs => by simp [Frame.isPlainStmt, hs] at h) false _
    · exact .pure trivial
  | pass | globalNames | nonlocalNames | breakLoop | continueLoop => exact .pure trivial
  | _ => cases h

/-! ### Parameters -/

theorem rises_positionalParam (henv : f.SharesScalars scalars) {l : Location} {param : Node}
    (hpassed : (!scalars || isOpen f || ((f.env.get? l).getD .bottom).isScalar) = true)
    (hdefault : (param.children.head?.all fun d => f.isUnshared d.id) = true) :
    Lifts f scalars (positionalParam f l param) (positionalParam f l param) := by
  unfold positionalParam
  extract_lets passed
  have hrefl : passed.Ordered scalars passed := by
    refine .refl fun hs => ?_
    by_cases hopen : isOpen f = true
    · simp [passed, hopen, TypeSet.isScalar]
    · simpa [passed, hs, hopen] using hpassed
  split
  next d rest hchildren =>
    rw [hchildren] at hdefault
    exact (rises_readTemp henv hdefault).bind fun _ _ hv => .pure (hrefl.join hv)
  next => exact .pure hrefl

theorem rises_restParam (span : Span) (hs : scalars = false) :
    Lifts f scalars (restParam f span) (restParam f span) := by
  unfold restParam
  extract_lets r
  have hr : (TypeSet.single (.object r)).Ordered scalars (.single (.object r)) :=
    .refl fun h => by simp [hs] at h
  split
  · exact (rises_writeSlot (.refl fun _ => rfl) _).andThen (.pure hr)
  · exact .pure hr

theorem rises_keywordsParam (span : Span) (hs : scalars = false) :
    Lifts f scalars (keywordsParam f span) (keywordsParam f span) := by
  unfold keywordsParam
  extract_lets r
  have hr : (TypeSet.single (.object r)).Ordered scalars (.single (.object r)) :=
    .refl fun h => by simp [hs] at h
  refine (rises_writeSlot (.refl fun _ => by simp [TypeSet.single]) _).andThen ?_
  split
  · exact (rises_writeSlot (.refl fun _ => rfl) _).andThen (.pure hr)
  · exact .pure hr

theorem rises_paramValue (henv : f.SharesScalars scalars) (isFirst : Bool) (part : Nat)
    {param : Node} {name : String} {hint : Option String} {kind : ParamKind}
    (hkind : param.kind = .param name hint kind) (h : f.isPlainParam scalars isFirst param = true) :
    Rises f scalars (fun p q => p.1.Ordered scalars q.1 ∧ p.2 = q.2)
      (paramValue f isFirst part (.var f.unit.scope name) param hint kind)
      (paramValue f isFirst part (.var f.unit.scope name) param hint kind) := by
  simp only [Frame.isPlainParam, hkind] at h
  unfold paramValue
  generalize (if isFirst && kind == .positional then f.unit.methodOf else none) = self at h ⊢
  cases self with
  | some cls => exact .pure ⟨.refl fun hs => by simp [hs] at h, rfl⟩
  | none =>
    cases hint with
    | some text => cases h
    | none =>
      cases kind with
      | positional =>
        obtain ⟨hpassed, hdefault⟩ := and_eq_true_iff.1 h
        exact (rises_positionalParam henv hpassed hdefault).bind fun _ _ hv => .pure ⟨hv, rfl⟩
      | varArgs => exact (rises_restParam _ (by simpa using h)).bind fun _ _ hv => .pure ⟨hv, rfl⟩
      | kwArgs => exact (rises_keywordsParam _ (by simpa using h)).bind fun _ _ hv => .pure ⟨hv, rfl⟩

theorem rises_enterParams (henv : f.SharesScalars scalars) (isFirst : Bool) (part : Nat)
    {params : List Node} (h : f.arePlainParams scalars isFirst params = true) :
    Moves f scalars (enterParams f isFirst part params)
      (enterParams f isFirst part params) := by
  induction params generalizing isFirst part with
  | nil => exact .pure trivial
  | cons param rest ih =>
    obtain ⟨hparam, hrest⟩ := and_eq_true_iff.1 h
    unfold enterParams
    split
    next name hint kind hkind =>
      refine (rises_paramValue henv isFirst part hkind hparam).bind ?_
      rintro ⟨v, part'⟩ ⟨w, _⟩ ⟨hv, rfl⟩
      refine (Rises.observe _ _).andThen ((Rises.observe _ _).andThen ((Rises.observe _ _).andThen ?_))
      exact (Rises.update fun _ _ hst => hst.set hv _).andThen (ih false part' hrest)
    next => exact ih false part hrest

theorem rises_runStep (henv : f.SharesScalars scalars) {step : Step} (h : f.isPlainStep scalars step = true) :
    Moves f scalars (runStep f step) (runStep f step) := by
  cases step with
  | parameters arguments => exact rises_enterParams henv true 0 h
  | exec stmt => exact rises_exec henv h
  | eval expr =>
    refine (rises_eval henv (lambdas f) { ahead := true } expr h).bind fun _ _ hv => ?_
    exact .update fun _ _ hst => hst.set hv _
  | bind into value => exact (rises_readTemp henv h).bind fun _ _ hv => .update fun _ _ hst => hst.set hv _
  | test condition => exact (rises_eval henv (lambdas f) {} condition h).discard
  | iterate target iterable =>
    simp only [Frame.isPlainStep, Bool.and_eq_true] at h
    obtain ⟨⟨hs, ht⟩, hunshared⟩ := h
    refine (rises_readTemp henv hunshared).bind fun _ _ hv => ?_
    exact (rises_iterate iterable.id hs hv).bind fun _ _ hw => rises_storeInto _ _ ht hw
  | returnNone =>
    exact rises_writeSlot (.ofScalar .none) (.ret f.unit.node.id)
  | _ => cases h

end Eval

namespace Frame

theorem ordered_steps {f : Frame} {scalars : Bool} (henv : f.SharesScalars scalars)
    {steps : List Step} (h : ∀ step ∈ steps, f.isPlainStep scalars step = true) {s t : AbstractState}
    (hst : f.Ordered scalars s t) : ∃ s' t', steps.foldlM f.step ⟨s, none⟩ = some ⟨s', none⟩ ∧
      steps.foldlM f.step ⟨t, none⟩ = some ⟨t', none⟩ ∧ f.Ordered scalars s' t' := by
  induction steps generalizing s t with
  | nil => exact ⟨s, t, rfl, rfl, hst⟩
  | cons step steps ih =>
    obtain ⟨_, _, s', t', hs', ht', -, hst'⟩ := Eval.rises_runStep henv (h step (by simp)) s t hst
    obtain ⟨s'', t'', hs'', ht'', hst''⟩ := ih (fun step' hstep => h step' (by simp [hstep])) hst'
    have hstep : ∀ m, f.step m step = some ((Eval.runStep f step).run m).2 := by
      intro m
      cases step with
      | handle handler => exact absurd (h (.handle handler) (by simp)) nofun
      | _ => rfl
    refine ⟨s'', t'', ?_, ?_, hst''⟩
    · rw [List.foldlM_cons, hstep, hs']
      exact hs''
    · rw [List.foldlM_cons, hstep, ht']
      exact ht''

theorem transfer_le_of_isPlainBlock {f : Frame} {scalars : Bool} {b : Block}
    (hb : f.isPlainBlock scalars b = true) {s t : AbstractState} (hle : s.le t = true)
    (hscalar : scalars = true → f.isScalar s = true ∧ f.isScalar t = true ∧ f.isScalar f.env = true) :
    ∃ s' t', f.transfer b s = some s' ∧ f.transfer b t = some t' ∧ s'.le t' = true := by
  have hst : ({ f with block := b } : Frame).Ordered scalars s t := by
    refine ⟨le_iff_read.1 hle, fun hs l hl => ?_⟩
    exact ⟨isScalar_read (hscalar hs).1 hl, isScalar_read (hscalar hs).2.1 hl⟩
  have hsteps : ∀ step ∈ b.steps, ({ f with block := b } : Frame).isPlainStep scalars step = true :=
    List.all_eq_true.1 hb
  have henv : ({ f with block := b } : Frame).SharesScalars scalars := fun hs => (hscalar hs).2.2
  obtain ⟨s', t', hs', ht', hst'⟩ := ordered_steps henv hsteps hst
  refine ⟨s', t', ?_, ?_, le_iff_read.2 hst'.le⟩
  · exact Option.map_eq_some_iff.2 ⟨_, hs', rfl⟩
  · exact Option.map_eq_some_iff.2 ⟨_, ht', rfl⟩

end Frame

end PointsTo
