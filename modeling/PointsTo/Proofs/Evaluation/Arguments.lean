import PointsTo.Proofs.Evaluation.Writes

/-! # No argument is lost

The parameters of a callee are gone through once. Positional ones take the values in the queue until there is a
parameter for the rest, and all of them take the keyword of their name and what is spread. What is left in the queue
then goes to a tuple, and the keywords without a parameter go to a mapping. All writes on the way are weak, so a value
that has reached its place stays there, also where several parameters have one name or one span. -/

namespace PointsTo

open List Option TypeSet

namespace Node

def paramNamed? (sort : ParamKind) (n : Node) : Option String :=
  match n.kind with
  | .param name _ kind => if kind = sort then some name else none
  | _ => none

def positionalNames (params : List Node) : List String := params.filterMap (paramNamed? .positional)

/-- The names of those that stand ahead of every parameter for the rest. -/
def leadingNames (params : List Node) : List String :=
  positionalNames (params.takeWhile fun p => (p.paramNamed? .varArgs).isNone)

def lastParam? (sort : ParamKind) (params : List Node) : Option (Span × String) :=
  (params.filterMap fun p => (p.paramNamed? sort).map (p.span, ·)).getLast?

theorem paramNamed?_of_kind {n : Node} {name : String} {hint : Option String} {kind : ParamKind}
    (h : n.kind = .param name hint kind) (sort : ParamKind) :
    n.paramNamed? sort = if kind = sort then some name else none := by
  rw [paramNamed?, h]

theorem paramNamed?_of_not_param {n : Node} (h : ∀ name hint kind, n.kind ≠ .param name hint kind) (sort : ParamKind) :
    n.paramNamed? sort = none := by
  unfold paramNamed?
  split
  next name hint kind hkind => exact absurd hkind (h name hint kind)
  next => rfl

theorem positionalNames_cons (p : Node) (params : List Node) :
    positionalNames (p :: params) = (p.paramNamed? .positional).toList ++ positionalNames params := by
  unfold positionalNames
  cases h : p.paramNamed? .positional <;> simp [h]

theorem leadingNames_cons (p : Node) (params : List Node) : leadingNames (p :: params) =
      if (p.paramNamed? .varArgs).isSome then [] else (p.paramNamed? .positional).toList ++ leadingNames params := by
  unfold leadingNames
  cases h : p.paramNamed? .varArgs with
  | none => simp [h, positionalNames_cons]
  | some name => simp [h, positionalNames]

theorem lastParam?_cons (sort : ParamKind) (p : Node) (params : List Node) :
    lastParam? sort (p :: params) = (lastParam? sort params).or ((p.paramNamed? sort).map (p.span, ·)) := by
  unfold lastParam?
  cases h : p.paramNamed? sort with
  | none => simp [h]
  | some name => simp [h, getLast?_cons, or_some]

end Node

open Node (lastParam?)

/-! ## What is left over -/

namespace Binding

variable (args : CallArgs)

/-- What a positional parameter is offered: the next value in the queue, its keyword, and what is spread. -/
def offered (b : Binding) (name : String) : TypeSet :=
  ((if b.rest.isNone then b.queue.headD .bottom else .bottom).join ((args.keyword? name).getD .bottom)).join
    (args.spread.getD .bottom)

/-- What is still to be bound after a parameter. -/
def past (b : Binding) (param : Node) : Binding where
  queue := if b.rest.isNone && (param.paramNamed? .positional).isSome then b.queue.tail else b.queue
  consumed := ((param.paramNamed? .positional).filter fun name => (args.keyword? name).isSome).toList ++ b.consumed
  rest := ((param.paramNamed? .varArgs).map (param.span, ·)).or b.rest
  keywords := ((param.paramNamed? .kwArgs).map (param.span, ·)).or b.keywords

/-- How what is left relates to what there was before the parameters. -/
structure Past (params : List Node) (b b' : Binding) : Prop where
  queue : b'.queue = b.queue.drop (if b.rest.isNone then (Node.leadingNames params).length else 0)
  rest : b'.rest = (lastParam? .varArgs params).or b.rest
  keywords : b'.keywords = (lastParam? .kwArgs params).or b.keywords
  consumed : ∀ name ∈ b'.consumed, name ∈ b.consumed ∨ name ∈ Node.positionalNames params

theorem Past.cons {b b' : Binding} {param : Node} {params : List Node} (h : Past params (b.past args param) b') :
    Past (param :: params) b b' where
  queue := by
    rw [h.queue, past, Node.leadingNames_cons]
    cases b.rest with
    | some rest => simp
    | none =>
      cases hrest : param.paramNamed? .varArgs with
      | none => cases param.paramNamed? .positional <;> simp
      | some name =>
        have hother : param.paramNamed? .positional = none := by
          unfold Node.paramNamed? at hrest ⊢
          split at hrest <;> simp_all
        simp [hother]
  rest := by rw [h.rest, past, Node.lastParam?_cons, Option.or_assoc]
  keywords := by rw [h.keywords, past, Node.lastParam?_cons, Option.or_assoc]
  consumed name hname := by
    have hname := h.consumed name hname
    simp only [past, mem_append, mem_toList, filter_eq_some_iff] at hname
    rw [Node.positionalNames_cons, mem_append, mem_toList]
    tauto

end Binding

open Binding (past)

/-! ## Parameters -/

namespace Eval

variable (f : Frame) (scope : ScopeId) (args : CallArgs) (inline : Bool)

def fillParam (b : Binding) (param : Node) : Eval Unit :=
  match param.paramNamed? .positional with
  | some name => do writeSlot f (.var scope name) (← defaultValue f inline param (b.offered args name))
  | none => pure ()

theorem bindParams_cons (param : Node) (params : List Node) (b : Binding) :
    bindParams f scope args inline (param :: params) b =
      fillParam f scope args inline b param >>= fun _ => bindParams f scope args inline params (b.past args param) := by
  rw [bindParams, fillParam]
  split
  next name hint hkind =>
    have hconsumed : ((some name).filter fun name => (args.keyword? name).isSome).toList ++ b.consumed =
        if (args.keyword? name).isSome then name :: b.consumed else b.consumed := by
      cases h : (args.keyword? name).isSome <;> simp [Option.filter, h]
    cases hrest : b.rest <;> simp [Node.paramNamed?_of_kind hkind, past, Binding.offered, hconsumed, hrest]
  next name hint hkind => simp [Node.paramNamed?_of_kind hkind, past]
  next name hint hkind => simp [Node.paramNamed?_of_kind hkind, past]
  next hpositional hrest hkeywords =>
    have hnone : ∀ sort, param.paramNamed? sort = none := by
      refine Node.paramNamed?_of_not_param fun name hint kind hkind => ?_
      cases kind with
      | positional => exact hpositional name hint hkind
      | varArgs => exact hrest name hint hkind
      | kwArgs => exact hkeywords name hint hkind
    simp [hnone, past]

theorem past_bindParams (params : List Node) (b : Binding) (m : Machine) :
    b.Past params ((bindParams f scope args inline params b).run m).1 := by
  induction params generalizing b m with
  | nil =>
    refine ⟨?_, rfl, rfl, fun name => .inl⟩
    change b.queue = _
    simp [Node.leadingNames, Node.positionalNames]
  | cons param params ih =>
    rw [bindParams_cons, StateT.run_bind]
    exact .cons args (ih _ _)

variable {v : TypeSet} {name : String} {b : Binding}

theorem holds_defaultValue {param : Node} {x : Option TypeTag} (h : v.Holds x) (m : Machine) :
    ((defaultValue f inline param v).run m).1.Holds x := by
  unfold defaultValue
  split
  next d _ _ =>
    split
    next hbottom => exact absurd h (isBottom_eq_true_iff.1 (Bool.and_eq_true_iff.1 hbottom).2 x)
    next => exact h
  next => exact h

theorem stores_offered {param : Node} (hname : param.paramNamed? .positional = some name)
    (params : List Node) (hv : ∀ x, v.Holds x → (b.offered args name).Holds x)
    (m : Machine) : ((bindParams f scope args inline (param :: params) b).run m).2.Stores (.var scope name) v := by
  rw [bindParams_cons, StateT.run_bind]
  apply Reading.lasting_bindParams
  rw [fillParam, hname]
  dsimp only
  rw [StateT.run_bind]
  refine (stores_writeSlot f (by simp) _ _).mono fun x hx => ?_
  exact holds_defaultValue f inline (hv x hx) m

/-- The values of the queue go to the parameters ahead of the one for the rest, each to its own. -/
theorem stores_leading {params : List Node} (hb : b.rest = none) {j : Nat}
    (hname : (Node.leadingNames params)[j]? = some name) (hv : b.queue[j]? = some v) (m : Machine) :
    ((bindParams f scope args inline params b).run m).2.Stores (.var scope name) v := by
  induction params generalizing b j m with
  | nil => simp [Node.leadingNames, Node.positionalNames] at hname
  | cons param params ih =>
    rw [Node.leadingNames_cons] at hname
    split at hname
    next => simp at hname
    next hrest =>
      rw [isSome_iff_ne_none, not_not] at hrest
      have hpast : (b.past args param).rest = none := by simp [past, hrest, hb]
      cases hparam : param.paramNamed? .positional with
      | none =>
        rw [bindParams_cons, StateT.run_bind]
        have hqueue : (b.past args param).queue = b.queue := by simp [past, hparam]
        exact ih hpast (by simpa [hparam] using hname) (hqueue ▸ hv) _
      | some own =>
        cases j with
        | zero =>
          obtain rfl : own = name := by simpa [hparam] using hname
          refine stores_offered f scope args inline hparam params (fun x hx => ?_) m
          have hhead : b.queue.head? = some v := by rw [head?_eq_getElem?, hv]
          simp [Binding.offered, hb, hhead, hx]
        | succ j =>
          rw [bindParams_cons, StateT.run_bind]
          have hqueue : (b.past args param).queue = b.queue.tail := by simp [past, hparam, hb]
          refine ih hpast (by simpa [hparam] using hname) ?_ _
          rw [hqueue, getElem?_tail, hv]

theorem stores_given {params : List Node} (hname : name ∈ Node.positionalNames params)
    (hv : args.keyword? name = some v ∨ args.spread = some v) (b : Binding) (m : Machine) :
    ((bindParams f scope args inline params b).run m).2.Stores (.var scope name) v := by
  induction params generalizing b m with
  | nil => simp [Node.positionalNames] at hname
  | cons param params ih =>
    rw [Node.positionalNames_cons, mem_append, mem_toList] at hname
    rcases hname with hown | hlater
    · refine stores_offered f scope args inline hown params (fun x hx => ?_) m
      rcases hv with hv | hv <;> simp [Binding.offered, hv, hx]
    · rw [bindParams_cons, StateT.run_bind]
      exact ih hlater _ _

/-! ## What is left over -/

theorem run_andThen {α : Type} (act : Eval Unit) (next : Unit → Eval α) (m : Machine) :
    (act >>= next).run m = (next ()).run (act.run m).2 := rfl

/-- The parameter for the rest holds a tuple, and the tuple holds what is left of the queue and what is spread. -/
theorem stores_bindRest {span : Span} (h : b.rest = some (span, name)) (m : Machine) :
    ((bindRest f scope args b).run m).2.Stores (.var scope name) (.single (.object ⟨{ span, scope }, .tuple⟩)) ∧
      ∀ v, v ∈ b.queue ∨ args.spread = some v →
        ((bindRest f scope args b).run m).2.Stores (.element { span, scope }) v := by
  unfold bindRest
  rw [h]
  dsimp only
  rw [run_andThen]
  refine ⟨stores_writeSlot f (by simp) _ _, fun v hv => lasting_writeSlot f _ _ _ _ _ ?_⟩
  refine (stores_writeSlot f (by simp [HeapRef.elements]) _ m).mono fun x hx => ?_
  rw [holds_join, holds_joinAll]
  rcases hv with hv | hv
  · exact .inl ⟨v, hv, hx⟩
  · exact .inr (by simpa [hv] using hx)

/-- The parameter for keywords holds a mapping, and the mapping holds every keyword that no parameter has taken and what
is spread. -/
theorem stores_bindKeywords {span : Span} (h : b.keywords = some (span, name)) (m : Machine) :
    ((bindKeywords f scope args b).run m).2.Stores (.var scope name) (.single (.object ⟨{ span, scope }, .dict⟩)) ∧
      ∀ v, (∃ key, (key, v) ∈ args.keywords ∧ key ∉ b.consumed) ∨ args.spread = some v →
        ((bindKeywords f scope args b).run m).2.Stores (.element { span, scope }) v := by
  unfold bindKeywords
  rw [h]
  dsimp only
  rw [run_andThen, run_andThen]
  refine ⟨stores_writeSlot f (by simp) _ _, fun v hv => lasting_writeSlot f _ _ _ _ _ ?_⟩
  refine (stores_writeSlot f (by simp [HeapRef.elements]) _ _).mono fun x hx => ?_
  rw [holds_join, holds_joinAll]
  rcases hv with ⟨key, hkey, hfree⟩ | hv
  · refine .inl ⟨v, List.mem_map.2 ⟨(key, v), mem_filter.2 ⟨hkey, ?_⟩, rfl⟩, hx⟩
    simpa using hfree
  · exact .inr (by simpa [hv] using hx)

theorem keyword?_of_once {args : CallArgs} (h : args.keywords.filter (·.1 == name) = [(name, v)]) :
    args.keyword? name = some v ∧ (name, v) ∈ args.keywords := by
  constructor
  · rw [CallArgs.keyword?, ← head?_filter, h]
    rfl
  · exact (mem_filter.1 (h ▸ mem_singleton_self _)).1

/-- Binding loses no argument. The receiver and the positional values go to the positional parameters ahead of the one
for the rest, in order, and the later ones into its tuple. A keyword that is given once goes to the parameters of its
name or, if there are none, into the mapping of the parameter for keywords. What is spread goes to all of these. Of
several parameters for the rest or for keywords the last one counts. -/
theorem bindArguments_keeps_all (arguments : Node) (receiver : Option TypeTag) (m : Machine) :
    let m' := ((bindArguments f scope args inline arguments receiver).run m).2
    let queue := (receiver.map TypeSet.single).toList ++ args.positional
    let names := Node.positionalNames arguments.children
    let leading := Node.leadingNames arguments.children
    let rest? := lastParam? .varArgs arguments.children
    let keywords? := lastParam? .kwArgs arguments.children
    (∀ (j : Nat) name v, leading[j]? = some name → queue[j]? = some v → m'.Stores (.var scope name) v) ∧
    (∀ span name, rest? = some (span, name) →
      m'.Stores (.var scope name) (.single (.object ⟨{ span, scope }, .tuple⟩)) ∧
      ∀ (j : Nat) v, leading.length ≤ j → queue[j]? = some v → m'.Stores (.element { span, scope }) v) ∧
    (∀ name v, args.keywords.filter (·.1 == name) = [(name, v)] →
      (name ∈ names → m'.Stores (.var scope name) v) ∧
      (name ∉ names → ∀ span own, keywords? = some (span, own) →
        m'.Stores (.var scope own) (.single (.object ⟨{ span, scope }, .dict⟩)) ∧
        m'.Stores (.element { span, scope }) v)) ∧
    ∀ v, args.spread = some v →
      (∀ name ∈ names, m'.Stores (.var scope name) v) ∧
      ∀ span name, rest? = some (span, name) ∨ keywords? = some (span, name) →
        m'.Stores (.element { span, scope }) v := by
  intro m' queue names leading rest? keywords?
  set b : Binding := { queue }
  set m₁ := ((bindParams f scope args inline arguments.children b).run m).2
  set b' := ((bindParams f scope args inline arguments.children b).run m).1
  set m₂ := ((bindRest f scope args b').run m₁).2
  have hpast : b.Past arguments.children b' := past_bindParams f scope args inline _ b m
  have hm' : m' = ((bindKeywords f scope args b').run m₂).2 := rfl
  -- What the parameters have got is still there after the two last phases, and so is what the first of them adds.
  have hlast : ∀ {l v}, m₂.Stores l v → m'.Stores l v := fun h =>
    Reading.lasting_bindKeywords f scope args b' _ _ _ h
  have hrest : ∀ {l v}, m₁.Stores l v → m'.Stores l v := fun h =>
    hlast (Reading.lasting_bindRest f scope args b' _ _ _ h)
  have hqueue : b'.queue = queue.drop leading.length := hpast.queue
  have hrest? : ∀ {span name}, rest? = some (span, name) → b'.rest = some (span, name) := fun h => by
    rw [hpast.rest, show lastParam? .varArgs arguments.children = _ from h]
    rfl
  have hkeywords? : ∀ {span name}, keywords? = some (span, name) → b'.keywords = some (span, name) := fun h => by
    rw [hpast.keywords, show lastParam? .kwArgs arguments.children = _ from h]
    rfl
  refine ⟨fun j name v hname hv => ?_, fun span name h => ⟨?_, fun j v hj hv => ?_⟩, fun name v h => ⟨fun hname => ?_,
    fun hname span own hown => ?_⟩, fun v hv => ⟨fun name hname => ?_, fun span name h => ?_⟩⟩
  · exact hrest (stores_leading f scope args inline rfl hname hv m)
  · exact hlast (stores_bindRest f scope args (hrest? h) m₁).1
  · refine hlast ((stores_bindRest f scope args (hrest? h) m₁).2 v (.inl ?_))
    rw [hqueue]
    exact mem_of_getElem? (i := j - leading.length) (by rw [getElem?_drop, Nat.add_sub_cancel' hj, hv])
  · exact hrest (stores_given f scope args inline hname (.inl (keyword?_of_once h).1) b m)
  · have hfree : name ∉ b'.consumed := fun hmem => (hpast.consumed name hmem).elim (by simp [b]) hname
    obtain ⟨hdict, helements⟩ := stores_bindKeywords f scope args (hkeywords? hown) m₂
    exact ⟨hdict, helements v (.inl ⟨name, (keyword?_of_once h).2, hfree⟩)⟩
  · exact hrest (stores_given f scope args inline hname (.inr hv) b m)
  · rcases h with h | h
    · exact hlast ((stores_bindRest f scope args (hrest? h) m₁).2 v (.inr hv))
    · exact (stores_bindKeywords f scope args (hkeywords? h) m₂).2 v (.inr hv)

open Build in
/-- A method with a positional parameter, one for the rest, one that only a keyword reaches, and again one for the rest
and one for keywords. -/
def mixedParameters : RawNode :=
  let gathering := fun (sort own : String) => (param own).withAttr "variadic" (.str sort)
  module [functionWith "g" [param "a", gathering "args" "early", param "b", gathering "args" "late",
    gathering "kwargs" "extra"] [pass]]

def mixedArguments : CallArgs where
  positional := [.single .str, .single .bytes]
  keywords := [("b", .single .float), ("z", .single .bool)]
  spread := some (.single .none)

/-- The first parameter takes the receiver, and the tuple of the last parameter for the rest takes both values. One
keyword has a parameter and the other does not. -/
theorem bindArguments_keeps_all_on_mixedParameters :
    ∃ p u m, firstUnit? mixedParameters .reversePostorder = some (p, u) ∧
      m = ((bindArguments (u.frame p (Preparation.ofProgram p).facts .empty) 1 mixedArguments false (p.tree.node 2)
        (some .int)).run ⟨.empty, none⟩).2 ∧
      m.Stores (.var 1 "a") (.single .int) ∧
      m.Stores (.element { span := ⟨0, 6, 0, 6⟩, scope := 1 }) (.single .str) ∧
      m.Stores (.element { span := ⟨0, 6, 0, 6⟩, scope := 1 }) (.single .bytes) ∧
      m.Stores (.var 1 "b") (.single .float) ∧
      m.Stores (.element { span := ⟨0, 7, 0, 7⟩, scope := 1 }) (.single .bool) ∧
      m.Stores (.var 1 "b") (.single .none) ∧
      m.Stores (.element { span := ⟨0, 7, 0, 7⟩, scope := 1 }) (.single .none) := by
  have h : ((firstUnit? mixedParameters .reversePostorder).map fun (p, _) =>
      (Node.positionalNames (p.tree.node 2).children, Node.leadingNames (p.tree.node 2).children,
        lastParam? .varArgs (p.tree.node 2).children, lastParam? .kwArgs (p.tree.node 2).children)) =
      some (["a", "b"], ["a"], some (⟨0, 6, 0, 6⟩, "late"), some (⟨0, 7, 0, 7⟩, "extra")) := by
    decide +kernel
  obtain ⟨⟨p, u⟩, hu, h⟩ := map_eq_some_iff.1 h
  simp only [Prod.mk.injEq] at h
  obtain ⟨hnames, hleading, hrest, hkeywords⟩ := h
  obtain ⟨hfirst, hlater, hkeyword, hspread⟩ :=
    bindArguments_keeps_all (u.frame p (Preparation.ofProgram p).facts .empty)
    1 mixedArguments false (p.tree.node 2) (some .int) ⟨.empty, none⟩
  simp only [hnames, hleading, hrest, hkeywords] at hfirst hlater hkeyword hspread
  have hlate := (hlater _ _ rfl).2
  have hnone := hspread _ rfl
  refine ⟨p, u, _, hu, rfl, hfirst 0 _ _ rfl rfl, hlate 1 _ (by decide) rfl, hlate 2 _ (by decide) rfl, ?_, ?_, ?_, ?_⟩
  · exact (hkeyword "b" _ (by decide)).1 (by decide)
  · exact ((hkeyword "z" _ (by decide)).2 (by decide) _ _ rfl).2
  · exact hnone.1 "b" (by decide)
  · exact hnone.2 _ "extra" (.inr rfl)

end Eval
end PointsTo
