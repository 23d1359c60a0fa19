import PointsTo.Proofs.Evaluation.Operations

/-! # Readings of calls

The methods of containers only read and write slots of the objects at hand and of fresh ones. So what a reading says of
reads and writes it says of the methods of containers and scalars and of the builtins, and then of a call of any value,
provided that it does so of calls of lambdas. -/

namespace PointsTo

open List TypeSet

/-! ## Methods of containers -/

/-- Access to a heap of which a reading says that it writes slots of objects and gives values in the language. -/
structure HeapAccess.Spells {f : Frame} {L : Language} {known : Set Node} (R : Reading f L known)
    (heap : HeapAccess Eval) : Prop where
  read : ∀ l, Eval.Spells R (heap.read l)
  write : ∀ {l v}, l.isHeap = true → l.In L → v.In L → Eval.Stays R (heap.write l v)
  elementsOf : ∀ {v}, v.In L → Eval.Spells R (heap.elementsOf v)
  allocate : ∀ kind {part}, kind.In L → part ≤ 255 →
    Eval.Yields R (heap.allocate kind part) (HeapRef.In L)

namespace ContainerMethod

open Eval (Says Yields Spells Stays)

variable {f : Frame} {L : Language} {known : Set Node} {R : Reading f L known} {heap : HeapAccess Eval}
  (h : heap.Spells R)

theorem in_noneValue : noneValue.In L := in_scalar _

include h

theorem yields_entriesOf {t : TypeTag} (ht : t.In L) :
    Yields R (entriesOf heap t) fun e => e.1.In L ∧ e.2.In L := by
  have hpairs : Yields R (do
      let items ← heap.elementsOf (← heap.elementsOf (.single t))
      pure (items, items)) fun e => e.1.In L ∧ e.2.In L :=
    (h.elementsOf (in_single.2 ht)).bind fun v hv => (h.elementsOf hv).bind fun w hw => .pure ⟨hw, hw⟩
  unfold entriesOf
  split
  · exact .ite ((h.read _).bind fun _ hkeys => (h.read _).bind fun _ hvalues => .pure ⟨hkeys, hvalues⟩) hpairs
  · exact hpairs

theorem yields_joinEntries {tags : List TypeTag} (htags : ∀ t ∈ tags, t.In L) {acc : TypeSet × TypeSet}
    (hacc : acc.1.In L ∧ acc.2.In L) : Yields R (joinEntries heap acc tags) fun e => e.1.In L ∧ e.2.In L := by
  induction tags generalizing acc with
  | nil => exact .pure hacc
  | cons t tags ih =>
    exact (yields_entriesOf h (htags t (by simp))).bind fun e he =>
      ih (fun t ht => htags t (by simp [ht])) ⟨hacc.1.join he.1, hacc.2.join he.2⟩

theorem spells_fresh (kind : ObjKind) (hkind : kind.In L) {v : TypeSet} (hv : v.In L) :
    Spells R (fresh heap kind v) :=
  (h.allocate kind hkind (Nat.zero_le _)).bind fun _ hr =>
    (h.write rfl hr.elements hv).andThen (.pure (in_object hr))

section Arguments

variable {args : List TypeSet} (hargs : ∀ v ∈ args, v.In L)
include hargs

theorem spells_joinElements {acc : TypeSet} (hacc : acc.In L) : Spells R (joinElements heap acc args) := by
  induction args generalizing acc with
  | nil => exact .pure hacc
  | cons arg args ih =>
    exact (h.elementsOf (hargs arg (by simp))).bind fun v hv =>
      ih (fun w hw => hargs w (by simp [hw])) (hacc.join hv)

variable {receiver : HeapRef} (hreceiver : receiver.In L)
include hreceiver

theorem stays_extendElements : Stays R (extendElements heap receiver args) := by
  induction args with
  | nil => exact .pure trivial
  | cons arg args ih =>
    exact (h.elementsOf (hargs arg (by simp))).bind fun v hv =>
      (h.write rfl hreceiver.elements hv).andThen (ih fun w hw => hargs w (by simp [hw]))

theorem stays_updateEntries : Stays R (updateEntries heap receiver args) := by
  induction args with
  | nil => exact .pure trivial
  | cons arg args ih =>
    have harg := hargs arg (by simp)
    refine (yields_joinEntries h (fun _ ht => harg.of_mem_toList ht)
      ⟨in_bottom, in_bottom⟩).bind fun e he => ?_
    have hentries : (if arg.isTop then (.top, .top) else e : TypeSet × TypeSet).1.In L ∧
        (if arg.isTop then (.top, .top) else e : TypeSet × TypeSet).2.In L := by
      split
      · exact ⟨trivial, trivial⟩
      · exact he
    exact (h.write rfl hreceiver.keys hentries.1).andThen ((h.write rfl hreceiver.elements hentries.2).andThen
      (ih fun w hw => hargs w (by simp [hw])))

theorem spells_runAlgebra (name : String) : Spells R (runAlgebra heap receiver name args) := by
  unfold runAlgebra
  refine (h.read _).bind fun own hown => ?_
  extract_lets grows finish
  have hfinish : ∀ v, v.In L → Spells R (finish v) := fun v hv =>
    .ite ((h.write rfl hreceiver.elements hv).andThen (.pure in_noneValue)) (spells_fresh h .set trivial hv)
  exact .ite ((spells_joinElements h hargs hown).bind hfinish) ((Says.pure hown).bind hfinish)

end Arguments

theorem stays_writeSome {l : Location} (hheap : l.isHeap = true) (hl : l.In L) {o : Option TypeSet}
    (ho : ∀ v ∈ o, v.In L) : Stays R (writeSome heap l o) := by
  cases o with
  | none => exact .pure trivial
  | some v => exact h.write hheap hl (ho v rfl)

theorem spells_runViews (receiver : HeapRef) {name : String} (hname : name ∈ names .dictViews) :
    Spells R (runViews heap receiver name) := by
  have hview : (ObjKind.builtin ("dict_" ++ name)).In L := by
    simp only [names, mem_cons, not_mem_nil, or_false] at hname
    rcases hname with rfl | rfl | rfl | rfl
    all_goals exact R.ownWord (by decide)
  refine (h.read _).bind fun keys hkeys => (h.read _).bind fun values hvalues => .ite ?_ (.ite ?_ ?_)
  · exact (h.allocate .dict trivial (Nat.zero_le _)).bind fun copy hcopy => (h.write rfl hcopy.keys hkeys).andThen
      ((h.write rfl hcopy.elements hvalues).andThen (.pure (in_object hcopy)))
  · refine (h.allocate (.builtin "dict_items") (R.ownWord (by decide)) (Nat.zero_le _)).bind fun view hview => ?_
    refine (h.allocate .tuple trivial (by decide)).bind fun pair hpair => ?_
    exact (h.write rfl hpair.elements (hkeys.join hvalues)).andThen
      ((h.write rfl hview.elements (in_object hpair)).andThen (.pure (in_object hview)))
  · refine spells_fresh h _ hview ?_
    split
    · exact hkeys
    · exact hvalues

variable {receiver : HeapRef} (hreceiver : receiver.In L) {args : List TypeSet} (hargs : ∀ v ∈ args, v.In L)
include hreceiver hargs

theorem spells_run {method : ContainerMethod} {name : String} (hname : name ∈ method.names) :
    Spells R (run heap receiver method name args) := by
  have harg : ∀ (i : Nat) (v : TypeSet), args[i]? = some v → v.In L :=
    fun i v hv => hargs v (mem_of_getElem? hv)
  cases method with
  | append | add => exact (stays_writeSome h rfl hreceiver.elements (harg 0)).andThen (.pure in_noneValue)
  | insert => exact (stays_writeSome h rfl hreceiver.elements (harg 1)).andThen (.pure in_noneValue)
  | extend | setUpdate => exact (stays_extendElements h hargs hreceiver).andThen (.pure in_noneValue)
  | listPop | setPop => exact h.read _
  | listInPlace | setInPlace | dictClear => exact .pure in_noneValue
  | sequenceQuery | setPredicate => exact .pure (in_scalar _)
  | listCopy =>
    exact (h.allocate .list trivial (Nat.zero_le _)).bind fun copy hcopy => (h.read _).bind fun v hv =>
      (h.write rfl hcopy.elements hv).andThen (.pure (in_object hcopy))
  | setAlgebra => exact spells_runAlgebra h hargs hreceiver name
  | dictUpdate => exact (stays_updateEntries h hargs hreceiver).andThen (.pure in_noneValue)
  | setDefault =>
    exact (stays_writeSome h rfl hreceiver.keys (harg 0)).andThen
      ((h.write rfl hreceiver.elements (in_getD (harg 1) in_noneValue)).andThen (h.read _))
  | dictGet => exact (h.read _).bind fun v hv => .pure (hv.join (in_getD (harg 1) in_noneValue))
  | dictPop => exact (h.read _).bind fun v hv => .pure (hv.join (in_getD (harg 1) in_bottom))
  | popItem =>
    exact (h.allocate .tuple trivial (Nat.zero_le _)).bind fun pair hpair => (h.read _).bind fun keys hkeys =>
      (h.read _).bind fun values hvalues =>
        (h.write rfl hpair.elements (hkeys.join hvalues)).andThen (.pure (in_object hpair))
  | dictViews => exact spells_runViews h receiver hname

theorem yields_call? (name : String) : Yields R (call? heap receiver name args) fun o => ∀ v ∈ o, v.In L := by
  unfold call?
  split
  next method hmethod =>
    have hname : name ∈ method.names := by
      have happlies := find?_some hmethod
      simp only [appliesTo, Bool.and_eq_true, contains_iff_mem] at happlies
      exact happlies.1
    exact (spells_run h hreceiver hargs hname).bind fun v hv => .pure fun w hw => Option.mem_some.1 hw ▸ hv
  next => exact .pure nofun

end ContainerMethod

namespace Eval

variable {L : Language} {known : Set Node} {f : Frame} {R : Reading f L known}

/-! ## Calls of values -/

section Callees

variable (call : NodeId)

theorem spells_unknownCall {args : CallArgs} (hargs : args.In L) : Spells R (unknownCall f call args) := by
  refine (stays_flag call _).andThen ((Says.forM fun r hr => ?_).andThen (.pure trivial))
  obtain ⟨v, hv, hr⟩ := mem_flatMap.1 hr
  exact stays_writeElements ((hargs v hv).of_mem_objects hr) in_top

theorem heapAccess_spells : (heapAccess f call).Spells R where
  read := spells_readSlot
  write hheap hl hv := stays_writeHeap hheap hl hv
  elementsOf := spells_elements
  allocate kind _ hkind hpart := .pure (R.alloc call kind hkind hpart)

theorem spells_builtinMethod {r : HeapRef} (hr : r.In L) (name : String) :
    Spells R (builtinMethod f call r name) := by
  unfold builtinMethod
  split
  · exact spells_readSlot _
  · exact spells_readSlot _
  · exact .pure (in_object hr)
  · exact .pure (in_object hr)
  · exact .pure (in_scalar _)
  · exact .pure (in_scalar _)
  · exact .pure (in_scalar _)
  · exact .pure (in_scalar _)
  · exact spells_fresh call .list trivial (in_scalar _) (Nat.zero_le _)
  · exact .pure (in_scalar _)
  · exact spells_giveUp call _

theorem spells_scalarMethod (receiver : TypeTag) (name : String) :
    Spells R (scalarMethod f call receiver name) := by
  unfold scalarMethod
  split
  next v hv => exact .pure (ScalarMethod.in_lookup? hv)
  next v hv => exact spells_fresh call .list trivial (ScalarMethod.in_lookup? hv) (Nat.zero_le _)
  next v hv => exact spells_fresh call .tuple trivial (ScalarMethod.in_lookup? hv) (Nat.zero_le _)
  next => exact spells_giveUp call _

variable {call : NodeId} (hcall : call ∈ L.numbers) {args : CallArgs} (hargs : args.In L)
include hcall

section Arguments
include hargs

theorem spells_objectMethod {r : HeapRef} (hr : r.In L) (name : String) :
    Spells R (objectMethod f call r name args) := by
  have hobject : (TypeTag.object r).In L := hr
  unfold objectMethod
  split
  · exact spells_callSpecial hcall _ hobject name hargs
  · refine (ContainerMethod.yields_call? (heapAccess_spells call) hr
      (fun _ hv => hargs.positional hv) name).bind fun o ho => ?_
    cases o with
    | some v => exact .pure (ho v rfl)
    | none => exact spells_builtinMethod call hr name

theorem spells_callMethod {receiver : TypeTag} (hreceiver : receiver.In L) (name : String) :
    Spells R (callMethod f call receiver name args) := by
  unfold callMethod
  split
  · exact spells_objectMethod hcall hargs hreceiver name
  · exact spells_scalarMethod call _ name

theorem spells_elementOfFirst (name : String) : Spells R (elementOfFirst f call name args) := by
  have hfinish : ∀ v : TypeSet, v.In L → Spells R (pure (v.join ((args.keyword? "default").getD .bottom))) :=
    fun v hv => .pure (hv.join (hargs.keyword? _))
  unfold elementOfFirst
  split
  next source fallback rest hpositional =>
    have hsource : source.In L := hargs.positional (by simp [hpositional])
    have hfallback : fallback.In L := hargs.positional (by simp [hpositional])
    refine .ite ((spells_iterate hcall hsource).bind fun v hv => ?_) ?_
    · exact (Says.pure (hv.join hfallback)).bind hfinish
    · exact (Says.pure (in_joinAll fun v hv => hargs.positional hv)).bind hfinish
  next => exact (spells_iterate hcall hargs.first?).bind hfinish

theorem spells_sumOf : Spells R (sumOf f call args) := by
  refine (spells_iterate hcall hargs.first?).bind fun v hv => .pure ?_
  refine (hv.flatMap fun t ht => in_single.2 ?_).join
    (in_getD (fun w hw => hargs.positional (mem_of_getElem? hw)) (in_scalar _))
  split
  · trivial
  · exact ht

end Arguments

theorem yields_entriesOf {t : TypeTag} (ht : t.In L) :
    Yields R (entriesOf f call t) fun e => e.1.In L ∧ e.2.In L := by
  have hpairs : Yields R (do
      let items ← elements f (← iterate f call (.single t))
      pure (items, items)) fun e => e.1.In L ∧ e.2.In L :=
    (spells_iterate hcall (in_single.2 ht)).bind fun v hv =>
      (spells_elements hv).bind fun w hw => .pure ⟨hw, hw⟩
  unfold entriesOf
  split
  · exact .ite ((spells_readSlot _).bind fun _ hkeys =>
      (spells_readSlot _).bind fun _ hvalues => .pure ⟨hkeys, hvalues⟩) hpairs
  · exact hpairs

theorem yields_joinEntries {tags : List TypeTag} (htags : ∀ t ∈ tags, t.In L) {acc : TypeSet × TypeSet}
    (hacc : acc.1.In L ∧ acc.2.In L) : Yields R (joinEntries f call acc tags) fun e => e.1.In L ∧ e.2.In L := by
  induction tags generalizing acc with
  | nil => exact .pure hacc
  | cons t tags ih =>
    exact (yields_entriesOf hcall (htags t (by simp))).bind fun e he =>
      ih (fun t ht => htags t (by simp [ht])) ⟨hacc.1.join he.1, hacc.2.join he.2⟩

theorem spells_newDict (hargs : args.In L) : Spells R (newDict f call args) := by
  have hdict : (f.alloc call .dict).In L := R.alloc call .dict trivial (Nat.zero_le _)
  have hsource := hargs.first?
  refine (yields_joinEntries hcall (fun _ ht => hsource.of_mem_toList ht)
    ⟨in_bottom, in_bottom⟩).bind fun e he => ?_
  have hentries : ∀ c : Bool, (if c then (.top, .top) else e : TypeSet × TypeSet).1.In L ∧
      (if c then (.top, .top) else e : TypeSet × TypeSet).2.In L := by
    intro c
    cases c
    · exact he
    · exact ⟨trivial, trivial⟩
  have hnames : ∀ c : Bool, (if c then bottom else .single .str).In L := by
    intro c
    cases c
    · exact in_scalar _
    · exact in_bottom
  have hvalues := in_joinAll fun v (hv : v ∈ args.keywords.map (·.2)) => hargs.keyword hv
  exact (stays_writeKeys hdict ((hentries _).1.join (hnames _))).andThen
    ((stays_writeElements hdict ((hentries _).2.join hvalues)).andThen (.pure (in_object hdict)))

omit hcall in
theorem spells_pairIterator {name : String} (hname : name ∈ L.words) {contents : TypeSet}
    (hcontents : contents.In L) : Spells R (pairIterator f call name contents) :=
  (spells_fresh call .tuple trivial hcontents (by decide)).bind fun _ hv =>
    spells_fresh call (.builtin name) hname hv (Nat.zero_le _)

theorem yields_iterateEach {vs : List TypeSet} (hvs : ∀ v ∈ vs, v.In L) :
    Yields R (iterateEach f call vs) fun ws => ∀ w ∈ ws, w.In L := by
  induction vs with
  | nil => exact .pure nofun
  | cons v vs ih =>
    refine (spells_iterate hcall (hvs v (by simp))).bind fun w hw => ?_
    exact (ih fun u hu => hvs u (by simp [hu])).bind fun ws hws => .pure (forall_mem_cons.2 ⟨hw, hws⟩)

variable {again : TypeSet → List TypeSet → Eval TypeSet}
  (hagain : ∀ {v vs}, v.In L → (∀ w ∈ vs, w.In L) → Spells R (again v vs))
include hargs hagain

theorem spells_callBuiltin (name : String) : Spells R (callBuiltin f call again name args) := by
  have hfresh : ∀ kind, kind.In L → ∀ v, v.In L → Spells R (fresh f call kind v) :=
    fun kind hkind v hv => spells_fresh call kind hkind hv (Nat.zero_le _)
  have hbuiltin : ∀ name ∈ Builtin.ownWords, ∀ v, v.In L → Spells R (fresh f call (.builtin name) v) :=
    fun name hname => hfresh (.builtin name) (R.ownWord hname)
  have hfirst := spells_iterate (R := R) hcall hargs.first?
  have hall : (TypeSet.joinAll args.positional).In L := in_joinAll fun v hv => hargs.positional hv
  unfold callBuiltin
  split
  next => exact .pure in_bottom
  next v hv => exact .pure (Builtin.in_call? R.ownWord hv)
  next => exact .pure hall
  next => exact spells_elementOfFirst hcall hargs name
  next => exact spells_sumOf hcall hargs
  next kind hkind =>
    have hkind : kind.In L := Builtin.in_call? R.ownWord hkind
    exact .ite ((Says.pure hall).bind (hfresh _ hkind)) (hfirst.bind (hfresh _ hkind))
  next => exact spells_newDict hcall hargs
  next => exact hbuiltin "range" (by decide) _ (in_scalar _)
  next =>
    exact hfirst.bind fun v hv => spells_pairIterator (R.ownWord (by decide)) (hv.join (in_scalar _))
  next =>
    exact (yields_iterateEach hcall fun v hv => hargs.positional hv).bind fun vs hvs =>
      spells_pairIterator (R.ownWord (by decide)) (in_joinAll hvs)
  next =>
    split
    next function iterables hpositional =>
      refine (yields_iterateEach hcall fun v hv => hargs.positional (by simp [hpositional, hv])).bind
        fun vs hvs => ?_
      exact (hagain (hargs.positional (by simp [hpositional])) hvs).bind (hbuiltin "map" (by decide))
    next => exact (Says.pure in_bottom).bind (hbuiltin "map" (by decide))
  next =>
    split
    next test iterable hpositional =>
      have htest : test.In L := hargs.positional (by simp [hpositional])
      have hiterable : iterable.In L := hargs.positional (by simp [hpositional])
      refine (spells_iterate hcall hiterable).bind fun items hitems => ?_
      have hkept := (Says.pure (R := R) hitems).bind (hbuiltin "filter" (by decide))
      refine .ite (Yields.andThen (hagain htest fun w hw => ?_).discard hkept) hkept
      exact mem_singleton.1 hw ▸ hitems
    next => exact (Says.pure in_bottom).bind (hbuiltin "filter" (by decide))
  next => exact hfirst.bind (hbuiltin "iterator" (by decide))
  next type htype =>
    have hr := R.alloc call (.builtin type) (Builtin.in_call? R.ownWord htype) (Nat.zero_le _)
    exact .pure (in_object hr)
  next =>
    split
    next v hpositional =>
      have hv : v.In L := hargs.positional (by simp [hpositional])
      exact .pure (hv.flatMap fun t ht => in_single.2 (in_typeOf R.ownWord ht))
    next => exact spells_giveUp call _
  next => exact spells_giveUp call _

variable {lambda : LambdaCall}
  (hlambda : ∀ {d}, f.program.tree.kind d = .lambda → ∀ {call args}, call ∈ L.numbers → args.In L →
    Spells R (lambda call (f.program.tree.node d) args))
include hlambda

theorem spells_callTag {t : TypeTag} (ht : t.In L) : Spells R (callTag f lambda call again args t) := by
  unfold callTag
  split
  next d =>
    have hreceiver : ∀ t ∈ (none : Option TypeTag), t.In L := fun t ht => by cases ht
    split
    next hd => exact hlambda hd hcall hargs
    next => exact spells_callFunction hcall d hreceiver hargs
  next cls =>
    have hinst := R.inst ht
    exact (yields_callSpecial? hcall cls hinst _ hargs).discard.andThen (.pure (in_single.2 hinst))
  next => exact spells_callBuiltin hcall hargs hagain _
  next => exact spells_callMethod hcall hargs ht.2.1 _
  next => exact spells_callSpecial hcall _ ht _ hargs
  next => exact spells_unknownCall call hargs
  next => exact .pure in_bottom

theorem spells_callEach {callee : TypeSet} (hcallee : callee.In L) :
    Spells R (callEach f lambda call again callee args) :=
  .ite (spells_unknownCall call hargs)
    (.joinEach fun _ ht => spells_callTag hcall hargs hagain hlambda (hcallee.of_mem_toList ht))

omit hagain hargs

theorem spells_callUpTo (n : Nat) {callee : TypeSet} (hcallee : callee.In L) {vs : List TypeSet}
    (hvs : ∀ v ∈ vs, v.In L) : Spells R (callUpTo f lambda call n callee vs) := by
  induction n generalizing callee vs with
  | zero =>
    exact spells_callEach hcall (.ofPositional hvs) (fun _ _ => .pure in_bottom) hlambda hcallee
  | succ n ih => exact spells_callEach hcall (.ofPositional hvs) (fun hv hws => ih hv hws) hlambda hcallee

include hargs

theorem spells_callValue {callee : TypeSet} (hcallee : callee.In L) :
    Spells R (callValue f lambda call callee args) :=
  spells_callEach hcall hargs (fun hv hws => spells_callUpTo hcall hlambda _ hv hws) hlambda hcallee

end Callees

end Eval
end PointsTo
