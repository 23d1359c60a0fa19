import PointsTo.Proofs.Evaluation.Coverage
import PointsTo.Proofs.Evaluation.Marks

/-! # Readings of operations

What is said of evaluations often passes from the parts to the whole. Then it is enough to know it of reads and writes,
and it holds of every operation on values: of calls, operators, attributes and subscripts. Along the way the values stay
in a language that covers the program, and which locations an operation can write to is known without them. They are
slots of objects and parameters of what the program can call. -/

namespace PointsTo

open List Option TypeSet

/-- A way to read evaluations in a frame. What it says passes from the parts to the whole, and holds of reads and of
writes to certain locations. -/
structure Reading (f : Frame) (L : Language) (known : Set Node) extends cover : f.Covered L known where
  /-- What holds of an evaluation with the given marks and results that have a property. -/
  holds : List Mark → ∀ {α : Type}, Eval α → (α → Prop) → Prop
  /-- Whether writes to a location need no mark. -/
  quiet : Location → Prop
  pure : ∀ {α : Type} {v : α} {good : α → Prop}, good v → holds [] (pure v : Eval α) good
  bind : ∀ {α β : Type} {ms ms' : List Mark} {act : Eval α} {next : α → Eval β} {good : α → Prop} {good' : β → Prop},
    holds ms act good → (∀ v, good v → holds ms' (next v) good') → holds (ms ++ ms') (act >>= next) good'
  withState : ∀ {α : Type} {next : Machine → Eval α} {good : α → Prop}, (∀ s r, next ⟨s, r⟩ = next ⟨s, none⟩) →
    (∀ s : AbstractState, s.In L → holds [] (next ⟨s, none⟩) good) → holds [] (get >>= next) good
  record : ∀ node v, holds [] (Eval.record node v) fun _ => True
  flag : ∀ node reason, holds [] (Eval.flag node reason) fun _ => True
  write : ∀ {l : Location} {v : TypeSet}, l.In L → v.In L → quiet l → holds [] (Eval.writeSlot f l v) fun _ => True
  slot : ∀ {l : Location}, l.isHeap = true → quiet l
  called : ∀ {l : Location}, f.program.Called f.graph f.unit l → quiet l

namespace Eval

variable {f : Frame} {L : Language} {known : Set Node} {R : Reading f L known} {α β : Type}

/-- A reading holds of an evaluation that it goes with some marks and that its results have a property. -/
def Says (R : Reading f L known) (ms : List Mark) (act : Eval α) (good : α → Prop) : Prop := R.holds ms act good

/-- No marks, and results with a property. -/
abbrev Yields (R : Reading f L known) (act : Eval α) (good : α → Prop) : Prop := Says R [] act good

/-- No marks, and a value in the language. -/
abbrev Spells (R : Reading f L known) (act : Eval TypeSet) : Prop := Yields R act (TypeSet.In L)

/-- No marks, and no result. -/
abbrev Stays (R : Reading f L known) (act : Eval Unit) : Prop := Yields R act fun _ => True

namespace Says

variable {ms ms' : List Mark} {act : Eval α} {good : α → Prop} {good' : β → Prop}

theorem pure {v : α} (h : good v) : Yields R (Pure.pure v) good := R.pure h

theorem bind {next : α → Eval β} (h : Says R ms act good) (hnext : ∀ v, good v → Says R ms' (next v) good') :
    Says R (ms ++ ms') (act >>= next) good' := R.bind h hnext

theorem thenQuiet {next : α → Eval β} (h : Says R ms act good) (hnext : ∀ v, good v → Yields R (next v) good') :
    Says R ms (act >>= next) good' := by
  simpa only [append_nil] using h.bind hnext

theorem andThen {good : Unit → Prop} {act : Eval Unit} {next : Unit → Eval β} (h : Says R ms act good)
    (hnext : Says R ms' (next ()) good') : Says R (ms ++ ms') (act >>= next) good' := h.bind fun _ _ => hnext

theorem discard (h : Says R ms act good) : Says R ms (discard act) fun _ => True :=
  h.thenQuiet fun _ _ => .pure trivial

theorem ite {c : Prop} [Decidable c] {act' : Eval α} (h : Says R ms act good) (h' : Says R ms act' good) :
    Says R ms (if c then act else act') good := by
  split
  · exact h
  · exact h'

theorem choose {c : Prop} [Decidable c] {act' : Eval α} (h : Says R ms act good) (h' : Says R ms' act' good) :
    Says R (if c then ms else ms') (if c then act else act') good := by
  split
  · exact h
  · exact h'

theorem forMarked {xs : List β} {marks : β → List Mark} {g : β → Eval Unit}
    (h : ∀ x ∈ xs, Says R (marks x) (g x) fun _ => True) : Says R (xs.flatMap marks) (xs.forM g) fun _ => True := by
  induction xs with
  | nil => exact .pure trivial
  | cons x xs ih =>
    change Says R (marks x ++ xs.flatMap marks) (g x >>= fun _ => xs.forM g) _
    exact (h x (by simp)).bind fun _ _ => ih fun y hy => h y (by simp [hy])

end Says

namespace Yields

variable {ms : List Mark} {act : Eval α} {good : α → Prop} {good' : β → Prop}

theorem bind {next : α → Eval β} (h : Yields R act good) (hnext : ∀ v, good v → Says R ms (next v) good') :
    Says R ms (act >>= next) good' := Says.bind h hnext

theorem andThen {good : Unit → Prop} {act : Eval Unit} {next : Unit → Eval β} (h : Yields R act good)
    (hnext : Says R ms (next ()) good') : Says R ms (act >>= next) good' := Says.andThen h hnext

end Yields

namespace Says

theorem withState {good : α → Prop} {next : Machine → Eval α} (hnext : ∀ s r, next ⟨s, r⟩ = next ⟨s, none⟩)
    (h : ∀ s : AbstractState, s.In L → Yields R (next ⟨s, none⟩) good) : Yields R (get >>= next) good :=
  R.withState hnext h

theorem forM {xs : List β} {g : β → Eval Unit} (h : ∀ x ∈ xs, Stays R (g x)) : Stays R (xs.forM g) := by
  induction xs with
  | nil => exact .pure trivial
  | cons x xs ih =>
    change Stays R (g x >>= fun _ => xs.forM g)
    exact (h x (by simp)).andThen (ih fun y hy => h y (by simp [hy]))

theorem joinEach {g : β → Eval TypeSet} {xs : List β} (h : ∀ x ∈ xs, Spells R (g x)) :
    Spells R (Eval.joinEach g xs) := by
  induction xs with
  | nil => exact .pure in_bottom
  | cons x xs ih =>
    unfold Eval.joinEach
    refine (h x (by simp)).bind fun v hv => (ih fun y hy => h y (by simp [hy])).bind fun w hw => ?_
    exact .pure (hv.join hw)

end Says

section Slots

theorem stays_record (node : NodeId) (v : TypeSet) : Stays R (record node v) := R.record node v

theorem stays_flag (node : NodeId) (reason : TopReason) : Stays R (flag node reason) := R.flag node reason

theorem spells_giveUp (node : NodeId) (reason : TopReason) : Spells R (giveUp node reason) :=
  (stays_flag node reason).andThen (.pure trivial)

variable {l : Location} {r : HeapRef} {v : TypeSet}

theorem stays_writeSlot (hl : l.In L) (hv : v.In L) (hquiet : R.quiet l) : Stays R (writeSlot f l v) :=
  R.write hl hv hquiet

theorem stays_writeHeap (hheap : l.isHeap = true) (hl : l.In L) (hv : v.In L) : Stays R (writeSlot f l v) :=
  stays_writeSlot hl hv (R.slot hheap)

theorem stays_writeElements (hr : r.In L) (hv : v.In L) : Stays R (writeSlot f r.elements v) :=
  stays_writeHeap rfl hr.elements hv

theorem stays_writeKeys (hr : r.In L) (hv : v.In L) : Stays R (writeSlot f r.keys v) :=
  stays_writeHeap rfl hr.keys hv

end Slots

theorem spells_readSlot (l : Location) : Spells R (readSlot f l) :=
  .withState (fun _ _ => rfl) fun _ hs => .pure (R.value hs l)

theorem spells_elements {v : TypeSet} (hv : v.In L) : Spells R (elements f v) :=
  .withState (fun _ _ => rfl) fun _ hs => .pure (R.elementsIn hs hv)

theorem spells_fresh (node : NodeId) (kind : ObjKind) (hkind : kind.In L) {contents : TypeSet}
    (hcontents : contents.In L) {part : Nat} (hpart : part ≤ 255) : Spells R (fresh f node kind contents part) := by
  have hr := R.alloc node kind hkind hpart
  exact (stays_writeElements hr hcontents).andThen (.pure (in_object hr))

end Eval

/-! ## Calls of functions -/

theorem Location.isHeap_rebased {l : Location} {site : AllocSite} (hl : l.site? = some site)
    (site' : AllocSite) : (l.rebased site').isHeap = true := by
  cases l <;> simp_all [site?, rebased, isHeap]

namespace Reading

variable {f : Frame} {L : Language} {known : Set Node} (R : Reading f L known)

/-- A parameter of a scope can be written to. -/
def Ready (scope : ScopeId) (span : Span) (name : String) : Prop :=
  span ∈ L.spans ∧ (Location.var scope name).In L ∧ R.quiet (.var scope name)

/-- If a node is a parameter, it is one that can be written to. -/
def Takes (scope : ScopeId) (n : Node) : Prop :=
  ∀ ⦃name hint kind⦄, n.kind = .param name hint kind → R.Ready scope n.span name

theorem takes {scope : ScopeId} (hscope : scope ∈ L.numbers) {arguments n : Node} (harguments : arguments ∈ known)
    (hn : n ∈ arguments.children) (hcalled : ∀ {name hint kind}, n.kind = .param name hint kind →
      f.program.Called f.graph f.unit (.var scope name)) : R.Takes scope n := by
  intro name hint kind hkind
  have hknown := R.child harguments hn
  exact ⟨R.span hknown, ⟨hscope, R.word hknown (by simp [Node.words, hkind])⟩, R.called (hcalled hkind)⟩

end Reading

namespace Eval

variable {L : Language} {known : Set Node} {f : Frame} {R : Reading f L known}

section Copies

variable {call : NodeId} (hcall : call ∈ L.numbers) (scope : ScopeId)
  {copy : TypeSet → List AllocSite → Eval (TypeSet × List AllocSite)}
  (hcopy : ∀ v cloned, v.In L → Yields R (copy v cloned) fun x => x.1.In L)

include hcopy in
theorem yields_copySlots {site : AllocSite} (hsite : site.In L) {slots : List (Location × TypeSet)}
    (hslots : ∀ e ∈ slots, e.1.site?.isSome = true ∧ e.1.In L ∧ e.2.In L) (cloned : List AllocSite) :
    Yields R (copySlots f copy site slots cloned) fun _ => True := by
  induction slots generalizing cloned with
  | nil => exact .pure trivial
  | cons e slots ih =>
    obtain ⟨hl, hin, hstored⟩ := hslots e (by simp)
    obtain ⟨_, hl⟩ := isSome_iff_exists.1 hl
    refine (hcopy e.2 cloned hstored).bind fun x hx => ?_
    refine (stays_writeHeap (Location.isHeap_rebased hl site) (hin.rebased hsite) hx).andThen ?_
    exact ih (fun e' he' => hslots e' (by simp [he'])) x.2

include hcall hcopy

theorem yields_copyObject {t : TypeTag} (ht : t.In L) (cloned : List AllocSite) :
    Yields R (copyObject f call scope copy cloned t) fun _ => True := by
  cases t with
  | object r =>
    refine .ite (.withState (fun _ _ => rfl) fun s hs => ?_) (.pure trivial)
    refine yields_copySlots hcopy (ht.site.inContext hcall) (fun e he => ?_) _
    obtain ⟨hl, hin⟩ := R.slotsAt hs e he
    exact ⟨by rw [hl]; rfl, hin⟩
  | _ => exact .pure trivial

theorem yields_copyTags {ts : List TypeTag} (hts : ∀ t ∈ ts, t.In L) {copied : TypeSet} (hcopied : copied.In L)
    (cloned : List AllocSite) : Yields R (copyTags f call scope copy ts copied cloned) fun x => x.1.In L := by
  induction ts generalizing copied cloned with
  | nil => exact .pure hcopied
  | cons t ts ih =>
    refine (yields_copyObject hcall scope hcopy (hts t (by simp)) cloned).bind fun cloned _ => ?_
    refine ih (fun t' ht' => hts t' (by simp [ht'])) ?_ cloned
    rw [insert_eq_join]
    exact hcopied.join (in_single.2 (Frame.in_cloneTag hcall scope (hts t (by simp))))

omit hcopy

theorem yields_rebase (depth : Nat) (v : TypeSet) (cloned : List AllocSite) (hv : v.In L) :
    Yields R (rebase f call scope depth v cloned) fun x => x.1.In L := by
  induction depth generalizing v cloned with
  | zero => exact .pure hv
  | succ depth ih =>
    exact .ite (.pure trivial)
      (yields_copyTags hcall scope ih (fun t => hv.of_mem_toList) in_bottom cloned)

theorem spells_contextualize {v : TypeSet} (hv : v.In L) : Spells R (contextualize f call scope v) := by
  refine .ite (.withState (fun _ _ => rfl) fun s _ => ?_) (.pure hv)
  exact (yields_rebase hcall scope _ v [] hv).bind fun x hx => .pure hx

end Copies

section Binding

variable {scope : ScopeId} {args : CallArgs} (hargs : args.In L) (inline : Bool)

theorem spells_defaultValue (param : Node) {v : TypeSet} (hv : v.In L) :
    Spells R (defaultValue f inline param v) := by
  unfold defaultValue
  split
  · exact .ite (spells_readSlot _) (.pure hv)
  · exact .pure hv

include hargs

theorem yields_bindParams {params : List Node} (hparams : ∀ n ∈ params, R.Takes scope n) {b : Binding}
    (hb : b.In L (R.Ready scope)) :
    Yields R (bindParams f scope args inline params b) (Binding.In L (R.Ready scope)) := by
  induction params generalizing b with
  | nil => exact .pure hb
  | cons param params ih =>
    have hparam := hparams param (by simp)
    have hrest : ∀ n ∈ params, R.Takes scope n := fun n hn => hparams n (by simp [hn])
    unfold bindParams
    split
    next name _ hkind =>
      obtain ⟨-, hname, hquiet⟩ := hparam hkind
      have hhead : (b.queue.headD .bottom).In L := by
        cases hqueue : b.queue with
        | nil => exact in_bottom
        | cons v vs => exact hb.queue v (by simp [hqueue])
      have htail : ∀ v ∈ b.queue.tail, v.In L := fun v hv => hb.queue v (mem_of_mem_tail hv)
      have hplaced : ∀ {v : TypeSet} {queue : List TypeSet}, v.In L → (∀ w ∈ queue, w.In L) →
          Yields R (do
            let v ← defaultValue f inline param
              ((v.join ((args.keyword? name).getD .bottom)).join (args.spread.getD .bottom))
            writeSlot f (.var scope name) v
            bindParams f scope args inline params { b with
              queue
              consumed := if (args.keyword? name).isSome then name :: b.consumed else b.consumed })
            (Binding.In L (R.Ready scope)) := by
        intro v queue hv hqueue
        have hjoined := (hv.join (hargs.keyword? name)).join hargs.spread
        refine (spells_defaultValue inline param hjoined).bind fun w hw => ?_
        exact (stays_writeSlot hname hw hquiet).andThen (ih hrest ⟨hqueue, hb.rest, hb.keywords⟩)
      split
      next v queue heq =>
        split at heq
        · cases heq
          exact hplaced hhead htail
        · cases heq
          exact hplaced in_bottom hb.queue
    next name _ hkind =>
      refine ih hrest ⟨hb.queue, fun span name' h => ?_, hb.keywords⟩
      cases h
      exact hparam hkind
    next name _ hkind =>
      refine ih hrest ⟨hb.queue, hb.rest, fun span name' h => ?_⟩
      cases h
      exact hparam hkind
    next => exact ih hrest hb

variable (hscope : scope ∈ L.numbers) {b : Binding} (hb : b.In L (R.Ready scope))
include hscope hb

theorem stays_bindRest : Stays R (bindRest f scope args b) := by
  unfold bindRest
  split
  next span name hrest =>
    obtain ⟨hspan, hname, hquiet⟩ := hb.rest span name hrest
    have htuple := R.collector hspan hscope .tuple trivial
    have hleft := (in_joinAll hb.queue).join hargs.spread
    exact (stays_writeElements htuple hleft).andThen (stays_writeSlot hname (in_object htuple) hquiet)
  next => exact .pure trivial

theorem stays_bindKeywords : Stays R (bindKeywords f scope args b) := by
  unfold bindKeywords
  split
  next span name hkeywords =>
    obtain ⟨hspan, hname, hquiet⟩ := hb.keywords span name hkeywords
    have hdict := R.collector hspan hscope .dict trivial
    refine (stays_writeKeys hdict (in_scalar _)).andThen
      ((stays_writeElements hdict (TypeSet.In.join (in_joinAll fun v hv => ?_) hargs.spread)).andThen
        (stays_writeSlot hname (in_object hdict) hquiet))
    obtain ⟨k, hk, rfl⟩ := List.mem_map.1 hv
    exact hargs.keyword (List.mem_map_of_mem (mem_of_mem_filter hk))
  next => exact .pure trivial

omit hb

theorem stays_bindArguments {arguments : Node} (harguments : ∀ n ∈ arguments.children, R.Takes scope n)
    {receiver : Option TypeTag} (hreceiver : ∀ t ∈ receiver, t.In L) :
    Stays R (bindArguments f scope args inline arguments receiver) := by
  have hqueue : ∀ v ∈ (receiver.map TypeSet.single).toList ++ args.positional, v.In L := by
    intro v hv
    rcases mem_append.1 hv with hv | hv
    · obtain ⟨t, ht, rfl⟩ := map_eq_some_iff.1 (mem_toList.1 hv)
      exact in_single.2 (hreceiver t ht)
    · exact hargs.positional hv
  refine (yields_bindParams hargs inline harguments
    ⟨hqueue, fun _ _ h => (by cases h), fun _ _ h => (by cases h)⟩).bind fun b hb => ?_
  exact (stays_bindRest hargs hscope hb).andThen (stays_bindKeywords hargs hscope hb)

end Binding

section Calls

variable {node : NodeId} (hnode : node ∈ L.numbers)
include hnode

theorem spells_callFunction (definition : NodeId) {receiver : Option TypeTag}
    (hreceiver : ∀ t ∈ receiver, t.In L) {args : CallArgs} (hargs : args.In L) :
    Spells R (callFunction f node definition receiver args) := by
  unfold callFunction
  split
  next => exact .pure trivial
  next id hid =>
    extract_lets callee finish take
    have hscope : callee.scope ∈ L.numbers := R.unitScope id
    refine .ite (spells_giveUp _ _) ?_
    have htake : Spells R (take ()) := by
      unfold take
      refine .ite ?_ ?_
      · exact (Says.pure (in_object (R.generatorOf definition hscope))).bind fun v hv =>
          spells_contextualize hnode _ hv
      · exact (spells_readSlot _).bind fun v hv => spells_contextualize hnode _ hv
    split
    next arguments harguments =>
      have hknown := R.childOfKind? (R.node definition) harguments
      refine (stays_bindArguments hargs false hscope (fun n hn => R.takes hscope hknown hn fun hkind => ?_)
        hreceiver).andThen htake
      exact .param hid harguments hn hkind
    next => exact htake

section Special

variable (cls : ClassId) {receiver : TypeTag} (hreceiver : receiver.In L) (method : String) {args : CallArgs}
  (hargs : args.In L)
include hreceiver hargs

theorem yields_callSpecial? : Yields R (callSpecial? f node cls receiver method args) fun o => ∀ v ∈ o, v.In L := by
  unfold callSpecial?
  split
  · exact .pure nofun
  · refine (Says.joinEach fun d _ => spells_callFunction hnode d ?_ hargs).bind fun v hv => ?_
    · exact fun t ht => mem_some.1 ht ▸ hreceiver
    · exact .pure fun w hw => mem_some.1 hw ▸ hv

theorem spells_callSpecial : Spells R (callSpecial f node cls receiver method args) :=
  (yields_callSpecial? hnode cls hreceiver method hargs).bind fun _ ho =>
    .pure (in_getD ho in_bottom)

end Special

theorem spells_nextOf {iterator : TypeTag} (hiterator : iterator.In L) : Spells R (nextOf f node iterator) := by
  unfold nextOf
  split
  · exact spells_callSpecial hnode _ hiterator _ CallArgs.in_empty
  · exact spells_elements (in_single.2 hiterator)

theorem spells_iterateTags {tags : List TypeTag} (htags : ∀ t ∈ tags, t.In L) {found : TypeSet}
    (hfound : found.In L) : Spells R (iterateTags f node found tags) := by
  induction tags generalizing found with
  | nil => exact .pure hfound
  | cons t tags ih =>
    have ht := htags t (by simp)
    have hrest : ∀ t ∈ tags, t.In L := fun t ht => htags t (by simp [ht])
    unfold iterateTags
    split
    · exact (spells_elements (in_single.2 ht)).bind fun v hv => ih hrest (hfound.join hv)
    · refine (yields_callSpecial? hnode _ ht _ CallArgs.in_empty).bind fun o ho => ?_
      split
      next => exact ih hrest hfound
      next iterator =>
        refine .ite (.pure trivial) ?_
        have hiterator : iterator.In L := ho iterator rfl
        exact (Says.joinEach fun t ht => spells_nextOf hnode (hiterator.of_mem_toList ht)).bind
          fun v hv => ih hrest (hfound.join hv)

theorem spells_iterate {v : TypeSet} (hv : v.In L) : Spells R (iterate f node v) :=
  .ite (.pure trivial) (spells_iterateTags hnode (fun _ ht => hv.of_mem_toList ht) in_bottom)

end Calls

variable {span : Span}

theorem yields_hintContainer (hspan : span ∈ L.spans) {part : Nat} (hpart : part ≤ 255) {kind : ObjKind}
    (hkind : kind.In L) {keys contents : TypeSet} (hkeys : keys.In L) (hcontents : contents.In L) :
    Yields R (hintContainer f span part kind keys contents) fun v => v.1.In L ∧ v.2 ≤ 255 := by
  have hr : HeapRef.In L ⟨{ span, scope := f.unit.scope, part }, kind⟩ :=
    ⟨⟨hspan, R.ownScope, nofun, R.part hpart⟩, hkind⟩
  unfold hintContainer
  extract_lets r finish
  have hfinish : Yields R (finish ⟨⟩) fun v => v.1.In L ∧ v.2 ≤ 255 :=
    (stays_writeElements hr hcontents).andThen (.pure ⟨in_object hr, Nat.min_le_left _ _⟩)
  exact .ite ((stays_writeKeys hr hkeys).andThen hfinish) hfinish

mutual

theorem yields_hintValue (hspan : span ∈ L.spans) : ∀ (part : Nat) (hint : Hint), part ≤ 255 → hint.In L →
    Yields R (hintValue f span part hint) fun v => v.1.In L ∧ v.2 ≤ 255
  | part, .named name, hpart, _ => by
    unfold hintValue
    exact .pure ⟨R.namedValue name, hpart⟩
  | part, .optional inner, hpart, .optional hinner => by
    unfold hintValue
    exact (yields_hintValue hspan part inner hpart hinner).bind fun v hv =>
      .pure ⟨hv.1.join (in_scalar _), hv.2⟩
  | part, .union options, hpart, .union hoptions => by
    unfold hintValue
    exact yields_hintValues hspan part options hpart hoptions
  | part, .bare kind, hpart, .bare hkind => by
    unfold hintValue
    exact yields_hintContainer hspan hpart hkind trivial trivial
  | part, .container kind keys contents, hpart, .container hkind => by
    unfold hintValue
    exact yields_hintContainer hspan hpart hkind (R.hintsInside keys) (R.hintsInside contents)

theorem yields_hintValues (hspan : span ∈ L.spans) : ∀ (part : Nat) (hints : List Hint), part ≤ 255 →
    (∀ h ∈ hints, h.In L) → Yields R (hintValues f span part hints) fun v => v.1.In L ∧ v.2 ≤ 255
  | part, [], hpart, _ => by
    unfold hintValues
    exact .pure ⟨in_bottom, hpart⟩
  | part, hint :: rest, hpart, hhints => by
    unfold hintValues
    refine (yields_hintValue hspan part hint hpart (hhints hint (by simp))).bind fun v hv => ?_
    refine (yields_hintValues hspan v.2 rest hv.2 fun h hh => hhints h (by simp [hh])).bind fun w hw => ?_
    exact .pure ⟨hv.1.join hw.1, hw.2⟩

end

section Operators

theorem stays_copyEntries {into source : HeapRef} (hinto : into.In L) : Stays R (copyEntries f into source) := by
  unfold copyEntries
  extract_lets finish
  have hfinish : Stays R (finish ⟨⟩) :=
    (spells_readSlot _).bind fun v hv => stays_writeElements hinto hv
  refine .ite ?_ hfinish
  exact (spells_readSlot _).bind fun v hv => (stays_writeKeys hinto hv).andThen hfinish

variable {node : NodeId} (hnode : node ∈ L.numbers)
include hnode

section Pair

variable {l r : TypeTag} (hl : l.In L) (hr : r.In L)
include hl hr

theorem spells_binaryMethod (op : BinaryOp) (cls : ClassId) (method : String) :
    Spells R (binaryMethod f node op l r cls method) := by
  have hargs : ∀ {t : TypeTag}, t.In L → CallArgs.In L { positional := [.single t] } := fun ht =>
    .ofPositional fun v hv => mem_singleton.1 hv ▸ in_single.2 ht
  unfold binaryMethod
  refine .ite ?_ (spells_callSpecial hnode cls hr method (hargs hl))
  refine (yields_callSpecial? hnode cls hl method (hargs hr)).bind fun o ho => ?_
  cases o with
  | some v => exact .pure (ho v rfl)
  | none =>
    split
    next h => cases h
    next => exact spells_callSpecial hnode _ hr _ (hargs hl)
    next => exact .pure in_bottom

theorem spells_binaryTags (op : BinaryOp) : Spells R (binaryTags f node op l r) := by
  have houtcome := TypeTag.in_binary hl hr op
  unfold binaryTags
  split
  next v hv =>
    rw [hv] at houtcome
    exact .pure houtcome
  next kind hkind =>
    rw [hkind] at houtcome
    have hobj : (f.alloc node kind).In L := R.alloc node kind houtcome (Nat.zero_le _)
    exact (Says.forM fun _ _ => stays_copyEntries hobj).andThen (.pure (in_object hobj))
  next source hsource =>
    rw [hsource] at houtcome
    exact (spells_readSlot _).bind fun v hv => spells_fresh node _ houtcome.kind hv (Nat.zero_le 255)
  next => exact spells_binaryMethod hnode hl hr op _ _
  next => exact .pure in_bottom

end Pair

omit hnode in
theorem in_of_mem_operands {v : TypeSet} (hv : v.In L) {t : TypeTag} (ht : t ∈ operands v) : t.In L :=
  hv.of_mem_toList (mem_of_mem_filter ht)

variable {operand : TypeSet} (hoperand : operand.In L)
include hoperand

theorem spells_binary (op : BinaryOp) {left : TypeSet} (hleft : left.In L) :
    Spells R (binary f node op left operand) :=
  .ite (.pure trivial) (.joinEach fun _ hl => .joinEach fun _ hr =>
    spells_binaryTags hnode (in_of_mem_operands hleft hl) (in_of_mem_operands hoperand hr) op)

theorem spells_unary (op : UnaryOp) : Spells R (unary f node op operand) := by
  refine .ite (.pure ?_) (.joinEach fun t ht => ?_)
  · split
    · exact in_scalar _
    · trivial
  · have houtcome := TypeTag.in_unary op t (L := L)
    split
    next v hv =>
      rw [hv] at houtcome
      exact .pure houtcome
    next => exact spells_callSpecial hnode _ (in_of_mem_operands hoperand ht) _ CallArgs.in_empty
    next => exact .pure in_bottom

theorem stays_updateInPlace? {op : BinaryOp} {t : TypeTag} (ht : t.In L) {update : Eval Unit}
    (h : updateInPlace? f node op operand t = some update) : Stays R update := by
  have helements : ∀ {site : AllocSite}, site.In L → Stays R (do
      writeSlot f (.element site) (← elements f operand)) := fun hsite =>
    (spells_elements hoperand).bind fun v hv => stays_writeHeap (l := .element _) rfl hsite hv
  unfold updateInPlace? at h
  split at h
  · cases h
    exact (spells_iterate hnode hoperand).bind fun v hv => stays_writeHeap (l := .element _) rfl ht.site hv
  any_goals
    cases h
    exact helements ht.site
  · cases h
    refine .forM fun source _ => ?_
    refine (spells_readSlot _).bind fun keys hkeys => (spells_readSlot _).bind fun values hvalues => ?_
    exact (stays_writeHeap (l := .key _) rfl ht.site hkeys).andThen
      (stays_writeHeap (l := .element _) rfl ht.site hvalues)
  · cases h

theorem yields_updateTags (op : BinaryOp) {tags : List TypeTag} (htags : ∀ t ∈ tags, t.In L) :
    Yields R (updateTags f node op operand tags) fun others => ∀ t ∈ others, t.In L := by
  induction tags with
  | nil => exact .pure nofun
  | cons t tags ih =>
    have ht := htags t (by simp)
    have hrest := ih fun t ht => htags t (by simp [ht])
    unfold updateTags
    split
    next update h => exact (stays_updateInPlace? hnode hoperand ht h).andThen hrest
    next => exact hrest.bind fun others hothers => .pure (forall_mem_cons.2 ⟨ht, hothers⟩)

theorem spells_augment (op : BinaryOp) {current : TypeSet} (hcurrent : current.In L) :
    Spells R (augment f node op current operand) := by
  refine .ite (.pure trivial) ?_
  have htags : ∀ t ∈ current.toList, t.In L := fun t ht => hcurrent.of_mem_toList ht
  refine (yields_updateTags hnode hoperand op htags).bind fun others hothers => ?_
  refine (spells_binary hnode hoperand op (in_ofList.2 hothers)).bind fun v hv => ?_
  exact .pure (TypeSet.In.join (in_ofList.2 fun t ht => htags t (mem_of_mem_filter ht)) hv)

end Operators

section Attributes

variable {attr : String} (hattr : attr ∈ L.words)
include hattr

theorem spells_classAttr (node : NodeId) (cls : ClassId) {receiver : Option TypeTag}
    (hreceiver : ∀ t ∈ receiver, t ∈ L.receivers ∧ t.In L) : Spells R (classAttr f node cls attr receiver) := by
  refine .withState (fun _ _ => rfl) fun s hs => ?_
  split
  next v hv =>
    obtain ⟨c, -, hc⟩ := exists_of_findSome?_eq_some hv
    exact .pure (R.attributeIn? hs hattr hreceiver hc)
  next => exact .ite (spells_giveUp node _) (.pure in_bottom)

omit hattr in
theorem spells_moduleAttr (node : NodeId) (module attr : String) : Spells R (moduleAttr f node module attr) := by
  unfold moduleAttr
  split
  next => exact (spells_readSlot _).bind fun v hv => .pure (hv.without _)
  next name hname => exact .pure (in_single.2 (R.submodule hname))
  next => exact spells_giveUp node _

theorem spells_tagAttr (node : NodeId) {t : TypeTag} (ht : t.In L) : Spells R (tagAttr f node attr t) := by
  have hmethod : t.isMethod = false → Spells R (pure (.single (.method t attr))) := fun hflat =>
    .pure (in_single.2 ⟨R.receiver hflat, ht, hattr⟩)
  unfold tagAttr
  split
  · refine (spells_readSlot _).bind fun own hown => ?_
    refine (spells_classAttr hattr node _ fun t' ht' => ?_).bind fun v hv => .pure (hown.join hv)
    exact mem_some.1 ht' ▸ ⟨R.receiver rfl, ht⟩
  any_goals exact hmethod rfl
  any_goals exact spells_giveUp node _
  any_goals exact .pure in_bottom
  · exact spells_classAttr hattr node _ nofun
  · exact spells_moduleAttr node _ attr

theorem spells_loadAttr (node : NodeId) {receiver : TypeSet} (hreceiver : receiver.In L) :
    Spells R (loadAttr f node receiver attr) :=
  .ite (.pure trivial) (.joinEach fun _ ht => spells_tagAttr hattr node (hreceiver.of_mem_toList ht))

end Attributes

section Subscripts

variable {node : NodeId} (hnode : node ∈ L.numbers) (isSlice : Bool) {index : TypeSet} (hindex : index.In L)
include hnode hindex

theorem spells_objectItem {r : HeapRef} (hr : r.In L) : Spells R (objectItem f node isSlice index r) := by
  have hobject : (TypeTag.object r).In L := hr
  unfold objectItem
  split
  · refine spells_callSpecial hnode _ hobject _ (.ofPositional fun v hv => ?_)
    exact mem_singleton.1 hv ▸ hindex
  · exact spells_readSlot _
  · exact .pure in_bottom
  · exact (spells_readSlot _).bind fun contents hcontents =>
      .ite (spells_fresh node _ hr.kind hcontents (Nat.zero_le _)) (.pure hcontents)

theorem spells_tagItem {t : TypeTag} (ht : t.In L) : Spells R (tagItem f node isSlice index t) := by
  unfold tagItem
  split
  · exact spells_objectItem hnode isSlice hindex ht
  · exact .pure (in_scalar _)
  · refine .pure (in_single.2 ?_)
    split <;> trivial
  · exact .pure (in_single.2 ht)
  · exact .pure (in_single.2 ht)
  · exact .pure in_bottom

theorem spells_loadItem {container : TypeSet} (hcontainer : container.In L) :
    Spells R (loadItem f node isSlice index container) :=
  .ite (.pure trivial) (.joinEach fun _ ht => spells_tagItem hnode isSlice hindex (hcontainer.of_mem_toList ht))

variable {v : TypeSet} (hv : v.In L)
include hv

theorem stays_storeObjectItem {r : HeapRef} (hr : r.In L) : Stays R (storeObjectItem f node isSlice index v r) := by
  have hsequence : Stays R (do
      writeSlot f r.elements (← if isSlice then iterate f node v else pure v)) :=
    .ite ((spells_iterate hnode hv).bind fun w hw => stays_writeElements hr hw)
      ((Says.pure hv).bind fun w hw => stays_writeElements hr hw)
  have hobject : (TypeTag.object r).In L := hr
  unfold storeObjectItem
  split
  · refine (yields_callSpecial? hnode _ hobject _ (.ofPositional fun w hw => ?_)).discard
    rcases mem_cons.1 hw with rfl | hw
    · exact hindex
    · exact mem_singleton.1 hw ▸ hv
  · exact (stays_writeKeys hr hindex).andThen (stays_writeElements hr hv)
  · exact hsequence
  · exact hsequence
  · exact .pure trivial
  · exact .pure trivial

theorem stays_storeItem {container : TypeSet} (hcontainer : container.In L) :
    Stays R (storeItem f node isSlice index container v) :=
  .forM fun _ hr => stays_storeObjectItem hnode isSlice hindex hv (hcontainer.of_mem_objects hr)

end Subscripts

end Eval
end PointsTo