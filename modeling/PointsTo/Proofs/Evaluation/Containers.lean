import Mathlib.Data.List.Forall2
import PointsTo.Evaluation.Callee
import PointsTo.Proofs.Evaluation.Scalar

/-! # Methods of containers are monotone

A method of a container sees the heap slot by slot. On larger arguments and larger slots its call gives a larger
result and leaves larger slots behind: whatever it writes depends monotonically on what it has read, and which objects
it allocates depends on its name alone. Apart from those objects it writes only to its receiver. -/

namespace PointsTo

open List TypeSet AbstractState

namespace TypeSet

theorem bottom_le (v : TypeSet) : bottom ≤ v := le_iff_holds.2 fun _ hx => absurd hx not_holds_bottom

theorem flatMap_mono {v w : TypeSet} {g g' : TypeTag → TypeSet} (h : v ≤ w) (hg : ∀ t, g t ≤ g' t) :
    v.flatMap g ≤ w.flatMap g' := by
  refine le_iff_holds.2 fun x hx => ?_
  by_cases hw : w.isTop = true
  · cases w with
    | top => exact holds_flatMap.2 (.inl rfl)
    | tags s => cases hw
  · rcases holds_flatMap.1 hx with rfl | ⟨t, ht, hx⟩
    · exact absurd (isTop_of_le h (by simpa using hw)) nofun
    · exact holds_flatMap.2 (.inr ⟨t, toList_subset h (by simpa using hw) ht, le_iff_holds.1 (hg t) x hx⟩)

end TypeSet

/-- The slots of an object that its own methods write. -/
def HeapRef.slots (r : HeapRef) : List Location := [r.elements, r.keys]

namespace ContainerMethod

/-- The objects that a call allocates, in order. -/
def allocations (name : String) : ContainerMethod → List (ObjKind × Nat)
  | .listCopy => [(.list, 0)]
  | .setAlgebra => if name == "symmetric_difference_update" then [] else [(.set, 0)]
  | .popItem => [(.tuple, 0)]
  | .dictViews =>
    if name == "copy" then [(.dict, 0)]
    else if name == "items" then [(.builtin "dict_items", 0), (.tuple, 1)]
    else [(.builtin ("dict_" ++ name), 0)]
  | _ => []

end ContainerMethod

/-- A heap that is seen slot by slot: a slot grows by what is written to it. -/
structure SlotHeap (σ : Type) where
  access : HeapAccess (StateM σ)
  /-- What a slot holds. -/
  slot : σ → Location → TypeSet
  /-- What iteration over a tag yields, given what the slots hold. -/
  items : (Location → TypeSet) → TypeTag → TypeSet
  /-- What of a value is written. -/
  stored : TypeSet → TypeSet
  /-- Whether so many objects may have been allocated. -/
  Counts : σ → Nat → Prop
  /-- The object that is allocated after so many others. -/
  object : Nat → ObjKind → Nat → HeapRef
  items_mono : ∀ {c d : Location → TypeSet}, (∀ l, c l ≤ d l) → ∀ t, items c t ≤ items d t
  stored_mono : ∀ {v w : TypeSet}, v ≤ w → stored v ≤ stored w
  run_read : ∀ l s, (access.read l).run s = (slot s l, s)
  run_elementsOf : ∀ v s, (access.elementsOf v).run s = (v.flatMap (items (slot s)), s)
  run_allocate : ∀ {s n}, Counts s n → ∀ kind part, ∃ s', (access.allocate kind part).run s = (object n kind part, s') ∧
    slot s' = slot s ∧ Counts s' (n + 1)
  run_write : ∀ {s n}, Counts s n → ∀ {r : HeapRef} {l}, l ∈ r.slots → ∀ v, ∃ s', (access.write l v).run s = ((), s') ∧
    (∀ m x, (slot s' m).Holds x ↔ (slot s m).Holds x ∨ (l = m ∧ (stored v).Holds x)) ∧ Counts s' n

namespace SlotHeap

variable {σ : Type} (H : SlotHeap σ)

/-- What a call may write to: its receiver and the objects that it allocates itself, one after the other. -/
def atHand (receiver : HeapRef) (n : Nat) (made : List (ObjKind × Nat)) : List HeapRef :=
  receiver :: made.mapIdx fun i m => H.object (n + i) m.1 m.2

theorem object_mem_atHand {receiver : HeapRef} {n i part : Nat} {made : List (ObjKind × Nat)} {kind : ObjKind}
    (h : made[i]? = some (kind, part)) : H.object (n + i) kind part ∈ H.atHand receiver n made := by
  refine .tail _ (mem_of_getElem? (i := i) ?_)
  rw [getElem?_mapIdx, h]
  rfl

/-- As many objects have been allocated in one heap as in the other, whose slots hold more. -/
structure Below (n : Nat) (s t : σ) : Prop where
  left : H.Counts s n
  right : H.Counts t n
  le : ∀ l, H.slot s l ≤ H.slot t l

/-- Of two outcomes, the first one started from the given heap: the results are related, the slots of the second heap
hold more, and in the first one only slots of the objects at hand have changed. -/
structure AgreeAt (owned : List HeapRef) (n : Nat) {α : Type} (R : α → α → Prop) (s : σ) (x y : α × σ) : Prop where
  result : R x.1 y.1
  below : H.Below n x.2 y.2
  kept : ∀ l, (∀ r ∈ owned, l ∉ r.slots) → H.slot x.2 l = H.slot s l

/-- Such are the outcomes of two actions on a heap and on one above it. -/
def Agree (owned : List HeapRef) (n n' : Nat) {α : Type} (R : α → α → Prop) (act act' : StateM σ α) : Prop :=
  ∀ s t, H.Below n s t → H.AgreeAt owned n' R s (act.run s) (act'.run t)

variable {H} {owned : List HeapRef} {n n' n'' : Nat} {α β : Type} {R : α → α → Prop} {R' : β → β → Prop}

namespace Agree

theorem pure {a b : α} (h : R a b) : H.Agree owned n n R (pure a) (pure b) :=
  fun _ _ hst => ⟨h, hst, fun _ _ => rfl⟩

theorem bind {act act' : StateM σ α} {next next' : α → StateM σ β} (h : H.Agree owned n n' R act act')
    (h' : ∀ a b, R a b → H.Agree owned n' n'' R' (next a) (next' b)) :
    H.Agree owned n n'' R' (act >>= next) (act' >>= next') := by
  intro s t hst
  have hact := h s t hst
  have hnext := h' _ _ hact.result _ _ hact.below
  exact ⟨hnext.result, hnext.below, fun l hl => (hnext.kept l hl).trans (hact.kept l hl)⟩

theorem andThen {act act' : StateM σ Unit} {next next' : Unit → StateM σ β} {R : Unit → Unit → Prop}
    (h : H.Agree owned n n' R act act') (h' : H.Agree owned n' n'' R' (next ()) (next' ())) :
    H.Agree owned n n'' R' (act >>= next) (act' >>= next') := h.bind fun _ _ _ => h'

theorem ite {c : Prop} [Decidable c] {act act' next next' : StateM σ α} (h : c → H.Agree owned n n' R act act')
    (h' : ¬c → H.Agree owned n n' R next next') :
    H.Agree owned n n' R (if c then act else next) (if c then act' else next') := by
  split
  next hc => exact h hc
  next hc => exact h' hc

theorem read (l : Location) : H.Agree owned n n (· ≤ ·) (H.access.read l) (H.access.read l) := by
  intro s t hst
  rw [H.run_read, H.run_read]
  exact ⟨hst.le l, hst, fun _ _ => rfl⟩

theorem elementsOf {v w : TypeSet} (h : v ≤ w) :
    H.Agree owned n n (· ≤ ·) (H.access.elementsOf v) (H.access.elementsOf w) := by
  intro s t hst
  rw [H.run_elementsOf, H.run_elementsOf]
  exact ⟨TypeSet.flatMap_mono h (H.items_mono hst.le), hst, fun _ _ => rfl⟩

theorem write {r : HeapRef} (hr : r ∈ owned) {l : Location} (hl : l ∈ r.slots) {v w : TypeSet} (h : v ≤ w) :
    H.Agree owned n n (fun _ _ => True) (H.access.write l v) (H.access.write l w) := by
  intro s t hst
  obtain ⟨s', hs', hslots, hcount⟩ := H.run_write hst.left hl v
  obtain ⟨t', ht', hslots', hcount'⟩ := H.run_write hst.right hl w
  rw [hs', ht']
  refine ⟨trivial, ⟨hcount, hcount', fun m => TypeSet.le_iff_holds.2 fun x hx => ?_⟩, fun m hm => ?_⟩
  · exact (hslots' m x).2 (((hslots m x).1 hx).imp (TypeSet.le_iff_holds.1 (hst.le m) x)
      (And.imp id (TypeSet.le_iff_holds.1 (H.stored_mono h) x)))
  · have hne : l ≠ m := fun heq => hm r hr (heq ▸ hl)
    exact ext_holds fun x => (hslots m x).trans (or_iff_left fun hx => hne hx.1)

theorem allocate (kind : ObjKind) (part : Nat) {next next' : HeapRef → StateM σ β}
    (h : H.Agree owned (n + 1) n' R' (next (H.object n kind part)) (next' (H.object n kind part))) :
    H.Agree owned n n' R' (H.access.allocate kind part >>= next) (H.access.allocate kind part >>= next') := by
  have hobject : H.Agree owned n (n + 1) (fun a b => a = H.object n kind part ∧ b = H.object n kind part)
      (H.access.allocate kind part) (H.access.allocate kind part) := by
    intro s t hst
    obtain ⟨s', hs', hslots, hcount⟩ := H.run_allocate hst.left kind part
    obtain ⟨t', ht', hslots', hcount'⟩ := H.run_allocate hst.right kind part
    rw [hs', ht']
    exact ⟨⟨rfl, rfl⟩, ⟨hcount, hcount', fun l => hslots ▸ hslots' ▸ hst.le l⟩, fun l _ => hslots ▸ rfl⟩
  exact hobject.bind fun a b hab => by rw [hab.1, hab.2]; exact h

end Agree
end SlotHeap

theorem rel_getElem? {xs ys : List TypeSet} (h : List.Forall₂ (· ≤ ·) xs ys) (i : Nat) :
    Option.Rel (· ≤ ·) xs[i]? ys[i]? := by
  induction h generalizing i with
  | nil => exact .none
  | cons h _ ih =>
    cases i with
    | zero => exact .some h
    | succ i => exact ih i

theorem rel_getD {o o' : Option TypeSet} (h : Option.Rel (· ≤ ·) o o') (v : TypeSet) : o.getD v ≤ o'.getD v := by
  cases h with
  | some h => exact h
  | none => exact le_refl v

namespace ContainerMethod

variable {σ : Type} {H : SlotHeap σ} {owned : List HeapRef} {n : Nat}

/-! ## What methods do -/

theorem agree_fresh (kind : ObjKind) (hmade : H.object n kind 0 ∈ owned) {v w : TypeSet} (h : v ≤ w) :
    H.Agree owned n (n + 1) (· ≤ ·) (fresh H.access kind v) (fresh H.access kind w) :=
  .allocate kind 0 (.andThen (.write hmade (.head _) h) (.pure (le_refl _)))

theorem agree_entriesOf (t : TypeTag) :
    H.Agree owned n n (· ≤ ·) (entriesOf H.access t) (entriesOf H.access t) := by
  have hpairs : H.Agree owned n n (· ≤ ·)
      (do let items ← H.access.elementsOf (← H.access.elementsOf (.single t)); pure (items, items))
      (do let items ← H.access.elementsOf (← H.access.elementsOf (.single t)); pure (items, items)) :=
    .bind (.elementsOf (le_refl _)) fun _ _ h => .bind (.elementsOf h) fun _ _ h => .pure ⟨h, h⟩
  unfold entriesOf
  split
  · exact .ite (fun _ => .bind (.read _) fun _ _ hkeys => .bind (.read _) fun _ _ hvalues => .pure ⟨hkeys, hvalues⟩)
      fun _ => hpairs
  · exact hpairs

theorem run_entriesOf (t : TypeTag) (s : σ) : ((entriesOf H.access t).run s).2 = s := by
  unfold entriesOf
  split
  · split
    · simp only [StateT.run_bind, H.run_read]
      rfl
    · simp only [StateT.run_bind, H.run_elementsOf]
      rfl
  · simp only [StateT.run_bind, H.run_elementsOf]
    rfl

theorem run_joinEntries (acc : TypeSet × TypeSet) (tags : List TypeTag) (s : σ) :
    ∃ e, (joinEntries H.access acc tags).run s = (e, s) ∧
      ∀ c, e ≤ c ↔ acc ≤ c ∧ ∀ t ∈ tags, ((entriesOf H.access t).run s).1 ≤ c := by
  induction tags generalizing acc with
  | nil => exact ⟨acc, rfl, fun c => by simp⟩
  | cons t tags ih =>
    obtain ⟨keys, values⟩ := acc
    obtain ⟨e, he, hle⟩ := ih
      (keys.join ((entriesOf H.access t).run s).1.1, values.join ((entriesOf H.access t).run s).1.2)
    refine ⟨e, ?_, fun c => ?_⟩
    · have hstep : (joinEntries H.access (keys, values) (t :: tags)).run s =
          (joinEntries H.access (keys.join ((entriesOf H.access t).run s).1.1,
            values.join ((entriesOf H.access t).run s).1.2) tags).run ((entriesOf H.access t).run s).2 := rfl
      rw [hstep, run_entriesOf, he]
    · rw [hle, forall_mem_cons, ← and_assoc, Prod.le_def, Prod.le_def, Prod.le_def, TypeSet.join_le_iff,
        TypeSet.join_le_iff, and_and_and_comm]

theorem agree_joinEntries {v w : TypeSet} (h : v ≤ w) :
    H.Agree owned n n (fun e e' => w.isTop = false → e ≤ e') (joinEntries H.access (.bottom, .bottom) v.toList)
      (joinEntries H.access (.bottom, .bottom) w.toList) := by
  intro s t hst
  obtain ⟨e, he, hle⟩ := run_joinEntries (H := H) (.bottom, .bottom) v.toList s
  obtain ⟨e', he', hle'⟩ := run_joinEntries (H := H) (.bottom, .bottom) w.toList t
  rw [he, he']
  refine ⟨fun hw => (hle e').2 ⟨⟨TypeSet.bottom_le _, TypeSet.bottom_le _⟩, fun tag htag => ?_⟩, hst, fun _ _ => rfl⟩
  have hentries : H.AgreeAt [] n (· ≤ ·) s ((entriesOf H.access tag).run s) ((entriesOf H.access tag).run t) :=
    agree_entriesOf tag s t hst
  exact hentries.result.trans (((hle' e').1 (le_refl _)).2 tag (TypeSet.toList_subset h hw htag))

theorem agree_writeSome {receiver : HeapRef} (hreceiver : receiver ∈ owned) {l : Location} (hl : l ∈ receiver.slots)
    {o o' : Option TypeSet} (h : Option.Rel (· ≤ ·) o o') :
    H.Agree owned n n (fun _ _ => True) (writeSome H.access l o) (writeSome H.access l o') := by
  cases h with
  | some h => exact .write hreceiver hl h
  | none => exact .pure trivial

section Arguments

variable {args args' : List TypeSet} (hargs : List.Forall₂ (· ≤ ·) args args')
include hargs

theorem agree_joinElements {acc acc' : TypeSet} (h : acc ≤ acc') :
    H.Agree owned n n (· ≤ ·) (joinElements H.access acc args) (joinElements H.access acc' args') := by
  induction hargs generalizing acc acc' with
  | nil => exact .pure h
  | cons harg _ ih => exact .bind (.elementsOf harg) fun _ _ helements => ih (join_mono h helements)

variable {receiver : HeapRef} (hreceiver : receiver ∈ owned)
include hreceiver

theorem agree_extendElements : H.Agree owned n n (fun _ _ => True) (extendElements H.access receiver args)
      (extendElements H.access receiver args') := by
  induction hargs with
  | nil => exact .pure trivial
  | cons harg _ ih => exact .bind (.elementsOf harg) fun _ _ h => .andThen (.write hreceiver (.head _) h) ih

theorem agree_updateEntries : H.Agree owned n n (fun _ _ => True) (updateEntries H.access receiver args)
      (updateEntries H.access receiver args') := by
  induction hargs with
  | nil => exact .pure trivial
  | @cons arg arg' _ _ harg _ ih =>
    refine .bind (agree_joinEntries harg) fun e e' he => ?_
    have hentries : (if arg.isTop then (.top, .top) else e : TypeSet × TypeSet) ≤
        if arg'.isTop then (.top, .top) else e' := by
      by_cases htop : arg'.isTop = true
      · rw [if_pos htop]
        exact ⟨TypeSet.le_top _, TypeSet.le_top _⟩
      · have htop := Bool.not_eq_true _ ▸ htop
        rw [TypeSet.isTop_of_le harg htop, htop]
        exact he htop
    exact .andThen (.write hreceiver (.tail _ (.head _)) hentries.1)
      (.andThen (.write hreceiver (.head _) hentries.2) ih)

end Arguments

/-! ## Whole calls -/

variable {receiver : HeapRef}

theorem agree_runViews (name : String) :
    H.Agree (H.atHand receiver n (allocations name .dictViews)) n (n + (allocations name .dictViews).length) (· ≤ ·)
      (runViews H.access receiver name) (runViews H.access receiver name) := by
  refine .bind (.read _) fun keys keys' hkeys => .bind (.read _) fun values values' hvalues =>
    .ite (fun hcopy => ?_) fun hcopy => .ite (fun hitems => ?_) fun hitems => ?_
  · rw [allocations, if_pos hcopy]
    have hmade : H.object n .dict 0 ∈ H.atHand receiver n [(.dict, 0)] := H.object_mem_atHand (i := 0) rfl
    exact .allocate .dict 0 (.andThen (.write hmade (.tail _ (.head _)) hkeys)
      (.andThen (.write hmade (.head _) hvalues) (.pure (le_refl _))))
  · rw [allocations, if_neg hcopy, if_pos hitems]
    exact .allocate _ 0 (.allocate .tuple 1
      (.andThen (.write (H.object_mem_atHand (i := 1) rfl) (.head _) (join_mono hkeys hvalues))
        (.andThen (.write (H.object_mem_atHand (i := 0) rfl) (.head _) (le_refl _)) (.pure (le_refl _)))))
  · rw [allocations, if_neg hcopy, if_neg hitems]
    refine agree_fresh _ (H.object_mem_atHand (i := 0) rfl) ?_
    split
    · exact hkeys
    · exact hvalues

variable {args args' : List TypeSet} (hargs : List.Forall₂ (· ≤ ·) args args')
include hargs

theorem agree_runAlgebra (name : String) :
    H.Agree (H.atHand receiver n (allocations name .setAlgebra)) n (n + (allocations name .setAlgebra).length) (· ≤ ·)
      (runAlgebra H.access receiver name args) (runAlgebra H.access receiver name args') := by
  refine .bind (.read _) fun own own' hown => ?_
  extract_lets grows finish
  have hfinish : ∀ v w, v ≤ w → H.Agree (H.atHand receiver n (allocations name .setAlgebra)) n
      (n + (allocations name .setAlgebra).length) (· ≤ ·) (finish v) (finish w) := by
    refine fun v w h => .ite (fun hname => ?_) fun hname => ?_
    · rw [allocations, if_pos hname]
      exact .andThen (.write (.head _) (.head _) h) (.pure (le_refl _))
    · rw [allocations, if_neg hname]
      exact agree_fresh .set (H.object_mem_atHand (i := 0) rfl) h
  exact .ite (fun _ => .bind (agree_joinElements hargs hown) hfinish) fun _ => .bind (.pure hown) hfinish

theorem agree_run (method : ContainerMethod) (name : String) :
    H.Agree (H.atHand receiver n (method.allocations name)) n (n + (method.allocations name).length) (· ≤ ·)
      (run H.access receiver method name args) (run H.access receiver method name args') := by
  have harg := rel_getElem? hargs
  cases method with
  | append | add => exact .andThen (agree_writeSome (.head _) (.head _) (harg 0)) (.pure (le_refl _))
  | insert => exact .andThen (agree_writeSome (.head _) (.head _) (harg 1)) (.pure (le_refl _))
  | extend | setUpdate => exact .andThen (agree_extendElements hargs (.head _)) (.pure (le_refl _))
  | listPop | setPop => exact .read _
  | listInPlace | setInPlace | dictClear | sequenceQuery | setPredicate => exact .pure (le_refl _)
  | listCopy =>
    exact .allocate .list 0 (.bind (.read _) fun _ _ h =>
      .andThen (.write (H.object_mem_atHand (i := 0) rfl) (.head _) h) (.pure (le_refl _)))
  | setAlgebra => exact agree_runAlgebra hargs name
  | dictUpdate => exact .andThen (agree_updateEntries hargs (.head _)) (.pure (le_refl _))
  | setDefault =>
    exact .andThen (agree_writeSome (.head _) (.tail _ (.head _)) (harg 0))
      (.andThen (.write (.head _) (.head _) (rel_getD (harg 1) _)) (.read _))
  | dictGet | dictPop =>
    exact .bind (.read _) fun _ _ h => .pure (join_mono h (rel_getD (harg 1) _))
  | popItem =>
    exact .allocate .tuple 0 (.bind (.read _) fun _ _ hkeys => .bind (.read _) fun _ _ hvalues =>
      .andThen (.write (H.object_mem_atHand (i := 0) rfl) (.head _) (join_mono hkeys hvalues))
        (.pure (le_refl _)))
  | dictViews => exact agree_runViews name

def made (receiver : HeapRef) (name : String) : List (ObjKind × Nat) :=
  (lookup? receiver.kind name).elim [] (allocations name)

variable (receiver) in
theorem agree_call? (name : String) :
    H.Agree (H.atHand receiver n (made receiver name)) n (n + (made receiver name).length) (Option.Rel (· ≤ ·))
      (call? H.access receiver name args) (call? H.access receiver name args') := by
  unfold call? made
  cases lookup? receiver.kind name with
  | some method => exact .bind (agree_run hargs method name) fun _ _ h => .pure (.some h)
  | none => exact .pure .none

end ContainerMethod

/-! ## The heaps of the program -/

theorem HeapRef.initial_of_mem_slots {r : HeapRef} {l : Location} (hl : l ∈ r.slots) : l.initial = .bottom := by
  rcases mem_pair.1 hl with rfl | rfl <;> rfl

/-- The plain heap counts the objects that it allocates. -/
def PlainHeap.slotHeap (site : Nat → AllocSite) : SlotHeap PlainHeap where
  access := access site
  slot h := h.state.read
  items c
    | .object r => c r.items
    | .str => .single .str
    | .bytes => .single .int
    | _ => .bottom
  stored v := v
  Counts h n := h.allocated = n
  object n kind part := ⟨(site (n + 1)).withPart part, kind⟩
  items_mono h t := by
    split
    · exact h _
    all_goals exact le_refl _
  stored_mono h := h
  run_read _ _ := rfl
  run_elementsOf _ _ := rfl
  run_allocate {s n} h kind part := ⟨{ s with allocated := n + 1 }, by subst h; rfl, rfl, rfl⟩
  run_write {s n} h {r l} hl v := by
    refine ⟨_, rfl, fun m x => ?_, h⟩
    change ((s.state.weakUpdate l v).read m).Holds x ↔ _
    rw [AbstractState.read, get?_weakUpdate, AbstractState.read]
    by_cases hm : l = m
    · subst hm
      simp [HeapRef.initial_of_mem_slots hl]
    · simp [hm]

theorem Frame.holds_value_weakUpdate (f : Frame) {r : HeapRef} {l : Location} (hl : l ∈ r.slots) (s : AbstractState)
    (v : TypeSet) (m : Location) (x : Option TypeTag) :
    (f.value (s.weakUpdate l v) m).Holds x ↔ (f.value s m).Holds x ∨ (l = m ∧ v.Holds x) := by
  by_cases hm : l = m
  · subst hm
    rcases mem_pair.1 hl with rfl | rfl
    all_goals
      simp only [Frame.value, HeapRef.elements, HeapRef.keys, get?_weakUpdate]
      simp [or_right_comm]
  · have hget : (s.weakUpdate l v).get? m = s.get? m := by rw [get?_weakUpdate, if_neg hm]
    simp [Frame.value, AbstractState.read, hget, hm]

/-- During evaluation, the objects that a call allocates belong to its node. -/
def Eval.slotHeap (f : Frame) (call : NodeId) : SlotHeap Machine where
  access := heapAccess f call
  slot m := f.value m.state
  items c
    | .object r => match r.kind with
      | .inst _ => .top
      | _ => c r.items
    | .str => .single .str
    | .bytes => .single .int
    | _ => .bottom
  stored v := v.without .unbound
  Counts _ _ := True
  object _ kind part := f.alloc call kind part
  items_mono h t := by
    split
    · split
      · exact le_refl _
      · exact h _
    all_goals exact le_refl _
  stored_mono h := without_mono h _
  run_read _ _ := rfl
  run_elementsOf _ _ := rfl
  run_allocate _ _ _ := ⟨_, rfl, rfl, trivial⟩
  run_write {s n} _ {r l} hl v := by
    have hvalue := f.holds_value_weakUpdate hl s.state (v.without .unbound)
    rcases mem_pair.1 hl with rfl | rfl <;> exact ⟨_, rfl, hvalue, trivial⟩

namespace ContainerMethod

/-- Neither the arguments nor the heap decide whether there is such a method. On larger arguments and a heap with
larger slots the result of a call and all slots that it leaves behind are larger, and it changes only elements and keys
of its receiver and of the objects that it allocates itself. This holds of the plain heap and of the heap that
evaluation works on. -/
theorem call?_monotone {args args' : List TypeSet} (hargs : List.Forall₂ (· ≤ ·) args args') (receiver : HeapRef)
    (name : String) : (∀ (site : Nat → AllocSite) (s t : PlainHeap), s.allocated = t.allocated →
      (∀ l, s.state.read l ≤ t.state.read l) →
      (PlainHeap.slotHeap site).AgreeAt ((PlainHeap.slotHeap site).atHand receiver s.allocated (made receiver name))
        (s.allocated + (made receiver name).length) (Option.Rel (· ≤ ·)) s
        ((call? (PlainHeap.access site) receiver name args).run s)
        ((call? (PlainHeap.access site) receiver name args').run t)) ∧
    ∀ (f : Frame) (call : NodeId) (s t : Machine), (∀ l, f.value s.state l ≤ f.value t.state l) →
      (Eval.slotHeap f call).AgreeAt ((Eval.slotHeap f call).atHand receiver 0 (made receiver name))
        (made receiver name).length (Option.Rel (· ≤ ·)) s
        ((call? (Eval.heapAccess f call) receiver name args).run s)
        ((call? (Eval.heapAccess f call) receiver name args').run t) := by
  refine ⟨fun site s t hcount hle => ?_, fun f call s t hle => ?_⟩
  · exact agree_call? (H := PlainHeap.slotHeap site) receiver hargs name s t ⟨rfl, hcount.symm, hle⟩
  · have h := agree_call? (H := Eval.slotHeap f call) (n := 0) receiver hargs name s t ⟨trivial, trivial, hle⟩
    rwa [Nat.zero_add] at h

def registry : HeapRef := ⟨{ span := default, scope := 0 }, .dict⟩

/-- The value of a missing key is written and read back. -/
theorem call?_monotone_on_registry :
    let site : Nat → AllocSite := fun n => { span := default, scope := n }
    let full : PlainHeap := { state := AbstractState.empty.set registry.elements (.single .bytes) }
    let small := (call? (PlainHeap.access site) registry "setdefault" [.single .str, .single .int]).run {}
    let large := (call? (PlainHeap.access site) registry "setdefault" [.single .str, .top]).run full
    small.1 = some (.single .int) ∧ large.1 = some .top ∧ Option.Rel (· ≤ ·) small.1 large.1 ∧
      (∀ l, small.2.state.read l ≤ large.2.state.read l) ∧
      ∀ l, l ∉ registry.slots → small.2.state.read l = AbstractState.empty.read l := by
  intro site full small large
  have hargs : List.Forall₂ (· ≤ ·) [TypeSet.single .str, .single .int] [TypeSet.single .str, .top] :=
    .cons (le_refl _) (.cons (TypeSet.le_top _) .nil)
  have hle : ∀ l, AbstractState.empty.read l ≤ full.state.read l := le_iff_read.1 (by decide +kernel)
  have h := (call?_monotone hargs registry "setdefault").1 site {} full rfl hle
  refine ⟨by decide +kernel, by decide +kernel, h.result, h.below.le, fun l hl => h.kept l fun r hr => ?_⟩
  have hmade : made registry "setdefault" = [] := by decide +kernel
  rw [hmade] at hr
  exact mem_singleton.1 hr ▸ hl

end ContainerMethod
end PointsTo
