import PointsTo.Evaluation.Operation
import PointsTo.Proofs.Value.Order

/-! # Scalars

A scalar has no parts and no methods of its own. An operator on scalars, a subscript or iteration reads no
state and changes none: its value is a function of the operands, and a monotone one. -/

namespace PointsTo

open TypeSet

def TypeTag.isScalar : TypeTag → Bool
  | .scalar _ => true
  | _ => false

namespace TypeSet

def isScalar : TypeSet → Bool
  | .top => true
  | .tags s => s.all (·.isScalar)

variable {v w : TypeSet} {α : Type}

theorem isScalar_iff : v.isScalar = true ↔ v = top ∨ ∀ t ∈ v, t.isScalar = true := by
  cases v with
  | top => simp [isScalar]
  | tags s =>
    rw [isScalar, set_all_eq_true_iff]
    simp only [reduceCtorEq, false_or]
    rfl

theorem isScalar_bottom : bottom.isScalar = true :=
  isScalar_iff.2 (.inr fun t h => absurd h (by simp [bottom]))

theorem isScalar_join (hv : v.isScalar = true) (hw : w.isScalar = true) : (v.join w).isScalar = true := by
  rw [isScalar_iff] at *
  rcases hv with rfl | hv
  · exact .inl rfl
  · rcases hw with rfl | hw
    · exact .inl (holds_none.1 (holds_join.2 (.inr rfl)))
    · exact .inr fun t ht => (mem_join.1 ht).elim (hv t) (hw t)

theorem isScalar_without (hv : v.isScalar = true) (t : TypeTag) : (v.without t).isScalar = true := by
  rw [isScalar_iff] at *
  rcases hv with rfl | hv
  · exact .inl rfl
  · exact .inr fun u hu => hv u (holds_without (x := some u) hu)

theorem without_mono (h : v ≤ w) (t : TypeTag) : v.without t ≤ w.without t := by
  rw [le_iff_holds] at *
  intro x hx
  cases w with
  | top => exact holds_top x
  | tags s' =>
    cases v with
    | top => cases h none rfl
    | tags s =>
      cases x with
      | none => cases hx
      | some u =>
        have hu : u ∈ s.erase t := hx
        have hu' := Std.ExtTreeSet.mem_erase.1 hu
        exact Std.ExtTreeSet.mem_erase.2 ⟨hu'.1, h (some u) hu'.2⟩

theorem join_mono {v' w' : TypeSet} (h : v ≤ w) (h' : v' ≤ w') : v.join v' ≤ w.join w' := by
  rw [le_iff_holds] at *
  intro x hx
  rw [holds_join] at hx ⊢
  exact hx.imp (h x) (h' x)

@[simp] theorem isScalar_ofList (ts : List TypeTag) : (ofList ts).isScalar = ts.all (·.isScalar) := by
  rw [Bool.eq_iff_iff, isScalar_iff, List.all_eq_true]
  simp [ofList]

def joinOn {α : Type} (g : α → TypeSet) (xs : List α) : TypeSet := xs.foldr (fun a v => (g a).join v) bottom

theorem holds_joinOn {g : α → TypeSet} {xs : List α} {x : Option TypeTag} :
    (joinOn g xs).Holds x ↔ ∃ a ∈ xs, (g a).Holds x := by
  induction xs with
  | nil => simp [joinOn, not_holds_bottom]
  | cons a xs ih =>
    change ((g a).join (joinOn g xs)).Holds x ↔ _
    rw [holds_join, ih]
    simp

theorem isScalar_joinOn {g : α → TypeSet} {xs : List α} (h : ∀ a ∈ xs, (g a).isScalar = true) :
    (joinOn g xs).isScalar = true := by
  induction xs with
  | nil => exact isScalar_bottom
  | cons a xs ih => exact isScalar_join (h a (by simp)) (ih fun b hb => h b (by simp [hb]))

theorem joinOn_mono {g g' : α → TypeSet} {xs ys : List α} (h : xs ⊆ ys) (hg : ∀ a, g a ≤ g' a) :
    joinOn g xs ≤ joinOn g' ys := by
  rw [le_iff_holds]
  intro x hx
  obtain ⟨a, ha, hx⟩ := holds_joinOn.1 hx
  exact holds_joinOn.2 ⟨a, h ha, le_iff_holds.1 (hg a) x hx⟩

theorem le_top (v : TypeSet) : v ≤ top := le_iff_holds.2 fun x _ => holds_top x

theorem isTop_of_le (h : v ≤ w) (hw : w.isTop = false) : v.isTop = false := by
  cases v with
  | tags s => rfl
  | top =>
    cases le_iff_holds.1 h none rfl
    cases hw

/-- The joined values of a function on the members of a value; anything gives anything. -/
def spread (g : TypeTag → TypeSet) (v : TypeSet) : TypeSet := if v.isTop then top else joinOn g v.toList

theorem toList_subset (h : v ≤ w) (hw : w.isTop = false) : v.toList ⊆ w.toList := by
  intro t ht
  cases v with
  | top => cases ht
  | tags s =>
    cases w with
    | top => cases hw
    | tags s' =>
      have hmem : t ∈ s' := le_iff_holds.1 h (some t) (Std.ExtTreeSet.mem_toList.1 ht)
      exact Std.ExtTreeSet.mem_toList.2 hmem

theorem spread_mono (g : TypeTag → TypeSet) (h : v ≤ w) : v.spread g ≤ w.spread g := by
  by_cases hw : w.isTop = true
  · have htop : w.spread g = top := if_pos hw
    exact htop ▸ le_top _
  · have hv := isTop_of_le h (Bool.not_eq_true _ ▸ hw)
    rw [spread, spread, if_neg hw, if_neg (by simp [hv])]
    exact joinOn_mono (toList_subset h (by simpa using hw)) fun t => le_refl _

theorem isScalar_of_mem_toList (hv : v.isScalar = true) {t : TypeTag} (ht : t ∈ v.toList) : ∃ s, t = .scalar s := by
  cases v with
  | top => cases ht
  | tags s =>
    have h := (isScalar_iff.1 hv).resolve_left nofun t (Std.ExtTreeSet.mem_toList.1 ht)
    cases t with
    | scalar s => exact ⟨s, rfl⟩
    | _ => cases h

theorem isScalar_spread {g : TypeTag → TypeSet} (hg : ∀ t, (g t).isScalar = true) (v : TypeSet) :
    (v.spread g).isScalar = true := by
  unfold spread
  split
  · rfl
  · exact isScalar_joinOn fun t _ => hg t

end TypeSet

open TypeSet (joinOn)

namespace Outcome

/-- What an operator gives if it is left to no method and makes no container. -/
def plain : Outcome → TypeSet
  | .tags v => v
  | _ => .bottom

def isScalar : Outcome → Bool
  | .tags v => v.isScalar
  | .raises => true
  | _ => false

theorem isScalar_plain {o : Outcome} (h : o.isScalar = true) : o.plain.isScalar = true := by
  cases o with
  | tags v => exact h
  | _ => exact TypeSet.isScalar_bottom

@[simp] theorem isScalar_tags (v : TypeSet) : (tags v).isScalar = v.isScalar := rfl

@[simp] theorem isScalar_raises : raises.isScalar = true := rfl

@[simp] theorem isScalar_single (t : TypeTag) : (single t).isScalar = t.isScalar := by
  simp [single, TypeSet.single]

end Outcome

namespace TypeTag

@[simp] theorem isScalar_scalar (s : Scalar) : (TypeTag.scalar s).isScalar = true := rfl

@[simp] theorem isScalar_ofNumericRank (n : Nat) : (ofNumericRank n).isScalar = true := by
  unfold ofNumericRank
  split <;> rfl

theorem isScalar_numericOutcome (op : BinaryOp) (l r : TypeTag) (rank : Nat) :
    (numericOutcome op l r rank).isScalar = true := by
  cases op <;> simp [numericOutcome, apply_ite Outcome.isScalar]

theorem isScalar_plainOutcome (op : BinaryOp) (l r : Scalar) :
    (plainOutcome op (.scalar l) (.scalar r)).isScalar = true := by
  cases op <;> cases l <;> try rfl
  all_goals cases r <;> rfl

theorem isScalar_binary (op : BinaryOp) (l r : Scalar) : (binary op (.scalar l) (.scalar r)).isScalar = true := by
  simp only [binary, instanceOf?]
  split
  · exact isScalar_numericOutcome ..
  · exact isScalar_plainOutcome ..

theorem isScalar_unary (op : UnaryOp) (s : Scalar) : (unary op (.scalar s)).isScalar = true := by
  cases op <;> cases s <;> rfl

def items : TypeTag → TypeSet
  | .str => .single .str
  | .bytes => .single .int
  | _ => .bottom

theorem isScalar_items (t : TypeTag) : t.items.isScalar = true := by
  unfold items
  split
  · rfl
  · rfl
  · exact TypeSet.isScalar_bottom

end TypeTag

/-! ## Operators on scalars -/

namespace Eval

variable (f : Frame) (node : NodeId)

theorem joinEach_pure {α : Type} {act : α → Eval TypeSet} {g : α → TypeSet} {xs : List α}
    (h : ∀ a ∈ xs, act a = pure (g a)) : joinEach act xs = pure (joinOn g xs) := by
  induction xs with
  | nil => rfl
  | cons a xs ih =>
    rw [joinEach, h a (by simp), ih fun b hb => h b (by simp [hb]), pure_bind, pure_bind]
    rfl

variable {v right operand : TypeSet}

theorem operands_subset {w : TypeSet} (h : v ≤ w) (hw : w.isTop = false) : operands v ⊆ operands w :=
  List.filter_subset _ (TypeSet.toList_subset h hw)

theorem isScalar_of_mem_operands (hv : v.isScalar = true) {t : TypeTag} (ht : t ∈ operands v) :
    ∃ s, t = .scalar s := TypeSet.isScalar_of_mem_toList hv (List.mem_filter.1 ht).1

theorem binaryTags_scalar (op : BinaryOp) (l r : Scalar) : binaryTags f node op (.scalar l) (.scalar r) =
      pure (TypeTag.binary op (.scalar l) (.scalar r)).plain := by
  have h := TypeTag.isScalar_binary op l r
  unfold binaryTags
  generalize TypeTag.binary op (.scalar l) (.scalar r) = o at h ⊢
  cases o with
  | tags v => rfl
  | raises => rfl
  | _ => cases h

def binaryValue (op : BinaryOp) (left right : TypeSet) : TypeSet :=
  if left.isTop || right.isTop then .top
  else joinOn (fun l => joinOn (fun r => (TypeTag.binary op l r).plain) (operands right))
    (operands left)

theorem binary_scalar (op : BinaryOp) {left : TypeSet} (hl : left.isScalar = true)
    (hr : right.isScalar = true) : binary f node op left right = pure (binaryValue op left right) := by
  unfold binary binaryValue
  split
  · rfl
  · refine joinEach_pure fun l hl' => joinEach_pure fun r hr' => ?_
    obtain ⟨l, rfl⟩ := isScalar_of_mem_operands hl hl'
    obtain ⟨r, rfl⟩ := isScalar_of_mem_operands hr hr'
    exact binaryTags_scalar f node op l r

theorem isScalar_binaryValue (op : BinaryOp) {left : TypeSet} (hl : left.isScalar = true)
    (hr : right.isScalar = true) : (binaryValue op left right).isScalar = true := by
  unfold binaryValue
  split
  · rfl
  · refine TypeSet.isScalar_joinOn fun l hl' => TypeSet.isScalar_joinOn fun r hr' => ?_
    obtain ⟨l, rfl⟩ := isScalar_of_mem_operands hl hl'
    obtain ⟨r, rfl⟩ := isScalar_of_mem_operands hr hr'
    exact Outcome.isScalar_plain (TypeTag.isScalar_binary op l r)

theorem binaryValue_mono (op : BinaryOp) {left left' right' : TypeSet} (hl : left ≤ left')
    (hr : right ≤ right') : binaryValue op left right ≤ binaryValue op left' right' := by
  by_cases h : (left'.isTop || right'.isTop) = true
  · have htop : binaryValue op left' right' = .top := if_pos h
    exact htop ▸ TypeSet.le_top _
  · obtain ⟨hl', hr'⟩ := Bool.or_eq_false_iff.1 (Bool.not_eq_true _ ▸ h)
    have hlow : ¬(left.isTop || right.isTop) = true := by
      simp [TypeSet.isTop_of_le hl hl', TypeSet.isTop_of_le hr hr']
    rw [binaryValue, binaryValue, if_neg hlow, if_neg h]
    refine TypeSet.joinOn_mono (operands_subset hl hl') fun l => ?_
    exact TypeSet.joinOn_mono (operands_subset hr hr') fun r => le_refl _

def unaryValue (op : UnaryOp) (operand : TypeSet) : TypeSet :=
  if operand.isTop then if op = .not then .single .bool else .top
  else joinOn (fun t => (TypeTag.unary op t).plain) (operands operand)

theorem unary_scalar (op : UnaryOp) (h : operand.isScalar = true) :
    unary f node op operand = pure (unaryValue op operand) := by
  unfold unary unaryValue
  split
  · rfl
  · refine joinEach_pure fun t ht => ?_
    obtain ⟨s, rfl⟩ := isScalar_of_mem_operands h ht
    have h := TypeTag.isScalar_unary op s
    generalize TypeTag.unary op (.scalar s) = o at h ⊢
    cases o with
    | tags v => rfl
    | raises => rfl
    | _ => cases h

theorem isScalar_unaryValue (op : UnaryOp) (h : operand.isScalar = true) :
    (unaryValue op operand).isScalar = true := by
  unfold unaryValue
  split
  · split <;> rfl
  · refine TypeSet.isScalar_joinOn fun t ht => ?_
    obtain ⟨s, rfl⟩ := isScalar_of_mem_operands h ht
    exact Outcome.isScalar_plain (TypeTag.isScalar_unary op s)

theorem unaryValue_mono (op : UnaryOp) {operand' : TypeSet} (h : operand ≤ operand') :
    unaryValue op operand ≤ unaryValue op operand' := by
  by_cases htop : operand'.isTop = true
  · by_cases hop : op = .not
    · -- Negation gives a truth value whatever it is applied to.
      subst hop
      rw [unaryValue, unaryValue, if_pos htop, if_pos rfl]
      split
      · exact le_refl _
      · rw [TypeSet.le_iff_holds]
        intro x hx
        obtain ⟨t, -, hx⟩ := TypeSet.holds_joinOn.1 hx
        exact hx
    · have hbig : unaryValue op operand' = .top := by rw [unaryValue, if_pos htop, if_neg hop]
      exact hbig ▸ TypeSet.le_top _
  · have hlow := TypeSet.isTop_of_le h (Bool.not_eq_true _ ▸ htop)
    rw [unaryValue, unaryValue, if_neg htop, if_neg (by simp [hlow])]
    exact TypeSet.joinOn_mono (operands_subset h (by simpa using htop)) fun t => le_refl _

theorem updateTags_scalar (op : BinaryOp) (operand : TypeSet) {ts : List TypeTag}
    (h : ∀ t ∈ ts, t.isScalar = true) : updateTags f node op operand ts = pure ts := by
  induction ts with
  | nil => rfl
  | cons t ts ih =>
    have ht := h t (by simp)
    cases t with
    | scalar s =>
      rw [updateTags]
      have hnone : updateInPlace? f node op operand (.scalar s) = none := by
        cases op <;> rfl
      rw [hnone]
      simp only [ih fun u hu => h u (by simp [hu])]
      rfl
    | _ => cases ht

theorem augment_scalar (op : BinaryOp) {current : TypeSet} (hc : current.isScalar = true)
    (ho : operand.isScalar = true) : augment f node op current operand = pure (binaryValue op current operand) := by
  unfold augment
  split
  next h =>
    rw [binaryValue, if_pos h]
  next h =>
    cases current with
    | top => simp [isTop] at h
    | tags s =>
      have hs : ∀ t ∈ s.toList, t.isScalar = true := fun t ht =>
        (TypeSet.isScalar_iff.1 hc).resolve_left nofun t (Std.ExtTreeSet.mem_toList.1 ht)
      have hsame : TypeSet.ofList s.toList = .tags s := ext_holds fun x => by
        cases x <;> simp [TypeSet.ofList]
      have hkept : s.toList.filter (fun t => (updateInPlace? f node op operand t).isSome) = [] := by
        rw [List.filter_eq_nil_iff]
        intro t ht
        have ht := hs t ht
        cases t with
        | scalar s => cases op <;> simp [updateInPlace?]
        | _ => cases ht
      simp only [TypeSet.toList, updateTags_scalar f node op operand hs, hkept, pure_bind, hsame,
        binary_scalar f node op hc ho]
      rw [show TypeSet.ofList [] = .bottom from rfl, bottom_join]

/-! ## Parts of scalars -/

theorem elements_scalar (s : Scalar) : elements f (.single (.scalar s)) = pure (TypeTag.items (.scalar s)) := by
  funext m
  cases s <;> rfl

theorem iterateTags_scalar (found : TypeSet) {ts : List TypeTag} (h : ∀ t ∈ ts, ∃ s, t = .scalar s) :
    iterateTags f node found ts = pure (found.join (joinOn TypeTag.items ts)) := by
  induction ts generalizing found with
  | nil =>
    have hfound : found.join (joinOn TypeTag.items []) = found :=
      ext_holds fun x => by simp [TypeSet.holds_joinOn]
    rw [hfound]
    rfl
  | cons t ts ih =>
    obtain ⟨s, rfl⟩ := h t (by simp)
    have hstep : iterateTags f node found (.scalar s :: ts) = (do
        let v ← elements f (.single (.scalar s))
        iterateTags f node (found.join v) ts) := rfl
    have hfound : found.join (joinOn TypeTag.items (.scalar s :: ts)) =
        (found.join (TypeTag.items (.scalar s))).join (joinOn TypeTag.items ts) :=
      ext_holds fun x => by simp [TypeSet.holds_joinOn, or_assoc]
    rw [hstep, elements_scalar, pure_bind, ih _ fun t ht => h t (by simp [ht]), hfound]

theorem iterate_scalar (h : v.isScalar = true) : iterate f node v = pure (v.spread TypeTag.items) := by
  unfold iterate TypeSet.spread
  split
  · rfl
  · rw [iterateTags_scalar f node _ fun t ht => TypeSet.isScalar_of_mem_toList h ht, bottom_join]

theorem loadItem_scalar (index : TypeSet) (h : v.isScalar = true) :
    loadItem f node false index v = pure (v.spread TypeTag.items) := by
  unfold loadItem TypeSet.spread
  split
  · rfl
  · refine joinEach_pure fun t ht => ?_
    obtain ⟨s, rfl⟩ := TypeSet.isScalar_of_mem_toList h ht
    cases s <;> rfl

end Eval
end PointsTo
