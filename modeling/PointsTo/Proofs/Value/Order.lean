import PointsTo.Value.State
import Mathlib.Order.Bounds.Basic

/-! # The order of values and states

A value is known by what it holds: its tags, and whether it may be anything. Joins and the order are read
off from that. A state lies below another one if the other one has all its entries, and at each of them a
value that is not smaller; a location without an entry counts with its initial value. In this order the
join of states is their least upper bound, and two states that lie below each other are the same. -/

namespace PointsTo

open Std (ExtTreeMap)

section Search

variable {α β : Type} {cmp : α → α → Ordering} [Std.TransCmp cmp]

private theorem forIn_eq_all (p : α → Bool) (xs : List α) : (Id.run do
    for x in xs do
      if ¬p x then return false
    return true) = xs.all p := by
  induction xs with
  | nil => rfl
  | cons x xs ih =>
    cases h : p x
    · simp [h]
    · simpa [h] using ih

private theorem all_eq_forIn (m : ExtTreeMap α β cmp) (p : α → β → Bool) : m.all p = (Id.run do
      for e in m do
        if ¬p e.1 e.2 then return false
      return true) := by
  obtain ⟨⟨q⟩⟩ := m
  induction q using Quotient.ind with
  | _ m =>
    change Std.DTreeMap.Internal.Impl.all m.inner p = _
    unfold Std.DTreeMap.Internal.Impl.all
    simp only [Bool.not_eq_true]
    congr 1

private theorem forIn_eq_any (p : α → Bool) (xs : List α) : (Id.run do
    for x in xs do
      if p x then return true
    return false) = xs.any p := by
  induction xs with
  | nil => rfl
  | cons x xs ih =>
    cases h : p x
    · simpa [h] using ih
    · simp [h]

private theorem any_eq_forIn (m : ExtTreeMap α β cmp) (p : α → β → Bool) : m.any p = (Id.run do
      for e in m do
        if p e.1 e.2 then return true
      return false) := by
  obtain ⟨⟨q⟩⟩ := m
  induction q using Quotient.ind with
  | _ m =>
    change Std.DTreeMap.Internal.Impl.any m.inner p = _
    unfold Std.DTreeMap.Internal.Impl.any
    congr 1

variable [Std.LawfulEqCmp cmp]

theorem any_eq_true_iff {m : ExtTreeMap α β cmp} {p : α → β → Bool} :
    m.any p = true ↔ ∃ k v, m[k]? = some v ∧ p k v = true := by
  rw [any_eq_forIn, ExtTreeMap.forIn_eq_forIn_toList, forIn_eq_any (fun e => p e.1 e.2) m.toList,
    List.any_eq_true]
  constructor
  · rintro ⟨e, he, hp⟩
    exact ⟨e.1, e.2, ExtTreeMap.mem_toList_iff_getElem?_eq_some.1 he, hp⟩
  · rintro ⟨k, v, hk, hp⟩
    exact ⟨(k, v), ExtTreeMap.mem_toList_iff_getElem?_eq_some.2 hk, hp⟩

theorem all_eq_true_iff {m : ExtTreeMap α β cmp} {p : α → β → Bool} :
    m.all p = true ↔ ∀ k v, m[k]? = some v → p k v = true := by
  rw [all_eq_forIn, ExtTreeMap.forIn_eq_forIn_toList, forIn_eq_all (fun e => p e.1 e.2) m.toList,
    List.all_eq_true]
  constructor
  · exact fun h k v hk => h (k, v) (ExtTreeMap.mem_toList_iff_getElem?_eq_some.2 hk)
  · exact fun h e he => h e.1 e.2 (ExtTreeMap.mem_toList_iff_getElem?_eq_some.1 he)

theorem set_all_eq_true_iff {s : Std.ExtTreeSet α cmp} {p : α → Bool} : s.all p = true ↔ ∀ x ∈ s, p x = true := by
  change s.inner.all (fun x _ => p x) = true ↔ _
  rw [all_eq_true_iff]
  constructor
  · exact fun h x hx => h x () (ExtTreeMap.getElem?_eq_some_getElem hx)
  · exact fun h x _ hx => h x (ExtTreeMap.mem_iff_isSome_getElem?.2 (by simp [hx]))

end Search

namespace TypeSet

/-- What a value holds: a tag, or, without a tag, anything at all. -/
def Holds (v : TypeSet) : Option TypeTag → Prop
  | some t => t ∈ v
  | none => v = top

variable {v a b : TypeSet} {t : TypeTag} {x : Option TypeTag}

@[simp] theorem holds_some : v.Holds (some t) ↔ t ∈ v := Iff.rfl

@[simp] theorem holds_none : v.Holds none ↔ v = top := Iff.rfl

instance (v : TypeSet) (x : Option TypeTag) : Decidable (v.Holds x) :=
  match x with
  | some t => inferInstanceAs (Decidable (v.contains t = true))
  | none => inferInstanceAs (Decidable (v = top))

@[simp] theorem holds_top (x : Option TypeTag) : top.Holds x := by
  cases x <;> simp

theorem not_holds_bottom : ¬bottom.Holds x := by
  cases x <;> simp [bottom]

@[simp] theorem holds_single : (single t).Holds x ↔ x = some t := by
  cases x with
  | some u => simpa [single, ofList] using eq_comm
  | none => simp [single, ofList]

@[simp] theorem holds_join : (a.join b).Holds x ↔ a.Holds x ∨ b.Holds x := by
  cases x with
  | some t => simp
  | none => cases a <;> cases b <;> simp [join]

theorem holds_without (h : (v.without t).Holds x) : v.Holds x := by
  cases v with
  | top => exact holds_top x
  | tags s =>
    cases x with
    | some u =>
      have hu : u ∈ s.erase t := h
      exact (Std.ExtTreeSet.mem_erase.1 hu).2
    | none => simp [without] at h

theorem holds_without_of_ne (h : v.Holds x) (hx : x ≠ some t) : (v.without t).Holds x := by
  cases v with
  | top => exact holds_top x
  | tags s =>
    cases x with
    | none => cases h
    | some u =>
      have hne : t ≠ u := fun hne => hx (hne ▸ rfl)
      exact Std.ExtTreeSet.mem_erase.2 ⟨by simpa using hne, h⟩

theorem ext_holds (h : ∀ x, a.Holds x ↔ b.Holds x) : a = b := by
  cases a with
  | top => exact ((h none).1 rfl).symm
  | tags s =>
    cases b with
    | top => exact (h none).2 rfl
    | tags s' =>
      congr 1
      apply Std.ExtTreeSet.ext_mem
      exact fun t => h (some t)

@[simp] theorem bottom_join (v : TypeSet) : bottom.join v = v :=
  ext_holds fun x => by simp [not_holds_bottom]

instance : LE TypeSet := ⟨fun a b => a.le b = true⟩

instance (a b : TypeSet) : Decidable (a ≤ b) := inferInstanceAs (Decidable (a.le b = true))

theorem le_iff_holds : a ≤ b ↔ ∀ x, a.Holds x → b.Holds x := by
  change a.le b = true ↔ _
  cases b with
  | top => simp [le]
  | tags s' =>
    cases a with
    | top =>
      simp only [le, Bool.false_eq_true, false_iff]
      intro h
      cases h none rfl
    | tags s =>
      simp only [le, set_all_eq_true_iff]
      constructor
      · intro h x hx
        cases x with
        | some t => exact h t hx
        | none => cases hx
      · exact fun h t ht => h (some t) ht

instance : PartialOrder TypeSet where
  le_refl a := le_iff_holds.2 fun _ h => h
  le_trans a b c h h' := le_iff_holds.2 fun x hx => le_iff_holds.1 h' x (le_iff_holds.1 h x hx)
  le_antisymm a b h h' := ext_holds fun x => ⟨le_iff_holds.1 h x, le_iff_holds.1 h' x⟩

theorem join_le_iff {c : TypeSet} : a.join b ≤ c ↔ a ≤ c ∧ b ≤ c := by
  simp only [le_iff_holds, holds_join]
  constructor
  · exact fun h => ⟨fun x hx => h x (.inl hx), fun x hx => h x (.inr hx)⟩
  · rintro ⟨h, h'⟩ x (hx | hx)
    · exact h x hx
    · exact h' x hx

theorem holds_foldl_join {vs : List TypeSet} : (vs.foldl join v).Holds x ↔ v.Holds x ∨ ∃ w ∈ vs, w.Holds x := by
  induction vs generalizing v with
  | nil => simp
  | cons w vs ih => simp [ih, or_assoc]

theorem holds_joinAll {vs : List TypeSet} : (joinAll vs).Holds x ↔ ∃ v ∈ vs, v.Holds x := by
  rw [joinAll, holds_foldl_join, or_iff_right not_holds_bottom]

theorem holds_flatMap {g : TypeTag → TypeSet} :
    (v.flatMap g).Holds x ↔ v = top ∨ ∃ t ∈ v.toList, (g t).Holds x := by
  cases v with
  | top => simp [flatMap]
  | tags s =>
    change (s.foldl (fun acc t => acc.join (g t)) bottom).Holds x ↔ _
    rw [Std.ExtTreeSet.foldl_eq_foldl_toList, ← List.foldl_map, holds_foldl_join, or_iff_right not_holds_bottom]
    simp [toList]

end TypeSet

/-- Before it is written, a location with a name holds at most that it is unbound. -/
theorem Location.eq_unbound_of_holds_initial {l : Location} {x : Option TypeTag} (hl : l ≠ .universal)
    (h : l.initial.Holds x) : x = some .unbound := by
  cases l with
  | var scope name => exact TypeSet.holds_single.1 h
  | universal => exact absurd rfl hl
  | _ => exact absurd h TypeSet.not_holds_bottom

namespace AbstractState

def Holds (s : AbstractState) (l : Location) (x : Option TypeTag) : Prop :=
  ∃ v, s.get? l = some v ∧ v.Holds x

variable {s : AbstractState} {l : Location} {x : Option TypeTag}

theorem holds_read (h : s.Holds l x) : (s.read l).Holds x := by
  obtain ⟨v, hv, hx⟩ := h
  simpa [read, hv] using hx

theorem not_holds_empty : ¬empty.Holds l x := by
  rintro ⟨v, hv, -⟩
  simp [empty, get?] at hv

theorem get?_set (s : AbstractState) (l m : Location) (v : TypeSet) :
    (s.set l v).get? m = if l = m then some v else s.get? m := by
  simp [set, get?, ExtTreeMap.getElem?_insert]

theorem get?_discardUnbound (s : AbstractState) (l m : Location) : (s.discardUnbound l).get? m =
      if l = m then (s.get? l).map (·.without .unbound) else s.get? m := by
  cases h : s.get? l with
  | some v => simp [discardUnbound, h, get?_set]
  | none =>
    have hsame : s.discardUnbound l = s := by simp [discardUnbound, h]
    rw [hsame]
    split
    next hl => rw [← hl, h, Option.map_none]
    next => rfl

theorem get?_weakUpdate (s : AbstractState) (l m : Location) (v : TypeSet) : (s.weakUpdate l v).get? m =
      if l = m then some (((s.get? l).getD .bottom).join v) else s.get? m := by
  unfold weakUpdate
  cases s.get? l with
  | some old => simp [get?, ExtTreeMap.getElem?_insert]
  | none => simp [get?, ExtTreeMap.getElem?_insert]

theorem holds_discardUnbound {m : Location} (h : (s.discardUnbound l).Holds m x) : s.Holds m x := by
  obtain ⟨v, hv, hx⟩ := h
  rw [get?_discardUnbound] at hv
  split at hv
  next hl =>
    obtain ⟨w, hw, rfl⟩ := Option.map_eq_some_iff.1 hv
    exact ⟨w, hl ▸ hw, TypeSet.holds_without hx⟩
  next => exact ⟨v, hv, hx⟩

theorem holds_discardUnbound_of_ne {m : Location} (h : s.Holds m x)
    (hx : x ≠ some .unbound) : (s.discardUnbound l).Holds m x := by
  obtain ⟨v, hv, hvx⟩ := h
  unfold Holds
  rw [get?_discardUnbound]
  split
  next hl => exact ⟨_, hl ▸ hv ▸ rfl, TypeSet.holds_without_of_ne hvx hx⟩
  next => exact ⟨v, hv, hvx⟩

theorem holds_weakUpdate {m : Location} {v : TypeSet} :
    (s.weakUpdate l v).Holds m x ↔ s.Holds m x ∨ (l = m ∧ v.Holds x) := by
  unfold Holds
  simp only [get?_weakUpdate]
  by_cases h : l = m
  · subst h
    cases s.get? l <;> simp
  · simp [h]

theorem isSome_get?_join {a b : AbstractState} :
    ((a.join b).get? l).isSome ↔ (a.get? l).isSome ∨ (b.get? l).isSome := by
  unfold join get?
  rw [ExtTreeMap.getElem?_union, ExtTreeMap.getElem?_map, ExtTreeMap.getElem?_map]
  cases a.slots[l]? <;> cases b.slots[l]? <;> simp

theorem read_join (a b : AbstractState) (l : Location) : (a.join b).read l = (a.read l).join (b.read l) := by
  have hself : ∀ v : TypeSet, v = v.join v := fun v => TypeSet.ext_holds fun x => by simp
  unfold join read get?
  rw [ExtTreeMap.getElem?_union, ExtTreeMap.getElem?_map, ExtTreeMap.getElem?_map]
  cases a.slots[l]? <;> cases b.slots[l]?
  · exact hself _
  all_goals simp

theorem le_iff_read {t : AbstractState} : s.le t = true ↔ ∀ l, s.read l ≤ t.read l := by
  rw [le, Bool.and_eq_true, all_eq_true_iff, all_eq_true_iff]
  constructor
  · rintro ⟨h, h'⟩ l
    cases hs : s.get? l with
    | some v => exact h l v hs
    | none =>
      cases ht : t.get? l with
      | some v => exact h' l v ht
      | none => simp [read, hs, ht]
  · exact fun h => ⟨fun l _ _ => h l, fun l _ _ => h l⟩

/-- Whether a state has all entries of another one, with values that are not smaller. -/
def entryLe (a b : AbstractState) : Bool :=
  (a.slots.all fun l _ => (b.get? l).isSome) && b.slots.all fun l v => (a.read l).le v

instance : LE AbstractState := ⟨fun a b => a.entryLe b = true⟩

instance (a b : AbstractState) : Decidable (a ≤ b) := inferInstanceAs (Decidable (a.entryLe b = true))

theorem le_iff {a b : AbstractState} : a ≤ b ↔ ∀ l, ((a.get? l).isSome → (b.get? l).isSome) ∧
      ((b.get? l).isSome → a.read l ≤ b.read l) := by
  change a.entryLe b = true ↔ _
  rw [entryLe, Bool.and_eq_true, all_eq_true_iff, all_eq_true_iff]
  constructor
  · rintro ⟨h, h'⟩ l
    constructor
    · intro hl
      obtain ⟨v, hv⟩ := Option.isSome_iff_exists.1 hl
      exact h l v hv
    · intro hl
      obtain ⟨v, hv⟩ := Option.isSome_iff_exists.1 hl
      have hread : b.read l = v := by simp [read, hv]
      exact hread ▸ h' l v hv
  · intro h
    constructor
    · intro l v hv
      exact (h l).1 (by simp [get?, hv])
    · intro l v hv
      have hread : b.read l = v := by simp [read, get?, hv]
      exact hread ▸ (h l).2 (by simp [get?, hv])

theorem read_eq_initial (h : ¬(s.get? l).isSome) : s.read l = l.initial := by
  rw [read, Option.not_isSome_iff_eq_none.1 h, Option.getD_none]

instance : PartialOrder AbstractState where
  le_refl a := le_iff.2 fun l => ⟨id, fun _ => le_refl _⟩
  le_trans a b c h h' := by
    rw [le_iff] at *
    intro l
    refine ⟨fun hl => (h' l).1 ((h l).1 hl), fun hl => ?_⟩
    by_cases hb : (b.get? l).isSome
    · exact ((h l).2 hb).trans ((h' l).2 hl)
    · have ha : ¬(a.get? l).isSome := fun ha => hb ((h l).1 ha)
      rw [read_eq_initial ha, ← read_eq_initial hb]
      exact (h' l).2 hl
  le_antisymm a b h h' := by
    rw [le_iff] at *
    have hslots : a.slots = b.slots := by
      apply ExtTreeMap.ext_getElem?
      intro l
      change a.get? l = b.get? l
      cases ha : a.get? l with
      | none =>
        cases hb : b.get? l with
        | none => rfl
        | some v => simpa [ha] using (h' l).1 (by simp [hb])
      | some v =>
        have hl := (h l).1 (by simp [ha])
        obtain ⟨w, hw⟩ := Option.isSome_iff_exists.1 hl
        have hread := le_antisymm ((h l).2 hl) ((h' l).2 (by simp [ha]))
        simpa [read, ha, hw] using hread
    cases a
    cases b
    simpa using hslots

theorem join_le_iff {a b c : AbstractState} : a.join b ≤ c ↔ a ≤ c ∧ b ≤ c := by
  simp only [le_iff, isSome_get?_join, read_join, TypeSet.join_le_iff]
  constructor
  · exact fun h => ⟨fun l => ⟨fun ha => (h l).1 (.inl ha), fun hc => ((h l).2 hc).1⟩,
      fun l => ⟨fun hb => (h l).1 (.inr hb), fun hc => ((h l).2 hc).2⟩⟩
  · rintro ⟨h, h'⟩ l
    exact ⟨fun hl => hl.elim (h l).1 (h' l).1, fun hc => ⟨(h l).2 hc, (h' l).2 hc⟩⟩

end AbstractState
end PointsTo
