import PointsTo.Proofs.Value.Order

/-! # Accumulated states

A state fits another one if its entries are entries of the other one, with values that are not smaller.
Accumulating is the join in this order. It counts as growth only if a tag is new: an entry that comes in empty
is there afterwards, although nothing has grown. -/

namespace PointsTo

theorem TypeSet.joinGrows_eq_false_iff {v w : TypeSet} : v.joinGrows w = false ↔ w ≤ v := by
  rw [le_iff_holds]
  cases v with
  | top => simp [joinGrows]
  | tags a =>
    cases w with
    | top =>
      simp only [joinGrows, Bool.true_eq_false, false_iff]
      exact fun h => by cases h none rfl
    | tags b =>
      have hunion : (b ∪ a).size = (a ∪ b).size :=
        congrArg _ (Std.ExtTreeSet.ext_mem fun t => by simp [or_comm])
      have hsize : b.size + a.size = (b ∪ a).size + (b ∩ a).size :=
        Std.ExtTreeSet.size_add_size_eq_size_union_add_size_inter
      have hdiff : (b \ a).size + (b ∩ a).size = b.size :=
        Std.ExtTreeSet.size_diff_add_size_inter_eq_size_left
      have hgrows : joinGrows (.tags a) (.tags b) = false ↔ b \ a = ∅ := by
        rw [joinGrows, bne_eq_false_iff_eq, Std.ExtTreeSet.eq_empty_iff_size_eq_zero]
        omega
      rw [hgrows, Std.ExtTreeSet.eq_empty_iff_forall_not_mem]
      simp only [Std.ExtTreeSet.mem_diff_iff, not_and, not_not]
      constructor
      · intro h x hx
        cases x with
        | none => cases hx
        | some t => exact h t hx
      · exact fun h t ht => h (some t) ht

theorem TypeSet.isBottom_eq_true_iff {v : TypeSet} : v.isBottom = true ↔ ∀ x, ¬v.Holds x := by
  cases v with
  | top => simp [isBottom]
  | tags s =>
    rw [isBottom, Std.ExtTreeSet.isEmpty_iff]
    constructor
    · rintro rfl x
      exact not_holds_bottom
    · exact fun h => Std.ExtTreeSet.eq_empty_iff_forall_not_mem.2 fun t => h (some t)

namespace AbstractState

/-- All that a state holds is held by another one as well. -/
def Within (a b : AbstractState) : Prop := ∀ l x, a.Holds l x → b.Holds l x

variable {a b c : AbstractState} {l : Location}

theorem Within.trans (h : a.Within b) (h' : b.Within c) : a.Within c := fun l x hx => h' l x (h l x hx)

instance (a b : AbstractState) : Decidable (a.Within b) :=
  decidable_of_iff (a.slots.all (fun l v => v.le ((b.get? l).getD .bottom)) = true) <| by
    rw [all_eq_true_iff]
    constructor
    · rintro h l x ⟨v, hv, hx⟩
      have hx := TypeSet.le_iff_holds.1 (h l v hv) x hx
      cases hb : b.get? l with
      | some w => exact ⟨w, hb, by simpa [hb] using hx⟩
      | none => exact absurd (by simpa [hb] using hx) TypeSet.not_holds_bottom
    · intro h l v hv
      refine TypeSet.le_iff_holds.2 fun x hx => ?_
      obtain ⟨w, hw, hx⟩ := h l x ⟨v, hv, hx⟩
      simpa [hw] using hx

theorem holds_accumulate {x : Option TypeTag} : (a.accumulate b).Holds l x ↔ a.Holds l x ∨ b.Holds l x := by
  have hfold : ∀ (entries : List (Location × TypeSet)) (a : AbstractState),
      (entries.foldl (fun s e => s.weakUpdate e.1 e.2) a).Holds l x ↔
        a.Holds l x ∨ ∃ v, (l, v) ∈ entries ∧ v.Holds x := by
    intro entries
    induction entries with
    | nil => simp
    | cons e entries ih =>
      intro a
      rw [List.foldl_cons, ih, holds_weakUpdate, or_assoc]
      refine or_congr_right ?_
      constructor
      · rintro (⟨rfl, hx⟩ | ⟨v, hv, hx⟩)
        · exact ⟨e.2, by simp, hx⟩
        · exact ⟨v, by simp [hv], hx⟩
      · rintro ⟨v, hv, hx⟩
        rcases List.mem_cons.1 hv with rfl | hv
        · exact .inl ⟨rfl, hx⟩
        · exact .inr ⟨v, hv, hx⟩
  rw [accumulate, Std.ExtTreeMap.foldl_eq_foldl_toList, hfold]
  simp only [Std.ExtTreeMap.mem_toList_iff_getElem?_eq_some]
  rfl

theorem isSome_get?_accumulate : ((a.accumulate b).get? l).isSome ↔ (a.get? l).isSome ∨ (b.get? l).isSome := by
  have hfold : ∀ (entries : List (Location × TypeSet)) (a : AbstractState),
      ((entries.foldl (fun s e => s.weakUpdate e.1 e.2) a).get? l).isSome ↔
        (a.get? l).isSome ∨ ∃ v, (l, v) ∈ entries := by
    intro entries
    induction entries with
    | nil => simp
    | cons e entries ih =>
      intro a
      rw [List.foldl_cons, ih, get?_weakUpdate]
      by_cases h : e.1 = l
      · have he : (l, e.2) ∈ e :: entries := by simp [← h]
        simp only [h, if_true, Option.isSome_some, true_or, true_iff]
        exact .inr ⟨e.2, he⟩
      · have he : ∀ v, (l, v) ≠ e := fun v hv => h (hv ▸ rfl)
        simp [h, he]
  rw [accumulate, Std.ExtTreeMap.foldl_eq_foldl_toList, hfold]
  simp only [Std.ExtTreeMap.mem_toList_iff_getElem?_eq_some]
  exact or_congr_right Option.isSome_iff_exists.symm

theorem within_accumulate_left (a b : AbstractState) : a.Within (a.accumulate b) :=
  fun _ _ h => holds_accumulate.2 (.inl h)

theorem within_accumulate_right (a b : AbstractState) : b.Within (a.accumulate b) :=
  fun _ _ h => holds_accumulate.2 (.inr h)

theorem holds_iff {v : TypeSet} {x : Option TypeTag} (h : a.get? l = some v) : a.Holds l x ↔ v.Holds x := by
  constructor
  · rintro ⟨w, hw, hx⟩
    exact Option.some.inj (h.symm.trans hw) ▸ hx
  · exact fun hx => ⟨v, h, hx⟩

theorem weakUpdateGrows_eq_false_iff {w : TypeSet} :
    a.weakUpdateGrows l w = false ↔ ∀ x, w.Holds x → a.Holds l x := by
  unfold weakUpdateGrows
  split
  next v hv => simp only [TypeSet.joinGrows_eq_false_iff, TypeSet.le_iff_holds, holds_iff hv]
  next hnone =>
    have hnot : ∀ x, ¬a.Holds l x := fun x ⟨v, hv, _⟩ => nomatch hnone.symm.trans hv
    simp only [Bool.not_eq_false', TypeSet.isBottom_eq_true_iff, hnot, imp_false]

theorem accumulateGrows_eq_false_iff : a.accumulateGrows b = false ↔ b.Within a := by
  rw [← Bool.not_eq_true, accumulateGrows, any_eq_true_iff]
  simp only [not_exists, not_and, Bool.not_eq_true, weakUpdateGrows_eq_false_iff]
  constructor
  · rintro h l x ⟨w, hw, hx⟩
    exact h l w hw x hx
  · exact fun h l w hw x hx => h l x ⟨w, hw, hx⟩

/-- The entries of a state are entries of another one, with values that are not smaller. -/
structure Fits (a b : AbstractState) : Prop where
  entries : ∀ {l}, (a.get? l).isSome → (b.get? l).isSome
  within : a.Within b

theorem Fits.refl (a : AbstractState) : a.Fits a := ⟨id, fun _ _ h => h⟩

theorem Fits.trans (h : a.Fits b) (h' : b.Fits c) : a.Fits c :=
  ⟨fun hl => h'.entries (h.entries hl), h.within.trans h'.within⟩

instance (a b : AbstractState) : Decidable (a.Fits b) :=
  decidable_of_iff (a.slots.all (fun l _ => (b.get? l).isSome) = true ∧ a.Within b) <| by
    rw [all_eq_true_iff]
    constructor
    · rintro ⟨hentries, hwithin⟩
      refine ⟨fun {l} hl => ?_, hwithin⟩
      obtain ⟨v, hv⟩ := Option.isSome_iff_exists.1 hl
      exact hentries l v hv
    · exact fun h => ⟨fun l v hv => h.entries (Option.isSome_iff_exists.2 ⟨v, hv⟩), h.within⟩

theorem fits_accumulate_left (a b : AbstractState) : a.Fits (a.accumulate b) :=
  ⟨fun h => isSome_get?_accumulate.2 (.inl h), within_accumulate_left a b⟩

theorem fits_accumulate_right (a b : AbstractState) : b.Fits (a.accumulate b) :=
  ⟨fun h => isSome_get?_accumulate.2 (.inr h), within_accumulate_right a b⟩

theorem accumulate_fits (h : a.Fits c) (h' : b.Fits c) : (a.accumulate b).Fits c where
  entries hl := (isSome_get?_accumulate.1 hl).elim h.entries h'.entries
  within l x hx := (holds_accumulate.1 hx).elim (h.within l x) (h'.within l x)

theorem get?_eq_of_holds (h : (a.get? l).isSome ↔ (b.get? l).isSome)
    (h' : ∀ x, a.Holds l x ↔ b.Holds l x) : a.get? l = b.get? l := by
  cases ha : a.get? l with
  | none =>
    have hb : ¬(b.get? l).isSome := fun hb => by simpa [ha] using h.2 hb
    exact (Option.not_isSome_iff_eq_none.1 hb).symm
  | some v =>
    obtain ⟨w, hb⟩ := Option.isSome_iff_exists.1 (h.1 (by simp [ha]))
    rw [hb]
    congr 1
    refine TypeSet.ext_holds fun x => ?_
    rw [← holds_iff ha, ← holds_iff hb, h']

theorem Fits.antisymm (h : a.Fits b) (h' : b.Fits a) : a = b := by
  have hslots : a.slots = b.slots := by
    apply Std.ExtTreeMap.ext_getElem?
    intro l
    exact get?_eq_of_holds ⟨h.entries, h'.entries⟩ fun x => ⟨h.within l x, h'.within l x⟩
  cases a
  cases b
  simpa using hslots

theorem accumulate_eq_self (h : b.Fits a) : a.accumulate b = a :=
  (accumulate_fits (.refl a) h).antisymm (fits_accumulate_left a b)

/-- Another state has the entries of this one and beyond them only empty ones. -/
def Pads (a b : AbstractState) : Prop :=
  ∀ l, b.get? l = a.get? l ∨ a.get? l = none ∧ b.get? l = some .bottom

theorem Fits.pads (h : a.Fits b) (h' : b.Within a) : a.Pads b := by
  intro l
  by_cases hentry : (b.get? l).isSome → (a.get? l).isSome
  · exact .inl (get?_eq_of_holds ⟨hentry, h.entries⟩ fun x => ⟨h' l x, h.within l x⟩)
  · obtain ⟨hb, ha⟩ := Classical.not_imp.1 hentry
    have ha := Option.not_isSome_iff_eq_none.1 ha
    obtain ⟨w, hb⟩ := Option.isSome_iff_exists.1 hb
    have hempty : ∀ x, ¬w.Holds x := fun x hx => by
      obtain ⟨v, hv, -⟩ := h' l x ⟨w, hb, hx⟩
      cases ha.symm.trans hv
    have hw : w = .bottom := TypeSet.ext_holds fun x => iff_of_false (hempty x) TypeSet.not_holds_bottom
    exact .inr ⟨ha, hw ▸ hb⟩

end AbstractState
end PointsTo
