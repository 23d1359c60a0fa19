import Mathlib.Data.List.Forall2

/-! # Mapped lists

A list is mapped by a partial function exactly if each of its elements is, and the results stand in the order of the
elements; it is folded by a partial step exactly if no step fails. A function that gives lists yields one element in
all exactly if one element of the list gives it and the others give none. An array is the list of its positions mapped
by a look-up. -/

namespace PointsTo

open List Option

variable {α β : Type} {xs : List α} {ys : List β}

section Pairs

variable {R : α → β → Prop}

theorem exists_of_mem_left (h : List.Forall₂ R xs ys) {x : α} (hx : x ∈ xs) : ∃ y ∈ ys, R x y := by
  induction h with
  | nil => cases hx
  | cons hr _ ih =>
    rcases mem_cons.1 hx with rfl | hx
    · exact ⟨_, mem_cons_self, hr⟩
    · obtain ⟨y, hy, hr⟩ := ih hx
      exact ⟨y, mem_cons_of_mem _ hy, hr⟩

theorem exists_of_mem_right (h : List.Forall₂ R xs ys) {y : β} (hy : y ∈ ys) : ∃ x ∈ xs, R x y :=
  exists_of_mem_left h.flip hy

end Pairs

variable {f g : α → Option β}

theorem forall₂_of_mapM (h : xs.mapM f = some ys) : List.Forall₂ (fun x y => f x = some y) xs ys := by
  induction xs generalizing ys with
  | nil =>
    obtain rfl : [] = ys := some.inj h
    exact .nil
  | cons x xs ih =>
    rw [mapM_cons] at h
    obtain ⟨y, hy, h⟩ := bind_eq_some_iff.1 h
    obtain ⟨zs, hzs, h⟩ := bind_eq_some_iff.1 h
    obtain rfl : y :: zs = ys := some.inj h
    exact .cons hy (ih hzs)

theorem exists_of_mem_mapM (h : xs.mapM f = some ys) {y : β} (hy : y ∈ ys) : ∃ x ∈ xs, f x = some y :=
  exists_of_mem_right (forall₂_of_mapM h) hy

theorem mapM_eq_none_iff : xs.mapM f = none ↔ ∃ x ∈ xs, f x = none := by
  induction xs with
  | nil => simp
  | cons x xs ih =>
    rw [mapM_cons]
    cases hx : f x with
    | none => simp [hx]
    | some y => cases hxs : xs.mapM f <;> simpa [hx, hxs] using ih

theorem exists_mapM (h : ∀ x ∈ xs, ∃ y, f x = some y) : ∃ ys, xs.mapM f = some ys := by
  refine ne_none_iff_exists'.1 fun hnone => ?_
  obtain ⟨x, hx, hfx⟩ := mapM_eq_none_iff.1 hnone
  obtain ⟨y, hy⟩ := h x hx
  exact some_ne_none y (hy.symm.trans hfx)

theorem mapM_congr (h : ∀ x ∈ xs, f x = g x) : xs.mapM f = xs.mapM g := by
  induction xs with
  | nil => rfl
  | cons x xs ih =>
    rw [forall_mem_cons] at h
    rw [mapM_cons, mapM_cons, h.1, ih h.2]

theorem exists_mapM_of_perm {xs' : List α} (h : xs.Perm xs') (hys : xs.mapM f = some ys) :
    ∃ ys', xs'.mapM f = some ys' ∧ (xs.zip ys).Perm (xs'.zip ys') := by
  induction h generalizing ys with
  | nil => exact ⟨ys, hys, .refl _⟩
  | cons x _ ih =>
    rw [mapM_cons] at hys
    obtain ⟨y, hy, hys⟩ := bind_eq_some_iff.1 hys
    obtain ⟨zs, hzs, hys⟩ := bind_eq_some_iff.1 hys
    cases hys
    obtain ⟨zs', hzs', hperm⟩ := ih hzs
    exact ⟨y :: zs', by simp [mapM_cons, hy, hzs'], hperm.cons (x, y)⟩
  | swap x x' xs =>
    rw [mapM_cons] at hys
    obtain ⟨y', hy', hys⟩ := bind_eq_some_iff.1 hys
    obtain ⟨zs, hzs, hys⟩ := bind_eq_some_iff.1 hys
    cases hys
    rw [mapM_cons] at hzs
    obtain ⟨y, hy, hzs⟩ := bind_eq_some_iff.1 hzs
    obtain ⟨ws, hws, hzs⟩ := bind_eq_some_iff.1 hzs
    cases hzs
    exact ⟨y :: y' :: ws, by simp [mapM_cons, hy, hy', hws], .swap (x, y) (x', y') _⟩
  | trans _ _ ih ih' =>
    obtain ⟨zs, hzs, hperm⟩ := ih hys
    obtain ⟨zs', hzs', hperm'⟩ := ih' hzs
    exact ⟨zs', hzs', hperm.trans hperm'⟩

section Folds

theorem foldlM_eq_none_iff {step : β → α → Option β} {b : β} : xs.foldlM step b = none ↔
      ∃ before x after b', xs = before ++ x :: after ∧ before.foldlM step b = some b' ∧ step b' x = none := by
  induction xs generalizing b with
  | nil => simp
  | cons x xs ih =>
    rw [foldlM_cons]
    constructor
    · intro h
      cases hx : step b x with
      | none => exact ⟨[], x, xs, b, rfl, rfl, hx⟩
      | some c =>
        rw [hx] at h
        obtain ⟨before, y, after, b', rfl, hbefore, hy⟩ := ih.1 h
        exact ⟨x :: before, y, after, b', rfl, by simpa [hx] using hbefore, hy⟩
    · rintro ⟨before, y, after, b', hxs, hbefore, hy⟩
      cases before with
      | nil =>
        obtain ⟨rfl, rfl⟩ := List.cons.inj hxs
        cases hbefore
        simp [hy]
      | cons z before =>
        obtain ⟨rfl, rfl⟩ := List.cons.inj hxs
        rw [foldlM_cons] at hbefore
        obtain ⟨c, hc, hbefore⟩ := bind_eq_some_iff.1 hbefore
        simpa [hc] using ih.2 ⟨before, y, after, b', rfl, hbefore, hy⟩

theorem foldlM_invariant (Inv : β → Prop) {step : β → α → Option β}
    (h : ∀ {y x y'}, step y x = some y' → Inv y → Inv y') {y y' : β}
    (hfold : xs.foldlM step y = some y') (hy : Inv y) : Inv y' := by
  induction xs generalizing y with
  | nil => exact some.inj hfold ▸ hy
  | cons x xs ih =>
    obtain ⟨z, hz, hrest⟩ := bind_eq_some_iff.1 hfold
    exact ih hrest (h hz hy)

end Folds

/-- A computation on what another one gives has a result only if there is something given. -/
theorem exists_ok_of_bind {ε : Type} {x : Except ε α} {f : α → Option β} {b : β} (h : x.toOption.bind f = some b) :
    ∃ a, x = .ok a ∧ f a = some b := by
  cases x with
  | error => cases h
  | ok a => exact ⟨a, rfl, h⟩

theorem rel_bind {γ δ : Type} {R : α → β → Prop} {S : γ → δ → Prop} {x : Option α} {y : Option β}
    {f : α → Option γ} {g : β → Option δ} (h : Option.Rel R x y)
    (hfg : ∀ {a b}, R a b → Option.Rel S (f a) (g b)) : Option.Rel S (x >>= f) (y >>= g) := by
  cases h with
  | some hab => exact hfg hab
  | none => exact .none

theorem takeWhile_eq_filter {q : α → Bool} (h : xs.Pairwise fun x y => q y → q x) :
    xs.takeWhile q = xs.filter q := by
  induction h with
  | nil => rfl
  | @cons x xs hx _ ih =>
    cases hq : q x with
    | true => rw [takeWhile_cons_of_pos hq, filter_cons_of_pos hq, ih]
    | false =>
      have hnone : xs.filter q = [] := filter_eq_nil_iff.2 fun y hy hy' => by simp [hx y hy hy'] at hq
      rw [takeWhile_cons_of_neg (by simp [hq]), filter_cons_of_neg (by simp [hq]), hnone]

theorem flatMap_eq_singleton_iff {f : α → List β} {y : β} (h : xs.Nodup) :
    xs.flatMap f = [y] ↔ ∃ x ∈ xs, f x = [y] ∧ ∀ z ∈ xs, z ≠ x → f z = [] := by
  induction xs with
  | nil => simp
  | cons x xs ih =>
    obtain ⟨hx, hxs⟩ := nodup_cons.1 h
    rw [flatMap_cons, append_eq_singleton_iff, ih hxs, flatMap_eq_nil_iff]
    constructor
    · rintro (⟨hfx, z, hz, hfz, hothers⟩ | ⟨hfx, hnone⟩)
      · exact ⟨z, mem_cons_of_mem x hz, hfz, forall_mem_cons.2 ⟨fun _ => hfx, hothers⟩⟩
      · exact ⟨x, mem_cons_self, hfx, forall_mem_cons.2 ⟨fun hne => absurd rfl hne, fun z hz _ => hnone z hz⟩⟩
    · rintro ⟨z, hz, hfz, hothers⟩
      obtain ⟨hfx, hrest⟩ := forall_mem_cons.1 hothers
      rcases mem_cons.1 hz with rfl | hz
      · exact .inr ⟨hfz, fun w hw => hrest w hw fun hwz => hx (hwz ▸ hw)⟩
      · exact .inl ⟨hfx fun hxz => hx (hxz ▸ hz), z, hz, hfz, hrest⟩

theorem toList_eq_map_range {a : Array α} {f : Nat → α} (h : ∀ i x, a[i]? = some x → f i = x) :
    a.toList = (List.range a.size).map f := by
  refine ext_getElem (by simp) fun i hi _ => ?_
  have hi : i < a.size := by simpa using hi
  simp [h i a[i] (Array.getElem?_eq_getElem hi)]

end PointsTo
