import Mathlib.Data.List.Flatten
import PointsTo.Dependency
import PointsTo.Proofs.Search

/-! # Schedules

Components that come in an order in which each stands after those it depends on are put into waves in one pass. When a
component is reached, everything it depends on has its level already, so its own level lies above all of them. The
levels do not depend on the order: the level of a unit is the least one above those of the units that its component
depends on, and that leaves no choice. Hence all such orders give the same schedule. There is one: of two components
one of which depends on the other, the other one reaches fewer units. -/

namespace PointsTo

open Std (ExtTreeMap)
open List Option

/-- In lists without a common item, an item tells the place of its list. -/
theorem index_eq_of_nodup_flatten {α : Type} {xss : List (List α)} (h : xss.flatten.Nodup) {i j : Nat}
    {xs ys : List α} {x : α} (hi : xss[i]? = some xs) (hj : xss[j]? = some ys) (hx : x ∈ xs) (hy : x ∈ ys) :
    i = j := by
  have hpairs := (List.nodup_flatten.1 h).2
  have hapart : ∀ {i j : Nat} {xs ys : List α}, xss[i]? = some xs → xss[j]? = some ys → i < j →
      x ∈ xs → x ∉ ys := by
    intro i j xs ys hi hj hlt hx hy
    obtain ⟨hilt, rfl⟩ := List.getElem?_eq_some_iff.1 hi
    obtain ⟨hjlt, rfl⟩ := List.getElem?_eq_some_iff.1 hj
    exact pairwise_iff_getElem.1 hpairs i j hilt hjlt hlt hx hy
  rcases Nat.lt_trichotomy i j with hlt | heq | hgt
  · exact absurd hy (hapart hi hj hlt hx)
  · exact heq
  · exact absurd hx (hapart hj hi hgt hy)

/-- In a list that each step extends by something made of what is there, every item is made of those before it. -/
theorem getElem?_foldl_append {α β : Type} (f : List β → α → β) (ys : List β) {xs : List α} {i : Nat} {x : α}
    (hx : xs[i]? = some x) :
    let made := xs.foldl (fun ys x => ys ++ [f ys x]) ys
    made[ys.length + i]? = some (f (made.take (ys.length + i)) x) := by
  induction xs generalizing ys i with
  | nil => cases hx
  | cons first xs ih =>
    rw [foldl_cons]
    cases i with
    | zero =>
      obtain rfl := some.inj hx
      obtain ⟨later, hlater⟩ : ys ++ [f ys first] <+: xs.foldl (fun ys x => ys ++ [f ys x]) (ys ++ [f ys first]) :=
        List.foldlRecOn xs _ (motive := fun made => _ <+: made) prefix_rfl fun made h x _ =>
          h.trans (prefix_append made _)
      rw [← hlater, append_assoc]
      simp
    | succ i =>
      have := ih (ys ++ [f ys first]) hx
      simpa [Nat.add_assoc, Nat.add_comm 1 i] using this

theorem length_foldl_append {α β : Type} (f : List β → α → β) (ys : List β) (xs : List α) :
    (xs.foldl (fun ys x => ys ++ [f ys x]) ys).length = ys.length + xs.length := by
  induction xs generalizing ys with
  | nil => rfl
  | cons x xs ih => simp [ih, Nat.add_assoc, Nat.add_comm 1 xs.length]

namespace DependencyGraph

variable {g : DependencyGraph} {u v w : UnitId}

/-- A unit is the other one, or it depends on it, directly or not. -/
def DependsOn (g : DependencyGraph) : UnitId → UnitId → Prop :=
  Relation.ReflTransGen fun u v => v ∈ g.dependencies u

def Mutual (g : DependencyGraph) (u v : UnitId) : Prop := g.DependsOn u v ∧ g.DependsOn v u

/-- Only the units of the graph depend on anything, and they depend only on each other. -/
def Proper (g : DependencyGraph) : Prop := ∀ u v, v ∈ g.dependencies u → u ∈ g.units ∧ v ∈ g.units

theorem Mutual.symm (h : g.Mutual u v) : g.Mutual v u := ⟨h.2, h.1⟩

theorem Mutual.trans (h : g.Mutual u v) (h' : g.Mutual v w) : g.Mutual u w :=
  ⟨h.1.trans h'.1, h'.2.trans h.2⟩

/-- An order of the components of a graph: every unit stands in one of them, units share one exactly if they depend on
each other, and no component depends on a later one. -/
structure Arranges (g : DependencyGraph) (components : List (List UnitId)) : Prop where
  nodup : components.flatten.Nodup
  mem_iff : ∀ u, u ∈ components.flatten ↔ u ∈ g.units
  nonempty : ∀ c ∈ components, c ≠ []
  shared : ∀ c ∈ components, ∀ u ∈ c, ∀ v ∈ g.units, v ∈ c ↔ g.Mutual u v
  ordered : components.Pairwise fun c d => ∀ u ∈ c, ∀ v ∈ d, v ∉ g.dependencies u

/-! ## An order of the components -/

theorem collect_eq_search (n : Nat) (stack met : List UnitId) :
    g.collect n stack met = search g.dependencies n stack met := by
  induction n generalizing stack met with
  | zero => rfl
  | succ n ih =>
    cases stack with
    | nil => rfl
    | cons u stack => simp only [collect, search, ih]

theorem mem_reachable_iff (hg : g.Proper) : v ∈ g.reachable u ↔ g.DependsOn u v := by
  have hlists : Lists g.dependencies some g.dependencies g.units := by
    intro u
    by_cases hu : u ∈ g.units
    · have hmem : u ∈ g.units.filter fun v => some v == some u := mem_filter.2 ⟨hu, by simp⟩
      exact (sublist_flatten_of_mem (List.mem_map_of_mem hmem)).length_le
    · have hnone : g.dependencies u = [] := eq_nil_iff_forall_not_mem.2 fun v hv => hu (hg u v hv).1
      simp [hnone]
  have hsteps : (g.units.flatMap g.dependencies).length < 1 + g.edgeCount := by
    rw [edgeCount]
    omega
  rw [reachable, collect_eq_search]
  exact (search_spec hlists hsteps u).2.2 v

section Order

variable {reaches : UnitId → UnitId → Bool} (h : ∀ u ∈ g.units, ∀ v, reaches u v = true ↔ g.DependsOn u v)
include h

theorem mem_members (hu : u ∈ g.units) : v ∈ g.members reaches u ↔ v ∈ g.units ∧ g.Mutual u v := by
  rw [members, mem_filter]
  refine and_congr_right fun hv => ?_
  rw [Bool.and_eq_true, h u hu, h v hv, Mutual]

theorem members_eq_of_mutual (hu : u ∈ g.units) (hv : v ∈ g.units) (huv : g.Mutual u v) :
    g.members reaches u = g.members reaches v := by
  refine filter_congr fun w hw => ?_
  rw [Bool.eq_iff_iff, Bool.and_eq_true, Bool.and_eq_true, h u hu, h v hv, h w hw, h w hw]
  exact ⟨fun hw => huv.symm.trans hw, fun hw => huv.trans hw⟩

/-- A unit that reaches as much as one that depends on it depends on that one. -/
theorem dependsOn_of_reach_le (hu : u ∈ g.units) (hv : v ∈ g.units) (huv : g.DependsOn u v)
    (hle : g.reach reaches u ≤ g.reach reaches v) : g.DependsOn v u := by
  have hsub : (g.units.filter (reaches v)).Sublist (g.units.filter (reaches u)) :=
    monotone_filter_right _ fun w hw => (h u hu w).2 (huv.trans ((h v hv w).1 hw))
  have hself : u ∈ g.units.filter (reaches u) := mem_filter.2 ⟨hu, (h u hu u).2 .refl⟩
  rw [← hsub.eq_of_length_le hle] at hself
  exact (h v hv u).1 (mem_filter.1 hself).2

omit h in
theorem mem_heads : u ∈ g.heads reaches ↔ u ∈ g.units ∧ (g.members reaches u).head? = some u := by
  have hle : g.reach reaches u ≤ g.units.length := length_filter_le _ _
  simp only [heads, mem_flatMap, mem_range, mem_filter, Bool.and_eq_true, beq_iff_eq]
  constructor
  · rintro ⟨n, -, hu, -, hhead⟩
    exact ⟨hu, hhead⟩
  · rintro ⟨hu, hhead⟩
    exact ⟨_, Nat.lt_succ_of_le hle, hu, rfl, hhead⟩

omit h in
theorem pairwise_heads (hunits : g.units.Nodup) :
    (g.heads reaches).Pairwise fun u v => u ≠ v ∧ g.reach reaches u ≤ g.reach reaches v := by
  have hreach : ∀ {n u}, u ∈ g.units.filter (fun u => g.reach reaches u == n &&
      (g.members reaches u).head? == some u) → g.reach reaches u = n := by
    intro n u hu
    have := (mem_filter.1 hu).2
    rw [Bool.and_eq_true, beq_iff_eq] at this
    exact this.1
  refine pairwise_flatMap.2 ⟨fun n _ => ?_, pairwise_lt_range.imp fun hlt u hu v hv => ?_⟩
  · refine (hunits.filter _).imp_of_mem fun {u v} hu hv hne => ⟨hne, ?_⟩
    rw [hreach hu, hreach hv]
  · rw [hreach hu, hreach hv]
    exact ⟨fun huv => (Nat.ne_of_lt hlt) ((hreach hu).symm.trans (huv ▸ hreach hv)), Nat.le_of_lt hlt⟩

theorem eq_of_mutual_heads (hu : u ∈ g.heads reaches) (hv : v ∈ g.heads reaches) (huv : g.Mutual u v) : u = v := by
  rw [mem_heads] at hu hv
  refine some.inj (hu.2.symm.trans ?_)
  rw [members_eq_of_mutual h hu.1 hv.1 huv, hv.2]

theorem arranges_members (hunits : g.units.Nodup) : g.Arranges ((g.heads reaches).map (g.members reaches)) where
  nodup := by
    refine List.nodup_flatten.2 ⟨fun c hc => ?_, pairwise_map.2 ?_⟩
    · obtain ⟨u, -, rfl⟩ := List.mem_map.1 hc
      exact hunits.filter _
    · refine (pairwise_heads hunits).imp_of_mem fun {u v} hu hv hne w hwu hwv => hne.1 ?_
      refine eq_of_mutual_heads h hu hv ?_
      exact ((mem_members h (mem_heads.1 hu).1).1 hwu).2.trans ((mem_members h (mem_heads.1 hv).1).1 hwv).2.symm
  mem_iff u := by
    simp only [mem_flatten, List.mem_map]
    constructor
    · rintro ⟨_, ⟨v, hv, rfl⟩, hu⟩
      exact ((mem_members h (mem_heads.1 hv).1).1 hu).1
    · intro hu
      have hself : u ∈ g.members reaches u := (mem_members h hu).2 ⟨hu, .refl, .refl⟩
      obtain ⟨v, hv⟩ : ∃ v, (g.members reaches u).head? = some v :=
        isSome_iff_exists.1 (by simpa using ne_nil_of_mem hself)
      obtain ⟨hvunits, huv⟩ := (mem_members h hu).1 (mem_of_mem_head? hv)
      have hsame := members_eq_of_mutual h hu hvunits huv
      exact ⟨_, ⟨v, mem_heads.2 ⟨hvunits, hsame ▸ hv⟩, rfl⟩, hsame ▸ hself⟩
  nonempty c hc := by
    obtain ⟨u, hu, rfl⟩ := List.mem_map.1 hc
    rintro hnil
    simpa [hnil] using (mem_heads.1 hu).2
  shared c hc u hu v hv := by
    obtain ⟨w, hw, rfl⟩ := List.mem_map.1 hc
    have hmem := fun v => mem_members (v := v) h (mem_heads.1 hw).1
    rw [hmem] at hu ⊢
    exact ⟨fun hv => hu.2.symm.trans hv.2, fun huv => ⟨hv, hu.2.trans huv⟩⟩
  ordered := by
    refine pairwise_map.2 ((pairwise_heads hunits).imp_of_mem fun {u v} hu hv hne x hx y hy hxy => hne.1 ?_)
    have hx := ((mem_members h (mem_heads.1 hu).1).1 hx).2
    have hy := ((mem_members h (mem_heads.1 hv).1).1 hy).2
    have huv : g.DependsOn u v := (hx.1.tail hxy).trans hy.2
    have hvu := dependsOn_of_reach_le h (mem_heads.1 hu).1 (mem_heads.1 hv).1 huv hne.2
    exact eq_of_mutual_heads h hu hv ⟨huv, hvu⟩

end Order

theorem getElem?_foldl_insert {β : Type} (f : UnitId → β) (us : List UnitId) (m : ExtTreeMap UnitId β) :
    (us.foldl (fun m u => m.insert u (f u)) m)[u]? = if u ∈ us then some (f u) else m[u]? := by
  induction us generalizing m with
  | nil => simp
  | cons v us ih =>
    rw [foldl_cons, ih, ExtTreeMap.getElem?_insert]
    by_cases hmem : u ∈ us
    · simp [hmem]
    · by_cases huv : v = u
      · simp [huv]
      · simp [hmem, huv, Ne.symm huv]

theorem arranges_components (hg : g.Proper) (hunits : g.units.Nodup) : g.Arranges g.components := by
  refine arranges_members (fun u hu v => ?_) hunits
  rw [getElem?_foldl_insert, if_pos hu, getD_some, contains_iff_mem, mem_reachable_iff hg]

/-! ## Items in ascending order -/

section Ascending

variable {α : Type} [Ord α] [Std.TransOrd α] [Std.LawfulEqOrd α] [BEq α] [LawfulBEq α] [Std.LawfulBEqOrd α]

theorem mem_ascending {items : List α} {x : α} : x ∈ ascending items ↔ x ∈ items := by
  rw [ascending, Std.ExtTreeSet.mem_toList, Std.ExtTreeSet.mem_ofList, contains_iff_mem]

omit [BEq α] [LawfulBEq α] [Std.LawfulBEqOrd α] in
theorem nodup_ascending (items : List α) : (ascending items).Nodup := by
  refine Std.ExtTreeSet.distinct_toList.imp fun {x y} hne heq => hne ?_
  rw [heq, Std.ReflOrd.compare_self]

theorem ascending_congr {items items' : List α} (h : ∀ x, x ∈ items ↔ x ∈ items') :
    ascending items = ascending items' := by
  refine congrArg Std.ExtTreeSet.toList (Std.ExtTreeSet.ext_mem fun x => ?_)
  rw [Std.ExtTreeSet.mem_ofList, Std.ExtTreeSet.mem_ofList, contains_iff_mem, contains_iff_mem, h x]

end Ascending

/-! ## Levels -/

section Levels

variable {components : List (List UnitId)} {c : List UnitId} {i k : Nat}

theorem getElem?_places (h : components.flatten.Nodup) :
    (places components)[u]? = some i ↔ ∃ c, components[i]? = some c ∧ u ∈ c := by
  let pairs := components.zipIdx.flatMap fun x => x.1.map fun u => (u, x.2)
  have hfst : pairs.map Prod.fst = components.flatten := by
    simp [pairs, flatMap_def, Function.comp_def, zipIdx_map_fst]
  have hdistinct : pairs.Pairwise fun x y => compare x.1 y.1 ≠ .eq := by
    rw [← hfst] at h
    exact (pairwise_map.1 h).imp fun hne heq => hne (Std.LawfulEqOrd.eq_of_compare heq)
  have hmem : ∀ i, (u, i) ∈ pairs ↔ ∃ c, components[i]? = some c ∧ u ∈ c := by
    intro i
    simp [pairs, mem_flatMap, mem_zipIdx_iff_getElem?]
  rw [← hmem]
  change (ExtTreeMap.ofList pairs)[u]? = some i ↔ _
  constructor
  · intro hi
    cases hcontains : (pairs.map Prod.fst).contains u with
    | false =>
      rw [ExtTreeMap.getElem?_ofList_of_contains_eq_false hcontains] at hi
      cases hi
    | true =>
      obtain ⟨⟨_, j⟩, hj, rfl⟩ := List.mem_map.1 (contains_iff_mem.1 hcontains)
      rw [ExtTreeMap.getElem?_ofList_of_mem Std.ReflOrd.compare_self hdistinct hj] at hi
      exact some.inj hi ▸ hj
  · exact fun hi => ExtTreeMap.getElem?_ofList_of_mem Std.ReflOrd.compare_self hdistinct hi

theorem getElem?_levels (hc : components[i]? = some c) :
    (g.levels components)[i]? = some (g.levelAfter components ((g.levels components).take i) c) := by
  simpa [levels] using getElem?_foldl_append (g.levelAfter components) [] hc

def levelOf (g : DependencyGraph) (components : List (List UnitId)) (u : UnitId) : Nat :=
  ((places components)[u]?.bind ((g.levels components)[·]?)).getD 0

theorem getElem?_levels_eq_levelOf (h : components.flatten.Nodup) (hc : components[i]? = some c) (hu : u ∈ c) :
    (g.levels components)[i]? = some (g.levelOf components u) := by
  rw [levelOf, (getElem?_places h).2 ⟨c, hc, hu⟩, bind_some, getElem?_levels hc, getD_some]

theorem levelOf_eq_of_mem (h : components.flatten.Nodup) (hc : c ∈ components) (hu : u ∈ c) (hv : v ∈ c) :
    g.levelOf components u = g.levelOf components v := by
  obtain ⟨i, hi⟩ := getElem?_of_mem hc
  exact some.inj ((getElem?_levels_eq_levelOf h hi hu).symm.trans (getElem?_levels_eq_levelOf h hi hv))

theorem foldl_max_le_iff {f : Nat → Nat} {xs : List Nat} {n m : Nat} :
    xs.foldl (fun level x => max level (f x)) n ≤ m ↔ n ≤ m ∧ ∀ x ∈ xs, f x ≤ m := by
  induction xs generalizing n with
  | nil => simp
  | cons x xs ih => rw [foldl_cons, ih, max_le_iff, forall_mem_cons, and_assoc]

namespace Arranges

variable (h : g.Arranges components)
include h

theorem exists_mem (hu : u ∈ g.units) : ∃ c ∈ components, u ∈ c := mem_flatten.1 ((h.mem_iff u).2 hu)

theorem mem_units (hc : c ∈ components) (hu : u ∈ c) : u ∈ g.units :=
  (h.mem_iff u).1 (mem_flatten.2 ⟨c, hc, hu⟩)

/-- The order is all in which two arrangements may differ. -/
theorem of_perm {others : List (List UnitId)} (hperm : others.Perm components)
    (hordered : others.Pairwise fun c d => ∀ u ∈ c, ∀ v ∈ d, v ∉ g.dependencies u) : g.Arranges others where
  nodup := hperm.flatten.nodup_iff.2 h.nodup
  mem_iff u := hperm.flatten.mem_iff.trans (h.mem_iff u)
  nonempty c hc := h.nonempty c (hperm.mem_iff.1 hc)
  shared c hc := h.shared c (hperm.mem_iff.1 hc)
  ordered := hordered

/-- The level of a component is the least one above those of all that it depends on. -/
theorem levelOf_le_iff (hg : g.Proper) (hc : c ∈ components) (hu : u ∈ c) :
    g.levelOf components u ≤ k ↔ ∀ w ∈ c, ∀ v ∈ g.dependencies w, v ∉ c → g.levelOf components v < k := by
  obtain ⟨i, hi⟩ := getElem?_of_mem hc
  have hlength : ((g.levels components).take i).length = i := by
    have := (List.getElem?_eq_some_iff.1 (getElem?_levels (g := g) hi)).1
    simpa using Nat.le_of_lt this
  -- What the component depends on comes before it, so that its level is known.
  have hbefore : ∀ w ∈ c, ∀ v ∈ g.dependencies w, ∀ j d, components[j]? = some d → v ∈ d → j ≠ i →
      ((g.levels components).take i)[j]? = some (g.levelOf components v) := by
    intro w hw v hv j d hj hvd hne
    have hlt : j < i := by
      refine Nat.lt_of_le_of_ne (Nat.le_of_not_lt fun hlt => ?_) hne
      obtain ⟨hilt, rfl⟩ := List.getElem?_eq_some_iff.1 hi
      obtain ⟨hjlt, rfl⟩ := List.getElem?_eq_some_iff.1 hj
      exact pairwise_iff_getElem.1 h.ordered i j hilt hjlt hlt w hw v hvd hv
    rw [getElem?_take_of_lt hlt, getElem?_levels_eq_levelOf h.nodup hj hvd]
  have hlevel := (getElem?_levels_eq_levelOf (g := g) h.nodup hi hu).symm.trans (getElem?_levels hi)
  rw [some.inj hlevel, levelAfter, foldl_max_le_iff, hlength]
  constructor
  · rintro ⟨-, hall⟩ w hw v hv hvc
    obtain ⟨d, hd, hvd⟩ := h.exists_mem (hg w v hv).2
    obtain ⟨j, hj⟩ := getElem?_of_mem hd
    have hne : j ≠ i := by
      rintro rfl
      exact hvc (some.inj (hi.symm.trans hj) ▸ hvd)
    have hplace := (getElem?_places h.nodup).2 ⟨d, hj, hvd⟩
    have := hall j (mem_filter.2 ⟨mem_filterMap.2 ⟨v, mem_flatMap.2 ⟨w, hw, hv⟩, hplace⟩, by simpa⟩)
    rwa [hbefore w hw v hv j d hj hvd hne, getD_some] at this
  · refine fun hall => ⟨Nat.zero_le k, fun j hj => ?_⟩
    obtain ⟨hj, hne⟩ := mem_filter.1 hj
    obtain ⟨v, hv, hplace⟩ := mem_filterMap.1 hj
    obtain ⟨w, hw, hv⟩ := mem_flatMap.1 hv
    obtain ⟨d, hd, hvd⟩ := (getElem?_places h.nodup).1 hplace
    have hne : j ≠ i := by simpa using hne
    rw [hbefore w hw v hv j d hd hvd hne, getD_some]
    exact hall w hw v hv fun hvc => hne (index_eq_of_nodup_flatten h.nodup hd hi hvd hvc)

end Arranges

/-! ## Waves -/

theorem getElem?_foldl_modify {α β : Type} (key : α → Nat) (f : α → β) (xs : List α) (ws : List (List β)) :
    (xs.foldl (fun ws x => ws.modify (key x) (· ++ [f x])) ws)[k]? =
      ws[k]?.map (· ++ (xs.filter (key · == k)).map f) := by
  induction xs generalizing ws with
  | nil => simp
  | cons x xs ih =>
    rw [foldl_cons, ih, getElem?_modify]
    cases ws[k]? with
    | none => simp
    | some w => by_cases hk : key x = k <;> simp [hk]

def waveOf (g : DependencyGraph) (components : List (List UnitId)) (level : Nat) : List (List UnitId) :=
  ascending (((components.zip (g.levels components)).filter (·.2 == level)).map fun x => ascending x.1)

theorem lt_max?_succ_iff {ns : List Nat} : k < (ns.max?.map (· + 1)).getD 0 ↔ ∃ n ∈ ns, k ≤ n := by
  cases hmax : ns.max? with
  | none => simp [max?_eq_none_iff.1 hmax]
  | some m =>
    obtain ⟨hm, hle⟩ := max?_eq_some_iff.1 hmax
    rw [map_some, getD_some, Nat.lt_succ_iff]
    exact ⟨fun hk => ⟨m, hm, hk⟩, fun ⟨n, hn, hk⟩ => hk.trans (hle n hn)⟩

namespace Arranges

variable (h : g.Arranges components)
include h

theorem mem_zip_levels {n : Nat} :
    (c, n) ∈ components.zip (g.levels components) ↔ c ∈ components ∧ ∃ u ∈ c, g.levelOf components u = n := by
  rw [mem_iff_getElem?]
  simp only [getElem?_zip_eq_some]
  constructor
  · rintro ⟨i, hi, hn⟩
    have hc := mem_of_getElem? hi
    obtain ⟨u, hu⟩ := exists_mem_of_ne_nil c (h.nonempty c hc)
    exact ⟨hc, u, hu, some.inj ((getElem?_levels_eq_levelOf h.nodup hi hu).symm.trans hn)⟩
  · rintro ⟨hc, u, hu, rfl⟩
    obtain ⟨i, hi⟩ := getElem?_of_mem hc
    exact ⟨i, hi, getElem?_levels_eq_levelOf h.nodup hi hu⟩

theorem mem_waveOf {d : List UnitId} : d ∈ g.waveOf components k ↔
      ∃ c ∈ components, ascending c = d ∧ ∃ u ∈ c, g.levelOf components u = k := by
  rw [waveOf, mem_ascending, List.mem_map]
  constructor
  · rintro ⟨⟨c, n⟩, hmem, rfl⟩
    obtain ⟨hmem, hn⟩ := mem_filter.1 hmem
    obtain ⟨hc, u, hu, hlevel⟩ := h.mem_zip_levels.1 hmem
    exact ⟨c, hc, rfl, u, hu, hlevel.trans (beq_iff_eq.1 hn)⟩
  · rintro ⟨c, hc, rfl, hlevel⟩
    exact ⟨(c, k), mem_filter.2 ⟨h.mem_zip_levels.2 ⟨hc, hlevel⟩, beq_self_eq_true k⟩, rfl⟩

/-- There is a wave for each level up to the highest one. -/
theorem getElem?_scheduleOf {wave : List (List UnitId)} : (g.scheduleOf components)[k]? = some wave ↔
      (∃ u ∈ g.units, k ≤ g.levelOf components u) ∧ g.waveOf components k = wave := by
  have hwave : (g.scheduleOf components)[k]? = (List.replicate (((g.levels components).max?.map (· + 1)).getD 0)
      ([] : List (List UnitId)))[k]?.map fun _ => g.waveOf components k := by
    rw [scheduleOf, getElem?_map,
      show (List.foldl _ _ _)[k]? = _ from getElem?_foldl_modify Prod.snd (fun x => ascending x.1) _ _,
      Option.map_map, getElem?_replicate]
    split <;> simp [waveOf]
  have hlevels : (∃ n ∈ g.levels components, k ≤ n) ↔ ∃ u ∈ g.units, k ≤ g.levelOf components u := by
    constructor
    · rintro ⟨n, hn, hk⟩
      obtain ⟨c, hc⟩ : ∃ c, (c, n) ∈ components.zip (g.levels components) := by
        obtain ⟨i, hi, rfl⟩ := getElem_of_mem hn
        have hlength : i < components.length := by
          simpa [levels, length_foldl_append] using hi
        exact ⟨components[i], mem_iff_getElem.2 ⟨i, by simp [hi, hlength], by simp⟩⟩
      obtain ⟨hmem, u, hu, rfl⟩ := h.mem_zip_levels.1 hc
      exact ⟨u, h.mem_units hmem hu, hk⟩
    · rintro ⟨u, hu, hk⟩
      obtain ⟨c, hc, huc⟩ := h.exists_mem hu
      obtain ⟨i, hi⟩ := getElem?_of_mem hc
      exact ⟨_, mem_of_getElem? (getElem?_levels_eq_levelOf h.nodup hi huc), hk⟩
  rw [hwave, getElem?_replicate, ← hlevels, ← lt_max?_succ_iff]
  split <;> simp [*]

end Arranges

/-! ## Schedules that respect dependencies -/

/-- A unit stands in the component of number `j` of the wave of number `i`. -/
def StandsAt (waves : List (List (List UnitId))) (u : UnitId) (i j : Nat) : Prop :=
  ∃ wave c, waves[i]? = some wave ∧ wave[j]? = some c ∧ u ∈ c

/-- A schedule of a graph's units that respects their dependencies. -/
structure RespectedBy (g : DependencyGraph) (waves : List (List (List UnitId))) : Prop where
  /-- Every unit stands in one component of one wave. -/
  placed : ∀ u ∈ g.units, ∃! place : Nat × Nat, StandsAt waves u place.1 place.2
  /-- Nothing else does, and no component holds a unit twice. -/
  only : ∀ wave ∈ waves, ∀ c ∈ wave, c ⊆ g.units ∧ c.Nodup
  /-- Units share a component exactly if each of them depends on the other one, directly or not. -/
  shared : ∀ u v i j k l, StandsAt waves u i j → StandsAt waves v k l → ((i = k ∧ j = l) ↔ g.Mutual u v)
  /-- What a unit depends on is a unit of the graph and stands in the same component or in an earlier wave. -/
  ordered : ∀ u ∈ g.units, ∀ v ∈ g.dependencies u, v ∈ g.units ∧
    ∀ i j k l, StandsAt waves u i j → StandsAt waves v k l → (i = k ∧ j = l) ∨ k < i

namespace RespectedBy

variable {waves : List (List (List UnitId))} {wave : List (List UnitId)} (h : g.RespectedBy waves)
include h

theorem exists_mem (hu : u ∈ g.units) : ∃ wave ∈ waves, ∃ c ∈ wave, u ∈ c := by
  obtain ⟨_, ⟨wave, c, hwave, hc, huc⟩, -⟩ := h.placed u hu
  exact ⟨wave, mem_of_getElem? hwave, c, mem_of_getElem? hc, huc⟩

theorem nodup_flatten (hwave : wave ∈ waves) : wave.flatten.Nodup := by
  refine List.nodup_flatten.2 ⟨fun c hc => (h.only wave hwave c hc).2, ?_⟩
  obtain ⟨i, hi⟩ := getElem?_of_mem hwave
  refine pairwise_iff_getElem.2 fun j l hj hl hlt u huj hul => ?_
  have hu : u ∈ g.units := (h.only wave hwave _ (getElem_mem hj)).1 huj
  have hsame : (i, j) = (i, l) := (h.placed u hu).unique
    ⟨wave, _, hi, getElem?_eq_getElem hj, huj⟩ ⟨wave, _, hi, getElem?_eq_getElem hl, hul⟩
  exact Nat.ne_of_lt hlt (congrArg Prod.snd hsame)

end RespectedBy

namespace Arranges

variable (h : g.Arranges components)
include h

variable {d : List UnitId}

theorem eq_of_mem (hc : c ∈ components) (hd : d ∈ components) (huc : u ∈ c) (hud : u ∈ d) : c = d := by
  obtain ⟨i, hi⟩ := getElem?_of_mem hc
  obtain ⟨j, hj⟩ := getElem?_of_mem hd
  cases index_eq_of_nodup_flatten h.nodup hi hj huc hud
  exact some.inj (hi.symm.trans hj)

theorem standsAt_iff {i j : Nat} : StandsAt (g.scheduleOf components) u i j ↔
    ∃ c ∈ components, u ∈ c ∧ g.levelOf components u = i ∧ (g.waveOf components i)[j]? = some (ascending c) := by
  constructor
  · rintro ⟨wave, d, hwave, hd, hu⟩
    obtain ⟨-, rfl⟩ := h.getElem?_scheduleOf.1 hwave
    obtain ⟨c, hc, rfl, v, hv, hlevel⟩ := h.mem_waveOf.1 (mem_of_getElem? hd)
    rw [mem_ascending] at hu
    exact ⟨c, hc, hu, (levelOf_eq_of_mem h.nodup hc hu hv).trans hlevel, hd⟩
  · rintro ⟨c, hc, hu, rfl, hd⟩
    exact ⟨_, _, h.getElem?_scheduleOf.2 ⟨⟨u, h.mem_units hc hu, Nat.le_refl _⟩, rfl⟩, hd, mem_ascending.2 hu⟩

theorem standsAt_unique {i j k l : Nat} (hc : c ∈ components) (huc : u ∈ c) (hvc : v ∈ c)
    (hu : StandsAt (g.scheduleOf components) u i j) (hv : StandsAt (g.scheduleOf components) v k l) :
    i = k ∧ j = l := by
  obtain ⟨d, hd, hud, rfl, hj⟩ := h.standsAt_iff.1 hu
  obtain ⟨e, he, hve, rfl, hl⟩ := h.standsAt_iff.1 hv
  cases h.eq_of_mem hc hd huc hud
  cases h.eq_of_mem hc he hvc hve
  have hlevel := levelOf_eq_of_mem (g := g) h.nodup hc huc hvc
  rw [← hlevel] at hl
  have hlt := (List.getElem?_eq_some_iff.1 hj).1
  exact ⟨hlevel, (getElem?_inj hlt (nodup_ascending _)).1 (hj.trans hl.symm)⟩

theorem respectedBy_scheduleOf (hg : g.Proper) : g.RespectedBy (g.scheduleOf components) where
  placed u hu := by
    obtain ⟨c, hc, huc⟩ := h.exists_mem hu
    obtain ⟨j, hj⟩ := getElem?_of_mem (h.mem_waveOf.2 ⟨c, hc, rfl, u, huc, rfl⟩)
    have hstands := h.standsAt_iff.2 ⟨c, hc, huc, rfl, hj⟩
    exact ⟨(_, j), hstands, fun place hplace => Prod.ext_iff.2 (h.standsAt_unique hc huc huc hplace hstands)⟩
  only wave hwave d hd := by
    obtain ⟨k, hk⟩ := getElem?_of_mem hwave
    obtain ⟨-, rfl⟩ := h.getElem?_scheduleOf.1 hk
    obtain ⟨c, hc, rfl, -⟩ := h.mem_waveOf.1 hd
    exact ⟨fun u hu => h.mem_units hc (mem_ascending.1 hu), nodup_ascending c⟩
  shared u v i j k l hu hv := by
    obtain ⟨c, hc, huc, -, hj⟩ := h.standsAt_iff.1 hu
    obtain ⟨d, hd, hvd, -, hl⟩ := h.standsAt_iff.1 hv
    rw [← h.shared c hc u huc v (h.mem_units hd hvd)]
    constructor
    · rintro ⟨rfl, rfl⟩
      rw [← mem_ascending, some.inj (hj.symm.trans hl), mem_ascending]
      exact hvd
    · exact fun hvc => h.standsAt_unique hc huc hvc hu hv
  ordered u _ v hv := by
    refine ⟨(hg u v hv).2, fun i j k l hu hv' => ?_⟩
    obtain ⟨c, hc, huc, rfl, -⟩ := h.standsAt_iff.1 hu
    by_cases hvc : v ∈ c
    · exact .inl (h.standsAt_unique hc huc hvc hu hv')
    · obtain ⟨d, hd, hvd, rfl, -⟩ := h.standsAt_iff.1 hv'
      exact .inr ((h.levelOf_le_iff hg hc huc).1 (Nat.le_refl _) u huc v hv hvc)

/-! ## All orders of the components give one schedule -/

variable {others : List (List UnitId)} (h' : g.Arranges others)
include h'

/-- The component of a unit holds the same units in every order. -/
theorem mem_iff_mem (hc : c ∈ components) (hd : d ∈ others) (huc : u ∈ c) (hud : u ∈ d) : v ∈ c ↔ v ∈ d := by
  constructor
  · exact fun hv => (h'.shared d hd u hud v (h.mem_units hc hv)).2
      ((h.shared c hc u huc v (h.mem_units hc hv)).1 hv)
  · exact fun hv => (h.shared c hc u huc v (h'.mem_units hd hv)).2
      ((h'.shared d hd u hud v (h'.mem_units hd hv)).1 hv)

theorem levelOf_eq (hg : g.Proper) (hu : u ∈ g.units) : g.levelOf components u = g.levelOf others u := by
  -- What the component of a unit depends on has a lower level, for which this is known.
  induction hn : g.levelOf components u using Nat.strong_induction_on generalizing u with
  | _ n ih =>
    subst hn
    obtain ⟨c, hc, huc⟩ := h.exists_mem hu
    obtain ⟨d, hd, hud⟩ := h'.exists_mem hu
    have hsame : ∀ v, v ∈ c ↔ v ∈ d := fun v => h.mem_iff_mem h' hc hd huc hud
    have hbelow := (h.levelOf_le_iff hg hc huc).1 (Nat.le_refl _)
    have hle : ∀ k, g.levelOf components u ≤ k ↔ g.levelOf others u ≤ k := by
      intro k
      rw [h.levelOf_le_iff hg hc huc, h'.levelOf_le_iff hg hd hud]
      simp only [hsame] at hbelow ⊢
      refine forall₂_congr fun w hw => forall₂_congr fun v hv => forall_congr' fun hvd => ?_
      rw [ih _ (hbelow w hw v hv hvd) (hg w v hv).2 rfl]
    exact Nat.le_antisymm ((hle _).2 (Nat.le_refl _)) ((hle _).1 (Nat.le_refl _))

theorem waveOf_subset (hg : g.Proper) (hd : d ∈ g.waveOf components k) : d ∈ g.waveOf others k := by
  obtain ⟨c, hc, rfl, u, hu, rfl⟩ := h.mem_waveOf.1 hd
  have hunits := h.mem_units hc hu
  obtain ⟨e, he, hue⟩ := h'.exists_mem hunits
  exact h'.mem_waveOf.2 ⟨e, he, ascending_congr fun v => h'.mem_iff_mem h he hc hue hu, u, hue,
    (h.levelOf_eq h' hg hunits).symm⟩

theorem scheduleOf_eq (hg : g.Proper) : g.scheduleOf components = g.scheduleOf others := by
  refine ext_getElem? fun k => Option.ext fun wave => ?_
  have hwave : g.waveOf components k = g.waveOf others k := by
    have hmem : ∀ d, d ∈ g.waveOf components k ↔ d ∈ g.waveOf others k := fun d =>
      ⟨h.waveOf_subset h' hg, h'.waveOf_subset h hg⟩
    simp only [waveOf, mem_ascending] at hmem
    rw [waveOf, waveOf, ascending_congr hmem]
  rw [h.getElem?_scheduleOf, h'.getElem?_scheduleOf, hwave]
  refine and_congr_left fun _ => exists_congr fun u => and_congr_right fun hu => ?_
  rw [h.levelOf_eq h' hg hu]

end Arranges
end Levels

/-! ## Graphs of flows -/

variable {flows : List UnitFlow}

theorem exists_flow_of_edges {p : Declarations} {us : List UnitId} (h : (ofFlows p flows).edges[u]? = some us) :
    ∃ f ∈ flows, f.unit = u ∧ dependenciesOf p (flows.map (·.unit)) f = us := by
  refine List.foldlRecOn (motive := fun m => m[u]? = some us → _) flows _ (fun h => by simp at h)
    (fun m ih f hf hm => ?_) h
  rw [ExtTreeMap.getElem?_insert] at hm
  split at hm
  next heq => exact ⟨f, hf, by simpa using heq, some.inj hm⟩
  next => exact ih hm

theorem mem_of_mem_dependenciesOf {p : Declarations} {units : List UnitId} {f : UnitFlow}
    (h : u ∈ dependenciesOf p units f) : u ∈ units := by
  have hmem := (mem_foldl_addNew.1 h).resolve_left not_mem_nil
  exact contains_iff_mem.1 (mem_filter.1 hmem).2

theorem proper_ofFlows (p : Declarations) (flows : List UnitFlow) : (ofFlows p flows).Proper := by
  intro u v hv
  cases hedges : (ofFlows p flows).edges[u]? with
  | none => simp [dependencies, hedges] at hv
  | some us =>
    obtain ⟨f, hf, rfl, rfl⟩ := exists_flow_of_edges hedges
    rw [dependencies, hedges] at hv
    exact ⟨List.mem_map_of_mem hf, mem_of_mem_dependenciesOf hv⟩

theorem arranges_of_nodup (p : Declarations) (h : (flows.map (·.unit)).Nodup) :
    (ofFlows p flows).Arranges (ofFlows p flows).components :=
  arranges_components (proper_ofFlows p flows) h

theorem respectedBy_of_nodup (p : Declarations) (h : (flows.map (·.unit)).Nodup) :
    (ofFlows p flows).RespectedBy (ofFlows p flows).schedule :=
  (arranges_of_nodup p h).respectedBy_scheduleOf (proper_ofFlows p flows)

end DependencyGraph
end PointsTo
