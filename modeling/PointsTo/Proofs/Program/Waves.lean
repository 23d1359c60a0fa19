import PointsTo.Proofs.Program.Queries
import PointsTo.Proofs.Program.Schedule
import PointsTo.Tree.Build

/-! # Waves

The schedule of a program. Its units are numbered by their places, so that its flows are those of distinct units, and
these have a schedule that respects their dependencies. -/

namespace PointsTo

open List Option Preparation Program

def Program.InPlace (units : Array UnitInfo) : Prop := ∀ (i : Nat) (info : UnitInfo),
  units[i]? = some info → info.id = i

theorem Program.InPlace.addUnit {scopes : ScopeTree} {acc : Array UnitInfo × Std.ExtTreeMap ScopeId UnitId}
    (h : InPlace acc.1) (s : Scope) : InPlace (Program.addUnit scopes acc s).1 := by
  intro i info hi
  unfold Program.addUnit at hi
  split at hi
  · exact h i info hi
  · simp only [Array.getElem?_push] at hi
    split at hi
    next hlast =>
      cases hi
      exact hlast.symm
    next => exact h i info hi

theorem Program.inPlace_ofTree (tree : SyntaxTree) (s : Settings) : InPlace (Program.ofTree tree s).units := by
  have hfound : InPlace (findUnits (Names.ofTree tree).scopes).1 := by
    rw [findUnits, ← Array.foldl_toList]
    refine List.foldlRecOn (motive := fun acc : Array UnitInfo × _ => InPlace acc.1) _ _ ?_ fun acc h s _ => h.addUnit s
    exact fun i info hi => by simp at hi
  intro i info hi
  unfold Program.ofTree at hi
  simp only [Array.getElem?_map] at hi
  obtain ⟨u, hu, rfl⟩ := map_eq_some_iff.1 hi
  exact hfound i u hu

variable {p : Program}
variable (hp : Program.InPlace p.units)
include hp

theorem Preparation.mem_units_iff {id : UnitId} :
    id ∈ (Preparation.ofProgram p).dependencies.units ↔ ((Preparation.ofProgram p).unit? id).isSome := by
  have hnumber : ∀ {i : UnitId} {u : PreparedUnit}, (Preparation.ofProgram p).unit? i = some u → u.flow.unit = i := by
    intro i u hu
    obtain ⟨hinfo, -, hflow⟩ := prepared_of_unit? hu
    rw [hflow]
    exact hp i u.info hinfo
  constructor
  · intro h
    obtain ⟨_, hflow, rfl⟩ := List.mem_map.1 h
    obtain ⟨u, hu, rfl⟩ := List.mem_map.1 hflow
    obtain ⟨x, hx, hu⟩ := mem_filterMap.1 hu
    obtain ⟨i, hi⟩ := getElem?_of_mem hx
    have hprepared : (Preparation.ofProgram p).unit? i = some u := bind_eq_some_iff.2 ⟨x, hi, hu⟩
    rw [hnumber hprepared, hprepared, isSome_some]
  · intro h
    obtain ⟨u, hu⟩ := isSome_iff_exists.1 h
    obtain ⟨x, hx, hprepared⟩ := bind_eq_some_iff.1 hu
    have hmem := mem_filterMap.2 ⟨x, mem_of_getElem? hx, hprepared⟩
    exact List.mem_map.2 ⟨u.flow, List.mem_map.2 ⟨u, hmem, rfl⟩, hnumber hu⟩

theorem Preparation.nodup_units : (Preparation.ofProgram p).dependencies.units.Nodup := by
  have hids : p.units.toList.Pairwise fun u v => u.id ≠ v.id := by
    refine pairwise_iff_getElem.2 fun i j hi hj hlt => ?_
    rw [hp i _ (by simp [Array.getElem?_eq_getElem (Array.length_toList ▸ hi)]),
      hp j _ (by simp [Array.getElem?_eq_getElem (Array.length_toList ▸ hj)])]
    exact Nat.ne_of_lt hlt
  have hflow : ∀ u w, prepared? (u, PreparedUnit.ofUnit p u) = some w → w.flow.unit = u.id := by
    intro u w hw
    cases hprep : PreparedUnit.ofUnit p u with
    | error e => simp [hprep, prepared?] at hw
    | ok v =>
      obtain rfl : v = w := by simpa [hprep, prepared?] using hw
      obtain ⟨g, -, hv⟩ := exists_ok_of_bind_eq_ok hprep
      cases Except.ok.inj hv
      rfl
  change (((p.units.toList.map fun u => (u, PreparedUnit.ofUnit p u)).filterMap prepared?).map (·.flow) |>.map
    (·.unit)).Nodup
  rw [List.map_map, filterMap_map, List.Nodup, pairwise_map]
  refine List.Pairwise.filterMap _ (fun u v huv w hw w' hw' => ?_) hids
  simpa [hflow u w hw, hflow v w' hw'] using huv

theorem Preparation.respectedBy_of_inPlace :
    (Preparation.ofProgram p).dependencies.RespectedBy (Preparation.ofProgram p).dependencies.schedule :=
  DependencyGraph.respectedBy_of_nodup _ (nodup_units hp)

theorem Preparation.mem_schedule {id : UnitId} {u : PreparedUnit}
    (h : (Preparation.ofProgram p).unit? id = some u) :
    id ∈ (Preparation.ofProgram p).dependencies.schedule.flatten.flatten := by
  have hunits := (mem_units_iff hp).2 (isSome_iff_exists.2 ⟨u, h⟩)
  obtain ⟨wave, hwave, c, hc, hid⟩ := (respectedBy_of_inPlace hp).exists_mem hunits
  exact mem_flatten.2 ⟨c, mem_flatten.2 ⟨wave, hwave, hc⟩, hid⟩

omit hp

/-- The flows of distinct units have an order of their components in which each comes after those it depends on. Every
such order gives a schedule that respects the dependencies, and it is the same one for all of them. The flows of a
program are those of distinct units. -/
theorem DependencyGraph.respectedBy_schedule :
    (∀ (p : Declarations) (flows : List UnitFlow), (flows.map (·.unit)).Nodup →
      let g := ofFlows p flows
      g.Arranges g.components ∧ ∀ components, g.Arranges components →
        g.RespectedBy (g.scheduleOf components) ∧ g.scheduleOf components = g.schedule) ∧
    ∀ (tree : SyntaxTree) (s : Settings),
      let g := (Preparation.ofProgram (Program.ofTree tree s)).dependencies
      g.Arranges g.components ∧ ∀ components, g.Arranges components →
        g.RespectedBy (g.scheduleOf components) ∧ g.scheduleOf components = g.schedule := by
  have hflows : ∀ (p : Declarations) (flows : List UnitFlow), (flows.map (·.unit)).Nodup →
      let g := ofFlows p flows
      g.Arranges g.components ∧ ∀ components, g.Arranges components →
        g.RespectedBy (g.scheduleOf components) ∧ g.scheduleOf components = g.schedule := by
    intro p flows hunits g
    have hg : g.Proper := proper_ofFlows p flows
    have hown : g.Arranges g.components := arranges_of_nodup p hunits
    exact ⟨hown, fun components h => ⟨h.respectedBy_scheduleOf hg, h.scheduleOf_eq hown hg⟩⟩
  exact ⟨hflows, fun tree s => hflows _ _ (nodup_units (inPlace_ofTree tree s))⟩

open Build in
/-- Two functions without dependencies, of which the module calls one, and two that find each other through the
module. -/
def pingPong : RawNode :=
  module [function "leaf" ["n"] [ret (some (name "n"))],
    function "other" ["n"] [ret (some (name "n"))],
    function "ping" ["n"] [ret (some (call (name "pong") [name "n"]))],
    function "pong" ["n"] [ret (some (call (name "ping") [name "n"]))],
    assign (name "x") (call (name "leaf") [int])]

/-- The functions without dependencies come first, then the module, then the two that call each other, as one component.
In which order the first two are taken makes no difference. -/
theorem respectedBy_schedule_on_pingPong : ∃ tree g, SyntaxTree.ofModule pingPong = .ok tree ∧
      g = (Preparation.ofProgram (Program.ofTree tree {})).dependencies ∧ g.units.Nodup ∧
      g.components = [[1], [2], [0], [3, 4]] ∧ g.Arranges [[2], [1], [0], [3, 4]] ∧
      g.schedule = [[[1], [2]], [[0]], [[3, 4]]] ∧
      g.RespectedBy (g.scheduleOf [[2], [1], [0], [3, 4]]) ∧
      g.scheduleOf [[2], [1], [0], [3, 4]] = g.schedule := by
  have h : (match SyntaxTree.ofModule pingPong with
      | .ok tree =>
        let g := (Preparation.ofProgram (Program.ofTree tree {})).dependencies
        (g.components, g.schedule, decide ([[2], [1], [0], [3, 4]].Pairwise fun c d =>
          ∀ u ∈ c, ∀ v ∈ d, v ∉ g.dependencies u))
      | .error _ => default) =
        ([[1], [2], [0], [3, 4]], [[[1], [2]], [[0]], [[3, 4]]], true) := by decide +kernel
  split at h
  next tree htree =>
    have hunits := nodup_units (inPlace_ofTree tree {})
    simp only [Prod.mk.injEq, decide_eq_true_eq] at h
    obtain ⟨hcomponents, hschedule, hordered⟩ := h
    obtain ⟨hown, hall⟩ := DependencyGraph.respectedBy_schedule.1 _ _ hunits
    have hother := hown.of_perm (hcomponents ▸ List.Perm.swap [1] [2] [[0], [3, 4]]) hordered
    exact ⟨tree, _, htree, rfl, hunits, hcomponents, hother, hschedule, hall _ hother⟩
  next => cases h

end PointsTo
