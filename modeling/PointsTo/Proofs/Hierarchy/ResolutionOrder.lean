import PointsTo.Proofs.Hierarchy.Linearization
import PointsTo.Proofs.Scope.Imports
import PointsTo.Program
import PointsTo.Tree.Build

/-! # Lookup orders of the classes of a program

A class without a preferred order is looked up depth first. Both orders start with the class and have exactly what
it inherits from, each class once, and which of the two is used shows in a report. The bases of a class are those of
its base expressions that stand for one class statement, however far the imports between them go. -/

namespace PointsTo

namespace Hierarchy

variable (h : Hierarchy)

theorem depthFirst_eq_search (n : Nat) (stack order : List ClassId) :
    h.depthFirst n stack order = search h.basesOf n stack order := by
  induction n generalizing stack order with
  | zero => rfl
  | succ n ih =>
    cases stack with
    | nil => rfl
    | cons c stack => simp only [depthFirst, search, ih]

theorem toList_eq_map_basesOf : h.toList = (List.range h.size).map h.basesOf :=
  toList_eq_map_range fun i bases hi => by simp [basesOf, hi]

theorem lists_basesOf : Lists h.basesOf some h.basesOf (List.range h.size) := by
  intro c
  by_cases hc : c < h.size
  · have hmem : c ∈ (List.range h.size).filter fun d => some d == some c := by simp [hc]
    exact (List.sublist_flatten_of_mem (List.mem_map_of_mem (f := h.basesOf) hmem)).length_le
  · simp [basesOf, Array.getElem?_eq_none (Nat.le_of_not_lt hc)]

theorem lookupOrder_fallback (c : ClassId) : h.LookupOrder c (h.fallback c) := by
  have hfuel : ((List.range h.size).flatMap h.basesOf).length < 1 + h.toList.flatten.length := by
    rw [List.flatMap_def, ← toList_eq_map_basesOf]
    omega
  obtain ⟨hhead, hnodup, hmem⟩ := search_spec h.lists_basesOf hfuel c
  rw [fallback, depthFirst_eq_search]
  exact ⟨hhead, hnodup, hmem⟩

theorem lookupOrder_resolutionOrder (c : ClassId) : h.LookupOrder c (h.resolutionOrder c) := by
  unfold resolutionOrder
  cases hl : h.linearize? c with
  | none => exact h.lookupOrder_fallback c
  | some l => exact (linear_of_linearize? hl).toLookupOrder

end Hierarchy

def Declarations.hierarchy (p : Declarations) : Hierarchy := p.classes.map (·.bases)

theorem Declarations.basesOf_hierarchy (p : Declarations) (c : ClassId) :
    p.hierarchy.basesOf c = (p.cls c).bases := by
  rw [Hierarchy.basesOf, hierarchy, Array.getElem?_map, cls]
  cases p.classes[c]? <;> rfl

/-- An expression stands for a class: it is a name, and the statement of the class is the only definition behind it,
through whatever imports. -/
def Declarations.StandsFor (p : Declarations) (scope : ScopeId) (base : Node) (c : ClassId) : Prop :=
  ∃ name owner definition, base.kind = .name name ∧ (p.scopes.resolve scope name).scope? = some owner ∧
    p.OnlyDefinition (owner, name) definition ∧ p.classOf? definition = some c

namespace Program

variable {n : Names}

/-- Classes have the numbers of their places and are found under their nodes. -/
structure Registered (classes : Array ClassInfo) (byNode : Std.ExtTreeMap NodeId ClassId) : Prop where
  numbered : ∀ {i : ClassId} {c}, classes[i]? = some c → c.id = i
  filed : ∀ {k : NodeId} {i : ClassId}, byNode[k]? = some i → ∃ c, classes[i]? = some c ∧ c.node.id = k

theorem Registered.addClass {acc : Array ClassInfo × Std.ExtTreeMap NodeId ClassId} (h : Registered acc.1 acc.2)
    (u : UnitInfo) : Registered (addClass n acc u).1 (addClass n acc u).2 := by
  unfold Program.addClass
  split
  · exact h
  · constructor
    · intro i c hc
      rw [Array.getElem?_push] at hc
      split at hc
      next hi =>
        cases hc
        exact hi.symm
      next => exact h.numbered hc
    · intro k i hi
      rw [Std.ExtTreeMap.getElem?_insert] at hi
      split at hi
      next hk =>
        cases hi
        exact ⟨_, Array.getElem?_push_size, Std.LawfulEqOrd.eq_of_compare hk⟩
      next =>
        obtain ⟨c, hc, hk⟩ := h.filed hi
        obtain ⟨hlt, rfl⟩ := Array.getElem?_eq_some_iff.1 hc
        exact ⟨_, Array.getElem?_push_lt hlt, hk⟩

theorem exists_registered (tree : SyntaxTree) (settings : Settings) :
    ∃ classes, Registered classes (ofTree tree settings).classByNode ∧
      (ofTree tree settings).classes = classes.map (fun c =>
        { c with
          bases := basesOf (Names.ofTree tree) (ofTree tree settings).classByNode c
          mro := (ofTree tree settings).hierarchy.resolutionOrder c.id }) ∧
      (ofTree tree settings).diagnostics = ((ofTree tree settings).classes.toList.filter fun c =>
        ((ofTree tree settings).hierarchy.linearize? c.id).isNone).map conflict := by
  set n := Names.ofTree tree
  set found := (findUnits n.scopes).1.foldl (addClass n) (#[], ∅)
  have hregistered : Registered found.1 found.2 := by
    refine Array.foldl_induction
      (motive := fun _ (acc : Array ClassInfo × Std.ExtTreeMap NodeId ClassId) => Registered acc.1 acc.2) ?_ ?_
    · exact ⟨by simp, by simp⟩
    · exact fun _ _ h => h.addClass _
  have hhierarchy : (ofTree tree settings).hierarchy = (found.1.map fun c => basesOf n found.2 c) := by
    simp [Declarations.hierarchy, ofTree, n, found, Function.comp_def]
  have hclasses : (ofTree tree settings).classes = found.1.map fun c =>
      { c with
        bases := basesOf n found.2 c
        mro := (ofTree tree settings).hierarchy.resolutionOrder c.id } := by
    rw [hhierarchy]
    simp [ofTree, n, found, Function.comp_def]
  refine ⟨found.1, hregistered, hclasses, ?_⟩
  have hrecorded : (ofTree tree settings).diagnostics =
      ((found.1.map fun c => { c with bases := basesOf n found.2 c }).toList.filter fun c =>
        ((ofTree tree settings).hierarchy.linearize? c.id).isNone).map conflict := by
    rw [hhierarchy]
    simp [ofTree, n, found, Function.comp_def]
  rw [hrecorded, hclasses]
  simp only [Array.toList_map, List.filter_map, List.map_map]
  rfl

/-- What a program records of its classes: the classes that their base expressions name, the order in which each is
looked up, and a report where that is not the preferred one. -/
structure RecordsClasses (p : Program) : Prop where
  basesOf_eq : ∀ c < p.classes.size, p.hierarchy.basesOf c = basesOf p.toNames p.classByNode (p.cls c)
  mro_eq : ∀ c < p.classes.size, p.mro c = p.hierarchy.resolutionOrder c
  lt_size : ∀ {k c}, p.classOf? k = some c → c < p.classes.size
  diagnostics_eq : p.diagnostics =
    ((List.range p.classes.size).filter fun c => (p.hierarchy.linearize? c).isNone).map fun c => conflict (p.cls c)

theorem recordsClasses_ofTree (tree : SyntaxTree) (settings : Settings) : RecordsClasses (ofTree tree settings) := by
  obtain ⟨classes, hregistered, hclasses, hdiagnostics⟩ := exists_registered tree settings
  set p := ofTree tree settings
  have hsize : p.classes.size = classes.size := by rw [hclasses, Array.size_map]
  have hcls : ∀ {c info}, classes[c]? = some info → p.cls c =
      { info with bases := basesOf p.toNames p.classByNode info, mro := p.hierarchy.resolutionOrder c } := by
    intro c info hinfo
    rw [Declarations.cls, hclasses, Array.getElem?_map, hinfo, ← hregistered.numbered hinfo]
    rfl
  have hinfo : ∀ c < p.classes.size, ∃ info, classes[c]? = some info :=
    fun c hc => ⟨_, Array.getElem?_eq_getElem (hsize ▸ hc)⟩
  refine ⟨fun c hc => ?_, fun c hc => ?_, fun hk => ?_, ?_⟩
  · obtain ⟨info, hinfo⟩ := hinfo c hc
    rw [Declarations.basesOf_hierarchy, hcls hinfo]
    rfl
  · obtain ⟨info, hinfo⟩ := hinfo c hc
    rw [Declarations.mro, hcls hinfo]
  · obtain ⟨info, hinfo, -⟩ := hregistered.filed hk
    rw [hsize]
    exact (Array.getElem?_eq_some_iff.1 hinfo).1
  · have hid : ∀ c ∈ List.range p.classes.size, (p.cls c).id = c := by
      intro c hc
      obtain ⟨info, hinfo⟩ := hinfo c (List.mem_range.1 hc)
      have hnumber := hregistered.numbered hinfo
      rwa [hcls hinfo]
    have hlist : p.classes.toList = (List.range p.classes.size).map p.cls :=
      toList_eq_map_range fun c info hc => by rw [Declarations.cls, hc, Option.getD_some]
    rw [hdiagnostics, hlist, List.filter_map, List.map_map]
    congr 1
    exact List.filter_congr fun c hc => by rw [Function.comp_apply, hid c hc]

theorem baseClass?_eq_some_iff {p : Declarations} {scope : ScopeId} {base : Node} {c : ClassId} :
    baseClass? p.toNames p.classByNode scope base = some c ↔ p.StandsFor scope base c := by
  unfold baseClass? Declarations.StandsFor
  simp only [← Names.definitionsThroughImports_eq_singleton_iff]
  split
  next name hkind =>
    simp only [hkind, Kind.name.injEq, exists_eq_left', exists_and_left, Option.bind_eq_bind,
      Option.bind_eq_some_iff]
    refine exists_congr fun owner => and_congr_right fun _ => ?_
    split
    next definition hdefinition => simp [hdefinition, Declarations.classOf?]
    next hmany =>
      refine ⟨nofun, ?_⟩
      rintro ⟨definition, hdefinition, -⟩
      exact (hmany definition hdefinition).elim
  next hkind =>
    refine ⟨nofun, ?_⟩
    rintro ⟨name, -, -, hname, -⟩
    exact (hkind name hname).elim

theorem RecordsClasses.hasBase_iff {p : Program} (hp : RecordsClasses p) {c b : ClassId} :
    p.hierarchy.HasBase c b ↔ c < p.classes.size ∧ ∃ base ∈ (p.cls c).node.children.drop 1,
      p.StandsFor ((p.scopes.scope (p.cls c).scope).parent.getD 0) base b := by
  simp only [← baseClass?_eq_some_iff, ← List.mem_filterMap]
  constructor
  · intro hb
    have hc : c < p.classes.size := by simpa [Declarations.hierarchy] using hb.lt_size
    rw [Hierarchy.HasBase, hp.basesOf_eq c hc] at hb
    exact ⟨hc, hb⟩
  · rintro ⟨hc, hb⟩
    rwa [Hierarchy.HasBase, hp.basesOf_eq c hc]

theorem RecordsClasses.lt_size_of_inherits {p : Program} (hp : RecordsClasses p) {c d : ClassId}
    (hc : c < p.classes.size) (h : p.hierarchy.Inherits c d) : d < p.classes.size := by
  rcases Relation.ReflTransGen.cases_tail h with rfl | ⟨b, -, hbd⟩
  · exact hc
  · obtain ⟨-, base, -, name, owner, definition, -, -, -, hd⟩ := hp.hasBase_iff.1 hbd
    exact hp.lt_size hd

/-- Every class of a program is looked up in an order that starts with it and has exactly what it inherits from, each
class once. Its bases are the classes that its base expressions stand for, and a conflict is reported for exactly the
classes that have no preferred order. -/
theorem lookup_orders (tree : SyntaxTree) (settings : Settings) :
    let p := ofTree tree settings
    (∀ c < p.classes.size, (p.mro c).head? = some c ∧ (p.mro c).Nodup ∧
      (∀ d, d ∈ p.mro c ↔ p.hierarchy.Inherits c d) ∧ ∀ d ∈ p.mro c, d < p.classes.size) ∧
    (∀ c b, p.hierarchy.HasBase c b ↔ c < p.classes.size ∧ ∃ base ∈ (p.cls c).node.children.drop 1,
      p.StandsFor ((p.scopes.scope (p.cls c).scope).parent.getD 0) base b) ∧
    p.diagnostics = ((List.range p.classes.size).filter fun c => (p.hierarchy.linearize? c).isNone).map
      fun c => conflict (p.cls c) := by
  intro p
  have hrecords : RecordsClasses p := recordsClasses_ofTree tree settings
  refine ⟨fun c hc => ?_, fun c b => hrecords.hasBase_iff, hrecords.diagnostics_eq⟩
  have horder := p.hierarchy.lookupOrder_resolutionOrder c
  rw [hrecords.mro_eq c hc]
  exact ⟨horder.head, horder.nodup, horder.mem_iff,
    fun d hd => hrecords.lt_size_of_inherits hc ((horder.mem_iff d).1 hd)⟩

open Build in
/-- Two modules that import a class from each other for the base of their own one, and a class with two bases. -/
def importRing : List (String × RawNode) :=
  [("m", module [importFrom "n" ["b"], classDef "a" [name "b"] [pass]]),
    ("n", module [importFrom "m" ["a"], classDef "b" [name "a"] [pass], classDef "c" [] [pass],
      classDef "d" [name "c", name "b"] [pass]])]

/-- The two classes inherit from each other, so that neither they nor what inherits from them has a preferred
order. -/
theorem lookup_orders_on_importRing : ∃ tree, SyntaxTree.ofModules importRing = .ok tree ∧
    3 < (ofTree tree {}).classes.size ∧ (ofTree tree {}).mro 3 = [3, 2, 1, 0] ∧
    (∀ d, d ∈ [3, 2, 1, 0] ↔ (ofTree tree {}).hierarchy.Inherits 3 d) ∧
    ((List.range (ofTree tree {}).classes.size).filter fun c =>
      ((ofTree tree {}).hierarchy.linearize? c).isNone) = [0, 1, 3] ∧
    (ofTree tree {}).diagnostics = [0, 1, 3].map fun c => conflict ((ofTree tree {}).cls c) := by
  have h : (match SyntaxTree.ofModules importRing with
      | .ok tree => decide (3 < (ofTree tree {}).classes.size ∧ (ofTree tree {}).mro 3 = [3, 2, 1, 0] ∧
        ((List.range (ofTree tree {}).classes.size).filter fun c =>
          ((ofTree tree {}).hierarchy.linearize? c).isNone) = [0, 1, 3])
      | .error _ => false) = true := by decide +kernel
  split at h
  next tree htree =>
    obtain ⟨hsize, hmro, hrejected⟩ := of_decide_eq_true h
    obtain ⟨horders, -, hdiagnostics⟩ := lookup_orders tree {}
    refine ⟨tree, htree, hsize, hmro, ?_, hrejected, ?_⟩
    · rw [← hmro]
      exact (horders 3 hsize).2.2.1
    · rw [← hrejected]
      exact hdiagnostics
  next => cases h

end Program

end PointsTo
