import PointsTo.Proofs.Mapping
import PointsTo.Proofs.Search
import PointsTo.Scope.Import

/-! # Definitions behind imports

A variable that an import binds copies a variable of another module, and that one may be bound by an import in turn.
Chains of imports may come back to where they started; the search for the definitions that a name stands for follows
each variable once, so it collects the definitions of exactly the variables that the chains lead to. -/

namespace PointsTo
namespace Names

open List

variable (n : Names)

/-- The variable that an import alias copies. -/
def importedVariable? (item : Node) : Option (ScopeId × String) :=
  match n.importedGlobal? item with
  | some (.var s x) => some (s, x)
  | _ => none

theorem importedVariables_eq (s : ScopeId) (name : String) :
    n.importedVariables s name = (n.scopes.imports s name).filterMap n.importedVariable? := rfl

def copied (v : ScopeId × String) : List (ScopeId × String) := (n.importedVariables v.1 v.2).reverse

/-- A variable copies another one through a chain of imports, or is that variable. -/
def Copies (n : Names) : ScopeId × String → ScopeId × String → Prop :=
  Relation.ReflTransGen fun v w => w ∈ n.importedVariables v.1 v.2

def definitionsOf (v : ScopeId × String) : List NodeId := n.scopes.definitions v.1 v.2

/-- Where the search for definitions stands: the variables on the stack, those that have been seen, and what has been
found. -/
abbrev Collecting : Type := List (ScopeId × String) × List (ScopeId × String) × List NodeId

/-- One round of the search: the variable on top of the stack is dropped if it has been seen. Else its definitions are
taken up, and the variables that it copies go on the stack. -/
def collectStep : Collecting → Collecting
  | ([], seen, found) => ([], seen, found)
  | (v :: stack, seen, found) =>
    if seen.contains v then (stack, seen, found)
    else ((n.importedVariables v.1 v.2).reverse ++ stack, v :: seen, found ++ n.scopes.definitions v.1 v.2)

theorem collectDefinitions_eq_iterate (fuel : Nat) (stack seen : List (ScopeId × String)) (found : List NodeId) :
    n.collectDefinitions fuel stack seen found = (n.collectStep^[fuel] (stack, seen, found)).2.2 := by
  induction fuel generalizing stack seen found with
  | zero => cases stack <;> rfl
  | succ fuel ih =>
    cases stack with
    | nil =>
      rw [Function.iterate_fixed rfl]
      rfl
    | cons v stack =>
      obtain ⟨s, name⟩ := v
      rw [Function.iterate_succ_apply, collectDefinitions, collectStep]
      split <;> exact ih ..

def collected (a : List (ScopeId × String) × List (ScopeId × String)) : Collecting :=
  (a.1, a.2.reverse, a.2.flatMap n.definitionsOf)

theorem semiconj_collected : Function.Semiconj n.collected (searchStep n.copied) n.collectStep := by
  rintro ⟨_ | ⟨v, stack⟩, met⟩
  · rfl
  · by_cases hmet : v ∈ met
    · simp [searchStep, collected, collectStep, hmet]
    · simp [searchStep, collected, collectStep, hmet, copied, definitionsOf]

theorem iterate_collectStep (fuel : Nat) (stack met : List (ScopeId × String)) :
    n.collectStep^[fuel] (stack, met.reverse, met.flatMap n.definitionsOf) =
      n.collected ((searchStep n.copied)^[fuel] (stack, met)) :=
  ((n.semiconj_collected.iterate_right fuel).eq (stack, met)).symm

theorem collectDefinitions_eq_search (fuel : Nat) (stack met : List (ScopeId × String)) :
    n.collectDefinitions fuel stack met.reverse (met.flatMap n.definitionsOf) =
      (search n.copied fuel stack met).flatMap n.definitionsOf := by
  rw [collectDefinitions_eq_iterate, iterate_collectStep, search_eq_iterate]
  rfl

def importTable : List (ScopeId × String × List Node) :=
  (List.range n.scopes.size).flatMap fun s => (n.scopes.scope s).imports.map fun e => (s, e)

theorem lists_copied :
    Lists n.copied (fun e => some (e.1, e.2.1)) (fun e => e.2.2.filterMap n.importedVariable?) n.importTable := by
  rintro ⟨s, name⟩
  rw [copied, length_reverse, importedVariables_eq]
  cases hfind : (n.scopes.scope s).imports.find? (·.1 == name) with
  | none => simp [ScopeTree.imports, valuesUnder, hfind]
  | some e =>
    have himports : n.scopes.imports s name = e.2 := by simp [ScopeTree.imports, valuesUnder, hfind]
    have hsize : s < n.scopes.size := by
      by_contra hs
      have hscope : n.scopes.scope s = default := by
        simp [ScopeTree.scope, Array.getElem?_eq_none (Nat.le_of_not_lt hs)]
      rw [hscope] at hfind
      cases hfind
    have hname : e.1 = name := by simpa using find?_some hfind
    have hmem : (s, e) ∈ n.importTable.filter fun e => some (e.1, e.2.1) == some (s, name) := by
      refine mem_filter.2 ⟨mem_flatMap.2 ⟨s, mem_range.2 hsize, ?_⟩, by simp [hname]⟩
      exact List.mem_map_of_mem (mem_of_find?_eq_some hfind)
    rw [himports, flatMap_def]
    have hentry := List.mem_map_of_mem (f := fun e => e.2.2.filterMap n.importedVariable?) hmem
    exact (sublist_flatten_of_mem hentry).length_le

theorem length_importTable_le :
    (n.importTable.flatMap fun e => e.2.2.filterMap n.importedVariable?).length ≤ n.importCount := by
  have hscopes : n.scopes.scopes.toList = (List.range n.scopes.size).map n.scopes.scope :=
    toList_eq_map_range fun i s hs => by simp [ScopeTree.scope, hs]
  have htable : (n.importTable.flatMap fun e => e.2.2.filterMap n.importedVariable?) =
      (n.scopes.scopes.toList.flatMap fun s => s.imports.flatMap fun e => e.2).filterMap n.importedVariable? := by
    simp [importTable, hscopes, flatMap_assoc, filterMap_flatMap, flatMap_map]
  rw [htable, importCount]
  exact length_filterMap_le ..

theorem length_importTable_lt :
    (n.importTable.flatMap fun e => e.2.2.filterMap n.importedVariable?).length < 1 + n.importCount := by
  have := n.length_importTable_le
  omega

/-- A name stands for the definitions of all the variables that its own one copies, each variable counted once. -/
theorem definitionsThroughImports_eq (owner : ScopeId) (name : String) :
    ∃ vars : List (ScopeId × String), vars.Nodup ∧ (∀ v, v ∈ vars ↔ n.Copies (owner, name) v) ∧
      n.definitionsThroughImports owner name = vars.flatMap n.definitionsOf := by
  obtain ⟨-, hnodup, hmem⟩ := search_spec n.lists_copied n.length_importTable_lt (owner, name)
  have hleads : LeadsTo n.copied = fun v w => w ∈ n.importedVariables v.1 v.2 := by
    funext v w
    exact propext mem_reverse
  rw [hleads] at hmem
  exact ⟨_, hnodup, hmem, n.collectDefinitions_eq_search _ _ []⟩

/-- The only definition of a variable and of all those that it copies. -/
def OnlyDefinition (v : ScopeId × String) (definition : NodeId) : Prop :=
  ∃ w, n.Copies v w ∧ n.definitionsOf w = [definition] ∧ ∀ u, n.Copies v u → u ≠ w → n.definitionsOf u = []

theorem definitionsThroughImports_eq_singleton_iff {owner : ScopeId} {name : String} {definition : NodeId} :
    n.definitionsThroughImports owner name = [definition] ↔ n.OnlyDefinition (owner, name) definition := by
  obtain ⟨vars, hnodup, hvars, heq⟩ := n.definitionsThroughImports_eq owner name
  simp only [heq, flatMap_eq_singleton_iff hnodup, hvars, OnlyDefinition]

/-! ## Chains of imports -/

/-- An import alias copies a variable of a module of the program: the alias names it in an import out of that module,
and the module binds the name, or else no module of the program has the dotted name. -/
def CopiesGlobal (item : Node) (v : ScopeId × String) : Prop :=
  ∃ asName stmt module, item.kind = .alias v.2 asName ∧ item.parent = some stmt ∧
    n.tree.kind stmt = .importFrom module ∧ n.scopes.moduleNamed? module = some v.1 ∧
    (v.2 ∈ (n.scopes.scope v.1).bindings ∨ n.scopes.moduleNamed? (module ++ "." ++ v.2) = none)

/-- One of the aliases that bind a variable copies another variable. -/
def Follows (v w : ScopeId × String) : Prop := ∃ item ∈ n.scopes.imports v.1 v.2, n.CopiesGlobal item w

theorem global?_moduleMember?_eq_some_iff {module x : String} {l : Location} :
    (n.moduleMember? module x).bind ModuleMember.global? = some l ↔
      ∃ s, l = .var s x ∧ n.scopes.moduleNamed? module = some s ∧
        (x ∈ (n.scopes.scope s).bindings ∨ n.scopes.moduleNamed? (module ++ "." ++ x) = none) := by
  unfold moduleMember?
  cases howner : n.scopes.moduleNamed? module with
  | none =>
    dsimp only
    split <;> simp [ModuleMember.global?]
  | some s =>
    dsimp only
    by_cases hbound : x ∈ (n.scopes.scope s).bindings
    · simp [ModuleMember.global?, hbound, eq_comm]
    · cases hdotted : n.scopes.moduleNamed? (module ++ "." ++ x) with
      | none => simp [ModuleMember.global?, hbound, eq_comm]
      | some s' => simp [ModuleMember.global?, hbound]

theorem importedGlobal?_eq_some_iff {item : Node} {v : ScopeId × String} :
    n.importedGlobal? item = some (.var v.1 v.2) ↔ n.CopiesGlobal item v := by
  unfold importedGlobal? parentKind?
  constructor
  · intro h
    split at h
    next x asName module hkind hparent =>
      obtain ⟨stmt, hstmt, htree⟩ := Option.map_eq_some_iff.1 hparent
      obtain ⟨s, hv, howner, hfree⟩ := n.global?_moduleMember?_eq_some_iff.1 h
      obtain ⟨rfl, rfl⟩ := Location.var.inj hv
      exact ⟨asName, stmt, module, hkind, hstmt, htree, howner, hfree⟩
    next => cases h
  · rintro ⟨asName, stmt, module, hkind, hstmt, htree, howner, hfree⟩
    rw [hkind, hstmt, Option.map_some, htree]
    exact n.global?_moduleMember?_eq_some_iff.2 ⟨v.1, rfl, howner, hfree⟩

theorem mem_importedVariables_iff {v w : ScopeId × String} : w ∈ n.importedVariables v.1 v.2 ↔ n.Follows v w := by
  rw [importedVariables_eq, mem_filterMap]
  refine exists_congr fun item => and_congr_right fun _ => ?_
  rw [← importedGlobal?_eq_some_iff, importedVariable?]
  constructor
  · intro h
    split at h
    next s x hglobal => rw [hglobal, ← Option.some.inj h]
    next => cases h
  · intro h
    rw [h]

/-- The search for the definitions behind a name comes to an end with an empty stack, even if modules import names from
each other in circles. It has then seen exactly the variables that chains of imports lead to, each of them once, and it
has found the definitions that are recorded for them and no others. -/
theorem definitions_behind_imports (owner : ScopeId) (name : String) :
    ∃ vars : List (ScopeId × String), vars.Nodup ∧
      (∀ v, v ∈ vars ↔ Relation.ReflTransGen n.Follows (owner, name) v) ∧
      n.collectStep^[1 + n.importCount] ([(owner, name)], [], []) =
        ([], vars.reverse, n.definitionsThroughImports owner name) ∧
      n.definitionsThroughImports owner name = vars.flatMap fun v => n.scopes.definitions v.1 v.2 := by
  obtain ⟨-, hnodup, hmem⟩ := search_spec n.lists_copied n.length_importTable_lt (owner, name)
  have hleads : LeadsTo n.copied = n.Follows := by
    funext v w
    exact propext (mem_reverse.trans n.mem_importedVariables_iff)
  rw [hleads] at hmem
  have hdefinitions := n.collectDefinitions_eq_search (1 + n.importCount) [(owner, name)] []
  refine ⟨_, hnodup, hmem, ?_, hdefinitions⟩
  have hstack : ((searchStep n.copied)^[1 + n.importCount] ([(owner, name)], [])).1 = [] := by
    refine stack_iterate_searchStep n.lists_copied ?_
    rw [unmet_nil, length_singleton]
    exact Nat.add_le_add_left n.length_importTable_le 1
  have hsearch := search_eq_iterate n.copied (1 + n.importCount) [(owner, name)] []
  refine (n.iterate_collectStep _ _ []).trans ?_
  rw [collected, hstack, ← hsearch, ← hdefinitions]
  rfl

end Names
end PointsTo
