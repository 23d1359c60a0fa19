import Mathlib.Logic.Relation
import PointsTo.Proofs.Mapping
import PointsTo.Proofs.Scope.Outline
import PointsTo.Scope.Resolution
import PointsTo.Tree.Build

/-! # Where a name is found

The scopes around a scope lie one inside the other up to a module, and only modules lie in no other scope. A name is
found in the scope itself, or in the innermost of the scopes around it that bind it, with classes left out, or in the
module, or among the builtins. A declaration that a scope makes of the name cuts the way short: `global` leads to the
module at once, and `nonlocal` leads past the scope that declares it, and never to the module. -/

namespace PointsTo
namespace ScopeTree

open List

variable {t t' : ScopeTree} {s u v p m : ScopeId} {name : String}

section Roots

theorem opening_scope (t : ScopeTree) (s : ScopeId) :
    (t.scope s).opening = t.layout[s]?.getD (default : Scope).opening := by
  rw [layout, getElem?_map, Array.getElem?_toList, scope]
  cases t.scopes[s]? <;> rfl

theorem Silent.opening_scope (h : Silent t t') (s : ScopeId) : (t'.scope s).opening = (t.scope s).opening := by
  rw [ScopeTree.opening_scope, h.layout, ScopeTree.opening_scope]

/-- A scope without a parent is a module and lies in itself. Every other one is no module and lies in the module that
its parent lies in. -/
structure Rooted (t : ScopeTree) : Prop where
  top : ∀ s < t.size, (t.scope s).parent = none → (t.scope s).kind = .module ∧ (t.scope s).module = s
  inside : ∀ s p, (t.scope s).parent = some p →
    p < t.size ∧ (t.scope s).kind ≠ .module ∧ (t.scope s).module = (t.scope p).module

theorem Rooted.silent (ht : t.Rooted) (h : Silent t t') : t'.Rooted := by
  have hkind : ∀ s, (t'.scope s).kind = (t.scope s).kind := fun s => (congrArg Scope.kind (h.opening_scope s) :)
  have hparent : ∀ s, (t'.scope s).parent = (t.scope s).parent := fun s => (congrArg Scope.parent (h.opening_scope s) :)
  have hmodule : ∀ s, (t'.scope s).module = (t.scope s).module := fun s => (congrArg Scope.module (h.opening_scope s) :)
  constructor
  · simpa only [hkind, hparent, hmodule, h.size_eq] using ht.top
  · simpa only [hkind, hparent, hmodule, h.size_eq] using ht.inside

theorem scope_of_size_le (hs : t.size ≤ s) : t.scope s = default := by
  rw [scope, Array.getElem?_eq_none hs, Option.getD_none]

theorem lt_size_of_parent (h : (t.scope s).parent = some p) : s < t.size := by
  refine Nat.lt_of_not_le fun hs => ?_
  rw [scope_of_size_le hs] at h
  cases h

theorem scope_openScope (kind : ScopeKind) (n : Node) (parent : Option ScopeId) (name : String) (hs : s < t.size) :
    (t.openScope kind n parent name).2.scope s = t.scope s := by
  have hs : s < t.scopes.size := hs
  simp [scope, openScope, Array.getElem?_push, Nat.ne_of_lt hs]

theorem scope_openScope_size (kind : ScopeKind) (n : Node) (parent : Option ScopeId) (name : String) :
    ((t.openScope kind n parent name).2.scope t.size).kind = kind ∧
      ((t.openScope kind n parent name).2.scope t.size).parent = parent ∧
      ((t.openScope kind n parent name).2.scope t.size).module = (parent.map t.moduleOf).getD t.size := by
  simp [scope, openScope, size]

theorem Rooted.openScope (ht : t.Rooted) {kind : ScopeKind} (n : Node) {parent : Option ScopeId} (name : String)
    (htop : parent = none → kind = .module) (hinside : ∀ p, parent = some p → p < t.size ∧ kind ≠ .module) :
    (t.openScope kind n parent name).2.Rooted := by
  have hsize := t.size_openScope kind n parent name
  obtain ⟨hkind, hparent, hmodule⟩ := t.scope_openScope_size kind n parent name
  have hold : ∀ {s}, s < t.size → (t.openScope kind n parent name).2.scope s = t.scope s :=
    t.scope_openScope kind n parent name
  have hlt : ∀ {s}, s < t.size → s < (t.openScope kind n parent name).2.size :=
    fun hs => hsize ▸ Nat.lt_succ_of_lt hs
  constructor
  · intro s hs hnone
    rcases Nat.lt_succ_iff_lt_or_eq.1 (hsize ▸ hs) with hs | rfl
    · rw [hold hs] at hnone ⊢
      exact ht.top s hs hnone
    · obtain rfl : parent = none := hparent.symm.trans hnone
      exact ⟨hkind.trans (htop rfl), hmodule⟩
  · intro s p hsome
    rcases Nat.lt_succ_iff_lt_or_eq.1 (hsize ▸ lt_size_of_parent hsome) with hs | rfl
    · rw [hold hs] at hsome ⊢
      obtain ⟨hp, hkind, hmodule⟩ := ht.inside s p hsome
      exact ⟨hlt hp, hkind, by rw [hold hp, hmodule]⟩
    · obtain rfl : parent = some p := hparent.symm.trans hsome
      obtain ⟨hp, hne⟩ := hinside p rfl
      refine ⟨hlt hp, fun h => hne (hkind.symm.trans h), ?_⟩
      rw [hold hp, hmodule]
      rfl

theorem Rooted.grows (ht : t.Rooted) (h : Grows t t') : t'.Rooted := by
  induction h with
  | silent h => exact ht.silent h
  | openModule n name => exact ht.openScope n name (fun _ => rfl) nofun
  | openInside n name hkind hp => exact ht.openScope n name nofun (by rintro _ ⟨⟩; exact ⟨hp, hkind⟩)
  | trans _ _ ih ih' => exact ih' (ih ht)

theorem rooted_ofTree (tree : SyntaxTree) : (ofTree tree).Rooted :=
  Rooted.grows ⟨fun _ h => absurd h (Nat.not_lt_zero _), fun _ _ h => by cases h⟩ (grows_ofTree tree)

end Roots

section Ancestors

def Around (t : ScopeTree) (s p : ScopeId) : Prop := (t.scope s).parent = some p

theorem around_iff : t.Around s p ↔ (t.scope s).parent = some p := .rfl

def Encloses (t : ScopeTree) (u s : ScopeId) : Prop := Relation.TransGen t.Around s u

theorem Encloses.trans (h : t.Encloses u v) (h' : t.Encloses v s) : t.Encloses u s := Relation.TransGen.trans h' h

variable (ht : t.Ordered)
include ht

theorem Ordered.lt_of_encloses (h : t.Encloses u s) : u < s := by
  induction h with
  | single h => exact ht.parent_lt h
  | tail _ h ih => exact Nat.lt_trans (ht.parent_lt h) ih

theorem ancestry_eq (hs : s < t.size) : t.ancestry s = s :: match (t.scope s).parent with
      | some p => t.ancestry p
      | none => [] := by
  rw [ancestry, chain_eq_chain ht hs (Nat.lt_succ_of_lt hs), chain]
  rfl

theorem mem_ancestry (hs : s < t.size) : u ∈ t.ancestry s ↔ Relation.ReflTransGen t.Around s u := by
  induction s using Nat.strongRecOn with
  | ind s ih =>
    rw [ancestry_eq ht hs, mem_cons, Relation.ReflTransGen.cases_head_iff, eq_comm]
    refine or_congr_right ?_
    cases hparent : (t.scope s).parent with
    | none => simp [around_iff, hparent]
    | some p =>
      have hp := ht.parent_lt hparent
      simpa [around_iff, hparent] using ih p hp (Nat.lt_trans hp hs)

theorem mem_outer (hs : s < t.size) : u ∈ (t.ancestry s).drop 1 ↔ t.Encloses u s := by
  rw [ancestry_eq ht hs, drop_one, tail_cons, Encloses, Relation.TransGen.head'_iff]
  cases hparent : (t.scope s).parent with
  | none => simp [around_iff, hparent]
  | some p => simpa [around_iff, hparent] using mem_ancestry ht (Nat.lt_trans (ht.parent_lt hparent) hs)

theorem pairwise_ancestry (hs : s < t.size) : (t.ancestry s).Pairwise fun v u => t.Encloses u v := by
  induction s using Nat.strongRecOn with
  | ind s ih =>
    rw [ancestry_eq ht hs, pairwise_cons]
    refine ⟨fun u hu => (mem_outer ht hs).1 (by rwa [ancestry_eq ht hs]), ?_⟩
    cases hparent : (t.scope s).parent with
    | none => exact .nil
    | some p =>
      have hp := ht.parent_lt hparent
      exact ih p hp (Nat.lt_trans hp hs)

omit ht

/-- The module of a scope: where the way up from the scope ends. -/
structure IsModuleOf (t : ScopeTree) (m s : ScopeId) : Prop where
  kind : (t.scope m).kind = .module
  up : Relation.ReflTransGen t.Around s m
  top : (t.scope m).parent = none

theorem isModuleOf_module (ht : t.Ordered) (hr : t.Rooted) (hs : s < t.size) : t.IsModuleOf (t.scope s).module s := by
  induction s using Nat.strongRecOn with
  | ind s ih =>
    cases hparent : (t.scope s).parent with
    | none =>
      obtain ⟨hkind, hmodule⟩ := hr.top s hs hparent
      rw [hmodule]
      exact ⟨hkind, .refl, hparent⟩
    | some p =>
      obtain ⟨hp, -, hmodule⟩ := hr.inside s p hparent
      obtain ⟨hkind, hup, htop⟩ := ih p (ht.parent_lt hparent) hp
      rw [hmodule]
      exact ⟨hkind, .head hparent hup, htop⟩

theorem Rooted.isModuleOf_self (hr : t.Rooted) (hkind : (t.scope s).kind = .module) : t.IsModuleOf s s := by
  refine ⟨hkind, .refl, ?_⟩
  cases hparent : (t.scope s).parent with
  | none => rfl
  | some p => exact absurd hkind (hr.inside s p hparent).2.1

end Ancestors

section Sight

/-- Names bound in the scope are seen from the scopes inside it. The names of a class are not, and those of a module
are globals. -/
def IsVisible (t : ScopeTree) (u : ScopeId) : Prop := (t.scope u).kind ≠ .cls ∧ (t.scope u).kind ≠ .module

def Binds (t : ScopeTree) (u : ScopeId) (name : String) : Prop := name ∈ (t.scope u).bindings

def DeclaresGlobal (t : ScopeTree) (u : ScopeId) (name : String) : Prop := name ∈ (t.scope u).globals

def DeclaresNonlocal (t : ScopeTree) (u : ScopeId) (name : String) : Prop := name ∈ (t.scope u).nonlocals

instance : Decidable (t.Binds u name) := inferInstanceAs (Decidable (_ ∈ _))

instance : Decidable (t.DeclaresGlobal u name) := inferInstanceAs (Decidable (_ ∈ _))

instance : Decidable (t.DeclaresNonlocal u name) := inferInstanceAs (Decidable (_ ∈ _))

/-- The scopes that a name is looked for in before its module: the scope that refers to it and those around it that
are visible. -/
def Sees (t : ScopeTree) (s u : ScopeId) : Prop := u = s ∨ t.Encloses u s ∧ t.IsVisible u

/-- The scope around `s` binds the name, and none that is visible between the two does. -/
structure Innermost (t : ScopeTree) (s u : ScopeId) (name : String) : Prop where
  around : t.Encloses u s
  visible : t.IsVisible u
  binds : t.Binds u name
  nearest : ∀ v, t.Encloses u v → t.Encloses v s → t.IsVisible v → ¬ t.Binds v name

section

variable (ht : t.Ordered) (hr : t.Rooted) (hs : s < t.size)
include ht hr hs

/-- Only the last scope on the way up is a module, so the walk that stops at a module leaves out no other scope. -/
theorem functionAncestors_eq : t.functionAncestors s =
    ((t.ancestry s).drop 1).filter fun u => (t.scope u).kind != .cls && (t.scope u).kind != .module := by
  rw [functionAncestors, takeWhile_eq_filter, List.filter_filter]
  refine ((pairwise_ancestry ht hs).sublist (drop_sublist 1 _)).imp fun h _ => ?_
  obtain ⟨p, hp, -⟩ := Relation.TransGen.head'_iff.1 h
  simpa using (hr.inside _ p hp).2.1

theorem mem_functionAncestors : u ∈ t.functionAncestors s ↔ t.Encloses u s ∧ t.IsVisible u := by
  simp [functionAncestors_eq ht hr hs, mem_outer ht hs, IsVisible, -drop_one]

variable {before after : List ScopeId}

/-- A visible scope around `s` lies before, at or around each other one. -/
theorem split_functionAncestors
    (hsplit : t.functionAncestors s = before ++ u :: after) (hv : t.Encloses v s) (hvisible : t.IsVisible v) :
    v ∈ before ∨ v = u ∨ t.Encloses v u := by
  have hmem := (mem_functionAncestors ht hr hs).2 ⟨hv, hvisible⟩
  have hpair : (t.functionAncestors s).Pairwise fun v u => t.Encloses u v := by
    rw [functionAncestors_eq ht hr hs]
    exact ((pairwise_ancestry ht hs).sublist (drop_sublist 1 _)).filter _
  rw [hsplit] at hmem hpair
  rw [mem_append, mem_cons] at hmem
  exact hmem.imp_right (.imp_right fun h => rel_of_pairwise_cons (pairwise_append.1 hpair).2.1 h)

theorem innermost_of_split
    (hsplit : t.functionAncestors s = before ++ u :: after) (hbefore : ∀ v ∈ before, ¬ t.Binds v name)
    (hu : t.Binds u name) : t.Innermost s u name := by
  obtain ⟨haround, hvisible⟩ := (mem_functionAncestors ht hr hs).1 (hsplit ▸ by simp : u ∈ t.functionAncestors s)
  refine ⟨haround, hvisible, hu, fun v huv hvs hv => ?_⟩
  have hlt := ht.lt_of_encloses huv
  rcases split_functionAncestors ht hr hs hsplit hvs hv with h | rfl | h
  · exact hbefore v h
  · exact absurd hlt (Nat.lt_irrefl _)
  · exact absurd (ht.lt_of_encloses h) (Nat.lt_asymm hlt)

/-- What is innermost around a scope on the way up is innermost from below when nothing up to that scope binds the
name. -/
theorem Innermost.of_split
    (hsplit : t.functionAncestors s = before ++ v :: after) (hbefore : ∀ w ∈ before, ¬ t.Binds w name)
    (hv : ¬ t.Binds v name) (h : t.Innermost v u name) : t.Innermost s u name := by
  have haround := ((mem_functionAncestors ht hr hs).1 (hsplit ▸ by simp : v ∈ t.functionAncestors s)).1
  refine ⟨h.around.trans haround, h.visible, h.binds, fun w huw hws hw => ?_⟩
  rcases split_functionAncestors ht hr hs hsplit hws hw with hmem | rfl | hwv
  · exact hbefore w hmem
  · exact hv
  · exact h.nearest w huw hwv hw

end

end Sight

section Finding

/-- What is known of the place that a name seen from a scope leads to. -/
def FoundAt (t : ScopeTree) (s : ScopeId) (name : String) : Resolution → Prop
  | .here u => u = s ∧ t.Binds s name
  | .enclosing u => t.Innermost s u name
  | .global m => t.IsModuleOf m s ∧ t.Binds m name
  | .builtin => Builtin.isBuiltin name = true ∧ ∃ m, t.IsModuleOf m s ∧ ¬ t.Binds m name
  | .unresolved =>
    (Builtin.isBuiltin name = false ∧ ∃ m, t.IsModuleOf m s ∧ ¬ t.Binds m name) ∨
    ∃ d, t.Sees s d ∧ t.DeclaresNonlocal d name ∧ ∀ u, t.Encloses u d → t.IsVisible u → ¬ t.Binds u name

theorem foundAt_resolveGlobal (hm : t.IsModuleOf m s) (name : String) : t.FoundAt s name (t.resolveGlobal m name) := by
  unfold resolveGlobal
  split
  next h => exact ⟨hm, contains_iff_mem.1 h⟩
  next h =>
    have hm' : ¬ t.Binds m name := fun h' => h (contains_iff_mem.2 h')
    split
    next hb => exact ⟨hb, m, hm, hm'⟩
    next hb => exact .inl ⟨by simpa using hb, m, hm, hm'⟩

theorem resolveOuter_cons (t : ScopeTree) (m : ScopeId) (name : String) (d : ScopeId) (scopes : List ScopeId) :
    t.resolveOuter m name (d :: scopes) =
      if t.DeclaresGlobal d name then t.resolveGlobal m name
      else if t.Binds d name then .enclosing d
      else if t.DeclaresNonlocal d name then t.resolveNonlocal d name
      else t.resolveOuter m name scopes := by
  simp only [resolveOuter, contains_iff_mem]
  rfl

theorem resolve_eq (t : ScopeTree) (s : ScopeId) (name : String) : t.resolve s name =
      if t.DeclaresGlobal s name then t.resolveGlobal (t.scope s).module name
      else if t.DeclaresNonlocal s name then t.resolveNonlocal s name
      else if t.Binds s name then if (t.scope s).kind = .module then .global s else .here s
      else t.resolveOuter (t.scope s).module name (t.functionAncestors s) := by
  simp only [resolve, contains_iff_mem, beq_iff_eq]
  rfl

/-- Where the walk outwards ends: in the module when a scope declares the name global or none says anything of it, and
else at the first scope that binds the name or declares it nonlocal. -/
theorem resolveOuter_cases (t : ScopeTree) (m : ScopeId) (name : String) (scopes : List ScopeId) :
    (t.resolveOuter m name scopes = t.resolveGlobal m name ∧
      ((∃ d ∈ scopes, t.DeclaresGlobal d name) ∨ ∀ u ∈ scopes, ¬ t.Binds u name)) ∨
    ∃ before u after, scopes = before ++ u :: after ∧ (∀ v ∈ before, ¬ t.Binds v name) ∧
      (t.Binds u name ∧ t.resolveOuter m name scopes = .enclosing u ∨
        ¬ t.Binds u name ∧ t.DeclaresNonlocal u name ∧ t.resolveOuter m name scopes = t.resolveNonlocal u name) := by
  induction scopes with
  | nil => exact .inl ⟨rfl, .inr (by simp)⟩
  | cons d scopes ih =>
    rw [resolveOuter_cons]
    split
    next hglobal => exact .inl ⟨rfl, .inl ⟨d, mem_cons_self, hglobal⟩⟩
    split
    next hbinds => exact .inr ⟨[], d, scopes, rfl, by simp, .inl ⟨hbinds, rfl⟩⟩
    split
    next hbinds hnonlocal => exact .inr ⟨[], d, scopes, rfl, by simp, .inr ⟨hbinds, hnonlocal, rfl⟩⟩
    next hbinds _ =>
      rcases ih with ⟨heq, h⟩ | ⟨before, u, after, rfl, hbefore, h⟩
      · refine .inl ⟨heq, h.imp (fun ⟨e, he, h⟩ => ⟨e, mem_cons_of_mem _ he, h⟩) fun h => ?_⟩
        exact forall_mem_cons.2 ⟨hbinds, h⟩
      · exact .inr ⟨d :: before, u, after, rfl, forall_mem_cons.2 ⟨hbinds, hbefore⟩, h⟩

section

variable (ht : t.Ordered) (hr : t.Rooted) (hs : s < t.size)
include ht hr hs

/-- A name that a scope declares nonlocal is found in the innermost scope around it that binds the name, if one does. -/
theorem resolveNonlocal_cases (name : String) :
    (∃ u, t.resolveNonlocal s name = .enclosing u ∧ t.Innermost s u name) ∨
      t.resolveNonlocal s name = .unresolved ∧ ∀ u, t.Encloses u s → t.IsVisible u → ¬ t.Binds u name := by
  unfold resolveNonlocal
  cases hfind : (t.functionAncestors s).find? fun u => (t.scope u).bindings.contains name with
  | none =>
    refine .inr ⟨rfl, fun u hu hv => ?_⟩
    simpa [Binds] using find?_eq_none.1 hfind u ((mem_functionAncestors ht hr hs).2 ⟨hu, hv⟩)
  | some u =>
    obtain ⟨hbinds, before, after, hsplit, hbefore⟩ := find?_eq_some_iff_append.1 hfind
    refine .inl ⟨u, rfl, innermost_of_split ht hr hs hsplit (fun v hv => ?_) (by simpa [Binds] using hbinds)⟩
    simpa [Binds] using hbefore v hv

/-- What decides where a name leads: the module, where a scope in sight sends it or no such scope binds it; the scope
itself; the innermost scope around it that binds the name; or a scope in sight that declares the name nonlocal and has
no scope around it that binds the name. -/
theorem resolve_cases (name : String) : (t.resolve s name = t.resolveGlobal (t.scope s).module name ∧
      ((∃ d, t.Sees s d ∧ t.DeclaresGlobal d name) ∨ ∀ u, t.Sees s u → ¬ t.Binds u name)) ∨
    (t.Binds s name ∧ ((t.scope s).kind = .module ∧ t.resolve s name = .global s ∨ t.resolve s name = .here s)) ∨
    (∃ u, t.Innermost s u name ∧ t.resolve s name = .enclosing u) ∨
    ∃ d, t.Sees s d ∧ t.DeclaresNonlocal d name ∧ (∀ u, t.Encloses u d → t.IsVisible u → ¬ t.Binds u name) ∧
      t.resolve s name = .unresolved := by
  rw [resolve_eq]
  split
  next hglobal => exact .inl ⟨rfl, .inl ⟨s, .inl rfl, hglobal⟩⟩
  split
  next hnonlocal =>
    refine .inr (.inr ?_)
    rcases resolveNonlocal_cases ht hr hs name with ⟨u, heq, hu⟩ | ⟨heq, hnone⟩
    · exact .inl ⟨u, hu, heq⟩
    · exact .inr ⟨s, .inl rfl, hnonlocal, hnone, heq⟩
  split
  next hbinds =>
    refine .inr (.inl ⟨hbinds, ?_⟩)
    split
    next hkind => exact .inl ⟨hkind, rfl⟩
    next => exact .inr rfl
  next hbinds =>
    rcases resolveOuter_cases t (t.scope s).module name (t.functionAncestors s) with
      ⟨heq, h⟩ | ⟨before, d, after, hsplit, hbefore, h⟩
    · refine .inl ⟨heq, h.imp (fun ⟨d, hd, h⟩ => ⟨d, .inr ((mem_functionAncestors ht hr hs).1 hd), h⟩) fun h u hu => ?_⟩
      rcases hu with rfl | hu
      · exact hbinds
      · exact h u ((mem_functionAncestors ht hr hs).2 hu)
    · have hd := (mem_functionAncestors ht hr hs).1 (hsplit ▸ by simp : d ∈ t.functionAncestors s)
      refine .inr (.inr ?_)
      rcases h with ⟨hbinds, heq⟩ | ⟨hbinds, hnonlocal, heq⟩
      · exact .inl ⟨d, innermost_of_split ht hr hs hsplit hbefore hbinds, heq⟩
      · rw [heq]
        rcases resolveNonlocal_cases ht hr (Nat.lt_trans (ht.lt_of_encloses hd.1) hs) name with
          ⟨u, heq, hu⟩ | ⟨heq, hnone⟩
        · exact .inl ⟨u, hu.of_split ht hr hs hsplit hbefore hbinds, heq⟩
        · exact .inr ⟨d, .inr hd, hnonlocal, hnone, heq⟩

theorem foundAt_resolve (name : String) : t.FoundAt s name (t.resolve s name) := by
  have hmodule := isModuleOf_module ht hr hs
  rcases resolve_cases ht hr hs name with
    ⟨heq, -⟩ | ⟨hbinds, ⟨hkind, heq⟩ | heq⟩ | ⟨u, hu, heq⟩ | ⟨d, hd, hdeclares, hnone, heq⟩
  · rw [heq]
    exact foundAt_resolveGlobal hmodule name
  · rw [heq]
    exact ⟨hr.isModuleOf_self hkind, hbinds⟩
  · rw [heq]
    exact ⟨rfl, hbinds⟩
  · rw [heq]
    exact hu
  · rw [heq]
    exact .inr ⟨d, hd, hdeclares, hnone⟩

theorem exists_scope_resolve {d : ScopeId} (hd : t.Sees s d) (hbinds : t.Binds d name)
    (hglobal : ∀ e, t.Sees s e → ¬ t.DeclaresGlobal e name)
    (hnonlocal : ∀ e, t.Sees s e → ¬ t.DeclaresNonlocal e name) :
    ∃ u, (t.resolve s name).scope? = some u ∧ t.Sees s u := by
  rcases resolve_cases ht hr hs name with ⟨-, ⟨e, he, h⟩ | h⟩ | ⟨-, ⟨-, heq⟩ | heq⟩ | ⟨u, hu, heq⟩ | ⟨e, he, h, -⟩
  · exact absurd h (hglobal e he)
  · exact absurd hbinds (h d hd)
  · exact ⟨s, by rw [heq]; rfl, .inl rfl⟩
  · exact ⟨s, by rw [heq]; rfl, .inl rfl⟩
  · exact ⟨u, by rw [heq]; rfl, .inr ⟨hu.around, hu.visible⟩⟩
  · exact absurd h (hnonlocal e he)

end

theorem eq_of_foundAt_cls {r : Resolution} (h : t.FoundAt s name r) (hu : r.scope? = some u)
    (hkind : (t.scope u).kind = .cls) : u = s := by
  cases r with
  | here v =>
    cases hu
    exact h.1
  | enclosing v =>
    cases hu
    exact absurd hkind h.visible.1
  | global v =>
    cases hu
    rw [h.1.kind] at hkind
    cases hkind
  | builtin | unresolved => cases hu

/-- Every name is found in its place: in the scope itself, in the innermost visible scope around it that binds the
name, in the module where the way up ends, or among the builtins. A class is found only from the class itself. A
name that no scope in sight declares is found in sight when a scope in sight binds it. The way up goes to smaller
numbers, so it ends, and no bound on its length above the number of scopes cuts it short. -/
theorem found_in_place {tree : SyntaxTree} (ht : t = ofTree tree) (hs : s < t.size) (name : String) :
    t.FoundAt s name (t.resolve s name) ∧
    (∀ u, (t.resolve s name).scope? = some u → (t.scope u).kind = .cls → u = s) ∧
    ((∀ e, t.Sees s e → ¬ t.DeclaresGlobal e name ∧ ¬ t.DeclaresNonlocal e name) →
      ∀ d, t.Sees s d → t.Binds d name → ∃ u, (t.resolve s name).scope? = some u ∧ t.Sees s u) ∧
    (∀ u p, (t.scope u).parent = some p → p < u) ∧
    (∀ u, u ∈ t.ancestry s ↔ Relation.ReflTransGen t.Around s u) ∧
    ∀ n, t.size ≤ n → t.chain n s = t.ancestry s := by
  subst ht
  have ht := ordered_ofTree tree
  have hr := rooted_ofTree tree
  have hfound := foundAt_resolve ht hr hs name
  refine ⟨hfound, fun u => eq_of_foundAt_cls hfound, fun hclean d hd hbinds => ?_, fun u p => ht.parent_lt,
    fun u => mem_ancestry ht hs, fun n hn => chain_eq_chain ht (Nat.lt_of_lt_of_le hs hn) hs⟩
  exact exists_scope_resolve ht hr hs hd hbinds (fun e he => (hclean e he).1) fun e he => (hclean e he).2

open Build in
/-- A module and a class that bind `x`, and a method with the parameter `y` that holds a lambda. -/
def methodScopes : RawNode :=
  module [assign (Build.name "x") int,
    classDef "c" [] [assign (Build.name "x") int,
      function "f" ["y"] [expr (lambda [] (list (["x", "y", "len"].map Build.name)))]]]

/-- From the lambda, scope 3, the name `x` leads past the class to the module and `y` to the method. The class finds its
own `x`. -/
theorem found_in_place_on_methodScopes : ∃ tree, SyntaxTree.ofModule methodScopes = .ok tree ∧ 3 < (ofTree tree).size ∧
    (ofTree tree).resolve 3 "x" = .global 0 ∧ (ofTree tree).IsModuleOf 0 3 ∧
    (ofTree tree).resolve 3 "y" = .enclosing 2 ∧ (ofTree tree).Innermost 3 2 "y" ∧
    (ofTree tree).resolve 3 "len" = .builtin ∧
    (ofTree tree).resolve 1 "x" = .here 1 ∧ (ofTree tree).Binds 1 "x" := by
  have h : (match SyntaxTree.ofModule methodScopes with
      | .ok tree => decide (3 < (ofTree tree).size ∧ (ofTree tree).resolve 3 "x" = .global 0 ∧
          (ofTree tree).resolve 3 "y" = .enclosing 2 ∧ (ofTree tree).resolve 3 "len" = .builtin ∧
          (ofTree tree).resolve 1 "x" = .here 1)
      | .error _ => false) = true := by decide +kernel
  split at h
  next tree htree =>
    obtain ⟨hsize, hx, hy, hlen, hclass⟩ := of_decide_eq_true h
    have hfound : ∀ {s}, s ≤ 3 → ∀ name, (ofTree tree).FoundAt s name ((ofTree tree).resolve s name) :=
      fun hs name => (found_in_place rfl (Nat.lt_of_le_of_lt hs hsize) name).1
    have hx' := hfound (Nat.le_refl 3) "x"
    have hy' := hfound (Nat.le_refl 3) "y"
    have hclass' := hfound (s := 1) (by decide) "x"
    rw [hx] at hx'
    rw [hy] at hy'
    rw [hclass] at hclass'
    exact ⟨tree, htree, hsize, hx, hx'.1, hy, hy', hlen, hclass, hclass'.2⟩
  next => cases h

end Finding

end ScopeTree
end PointsTo
