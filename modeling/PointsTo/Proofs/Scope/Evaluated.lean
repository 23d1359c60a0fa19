import Mathlib.Data.List.Nodup
import PointsTo.Proofs.Scope.Opening
import PointsTo.Tree.Build

/-! # The scope in which a node is evaluated

A second walk places every node in the scope in which it is evaluated. It goes from a node in a scope to
nodes below it as the walk that opens the scopes does, but it does not look below names and aliases. A node
that opened a scope is evaluated in the parent of that scope, unless it stands below a name or an alias. -/

namespace PointsTo

open List Option ScopeTree
open Node (below_of_mem firstIterable firstOf idsAll idsAll_cons ids_eq)
open SyntaxTree (ofModule)

namespace Node

/-- Names and aliases end the walk that places the nodes. -/
def isTerminal (n : Node) : Bool :=
  match n.kind with
  | .name _ | .alias _ _ => true
  | _ => false

end Node

/-- A node of this number stands below a name or an alias. -/
def SyntaxTree.BelowTerminal (tree : SyntaxTree) (k : NodeId) : Prop :=
  ∃ m ∈ tree.modules, ∃ n ∈ m.2.preorder, n.isTerminal = true ∧ k ∈ idsAll n.children

instance (tree : SyntaxTree) (k : NodeId) : Decidable (tree.BelowTerminal k) :=
  inferInstanceAs (Decidable (∃ m ∈ tree.modules, ∃ n ∈ m.2.preorder, n.isTerminal = true ∧ k ∈ idsAll n.children))

namespace NameTable

section Parts

variable (s inner : ScopeId)

/-- The parts of a definition: blocks belong inside, defaults and all other parts outside. -/
def definitionParts (ns : List Node) : List (ScopeId × Node) :=
  ns.flatMap fun n =>
    if n.kind = .arguments then (n.children.flatMap (·.children)).map (s, ·)
    else [(if n.kind = .block then inner else s, n)]

def lambdaParts (ns : List Node) : List (ScopeId × Node) :=
  (((ns.take 1).flatMap (·.children)).flatMap (·.children)).map (s, ·) ++ ((ns.drop 1).take 1).map (inner, ·)

def firstParts : List Node → List (ScopeId × Node)
  | [] => []
  | [target] => [(inner, target)]
  | target :: iterable :: rest => (inner, target) :: (s, iterable) :: rest.map (inner, ·)

def clauseParts (first : Bool) : List Node → List (ScopeId × Node)
  | [] => []
  | n :: rest =>
    if n.kind = .comprehension then
      (if first then firstParts s inner n.children else n.children.map (inner, ·)) ++ clauseParts false rest
    else (inner, n) :: clauseParts first rest

end Parts

/-- Where the walk that places the nodes goes from a node in a scope. -/
def next (T : ScopeTree) (s : ScopeId) (n : Node) : List (ScopeId × Node) :=
  match n.kind, T.scopeOf? n.id with
  | .functionDef _, some inner | .classDef _, some inner => definitionParts s inner n.children
  | .lambda, some inner => lambdaParts s inner n.children
  | .listComp, some inner | .setComp, some inner | .dictComp, some inner | .generatorExp, some inner =>
    clauseParts s inner true n.children
  | .name _, _ | .alias _ _, _ => []
  | _, _ => n.children.map (s, ·)

/-- Starting at a node in a scope, the walk evaluates this node in this scope. -/
def Evaluates (T : ScopeTree) : ScopeId × Node → ScopeId × Node → Prop :=
  Relation.ReflTransGen fun a b => b ∈ next T a.1 a.2

/-- From one table to the next, the walk goes over these nodes: it places nothing else, every node it
evaluates is placed, and nothing is placed below a name or an alias. -/
structure Placed (T : ScopeTree) (ids : List NodeId) (starts : List (ScopeId × Node)) (t t' : NameTable) : Prop where
  frame {k : NodeId} (h : k ∉ ids) : t'.evaluatedIn[k]? = t.evaluatedIn[k]?
  below {a b : ScopeId × Node} (ha : a ∈ starts) (h : Evaluates T a b) : b.2.ids ⊆ ids
  placed {a b : ScopeId × Node} (ha : a ∈ starts) (h : Evaluates T a b) : t'.evaluatedIn[b.2.id]? = some b.1
  terminal {a b : ScopeId × Node} (ha : a ∈ starts) (h : Evaluates T a b) (hb : b.2.isTerminal = true)
    {k : NodeId} (hk : k ∈ idsAll b.2.children) : t'.evaluatedIn[k]? = t.evaluatedIn[k]?

section Below

variable {T : ScopeTree} {s inner : ScopeId} {ns : List Node} {p : ScopeId × Node}

theorem below_of_mem_firstParts (h : p ∈ firstParts s inner ns) : p.2 ∈ ns := by
  match ns with
  | [] => cases h
  | [target] => simp_all [firstParts]
  | target :: iterable :: rest =>
    simp only [firstParts, mem_cons, List.mem_map] at h
    rcases h with rfl | rfl | ⟨c, hc, rfl⟩ <;> simp_all

theorem below_of_mem_clauseParts {first : Bool} (h : p ∈ clauseParts s inner first ns) :
    p.2 ∈ Node.preorderAll ns := by
  induction ns generalizing first with
  | nil => cases h
  | cons n ns ih =>
    rw [Node.preorderAll_cons, mem_append]
    rw [clauseParts] at h
    split at h
    · refine (mem_append.1 h).imp (fun h => ?_) ih
      refine Node.mem_preorder_of_child ?_ p.2.mem_preorder_self
      split at h
      · exact below_of_mem_firstParts h
      · obtain ⟨c, hc, rfl⟩ := List.mem_map.1 h
        exact hc
    · rcases mem_cons.1 h with rfl | h
      · exact .inl n.mem_preorder_self
      · exact .inr (ih h)

theorem below_of_mem_grandchildren {n c : Node} (hn : n ∈ Node.preorderAll ns)
    (hc : c ∈ n.children.flatMap (·.children)) : c ∈ Node.preorderAll ns := by
  obtain ⟨param, hparam, hc⟩ := mem_flatMap.1 hc
  exact Node.child_mem_preorderAll _ (Node.child_mem_preorderAll _ hn hparam) hc

theorem below_of_mem_definitionParts (h : p ∈ definitionParts s inner ns) : p.2 ∈ Node.preorderAll ns := by
  obtain ⟨n, hn, h⟩ := mem_flatMap.1 h
  split at h
  · obtain ⟨c, hc, rfl⟩ := List.mem_map.1 h
    exact below_of_mem_grandchildren (below_of_mem hn) hc
  · cases mem_singleton.1 h
    exact below_of_mem hn

theorem below_of_mem_lambdaParts (h : p ∈ lambdaParts s inner ns) : p.2 ∈ Node.preorderAll ns := by
  rcases mem_append.1 h with h | h <;> obtain ⟨c, hc, rfl⟩ := List.mem_map.1 h
  · obtain ⟨param, hparam, hc⟩ := mem_flatMap.1 hc
    obtain ⟨params, hparams, hparam⟩ := mem_flatMap.1 hparam
    exact below_of_mem_grandchildren (below_of_mem (mem_of_mem_take hparams))
      (mem_flatMap_of_mem hparam hc)
  · exact below_of_mem (mem_of_mem_drop (mem_of_mem_take hc))

theorem below_of_mem_next {n : Node} (h : p ∈ next T s n) : p.2 ∈ Node.preorderAll n.children := by
  unfold next at h
  split at h
  iterate 2 · exact below_of_mem_definitionParts h
  · exact below_of_mem_lambdaParts h
  iterate 4 · exact below_of_mem_clauseParts h
  iterate 2 · cases h
  · obtain ⟨c, hc, rfl⟩ := List.mem_map.1 h
    exact below_of_mem hc

end Below

namespace Placed

variable {T : ScopeTree} {ids ids' : List NodeId} {starts starts' : List (ScopeId × Node)} {t t' t'' : NameTable}

theorem skip (h : t'.evaluatedIn = t.evaluatedIn) : Placed T [] [] t t' where
  frame _ := by rw [h]
  below ha := by cases ha
  placed ha := by cases ha
  terminal ha := by cases ha

theorem place (k : NodeId) (s : ScopeId) : Placed T [k] [] t (t.place k s) where
  frame {k'} hk := by
    have hne : k ≠ k' := fun h => hk (by simp [h])
    simp [NameTable.place, Std.ExtTreeMap.getElem?_insert, hne]
  below ha := by cases ha
  placed ha := by cases ha
  terminal ha := by cases ha

theorem after (h : Placed T ids starts t' t'') (ht : t'.evaluatedIn = t.evaluatedIn) : Placed T ids starts t t'' where
  frame hk := by rw [h.frame hk, ht]
  below := h.below
  placed := h.placed
  terminal ha hb hb' _ hk := by rw [h.terminal ha hb hb' hk, ht]

theorem mono (h : Placed T ids starts t t') (hids : ids ⊆ ids') : Placed T ids' starts t t' where
  frame hk := h.frame fun hmem => hk (hids hmem)
  below ha hb := fun _ hk => hids (h.below ha hb hk)
  placed := h.placed
  terminal := h.terminal

theorem append (h : Placed T ids starts t t') (h' : Placed T ids' starts' t' t'') (hd : (ids ++ ids').Nodup) :
    Placed T (ids ++ ids') (starts ++ starts') t t'' where
  frame {k} hk := by
    rw [mem_append, not_or] at hk
    rw [h'.frame hk.2, h.frame hk.1]
  below ha hb := by
    rcases mem_append.1 ha with ha | ha
    · exact subset_append_of_subset_left _ (h.below ha hb)
    · exact subset_append_of_subset_right _ (h'.below ha hb)
  placed {a b} ha hb := by
    rcases mem_append.1 ha with ha | ha
    · have hk : b.2.id ∈ ids := h.below ha hb (by simp [ids_eq])
      rw [h'.frame (disjoint_of_nodup_append hd hk), h.placed ha hb]
    · exact h'.placed ha hb
  terminal {a b} ha hb hterminal k hk := by
    have hk' : k ∈ b.2.ids := by
      rw [ids_eq]
      exact mem_cons_of_mem _ hk
    rcases mem_append.1 ha with ha | ha
    · rw [h'.frame (disjoint_of_nodup_append hd (h.below ha hb hk')), h.terminal ha hb hterminal hk]
    · rw [h'.terminal ha hb hterminal hk]
      exact h.frame fun hmem => disjoint_of_nodup_append hd hmem (h'.below ha hb hk')

theorem node {s : ScopeId} {n : Node} (hn : n.Distinct)
    (h : Placed T (idsAll n.children) (next T s n) (t.place n.id s) t')
    (hterminal : n.isTerminal = true → t'.evaluatedIn = (t.place n.id s).evaluatedIn) :
    Placed T n.ids [(s, n)] t t' := by
  have hid : n.id ∉ idsAll n.children := by
    rw [Node.Distinct, ids_eq] at hn
    exact (nodup_cons.1 hn).1
  have hother {k : NodeId} (hk : k ∈ idsAll n.children) : (t.place n.id s).evaluatedIn[k]? = t.evaluatedIn[k]? :=
    (place (T := T) n.id s).frame fun hmem => hid (mem_singleton.1 hmem ▸ hk)
  have hnode : t'.evaluatedIn[n.id]? = some s := by
    rw [h.frame hid]
    simp [NameTable.place]
  rw [ids_eq]
  refine ⟨fun hk => ?_, fun ha hb => ?_, fun ha hb => ?_, fun ha hb hb' k hk => ?_⟩
  · rw [mem_cons, not_or] at hk
    rw [h.frame hk.2, (place (T := T) n.id s).frame (by simpa using hk.1)]
  all_goals
    cases mem_singleton.1 ha
    rcases hb.cases_head with rfl | ⟨c, hc, hb⟩
  · simp [ids_eq]
  · exact subset_cons_of_subset _ (h.below hc hb)
  · exact hnode
  · exact h.placed hc hb
  · rw [hterminal hb', hother hk]
  · rw [h.terminal hc hb hb' hk, hother (h.below hc hb (by simp [ids_eq, hk]))]

end Placed

def Places (T : ScopeTree) (n : Node) : Prop := ∀ s t, Placed T n.ids [(s, n)] t (visit T s n t)

section Lists

variable {T : ScopeTree} {s inner : ScopeId} {ns : List Node} {t : NameTable}

theorem placed_visitAll (h : ∀ n ∈ ns, Places T n) (hd : (idsAll ns).Nodup) :
    Placed T (idsAll ns) (ns.map (s, ·)) t (visitAll T s ns t) := by
  induction ns generalizing t with
  | nil => simpa [visitAll] using Placed.skip rfl
  | cons n ns ih =>
    rw [forall_mem_cons] at h
    rw [idsAll_cons] at hd ⊢
    rw [visitAll]
    exact (h.1 s t).append (ih h.2 hd.of_append_right) hd

theorem evaluatedIn_record (k : NodeId) (name : String) : (record T k s name t).evaluatedIn = t.evaluatedIn := rfl

theorem evaluatedIn_recordBound (k : NodeId) (kind : Kind) :
    (recordBound T k kind s t).evaluatedIn = t.evaluatedIn := by
  unfold recordBound
  split <;> rfl

theorem placed_visitParams (h : ∀ c ∈ ns.flatMap (·.children), Places T c) (hd : (idsAll ns).Nodup) :
    Placed T (idsAll ns) ((ns.flatMap (·.children)).map (s, ·)) t (visitParams T s inner ns t) := by
  induction ns generalizing t with
  | nil => simpa [visitParams] using Placed.skip rfl
  | cons n ns ih =>
    rw [flatMap_cons, forall_mem_append] at h
    rw [idsAll_cons] at hd ⊢
    obtain ⟨id, kind, span, parent, children⟩ := n
    rw [visitParams, flatMap_cons, map_append]
    have hn := hd.of_append_left
    rw [Node.ids_mk] at hn hd ⊢
    refine ((Placed.place id inner).append ?_ hn).append (ih h.2 hd.of_append_right) hd
    exact .after (placed_visitAll h.1 (nodup_cons.1 hn).2) (evaluatedIn_recordBound id kind)

theorem placed_arguments {n : Node} (h : ∀ c ∈ n.children.flatMap (·.children), Places T c) (hn : n.Distinct) :
    Placed T n.ids ((n.children.flatMap (·.children)).map (s, ·)) t (visitParams T s inner n.children t) := by
  refine (placed_visitParams h hn.children).mono ?_
  rw [ids_eq]
  exact subset_cons_self ..

theorem placed_visitDefinition (h : ∀ p ∈ definitionParts s inner ns, Places T p.2) (hd : (idsAll ns).Nodup) :
    Placed T (idsAll ns) (definitionParts s inner ns) t (visitDefinition T s inner ns t) := by
  induction ns generalizing t with
  | nil => simpa [visitDefinition, definitionParts] using Placed.skip rfl
  | cons n ns ih =>
    rw [definitionParts, flatMap_cons, forall_mem_append] at h
    rw [idsAll_cons] at hd ⊢
    rw [definitionParts, flatMap_cons]
    obtain ⟨id, kind, span, parent, children⟩ := n
    rw [visitDefinition]
    refine Placed.append ?_ (ih h.2 hd.of_append_right) hd
    split
    next hkind =>
      rw [if_pos hkind] at h
      exact placed_arguments (fun c hc => h.1 (s, c) (List.mem_map_of_mem hc)) hd.of_append_left
    next hkind =>
      rw [if_neg hkind] at h
      exact h.1 _ (mem_singleton_self _) _ t

theorem placed_visitLambda (h : ∀ p ∈ lambdaParts s inner ns, Places T p.2) (hd : (idsAll ns).Nodup) :
    Placed T (idsAll ns) (lambdaParts s inner ns) t (visitLambda T s inner ns t) := by
  rw [lambdaParts, forall_mem_append, List.forall_mem_map, List.forall_mem_map] at h
  match ns with
  | [] => simpa [visitLambda, lambdaParts] using Placed.skip rfl
  | [⟨id, kind, span, parent, params⟩] =>
    have hparams : Placed T _ _ t (visitParams T s inner params t) :=
      placed_arguments (n := ⟨id, kind, span, parent, params⟩) (by simpa using h.1) (by simpa [Node.Distinct] using hd)
    simpa [visitLambda, lambdaParts] using hparams
  | ⟨id, kind, span, parent, params⟩ :: body :: rest =>
    rw [idsAll_cons] at hd ⊢
    have hparams : Placed T _ _ t (visitParams T s inner params t) :=
      placed_arguments (n := ⟨id, kind, span, parent, params⟩) (by simpa using h.1) hd.of_append_left
    have hbody := h.2 body (by simp) inner (visitParams T s inner params t)
    have hrest := hbody.mono (subset_append_left _ (idsAll rest))
    rw [← idsAll_cons] at hrest
    simpa [visitLambda, lambdaParts] using hparams.append hrest hd

theorem placed_visitFirst (h : ∀ p ∈ firstParts s inner ns, Places T p.2) (hd : (idsAll ns).Nodup) :
    Placed T (idsAll ns) (firstParts s inner ns) t (visitFirst T s inner ns t) := by
  match ns with
  | [] => simpa [visitFirst, firstParts] using Placed.skip rfl
  | [target] =>
    rw [visitFirst, idsAll_cons, Node.idsAll_nil, append_nil]
    exact h (inner, target) (mem_singleton_self _) inner t
  | target :: iterable :: rest =>
    rw [firstParts, forall_mem_cons, forall_mem_cons, List.forall_mem_map] at h
    rw [idsAll_cons, idsAll_cons] at hd ⊢
    have hrest := hd.of_append_right
    rw [visitFirst]
    exact (h.1 inner t).append ((h.2.1 s _).append (placed_visitAll h.2.2 hrest.of_append_right) hrest) hd

theorem placed_visitClauses {first : Bool} (h : ∀ p ∈ clauseParts s inner first ns, Places T p.2)
    (hd : (idsAll ns).Nodup) :
    Placed T (idsAll ns) (clauseParts s inner first ns) t (visitClauses T s inner first ns t) := by
  induction ns generalizing first t with
  | nil => simpa [visitClauses, clauseParts] using Placed.skip rfl
  | cons n ns ih =>
    rw [idsAll_cons] at hd ⊢
    have hn := hd.of_append_left
    obtain ⟨id, kind, span, parent, children⟩ := n
    rw [visitClauses]
    rw [clauseParts] at h ⊢
    split at h
    next hkind =>
      rw [if_pos hkind, if_pos hkind]
      rw [forall_mem_append] at h
      refine Placed.append ?_ (ih h.2 hd.of_append_right) hd
      rw [Node.ids_mk] at hn ⊢
      refine (Placed.place id inner).append ?_ hn
      cases first with
      | true => exact placed_visitFirst h.1 (nodup_cons.1 hn).2
      | false => exact placed_visitAll (fun c hc => h.1 (inner, c) (List.mem_map_of_mem hc)) (nodup_cons.1 hn).2
    next hkind =>
      rw [if_neg hkind, if_neg hkind]
      rw [forall_mem_cons] at h
      exact (h.1 inner t).append (ih h.2 hd.of_append_right) hd

end Lists

theorem places (T : ScopeTree) (n : Node) (hn : n.Distinct) : Places T n := by
  induction n using Node.below_induction with
  | step n ih =>
    intro s t
    have hnext : ∀ p ∈ next T s n, Places T p.2 := fun p hp =>
      have hp := below_of_mem_next hp
      ih p.2 hp (hn.below hp)
    have hd := hn.children
    obtain ⟨id, kind, span, parent, children⟩ := n
    have hall (h : ∀ p ∈ children.map (s, ·), Places T p.2) {t} :
        Placed T (idsAll children) (children.map (s, ·)) t (visitAll T s children t) :=
      placed_visitAll (fun c hc => h (s, c) (List.mem_map_of_mem hc)) hd
    refine .node hn ?_ fun hterminal => ?_
    · unfold visit
      cases kind with
      | functionDef name | classDef name =>
        cases hs : T.scopeOf? id with
        | some inner =>
          simp only [next, hs] at hnext ⊢
          exact (placed_visitDefinition hnext hd).after (evaluatedIn_record id name)
        | none =>
          simp only [next, hs] at hnext ⊢
          exact hall hnext
      | lambda =>
        cases hs : T.scopeOf? id with
        | some inner =>
          simp only [next, hs] at hnext ⊢
          exact placed_visitLambda hnext hd
        | none =>
          simp only [next, hs] at hnext ⊢
          exact hall hnext
      | listComp | setComp | dictComp | generatorExp =>
        cases hs : T.scopeOf? id with
        | some inner =>
          simp only [next, hs] at hnext ⊢
          exact placed_visitClauses hnext hd
        | none =>
          simp only [next, hs] at hnext ⊢
          exact hall hnext
      | name name => exact (Placed.skip (evaluatedIn_record ..)).mono (nil_subset _)
      | «alias» name asName => exact (Placed.skip (evaluatedIn_recordBound ..)).mono (nil_subset _)
      | handler name =>
        cases name with
        | some name => exact (hall hnext).after (evaluatedIn_record id name)
        | none => exact hall hnext
      | _ => exact hall hnext
    · unfold visit
      cases kind with
      | name name => exact evaluatedIn_record ..
      | «alias» name asName => exact evaluatedIn_recordBound ..
      | _ => cases hterminal

section Comparison

variable {T : ScopeTree} {s inner : ScopeId} {ns : List Node} {n c : Node}

theorem mem_definitionParts_of_defaults (h : c ∈ Node.defaults ns) : (s, c) ∈ definitionParts s inner ns := by
  obtain ⟨param, hparam, hc⟩ := mem_flatMap.1 h
  obtain ⟨arguments, harguments, hparam⟩ := mem_flatMap.1 hparam
  obtain ⟨hmem, hkind⟩ := Node.mem_firstOf harguments
  refine mem_flatMap_of_mem hmem ?_
  rw [if_pos hkind]
  exact List.mem_map_of_mem (mem_flatMap_of_mem hparam hc)

theorem mem_clauseParts_of_firstIterable (h : c ∈ firstIterable ns) : (s, c) ∈ clauseParts s inner true ns := by
  induction ns with
  | nil => cases h
  | cons n ns ih =>
    by_cases hkind : n.kind = .comprehension
    · have hc : c ∈ (n.children.drop 1).take 1 := by
        simpa [firstIterable, firstOf, hkind] using h
      rw [clauseParts, if_pos hkind]
      refine mem_append_left _ ?_
      rcases hparts : n.children with _ | ⟨_, _ | _⟩ <;> simp_all [firstParts]
    · have hc : c ∈ firstIterable ns := by
        simpa [firstIterable, firstOf, hkind] using h
      rw [clauseParts, if_neg hkind]
      exact mem_cons_of_mem _ (ih hc)

theorem mem_clauseParts_of_clauseParts {first : Bool} (h : c ∈ Node.clauseParts first ns) :
    (inner, c) ∈ clauseParts s inner first ns := by
  induction ns generalizing first with
  | nil => cases h
  | cons n ns ih =>
    rw [Node.clauseParts] at h
    rw [clauseParts]
    split at h
    next hkind =>
      rw [if_pos hkind]
      refine mem_append.2 ((mem_append.1 h).imp (fun hc => ?_) ih)
      cases first with
      | true => rcases hparts : n.children with _ | ⟨_, _ | _⟩ <;> simp_all [firstParts]
      | false => exact List.mem_map_of_mem (mem_of_mem_drop hc)
    next hkind =>
      rw [if_neg hkind]
      exact mem_cons_of_mem _ (ih h)

theorem mem_clauseParts_of_elements {first : Bool} (h : c ∈ Node.elements ns) :
    (inner, c) ∈ clauseParts s inner first ns := by
  induction ns generalizing first with
  | nil => cases h
  | cons n ns ih =>
    rw [clauseParts]
    by_cases hkind : n.kind = .comprehension
    · rw [if_pos hkind]
      exact mem_append_right _ (ih (by simpa [Node.elements, hkind] using h))
    · rw [if_neg hkind]
      have hc : c = n ∨ c ∈ Node.elements ns := by
        simpa [Node.elements, hkind] using h
      rcases hc with rfl | hc
      · exact mem_cons_self
      · exact mem_cons_of_mem _ (ih hc)

theorem evaluates_body (hnext : next T s n = definitionParts s inner n.children) (h : c ∈ Node.body n.children) :
    Evaluates T (s, n) (inner, c) := by
  obtain ⟨block, hblock, hc⟩ := mem_flatMap.1 h
  obtain ⟨hmem, hkind⟩ := Node.mem_firstOf hblock
  have hfirst : (inner, block) ∈ next T s n := by
    rw [hnext]
    exact mem_flatMap_of_mem hmem (by simp [hkind])
  have hsecond : (inner, c) ∈ next T inner block := by
    simp only [next, hkind]
    exact List.mem_map_of_mem hc
  exact .head hfirst (.single hsecond)

/-- A step of the walk that opens the scopes can be taken by the walk that places the nodes, unless it leads
below a name or an alias. -/
theorem evaluates_of_next (hl : n.isLaidOut = true) (hterminal : n.isTerminal = false) {b : ScopeId × Node}
    (h : T.Next (s, n) b) : Evaluates T (s, n) b := by
  obtain ⟨id, kind, span, parent, children⟩ := n
  cases kind with
  | functionDef name =>
    cases h with
    | outside hs hc =>
      obtain ⟨inner, hs⟩ := isSome_iff_exists.1 (hs rfl)
      refine .single ?_
      simp only [next, hs]
      exact mem_definitionParts_of_defaults hc
    | inside hs hc => exact evaluates_body (by simp only [next, hs]) hc
  | classDef name =>
    obtain _ | ⟨block, bases⟩ := children
    · cases hl
    cases h with
    | @outside _ _ base hs hc =>
      obtain ⟨inner, hs⟩ := isSome_iff_exists.1 (hs rfl)
      have hbase : base.kind ≠ .block ∧ base.kind ≠ .arguments := by
        simp only [Node.isLaidOut, Bool.and_eq_true, List.all_eq_true, decide_eq_true_eq] at hl
        exact hl.2 base hc
      refine .single ?_
      simp only [next, hs]
      exact mem_flatMap_of_mem (mem_cons_of_mem _ hc) (by simp [hbase])
    | inside hs hc => exact evaluates_body (by simp only [next, hs]) hc
  | lambda =>
    obtain _ | ⟨params, _ | ⟨result, _ | _⟩⟩ := children
    · cases hl
    · cases hl
    · have hkind : params.kind = .arguments := by
        simpa [Node.isLaidOut] using hl
      cases h with
      | outside hs hc =>
        obtain ⟨inner, hs⟩ := isSome_iff_exists.1 (hs rfl)
        refine .single ?_
        simp only [next, hs]
        refine mem_append_left _ (List.mem_map_of_mem ?_)
        simpa [Node.outerParts, Node.defaults, firstOf, hkind] using hc
      | inside hs hc =>
        refine .single ?_
        simp only [next, hs]
        exact mem_append_right _ (List.mem_map_of_mem hc)
    · cases hl
  | listComp | setComp | dictComp | generatorExp =>
    cases h with
    | outside hs hc =>
      obtain ⟨inner, hs⟩ := isSome_iff_exists.1 (hs rfl)
      refine .single ?_
      simp only [next, hs]
      exact mem_clauseParts_of_firstIterable hc
    | inside hs hc =>
      refine .single ?_
      simp only [next, hs]
      exact (mem_append.1 hc).elim mem_clauseParts_of_clauseParts mem_clauseParts_of_elements
  | importModules | importFrom _ | globalNames _ | nonlocalNames _ => cases h <;> contradiction
  | name _ | «alias» _ _ => cases hterminal
  | _ =>
    cases h with
    | outside _ hc => exact .single (List.mem_map_of_mem hc)
    | inside _ hc => cases hc

end Comparison

/-- The walk that places the nodes goes along with the one that opens the scopes until it meets a name or an
alias. -/
theorem evaluates_or_below_terminal {T : ScopeTree} {a b : ScopeId × Node}
    (hl : ∀ n ∈ a.2.preorder, n.isLaidOut = true) (h : Relation.ReflTransGen T.Next a b) :
    Evaluates T a b ∨ ∃ x, Evaluates T a x ∧ x.2.isTerminal = true ∧ b.2 ∈ Node.preorderAll x.2.children := by
  induction h with
  | refl => exact .inl .refl
  | @tail b c hab hbc ih =>
    have hc := hbc.below
    rcases ih with hb | ⟨x, hx, hterminal, hb⟩
    · cases hterminal : b.2.isTerminal with
      | true => exact .inr ⟨b, hb, hterminal, hc⟩
      | false =>
        have hlb := hl _ (Node.mem_preorder_of_walk (·.below) hab)
        exact .inl (hb.trans (evaluates_of_next hlb hterminal hbc))
    · exact .inr ⟨x, hx, hterminal, Node.below_trans hb hc⟩

section Tree

variable {T : ScopeTree} {tree : SyntaxTree}

/-- Where the walk that places the nodes starts: at the modules, in their own scopes. -/
def starts (T : ScopeTree) (ms : List (String × Node)) : List (ScopeId × Node) :=
  ms.flatMap fun m => (T.scopeOf? m.2.id).toList.map (·, m.2)

theorem placed_ofTree (h : tree.FromRaw) :
    Placed T (idsAll (tree.modules.map (·.2))) (starts T tree.modules) empty (ofTree T tree) := by
  have hd := h.nodup
  unfold ofTree
  generalize tree.modules = ms at hd ⊢
  generalize empty = t
  induction ms generalizing t with
  | nil => exact .skip rfl
  | cons m ms ih =>
    obtain ⟨name, root⟩ := m
    rw [map_cons, idsAll_cons] at hd ⊢
    rw [foldl_cons, starts, flatMap_cons]
    refine Placed.append ?_ (ih hd.of_append_right _) hd
    cases hs : T.scopeOf? root.id with
    | none => simpa [hs] using (Placed.skip (t := t) rfl).mono (nil_subset root.ids)
    | some s => simpa [hs] using places T root hd.of_append_left s t

/-- A node that opened a scope is evaluated in the parent of that scope, unless it is the root of a module or
stands below a name or an alias, where nothing is evaluated. -/
theorem evaluated_in_parent (h : tree.FromRaw) (hl : tree.LaidOut) {k : NodeId} {s : ScopeId}
    (hs : (ScopeTree.ofTree tree).scopeOf? k = some s) (hk : ∀ m ∈ tree.modules, m.2.id ≠ k) :
    ((ScopeTree.ofTree tree).scope s).parent = some ((ofTree (ScopeTree.ofTree tree) tree).scopeOf k) ∨
      tree.BelowTerminal k ∧ (ofTree (ScopeTree.ofTree tree) tree).evaluatedIn[k]? = none := by
  have hfiled : (ScopeTree.ofTree tree).Filed :=
    (walked_ofTree (ScopeTree.numbered_ofTree h hl) hl).filed filed_empty
  have hplaced := placed_ofTree (T := ScopeTree.ofTree tree) h
  obtain ⟨p, hp, rfl⟩ := hfiled.opened hs
  obtain ⟨m, hm, rfl | ⟨s₀, hs₀, c, hc, around, hparent, hwalk⟩⟩ :=
    opensIn_of_outline h hl (mem_of_getElem? hp)
  · exact absurd rfl (hk m hm)
  have hstart : (s₀, m.2) ∈ starts (ScopeTree.ofTree tree) tree.modules :=
    mem_flatMap_of_mem hm (by simp [hs₀])
  have hchild : (s₀, c) ∈ next (ScopeTree.ofTree tree) s₀ m.2 := by
    simp only [next, h.kind m hm]
    exact List.mem_map_of_mem hc
  have hlc : ∀ n ∈ c.preorder, n.isLaidOut = true := fun n hn => hl m hm n (Node.mem_preorder_of_child hc hn)
  have hroot {b : ScopeId × Node} (hb : Evaluates (ScopeTree.ofTree tree) (s₀, c) b) :
      Evaluates (ScopeTree.ofTree tree) (s₀, m.2) b := .head hchild hb
  rcases evaluates_or_below_terminal hlc hwalk with heval | ⟨x, heval, hterminal, hbelow⟩
  · left
    rw [parent_scope hp, hparent, scopeOf, hplaced.placed hstart (hroot heval), getD_some]
  · right
    have hids : p.1.id ∈ idsAll x.2.children := List.mem_map_of_mem hbelow
    refine ⟨⟨m, hm, x.2, Node.mem_preorder_of_walk below_of_mem_next (hroot heval), hterminal, hids⟩, ?_⟩
    rw [hplaced.terminal hstart (hroot heval) hterminal hids]
    simp [empty]

end Tree

open Build in
/-- A class with a lambda for a base and a method with a default that nests two lambdas. The method holds a
comprehension with a lambda for its element and another one for its iterable. -/
def nestedScopes : RawNode :=
  module [classDef "c" [lambda [] int]
    [functionWith "f" [(param "p").withChild (lambda [] (lambda [] (name "p")))]
      [expr (listComp (lambda [] (name "x")) (name "x") (lambda [] (name "y")))]]]

/-- The base belongs to the module, the default to the class, the iterable to the method and the element to the
comprehension. -/
theorem evaluated_in_parent_on_nestedScopes : ∃ tree, ofModule nestedScopes = .ok tree ∧ tree.LaidOut ∧
    ∀ p ∈ [(22, 1), (6, 3), (8, 4), (19, 6), (13, 7), (14, 8)],
      (ScopeTree.ofTree tree).scopeOf? p.1 = some p.2 ∧
      ((ScopeTree.ofTree tree).scope p.2).parent = some ((ofTree (ScopeTree.ofTree tree) tree).scopeOf p.1) := by
  have h : (match ofModule nestedScopes with
      | .ok tree => decide (tree.LaidOut ∧
        ∀ p ∈ ([(22, 1), (6, 3), (8, 4), (19, 6), (13, 7), (14, 8)] : List (NodeId × ScopeId)),
          (ScopeTree.ofTree tree).scopeOf? p.1 = some p.2 ∧ (∀ m ∈ tree.modules, m.2.id ≠ p.1) ∧
          ¬ tree.BelowTerminal p.1)
      | .error _ => false) = true := by decide +kernel
  split at h
  next tree htree =>
    obtain ⟨hl, h⟩ := of_decide_eq_true h
    refine ⟨tree, htree, hl, fun p hp => ?_⟩
    obtain ⟨hs, hroot, hbelow⟩ := h p hp
    exact ⟨hs, (evaluated_in_parent (.module _ htree) hl hs hroot).resolve_right fun h => hbelow h.1⟩
  next => cases h

open Build in
def hiddenLambda : RawNode := module [function "f" [] [expr ((name "x").withChild (lambda [] int))]]

/-- The lambda opens scope 2 in the scope of the function, but it is not evaluated there. -/
theorem not_evaluated_in_parent_on_hiddenLambda : ∃ tree, ofModule hiddenLambda = .ok tree ∧ tree.LaidOut ∧
    (ScopeTree.ofTree tree).scopeOf? 6 = some 2 ∧ ((ScopeTree.ofTree tree).scope 2).parent = some 1 ∧
    (ofTree (ScopeTree.ofTree tree) tree).scopeOf 6 = 0 := by
  have h : (match ofModule hiddenLambda with
      | .ok tree => decide (tree.LaidOut ∧ (ScopeTree.ofTree tree).scopeOf? 6 = some 2 ∧
        ((ScopeTree.ofTree tree).scope 2).parent = some 1 ∧ (ofTree (ScopeTree.ofTree tree) tree).scopeOf 6 = 0)
      | .error _ => false) = true := by decide +kernel
  split at h
  next tree htree => exact ⟨tree, htree, of_decide_eq_true h⟩
  next => cases h

end NameTable
end PointsTo
