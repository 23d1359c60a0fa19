import PointsTo.Scope
import PointsTo.Proofs.Tree.Preorder

/-! # The outline of a scope tree

The layout of a scope tree has each scope as it was opened, and its outline the node that opened each scope and
the scope around it. Binding a name leaves them as they are, and opening a scope adds one entry. The walk that
opens the scopes goes from a node to two lists of nodes below it: those that belong to the scope around the node
and those that belong to the scope it opens. So a tree grows by modules, and by other scopes inside scopes that
are there. -/

namespace PointsTo

open List

namespace Node

def firstOf (kind : Kind) (ns : List Node) : List Node := (ns.filter (·.kind = kind)).take 1

def defaults (ns : List Node) : List Node := ((firstOf .arguments ns).flatMap (·.children)).flatMap (·.children)

def body (ns : List Node) : List Node := (firstOf .block ns).flatMap (·.children)

def firstIterable (ns : List Node) : List Node :=
  (firstOf .comprehension ns).flatMap fun clause => (clause.children.drop 1).take 1

def clauseParts : Bool → List Node → List Node
  | _, [] => []
  | first, n :: rest =>
    if n.kind = .comprehension then n.children.drop (if first then 2 else 1) ++ clauseParts false rest
    else clauseParts first rest

def elements (ns : List Node) : List Node := ns.filter fun n => !decide (n.kind = .comprehension)

/-- What a walk over the scopes visits below a node in the scope around it. -/
def outerParts (n : Node) : List Node :=
  match n.kind with
  | .functionDef _ | .lambda => defaults n.children
  | .classDef _ => n.children.drop 1
  | .listComp | .setComp | .dictComp | .generatorExp => firstIterable n.children
  | .importModules | .importFrom _ | .globalNames _ | .nonlocalNames _ => []
  | _ => n.children

/-- What a walk over the scopes visits below a node in the scope that the node opens. -/
def innerParts (n : Node) : List Node :=
  match n.kind with
  | .functionDef _ | .classDef _ => body n.children
  | .lambda => (n.children.drop 1).take 1
  | .listComp | .setComp | .dictComp | .generatorExp => clauseParts true n.children ++ elements n.children
  | _ => []

/-- Whether a node opens a scope when it is visited. -/
def opensScope (n : Node) : Bool :=
  match n.kind with
  | .functionDef _ | .classDef _ | .lambda | .listComp | .setComp | .dictComp | .generatorExp => true
  | _ => false

theorem mem_firstOf {kind : Kind} {ns : List Node} {n : Node} (h : n ∈ firstOf kind ns) :
    n ∈ ns ∧ n.kind = kind := by
  simpa using mem_filter.1 (mem_of_mem_take h)

section Below

variable {ns : List Node} {n c : Node}

theorem below_of_mem (h : c ∈ ns) : c ∈ preorderAll ns := mem_preorderAll h c.mem_preorder_self

theorem below_of_mem_defaults (h : c ∈ defaults ns) : c ∈ preorderAll ns := by
  simp only [defaults, mem_flatMap] at h
  obtain ⟨param, ⟨arguments, harguments, hparam⟩, hc⟩ := h
  exact child_mem_preorderAll ns (child_mem_preorderAll ns (below_of_mem (mem_firstOf harguments).1) hparam) hc

theorem below_of_mem_body (h : c ∈ body ns) : c ∈ preorderAll ns := by
  simp only [body, mem_flatMap] at h
  obtain ⟨block, hblock, hc⟩ := h
  exact child_mem_preorderAll ns (below_of_mem (mem_firstOf hblock).1) hc

theorem below_of_mem_firstIterable (h : c ∈ firstIterable ns) : c ∈ preorderAll ns := by
  simp only [firstIterable, mem_flatMap] at h
  obtain ⟨clause, hclause, hc⟩ := h
  exact child_mem_preorderAll ns (below_of_mem (mem_firstOf hclause).1) (mem_of_mem_drop (mem_of_mem_take hc))

theorem below_of_mem_clauseParts {first : Bool} (h : c ∈ clauseParts first ns) : c ∈ preorderAll ns := by
  induction ns generalizing first with
  | nil => cases h
  | cons m ns ih =>
    rw [preorderAll_cons, mem_append]
    rw [clauseParts] at h
    split at h
    · rcases mem_append.1 h with h | h
      · exact .inl (mem_preorder_of_child (mem_of_mem_drop h) c.mem_preorder_self)
      · exact .inr (ih h)
    · exact .inr (ih h)

theorem below_of_mem_outerParts (h : c ∈ n.outerParts) : c ∈ preorderAll n.children := by
  unfold outerParts at h
  split at h
  · exact below_of_mem_defaults h
  · exact below_of_mem_defaults h
  · exact below_of_mem (mem_of_mem_drop h)
  iterate 4 · exact below_of_mem_firstIterable h
  iterate 4 · cases h
  · exact below_of_mem h

theorem below_of_mem_innerParts (h : c ∈ n.innerParts) : c ∈ preorderAll n.children := by
  unfold innerParts at h
  split at h
  · exact below_of_mem_body h
  · exact below_of_mem_body h
  · exact below_of_mem (mem_of_mem_drop (mem_of_mem_take h))
  iterate 4
    · rcases mem_append.1 h with h | h
      · exact below_of_mem_clauseParts h
      · exact below_of_mem (mem_filter.1 h).1
  · cases h

end Below

end Node

def Scope.opening (s : Scope) : Scope :=
  { s with bindings := [], definitions := [], imports := [], globals := [], nonlocals := [], hasYield := false }

namespace ScopeTree

def layout (t : ScopeTree) : List Scope := t.scopes.toList.map Scope.opening

/-- The node that opened each scope and the scope around it, in the order of opening. -/
def outline (t : ScopeTree) : List (Node × Option ScopeId) := t.scopes.toList.map fun s => (s.node, s.parent)

variable {t t' t'' : ScopeTree}

@[simp] theorem length_outline : t.outline.length = t.size := by
  simp [outline, size]

theorem outline_eq_map_layout (t : ScopeTree) : t.outline = t.layout.map fun s => (s.node, s.parent) := by
  rw [layout, List.map_map]
  rfl

theorem parent_scope {s : ScopeId} {p : Node × Option ScopeId} (h : t.outline[s]? = some p) :
    (t.scope s).parent = p.2 := by
  rw [outline, getElem?_map, Array.getElem?_toList] at h
  obtain ⟨scope, hscope, rfl⟩ := Option.map_eq_some_iff.1 h
  simp [ScopeTree.scope, hscope]

theorem outline_openScope (kind : ScopeKind) (node : Node) (parent : Option ScopeId) (name : String) :
    (t.openScope kind node parent name).2.outline = t.outline ++ [(node, parent)] := by
  simp [outline, openScope]

theorem opened_openScope (kind : ScopeKind) (node : Node) (parent : Option ScopeId) (name : String) :
    (t.openScope kind node parent name).2.opened = t.opened.insert node.id t.size := rfl

structure Silent (t t' : ScopeTree) : Prop where
  layout : t'.layout = t.layout
  opened : t'.opened = t.opened

namespace Silent

theorem refl (t : ScopeTree) : Silent t t := ⟨rfl, rfl⟩

theorem trans (h : Silent t t') (h' : Silent t' t'') : Silent t t'' :=
  ⟨h'.layout.trans h.layout, h'.opened.trans h.opened⟩

theorem outline (h : Silent t t') : t'.outline = t.outline := by
  rw [outline_eq_map_layout, h.layout, outline_eq_map_layout]

variable (id : ScopeId)

theorem modifyScope {f : Scope → Scope}
    (hf : ∀ s, (f s).opening = s.opening := by exact fun _ => rfl) : Silent t (t.modifyScope id f) := by
  refine ⟨ext_getElem? fun i => ?_, rfl⟩
  simp only [ScopeTree.layout, ScopeTree.modifyScope, getElem?_map, Array.getElem?_toList,
    Array.getElem?_modify]
  split
  · simp [Function.comp_def, hf]
  · rfl

theorem bind (name : String) : Silent t (t.bind id name) := by
  unfold ScopeTree.bind
  split
  · exact .refl t
  · exact .modifyScope _

theorem bindDefinition (name : String) (node : NodeId) : Silent t (t.bindDefinition id name node) := by
  unfold ScopeTree.bindDefinition
  split
  · exact .refl t
  · exact .modifyScope _

theorem bindImport (name : String) (item : Node) : Silent t (t.bindImport id name item) := by
  unfold ScopeTree.bindImport
  split
  · exact .refl t
  · exact .modifyScope _

mutual

theorem bindTarget (id : ScopeId) : ∀ (n : Node) (t : ScopeTree), Silent t (bindTarget id n t)
  | ⟨_, kind, _, _, children⟩, t => by
    unfold ScopeTree.bindTarget
    split
    · exact .bind id _
    · exact bindTargets id children t
    · exact bindTargets id children t
    · exact bindFirst id children t
    · exact .refl t

theorem bindTargets (id : ScopeId) : ∀ (ns : List Node) (t : ScopeTree), Silent t (bindTargets id ns t)
  | [], t => by
    unfold ScopeTree.bindTargets
    exact .refl t
  | n :: rest, t => by
    unfold ScopeTree.bindTargets
    exact (bindTarget id n t).trans (bindTargets id rest _)

theorem bindFirst (id : ScopeId) : ∀ (ns : List Node) (t : ScopeTree), Silent t (bindFirst id ns t)
  | [], t => by
    unfold ScopeTree.bindFirst
    exact .refl t
  | n :: _, t => by
    unfold ScopeTree.bindFirst
    exact bindTarget id n t

end

theorem bindParams (id : ScopeId) (children : List Node) : Silent t (bindParams id children t) := by
  unfold ScopeTree.bindParams
  split
  · exact .refl t
  · refine List.foldlRecOn _ _ (.refl t) fun t' h p _ => ?_
    split
    · exact h.trans (.bind id _)
    · exact h

theorem bindImports (id : ScopeId) (items : List Node) : Silent t (bindImports id items t) := by
  refine List.foldlRecOn _ _ (.refl t) fun t' h item _ => ?_
  split
  · exact h.trans (.bindImport id _ item)
  · exact h

theorem bindOwn (id : ScopeId) (kind : Kind) (children : List Node) : Silent t (bindOwn id kind children t) := by
  unfold ScopeTree.bindOwn
  split
  · exact bindTargets id _ t
  · exact bindFirst id _ t
  · exact bindFirst id _ t
  · split
    · exact bindFirst id _ t
    · exact .refl t
  · exact bindFirst id _ t
  · exact bindTargets id _ t
  · exact bindFirst _ _ t
  · exact .bind id _
  · exact .modifyScope _
  · exact .modifyScope _
  · exact .refl t

end Silent

section Parts

open Node (firstOf)

variable (id : ScopeId) (ns : List Node) (t : ScopeTree)

theorem visitAll_append (ms : List Node) : visitAll id (ms ++ ns) t = visitAll id ns (visitAll id ms t) := by
  induction ms generalizing t with
  | nil => simp [visitAll]
  | cons m ms ih => simp [visitAll, ih]

theorem visitTail_eq : visitTail id ns t = visitAll id (ns.drop 1) t := by
  cases ns <;> simp [visitTail, visitAll]

theorem visitSecond_eq : visitSecond id ns t = visitAll id ((ns.drop 1).take 1) t := by
  match ns with
  | [] | [_] | _ :: _ :: _ => simp [visitSecond, visitAll]

theorem visitConditions_eq : visitConditions id ns t = visitAll id (ns.drop 2) t := by
  match ns with
  | [] | [_] | _ :: _ :: _ => simp [visitConditions, visitAll]

theorem visitGrandchildren_eq : visitGrandchildren id ns t = visitAll id (ns.flatMap (·.children)) t := by
  induction ns generalizing t with
  | nil => simp [visitGrandchildren, visitAll]
  | cons n ns ih =>
    cases n
    simp [visitGrandchildren, visitAll_append, ih]

theorem visitDefaults_eq : visitDefaults id ns t = visitAll id (Node.defaults ns) t := by
  induction ns with
  | nil => simp [visitDefaults, Node.defaults, firstOf, visitAll]
  | cons n ns ih =>
    obtain ⟨nid, kind, span, parent, children⟩ := n
    by_cases h : kind = .arguments
    · simp [visitDefaults, Node.defaults, firstOf, h, visitGrandchildren_eq]
    · simpa [visitDefaults, Node.defaults, firstOf, h] using ih

theorem visitBody_eq : visitBody id ns t = visitAll id (Node.body ns) t := by
  induction ns with
  | nil => simp [visitBody, Node.body, firstOf, visitAll]
  | cons n ns ih =>
    obtain ⟨nid, kind, span, parent, children⟩ := n
    by_cases h : kind = .block
    · simp [visitBody, Node.body, firstOf, h]
    · simpa [visitBody, Node.body, firstOf, h] using ih

theorem visitFirstIterable_eq : visitFirstIterable id ns t = visitAll id (Node.firstIterable ns) t := by
  induction ns with
  | nil => simp [visitFirstIterable, Node.firstIterable, firstOf, visitAll]
  | cons n ns ih =>
    obtain ⟨nid, kind, span, parent, children⟩ := n
    by_cases h : kind = .comprehension
    · simp [visitFirstIterable, Node.firstIterable, firstOf, h, visitSecond_eq]
    · simpa [visitFirstIterable, Node.firstIterable, firstOf, h] using ih

theorem visitElements_eq : visitElements id ns t = visitAll id (Node.elements ns) t := by
  induction ns generalizing t with
  | nil => simp [visitElements, Node.elements, visitAll]
  | cons n ns ih =>
    obtain ⟨nid, kind, span, parent, children⟩ := n
    by_cases h : kind = .comprehension
    · simpa [visitElements, Node.elements, h] using ih t
    · simpa [visitElements, Node.elements, h, visitAll] using ih _

end Parts

/-- The nodes are visited one after another, and names are bound before, between and after the visits. -/
inductive Tour (id : ScopeId) : List Node → ScopeTree → ScopeTree → Prop
  | done {t t' : ScopeTree} (h : Silent t t') : Tour id [] t t'
  | visit {n : Node} {ns : List Node} {t t₁ t' : ScopeTree} (h : Silent t t₁) (rest : Tour id ns (visit id n t₁) t') :
    Tour id (n :: ns) t t'

namespace Tour

variable {id : ScopeId} {ms ns : List Node}

theorem after_silent (h : Silent t t') (tour : Tour id ns t' t'') : Tour id ns t t'' := by
  cases tour with
  | done h' => exact .done (h.trans h')
  | visit h' rest => exact .visit (h.trans h') rest

theorem append (first : Tour id ms t t') (second : Tour id ns t' t'') : Tour id (ms ++ ns) t t'' := by
  induction first with
  | done h => exact second.after_silent h
  | visit h rest ih => exact .visit h (ih second)

theorem visitAll (id : ScopeId) (ns : List Node) (t : ScopeTree) : Tour id ns t (visitAll id ns t) := by
  induction ns generalizing t with
  | nil =>
    rw [ScopeTree.visitAll]
    exact .done (.refl t)
  | cons n ns ih =>
    rw [ScopeTree.visitAll]
    exact .visit (.refl t) (ih _)

theorem of_eq (h : t' = ScopeTree.visitAll id ns t) : Tour id ns t t' := h ▸ visitAll id ns t

theorem visitClauses (id : ScopeId) (first : Bool) (ns : List Node) (t : ScopeTree) :
    Tour id (Node.clauseParts first ns) t (visitClauses id first ns t) := by
  induction ns generalizing first t with
  | nil =>
    rw [ScopeTree.visitClauses]
    exact .done (.refl t)
  | cons n ns ih =>
    obtain ⟨nid, kind, span, parent, parts⟩ := n
    rw [ScopeTree.visitClauses, Node.clauseParts]
    split
    · refine append (after_silent (.bindFirst id parts t) ?_) (ih false _)
      cases first with
      | true => exact .of_eq (visitConditions_eq ..)
      | false => exact .of_eq (visitTail_eq ..)
    · exact ih first t

end Tour

/-- What a visit does: a node that opens no scope is passed through, and one that does opens it between the
nodes that belong outside and those that belong inside. -/
theorem visit_cases (id : ScopeId) (n : Node) (t : ScopeTree) :
    (n.opensScope = false ∧ Tour id n.outerParts t (visit id n t)) ∨
    (n.opensScope = true ∧ ∃ kind name t₁, kind ≠ .module ∧ Tour id n.outerParts t t₁ ∧
      Tour t₁.size n.innerParts (t₁.openScope kind n (some id) name).2 (visit id n t)) := by
  obtain ⟨nid, kind, span, parent, children⟩ := n
  unfold visit
  cases kind with
  | functionDef name =>
    exact .inr ⟨rfl, .function, name, visitDefaults id children (t.bindDefinition id name nid), nofun,
      .after_silent (.bindDefinition id name nid) (.of_eq (visitDefaults_eq ..)),
      .after_silent (.bindParams _ children) (.of_eq (visitBody_eq ..))⟩
  | classDef name =>
    exact .inr ⟨rfl, .cls, name, visitTail id children (t.bindDefinition id name nid), nofun,
      .after_silent (.bindDefinition id name nid) (.of_eq (visitTail_eq ..)), .of_eq (visitBody_eq ..)⟩
  | lambda =>
    exact .inr ⟨rfl, .lambda, "<lambda>", visitDefaults id children t, nofun, .of_eq (visitDefaults_eq ..),
      .after_silent (.bindParams _ children) (.of_eq (visitSecond_eq ..))⟩
  | listComp | setComp | dictComp | generatorExp =>
    exact .inr ⟨rfl, .comprehension, "<comprehension>", visitFirstIterable id children t, nofun,
      .of_eq (visitFirstIterable_eq ..), (Tour.visitClauses _ true children _).append (.of_eq (visitElements_eq ..))⟩
  | importModules | importFrom _ => exact .inl ⟨rfl, .done (.bindImports id children)⟩
  | globalNames _ | nonlocalNames _ => exact .inl ⟨rfl, .done (.modifyScope id)⟩
  | _ => exact .inl ⟨rfl, .after_silent (.bindOwn id _ children) (.visitAll id children _)⟩

section Order

variable {id : ScopeId}

/-- Every scope is opened after its parent. -/
def Ordered (t : ScopeTree) : Prop := ∀ (s p : ScopeId) (n : Node), t.outline[s]? = some (n, some p) → p < s

theorem Ordered.parent_lt (ht : t.Ordered) {s p : ScopeId} (h : (t.scope s).parent = some p) : p < s := by
  unfold scope at h
  cases hs : t.scopes[s]? with
  | none =>
    rw [hs] at h
    cases h
  | some sc =>
    rw [hs] at h
    exact ht s p sc.node (by simp [outline, hs, ← h])

theorem Silent.size_eq (h : Silent t t') : t'.size = t.size := by
  rw [← length_outline, h.outline, length_outline]

/-- How a scope tree comes about: names are bound, modules are opened, and other scopes are opened inside scopes
that are there. -/
inductive Grows : ScopeTree → ScopeTree → Prop
  | silent {t t' : ScopeTree} (h : Silent t t') : Grows t t'
  | openModule {t : ScopeTree} (n : Node) (name : String) : Grows t (t.openScope .module n none name).2
  | openInside {t : ScopeTree} {kind : ScopeKind} {p : ScopeId} (n : Node) (name : String) (hkind : kind ≠ .module)
      (hp : p < t.size) : Grows t (t.openScope kind n (some p) name).2
  | trans {t t' t'' : ScopeTree} (h : Grows t t') (h' : Grows t' t'') : Grows t t''

theorem size_openScope (kind : ScopeKind) (n : Node) (parent : Option ScopeId) (name : String) :
    (t.openScope kind n parent name).2.size = t.size + 1 := by
  simp [← length_outline, outline_openScope]

theorem Grows.size_le (h : Grows t t') : t.size ≤ t'.size := by
  induction h with
  | silent h => exact Nat.le_of_eq h.size_eq.symm
  | openModule | openInside => simp [size_openScope]
  | trans _ _ ih ih' => exact Nat.le_trans ih ih'

theorem Ordered.openScope (ht : t.Ordered) (kind : ScopeKind) (n : Node) {parent : Option ScopeId} (name : String)
    (hparent : ∀ p ∈ parent, p < t.size) : (t.openScope kind n parent name).2.Ordered := by
  intro s p m hs
  rw [outline_openScope, getElem?_append] at hs
  split at hs
  · exact ht s p m hs
  next hnew =>
    have hlast := mem_singleton.1 (mem_of_getElem? hs)
    rw [length_outline] at hnew
    exact Nat.lt_of_lt_of_le (hparent p (Prod.mk.inj hlast).2.symm) (Nat.le_of_not_lt hnew)

theorem Ordered.grows (ht : t.Ordered) (h : Grows t t') : t'.Ordered := by
  induction h with
  | silent h => rwa [Ordered, h.outline]
  | openModule n name => exact ht.openScope .module n name (by simp)
  | openInside n name _ hp => exact ht.openScope _ n name (by simpa using hp)
  | trans _ _ ih ih' => exact ih' (ih ht)

theorem Tour.grows (tour : Tour id ns t t') (hid : id < t.size)
    (h : ∀ n ∈ ns, ∀ t, id < t.size → Grows t (ScopeTree.visit id n t)) : Grows t t' := by
  induction tour with
  | done hs => exact .silent hs
  | @visit n ns t t₁ t' hs _ ih =>
    rw [forall_mem_cons] at h
    have hid₁ : id < t₁.size := hs.size_eq ▸ hid
    have hvisit := h.1 t₁ hid₁
    exact (Grows.silent hs).trans (hvisit.trans (ih (Nat.lt_of_lt_of_le hid₁ hvisit.size_le) h.2))

theorem grows_visit (n : Node) (hid : id < t.size) : Grows t (visit id n t) := by
  induction n using Node.below_induction generalizing id t with
  | step n ih =>
    have houtside : ∀ c ∈ n.outerParts, ∀ t, id < t.size → Grows t (visit id c t) :=
      fun c hc _ => ih c (Node.below_of_mem_outerParts hc)
    rcases visit_cases id n t with ⟨-, tour⟩ | ⟨-, kind, name, t₁, hkind, before, after⟩
    · exact tour.grows hid houtside
    · have hbefore := before.grows hid houtside
      have hopen : Grows t₁ (t₁.openScope kind n (some id) name).2 :=
        .openInside n name hkind (Nat.lt_of_lt_of_le hid hbefore.size_le)
      refine hbefore.trans (hopen.trans (after.grows ?_ fun c hc _ => ih c (Node.below_of_mem_innerParts hc)))
      simp [size_openScope]

theorem grows_ofTree (tree : SyntaxTree) : Grows empty (ofTree tree) := by
  refine List.foldlRecOn _ _ (.silent (.refl _)) fun t ht m _ => ht.trans ?_
  have htour : Tour t.size m.2.children (t.openScope .module m.2 none m.1).2 (t.addModule m.1 m.2) := .visitAll ..
  refine .trans (.openModule m.2 m.1) (htour.grows ?_ fun c _ _ => grows_visit c)
  simp [size_openScope]

theorem ordered_ofTree (tree : SyntaxTree) : (ofTree tree).Ordered :=
  Ordered.grows (by simp [Ordered, outline, empty]) (grows_ofTree tree)

/-- The way up from a scope is no longer than its number, as every parent has a smaller one. -/
theorem chain_eq_chain (ht : t.Ordered) {id n n' : Nat} (hn : id < n) (hn' : id < n') :
    t.chain n id = t.chain n' id := by
  induction n generalizing n' id with
  | zero => omega
  | succ n ih =>
    obtain _ | n' := n'
    · omega
    unfold chain
    cases hparent : (t.scope id).parent with
    | none => rfl
    | some p =>
      have hp : p < id := ht.parent_lt hparent
      simp only [ih (Nat.lt_of_lt_of_le hp (Nat.le_of_lt_succ hn)) (Nat.lt_of_lt_of_le hp (Nat.le_of_lt_succ hn'))]

end Order

end ScopeTree
end PointsTo
