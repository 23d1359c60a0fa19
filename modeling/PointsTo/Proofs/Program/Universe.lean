import PointsTo.Proofs.Evaluation.Spelling
import PointsTo.Proofs.Program.Published

/-! # The universe of a tree

Everything that the units of a program can ever publish is spelt in one finite vocabulary, and the tree alone
determines it: its numbers are those of nodes, scopes and classes, its words are the names that occur in the tree
or that evaluation has of its own, and its spans are those of the nodes. The settings decide whether unsupported
code fails a unit, and so which flow graphs there are, but there are only two ways to decide that. -/

namespace PointsTo

open List ScopeTree

/-! ## Tables of names -/

theorem ScopeTree.exists_var_of_referent {scopes : ScopeTree} {scope : ScopeId} {name : String} {l : Location}
    (h : scopes.referent scope name = .location l) : ∃ s, l = .var s name := by
  unfold referent at h
  split at h
  · exact ⟨_, (Referent.location.inj h).symm⟩
  · exact ⟨_, (Referent.location.inj h).symm⟩
  · exact ⟨_, (Referent.location.inj h).symm⟩
  · cases h
  · cases h

namespace NameTable

/-- Every location that a name refers to is a variable. -/
def NamesVariables (t : NameTable) : Prop :=
  ∀ d l, t.get? d = some (.location l) → ∃ scope name, l = .var scope name

variable {scopes : ScopeTree} {t : NameTable}

theorem NamesVariables.place (h : t.NamesVariables) (d : NodeId) (scope : ScopeId) :
    (t.place d scope).NamesVariables := h

theorem NamesVariables.record (h : t.NamesVariables) (d : NodeId) (scope : ScopeId) (name : String) :
    (NameTable.record scopes d scope name t).NamesVariables := by
  intro e l he
  unfold NameTable.record get? at he
  rw [Std.ExtTreeMap.getElem?_insert] at he
  split at he
  · obtain ⟨s, hs⟩ := exists_var_of_referent (Option.some.inj he)
    exact ⟨s, name, hs⟩
  · exact h e l he

theorem NamesVariables.recordBound (h : t.NamesVariables) (d : NodeId) (kind : Kind) (scope : ScopeId) :
    (NameTable.recordBound scopes d kind scope t).NamesVariables := by
  unfold NameTable.recordBound
  split
  · exact h.record d scope _
  · exact h

mutual

theorem NamesVariables.visit : ∀ (scope : ScopeId) (n : Node) (t : NameTable), t.NamesVariables →
    (NameTable.visit scopes scope n t).NamesVariables
  | scope, ⟨id, kind, span, parent, children⟩, t, h => by
    rw [NameTable.visit.eq_def]
    dsimp only
    split
    · exact visitDefinition _ _ children _ ((h.place id scope).record id scope _)
    · exact visitDefinition _ _ children _ ((h.place id scope).record id scope _)
    · exact visitLambda _ _ children _ (h.place id scope)
    · exact visitClauses _ _ _ children _ (h.place id scope)
    · exact visitClauses _ _ _ children _ (h.place id scope)
    · exact visitClauses _ _ _ children _ (h.place id scope)
    · exact visitClauses _ _ _ children _ (h.place id scope)
    · exact (h.place id scope).record id scope _
    · exact visitAll _ children _ ((h.place id scope).record id scope _)
    · exact (h.place id scope).recordBound id _ scope
    · exact visitAll _ children _ (h.place id scope)

theorem NamesVariables.visitAll : ∀ (scope : ScopeId) (ns : List Node) (t : NameTable), t.NamesVariables →
    (NameTable.visitAll scopes scope ns t).NamesVariables
  | scope, [], t, h => by
    rw [NameTable.visitAll]
    exact h
  | scope, n :: rest, t, h => by
    rw [NameTable.visitAll]
    exact visitAll scope rest _ (visit scope n t h)

theorem NamesVariables.visitDefinition : ∀ (scope inner : ScopeId) (ns : List Node) (t : NameTable),
    t.NamesVariables → (NameTable.visitDefinition scopes scope inner ns t).NamesVariables
  | scope, inner, [], t, h => by
    rw [NameTable.visitDefinition]
    exact h
  | scope, inner, ⟨id, kind, span, parent, children⟩ :: rest, t, h => by
    rw [NameTable.visitDefinition]
    refine visitDefinition scope inner rest _ ?_
    split
    · exact visitParams scope inner children t h
    · exact visit _ _ t h

theorem NamesVariables.visitParams : ∀ (scope inner : ScopeId) (ns : List Node) (t : NameTable),
    t.NamesVariables → (NameTable.visitParams scopes scope inner ns t).NamesVariables
  | scope, inner, [], t, h => by
    rw [NameTable.visitParams]
    exact h
  | scope, inner, ⟨id, kind, span, parent, children⟩ :: rest, t, h => by
    rw [NameTable.visitParams]
    exact visitParams scope inner rest _ (visitAll scope children _ ((h.place id inner).recordBound id kind inner))

theorem NamesVariables.visitLambda : ∀ (scope inner : ScopeId) (ns : List Node) (t : NameTable),
    t.NamesVariables → (NameTable.visitLambda scopes scope inner ns t).NamesVariables
  | scope, inner, [], t, h => by
    rw [NameTable.visitLambda]
    exact h
  | scope, inner, [⟨id, kind, span, parent, params⟩], t, h => by
    rw [NameTable.visitLambda]
    exact visitParams scope inner params t h
  | scope, inner, ⟨id, kind, span, parent, params⟩ :: body :: rest, t, h => by
    rw [NameTable.visitLambda]
    exact visit inner body _ (visitParams scope inner params t h)

theorem NamesVariables.visitClauses : ∀ (scope inner : ScopeId) (first : Bool) (ns : List Node) (t : NameTable),
    t.NamesVariables → (NameTable.visitClauses scopes scope inner first ns t).NamesVariables
  | scope, inner, first, [], t, h => by
    rw [NameTable.visitClauses]
    exact h
  | scope, inner, first, ⟨id, kind, span, parent, children⟩ :: rest, t, h => by
    rw [NameTable.visitClauses]
    split
    · refine visitClauses scope inner false rest _ ?_
      split
      · exact visitFirst scope inner children _ (h.place id inner)
      · exact visitAll inner children _ (h.place id inner)
    · exact visitClauses scope inner first rest _ (visit inner _ t h)

theorem NamesVariables.visitFirst : ∀ (scope inner : ScopeId) (ns : List Node) (t : NameTable),
    t.NamesVariables → (NameTable.visitFirst scopes scope inner ns t).NamesVariables
  | scope, inner, [], t, h => by
    rw [NameTable.visitFirst]
    exact h
  | scope, inner, [target], t, h => by
    rw [NameTable.visitFirst]
    exact visit inner target t h
  | scope, inner, target :: iterable :: rest, t, h => by
    rw [NameTable.visitFirst]
    exact visitAll inner rest _ (visit scope iterable _ (visit inner target t h))

end

theorem namesVariables_ofTree (scopes : ScopeTree) (tree : SyntaxTree) : (ofTree scopes tree).NamesVariables := by
  have hempty : empty.NamesVariables := fun d l h => by simp [empty, get?] at h
  refine List.foldlRecOn tree.modules _ hempty fun t h m _ => ?_
  dsimp only
  split
  · exact h.visit _ _ t
  · exact h

end NameTable

/-! ## Declarations -/

/-- What a tree declares. The settings have no part in it. -/
def SyntaxTree.declarations (tree : SyntaxTree) : Declarations := (Program.ofTree tree {}).toDeclarations

namespace Program

theorem plain_instanceSite (tree : SyntaxTree) :
    ∀ c ∈ tree.declarations.classes, c.instanceSite.context = none ∧ c.instanceSite.part = 0 := by
  let Plain (acc : Array ClassInfo × Std.ExtTreeMap NodeId ClassId) : Prop :=
    ∀ c ∈ acc.1, c.instanceSite.context = none ∧ c.instanceSite.part = 0
  have hadd (n : Names) (us : List UnitInfo) : Plain (us.foldl (addClass n) (#[], ∅)) := by
    refine List.foldlRecOn us _ (by simp [Plain]) fun acc h u _ c hc => ?_
    unfold addClass at hc
    split at hc
    · exact h c hc
    · rcases Array.mem_push.1 hc with hc | rfl
      · exact h c hc
      · exact ⟨rfl, rfl⟩
  intro c hc
  simp only [SyntaxTree.declarations, Program.ofTree, Array.mem_map] at hc
  obtain ⟨_, ⟨found, hfound, rfl⟩, rfl⟩ := hc
  rw [← Array.foldl_toList] at hfound
  exact hadd _ _ found hfound

end Program

/-! ## Finitely many entries -/

section Entries

variable {α β : Type}

theorem finite_range_getD (xs : Array α) (x : α) : (Set.range fun i : Nat => xs[i]?.getD x).Finite := by
  refine ((finite_toSet xs.toList).insert x).subset ?_
  rintro _ ⟨i, rfl⟩
  cases h : xs[i]? with
  | none => exact .inl (by simp [h])
  | some y => exact .inr (by simpa [h] using Array.mem_of_getElem? h)

theorem finite_values {cmp : α → α → Ordering} [Std.TransCmp cmp] [Std.LawfulEqCmp cmp]
    (m : Std.ExtTreeMap α β cmp) : {v | ∃ k : α, m[k]? = some v}.Finite := by
  refine (finite_toSet (m.toList.map (·.2))).subset ?_
  rintro v ⟨k, hk⟩
  exact List.mem_map.2 ⟨(k, v), Std.ExtTreeMap.mem_toList_iff_getElem?_eq_some.2 hk, rfl⟩

end Entries

theorem mem_of_mem_valuesUnder {α : Type} {entries : List (String × List α)} {key : String} {x : α}
    (h : x ∈ valuesUnder entries key) : x ∈ entries.flatMap (·.2) := by
  unfold valuesUnder at h
  cases hfind : entries.find? (·.1 == key) with
  | none => simp [hfind] at h
  | some e => exact mem_flatMap.2 ⟨e, mem_of_find?_eq_some hfind, by simpa [hfind] using h⟩

theorem ScopeTree.exists_of_moduleNamed? {t : ScopeTree} {name : String} {s : ScopeId}
    (h : t.moduleNamed? name = some s) : ∃ scope ∈ t.scopes.toList, scope.id = s ∧ scope.name = name := by
  obtain ⟨scope, hscope, rfl⟩ := Option.map_eq_some_iff.1 h
  have hnamed := find?_some hscope
  simp only [Bool.and_eq_true, beq_iff_eq] at hnamed
  exact ⟨scope, mem_of_find?_eq_some hscope, rfl, hnamed.2⟩

/-! ## The vocabulary -/

namespace Declarations

/-- The nodes from which evaluation goes down: those of the tree and of the units, and those of the steps of flow
graphs, whichever way unsupported code is treated. -/
inductive IsRoot (p : Declarations) : Node → Prop
  | node (d : NodeId) : p.IsRoot (p.tree.node d)
  | unit {u : UnitInfo} : u ∈ p.units → p.IsRoot u.node
  | step {u : UnitInfo} {policy : UnsupportedPolicy} {g : FlowGraph} {b : Block} {s : Step} {n : Node} : u ∈ p.units →
    FlowGraph.ofUnit policy u = .ok g → b ∈ g.blocks → s ∈ b.steps → n ∈ s.nodes → p.IsRoot n

def known (p : Declarations) : Set Node := {n | ∃ root, p.IsRoot root ∧ n ∈ root.preorder}

inductive IsScope (p : Declarations) : ScopeId → Prop
  | evaluatedIn (d : NodeId) : p.IsScope (p.table.scopeOf d)
  | variable {d : NodeId} {s : ScopeId} {name : String} : p.table.get? d = some (.location (.var s name)) → p.IsScope s
  | module {name : String} {s : ScopeId} : p.scopes.moduleNamed? name = some s → p.IsScope s
  | opened {d : NodeId} {s : ScopeId} : p.scopes.scopeOf? d = some s → p.IsScope s
  | unit (u : UnitId) : p.IsScope (p.unit u).scope
  | cls (c : ClassId) : p.IsScope (p.cls c).scope
  | instanceSite (c : ClassId) : p.IsScope (p.cls c).instanceSite.scope

inductive IsClass (p : Declarations) : ClassId → Prop
  | declared {c : ClassInfo} : c ∈ p.classes → p.IsClass c.id
  | ofNode {d : NodeId} {c : ClassId} : p.classOf? d = some c → p.IsClass c
  | ofMethod {u : UnitInfo} {c : ClassId} : u ∈ p.units → u.methodOf = some c → p.IsClass c

inductive IsNumber (p : Declarations) : Nat → Prop
  | node {n : Node} : n ∈ p.known → p.IsNumber n.id
  | definition {s : ScopeId} {name : String} {d : NodeId} : d ∈ p.scopes.definitions s name → p.IsNumber d
  | scope {s : ScopeId} : p.IsScope s → p.IsNumber s
  | cls {c : ClassId} : p.IsClass c → p.IsNumber c

/-- The words that evaluation has of its own, those that nodes bear and those that names refer to. -/
inductive IsWord (p : Declarations) : String → Prop
  | own {w : String} : w ∈ Builtin.ownWords → p.IsWord w
  | node {n : Node} {w : String} : n ∈ p.known → w ∈ n.words → p.IsWord w
  | variable {d : NodeId} {s : ScopeId} {name : String} :
    p.table.get? d = some (.location (.var s name)) → p.IsWord name
  | builtin {d : NodeId} {name : String} : p.table.get? d = some (.builtin name) → p.IsWord name
  | module {name : String} {s : ScopeId} : p.scopes.moduleNamed? name = some s → p.IsWord name
  | imported {item : Node} {name : String} : item ∈ p.known → p.importedModule? item = some name → p.IsWord name

inductive IsSpan (p : Declarations) : Span → Prop
  | node {n : Node} : n ∈ p.known → p.IsSpan n.span
  | instanceSite (c : ClassId) : p.IsSpan (p.cls c).instanceSite.span

def vocabulary (p : Declarations) : Vocabulary := ⟨{k | p.IsNumber k}, {w | p.IsWord w}, {s | p.IsSpan s}⟩

variable (p : Declarations)

theorem finite_known : p.known.Finite := by
  have hunits : {u | u ∈ p.units}.Finite := by simpa using finite_toSet p.units.toList
  have hpolicies : (Set.univ : Set UnsupportedPolicy).Finite :=
    (Set.toFinite {UnsupportedPolicy.conservativeTop, .failUnit}).subset fun policy _ => by cases policy <;> simp
  have hsteps : (⋃ u ∈ {u | u ∈ p.units}, ⋃ policy ∈ (Set.univ : Set UnsupportedPolicy),
      {n | ∃ g, FlowGraph.ofUnit policy u = .ok g ∧
        n ∈ (g.blocks.toList.flatMap (·.steps)).flatMap Step.nodes}).Finite := by
    refine hunits.biUnion fun u _ => hpolicies.biUnion fun policy _ => ?_
    cases h : FlowGraph.ofUnit policy u with
    | error e => simp
    | ok g => simpa using finite_toSet ((g.blocks.toList.flatMap (·.steps)).flatMap Step.nodes)
  have hroots : {n | p.IsRoot n}.Finite := by
    refine ((finite_range_getD p.tree.nodes p.tree.root).union ((hunits.image UnitInfo.node).union hsteps)).subset ?_
    rintro n hn
    cases hn with
    | node d => exact .inl ⟨d, rfl⟩
    | unit hu => exact .inr (.inl ⟨_, hu, rfl⟩)
    | @step u policy g b s n hu hg hb hs hn =>
      refine .inr (.inr (Set.mem_biUnion hu (Set.mem_biUnion trivial ⟨g, hg, ?_⟩)))
      exact mem_flatMap.2 ⟨s, mem_flatMap.2 ⟨b, Array.mem_toList_iff.2 hb, hs⟩, hn⟩
  refine (hroots.biUnion fun root _ => finite_toSet root.preorder).subset ?_
  rintro n ⟨root, hroot, hn⟩
  exact Set.mem_biUnion hroot hn

theorem finite_scopes : {s | p.IsScope s}.Finite := by
  have hevaluated : (Set.range p.table.scopeOf).Finite := by
    refine ((finite_values p.table.evaluatedIn).insert 0).subset ?_
    rintro _ ⟨d, rfl⟩
    cases h : p.table.evaluatedIn[d]? with
    | none => exact .inl (by simp [NameTable.scopeOf, h])
    | some s => exact .inr ⟨d, by simp [NameTable.scopeOf, h]⟩
  have hreferents := finite_values p.table.referents
  have hclasses := finite_range_getD p.classes default
  have hall := hevaluated.union <| (hreferents.image fun r => (r.location?.getD .universal).number).union <|
    ((finite_toSet p.scopes.scopes.toList).image Scope.id).union <| (finite_values p.scopes.opened).union <|
    ((finite_range_getD p.units default).image UnitInfo.scope).union <| (hclasses.image ClassInfo.scope).union <|
    hclasses.image fun c => c.instanceSite.scope
  refine hall.subset ?_
  rintro s hs
  cases hs with
  | evaluatedIn d => exact .inl ⟨d, rfl⟩
  | «variable» h => exact .inr (.inl ⟨_, ⟨_, h⟩, rfl⟩)
  | «module» h =>
    obtain ⟨scope, hscope, rfl, -⟩ := exists_of_moduleNamed? h
    exact .inr (.inr (.inl ⟨scope, hscope, rfl⟩))
  | opened h => exact .inr (.inr (.inr (.inl ⟨_, h⟩)))
  | unit u => exact .inr (.inr (.inr (.inr (.inl ⟨_, ⟨u, rfl⟩, rfl⟩))))
  | cls c => exact .inr (.inr (.inr (.inr (.inr (.inl ⟨_, ⟨c, rfl⟩, rfl⟩)))))
  | instanceSite c => exact .inr (.inr (.inr (.inr (.inr (.inr ⟨_, ⟨c, rfl⟩, rfl⟩)))))

theorem finite_classes : {c | p.IsClass c}.Finite := by
  have hall := (finite_toSet (p.classes.toList.map ClassInfo.id)).union <| (finite_values p.classByNode).union <|
    finite_toSet (p.units.toList.filterMap (·.methodOf))
  refine hall.subset ?_
  rintro c hc
  cases hc with
  | declared h => exact .inl (List.mem_map_of_mem (Array.mem_toList_iff.2 h))
  | ofNode h => exact .inr (.inl ⟨_, h⟩)
  | ofMethod hu h => exact .inr (.inr (mem_filterMap.2 ⟨_, Array.mem_toList_iff.2 hu, h⟩))

theorem finite_numbers : {k | p.IsNumber k}.Finite := by
  have hdefinitions := (finite_range_getD p.scopes.scopes default).biUnion fun scope _ =>
    finite_toSet (scope.definitions.flatMap (·.2))
  refine ((p.finite_known.image Node.id).union (hdefinitions.union (p.finite_scopes.union p.finite_classes))).subset ?_
  rintro k hk
  cases hk with
  | node hn => exact .inl ⟨_, hn, rfl⟩
  | @definition s name d hd => exact .inr (.inl (Set.mem_biUnion ⟨s, rfl⟩ (mem_of_mem_valuesUnder hd)))
  | scope hs => exact .inr (.inr (.inl hs))
  | cls hc => exact .inr (.inr (.inr hc))

theorem finite_words : {w | p.IsWord w}.Finite := by
  have hreferents := finite_values p.table.referents
  have hall := (finite_toSet Builtin.ownWords).union <|
    (p.finite_known.biUnion fun n _ => finite_toSet n.words).union <|
    (hreferents.image fun r => (r.location?.getD .universal).text).union <|
    (hreferents.image fun r => match r with
      | .builtin name => name
      | _ => "").union <|
    ((finite_toSet p.scopes.scopes.toList).image Scope.name).union <|
    p.finite_known.image fun item => (p.importedModule? item).getD ""
  refine hall.subset ?_
  rintro w hw
  cases hw with
  | own h => exact .inl h
  | node hn h => exact .inr (.inl (Set.mem_biUnion hn h))
  | «variable» h => exact .inr (.inr (.inl ⟨_, ⟨_, h⟩, rfl⟩))
  | builtin h => exact .inr (.inr (.inr (.inl ⟨_, ⟨_, h⟩, rfl⟩)))
  | «module» h =>
    obtain ⟨scope, hscope, -, rfl⟩ := exists_of_moduleNamed? h
    exact .inr (.inr (.inr (.inr (.inl ⟨scope, hscope, rfl⟩))))
  | imported hn h => exact .inr (.inr (.inr (.inr (.inr ⟨_, hn, by simp [h]⟩))))

theorem finite_spans : {s | p.IsSpan s}.Finite := by
  refine ((p.finite_known.image Node.span).union
    ((finite_range_getD p.classes default).image fun c => c.instanceSite.span)).subset ?_
  rintro s hs
  cases hs with
  | node hn => exact .inl ⟨_, hn, rfl⟩
  | instanceSite c => exact .inr ⟨_, ⟨c, rfl⟩, rfl⟩

theorem isFinite_vocabulary : p.vocabulary.IsFinite := ⟨p.finite_numbers, p.finite_words, p.finite_spans⟩

variable {p}

theorem mem_known_of_isRoot {n : Node} (h : p.IsRoot n) : n ∈ p.known := ⟨n, h, n.mem_preorder_self⟩

end Declarations

namespace SyntaxTree

variable (tree : SyntaxTree)

theorem covered_declarations :
    tree.declarations.Covered tree.declarations.vocabulary.language tree.declarations.known where
  ownWord h := .own h
  part h := h
  receiver h := h
  child := by
    rintro n c ⟨root, hroot, hn⟩ hc
    exact ⟨root, hroot, root.child_mem_preorder hn hc⟩
  id h := .node h
  span h := .node h
  word hn hw := .node hn hw
  node d := Declarations.mem_known_of_isRoot (.node d)
  scopeOf d := .scope (.evaluatedIn d)
  location {d l} h := by
    obtain ⟨s, name, rfl⟩ := NameTable.namesVariables_ofTree _ tree d l h
    exact ⟨.scope (.variable h), .variable h⟩
  builtin h := .builtin h
  moduleNamed h := ⟨.scope (.module h), .module h⟩
  imported hn h := .imported hn h
  definition h := .definition h
  opened h := .scope (.opened h)
  unitScope u := .scope (.unit u)
  classScope c := .scope (.cls c)
  instanceSite c := by
    have hplain : (tree.declarations.cls c).instanceSite.context = none ∧
        (tree.declarations.cls c).instanceSite.part = 0 := by
      unfold Declarations.cls
      cases h : tree.declarations.classes[c]? with
      | none => exact ⟨rfl, rfl⟩
      | some info => exact Program.plain_instanceSite tree info (Array.mem_of_getElem? h)
    refine ⟨.instanceSite c, .scope (.instanceSite c), fun call hcall => ?_, ?_⟩
    · rw [hplain.1] at hcall
      cases hcall
    · rw [hplain.2]
      exact Nat.zero_le _
  classId h := .cls (.declared h)
  classOf h := .cls (.ofNode h)

end SyntaxTree

/-! ## What units publish -/

namespace Preparation

variable {tree : SyntaxTree} {s : Settings} {id : UnitId} {u : PreparedUnit} {env : AbstractState}

theorem covered_frame (hu : (ofProgram (Program.ofTree tree s)).unit? id = some u)
    (henv : env.In tree.declarations.vocabulary.language) (facts : ProgramFacts) :
    (u.frame (Program.ofTree tree s) facts env).Covered tree.declarations.vocabulary.language
      tree.declarations.known := by
  obtain ⟨hinfo, -, -⟩ := prepared_of_unit? hu
  have hmem : u.info ∈ tree.declarations.units := Array.mem_of_getElem? hinfo
  have hunit : tree.declarations.unit id = u.info := congrArg (·.getD default) hinfo
  have hscope : tree.declarations.IsScope u.info.scope := hunit ▸ .unit id
  exact {
    toCovered := tree.covered_declarations
    env := henv
    unitNode := .node (Declarations.mem_known_of_isRoot (.unit hmem))
    ownScope := .scope hscope
    methodOf := fun h => .cls (.ofMethod hmem h) }

theorem keeps_language (hu : (ofProgram (Program.ofTree tree s)).unit? id = some u)
    (henv : env.In tree.declarations.vocabulary.language) (facts : ProgramFacts) :
    (u.frame (Program.ofTree tree s) facts env).Keeps (AbstractState.In tree.declarations.vocabulary.language) where
  empty := AbstractState.in_empty
  join := .join
  apply {b m m'} h hs hr := by
    obtain ⟨hinfo, hgraph, -⟩ := prepared_of_unit? hu
    have hmem : u.info ∈ tree.declarations.units := Array.mem_of_getElem? hinfo
    have hsteps : ∀ step ∈ (u.graph.block b).steps, ∀ n ∈ step.nodes, n ∈ tree.declarations.known := by
      intro step hstep n hn
      unfold FlowGraph.block at hstep
      cases hb : u.graph.blocks[b]? with
      | none => simp [hb] at hstep
      | some block =>
        rw [hb] at hstep
        exact Declarations.mem_known_of_isRoot (.step hmem hgraph (Array.mem_of_getElem? hb) hstep hn)
    obtain ⟨hstate, heffects⟩ := (covered_frame hu henv facts).apply hsteps h ⟨hs, hr⟩
    exact ⟨hstate, heffects⟩

/-- Whatever the units of a program can publish is spelt in the vocabulary of its tree. -/
theorem Published.spelt {env : AbstractState} (h : (ofProgram (Program.ofTree tree s)).Published env) :
    env.Spelt tree.declarations.vocabulary := by
  refine AbstractState.in_language_iff.1 ?_
  induction h with
  | empty => exact AbstractState.in_empty
  | effects hu _ htypes henv => exact (htypes.allKept (keeps_language hu henv _)).effects
  | accumulate _ _ ha hb => exact ha.accumulate hb

end Preparation
end PointsTo
