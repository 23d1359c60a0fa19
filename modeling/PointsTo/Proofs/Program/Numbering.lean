import PointsTo.Program
import PointsTo.Proofs.Scope.Outline

/-! # Distinct numbers

A tree numbers its nodes in preorder, so that no two of them share a number. This carries over to the node
that opened a scope and to the body of every unit. -/

namespace PointsTo

open List

namespace Node

def ids (n : Node) : List NodeId := n.preorder.map (·.id)

def idsAll (ns : List Node) : List NodeId := (preorderAll ns).map (·.id)

@[simp] theorem ids_mk (id : NodeId) (kind : Kind) (span : Span) (parent : Option NodeId)
    (children : List Node) : ids ⟨id, kind, span, parent, children⟩ = id :: idsAll children := by
  simp [ids, idsAll, preorder]

@[simp] theorem idsAll_nil : idsAll [] = [] := by
  simp [idsAll, preorderAll]

@[simp] theorem idsAll_cons (n : Node) (ns : List Node) : idsAll (n :: ns) = n.ids ++ idsAll ns := by
  simp [idsAll, ids, preorderAll]

theorem idsAll_append (ms ns : List Node) : idsAll (ms ++ ns) = idsAll ms ++ idsAll ns := by
  induction ms with
  | nil => simp
  | cons m ms ih => simp [ih]

theorem ids_eq (n : Node) : n.ids = n.id :: idsAll n.children := by
  cases n
  simp

def Distinct (n : Node) : Prop := n.ids.Nodup

theorem distinct_of_mem {ns : List Node} {n : Node} (h : (idsAll ns).Nodup) (hn : n ∈ ns) : n.Distinct := by
  induction ns with
  | nil => cases hn
  | cons m ns ih =>
    rw [idsAll_cons, nodup_append] at h
    rcases mem_cons.1 hn with rfl | hn
    · exact h.1
    · exact ih h.2.1 hn

theorem Distinct.children {n : Node} (h : n.Distinct) : (idsAll n.children).Nodup := by
  rw [Distinct, ids_eq] at h
  exact (nodup_cons.1 h).2

theorem Distinct.child {n c : Node} (h : n.Distinct) (hc : c ∈ n.children) : c.Distinct :=
  distinct_of_mem h.children hc

theorem Distinct.below {n c : Node} (h : n.Distinct) (hc : c ∈ preorderAll n.children) : c.Distinct :=
  List.Nodup.sublist ((preorderAll_sublist _ hc).map _) h.children

mutual

theorem ids_ofRaw (parent : Option NodeId) (next : NodeId) : ∀ raw : RawNode, ∃ count,
    (ofRaw parent next raw).1.ids = List.range' next count ∧ (ofRaw parent next raw).2 = next + count
  | ⟨kind, children, span, attrs⟩ => by
    obtain ⟨count, hids, hafter⟩ := ids_ofRaws (some next) (next + 1) children
    refine ⟨count + 1, ?_, ?_⟩
    · rw [ofRaw, ids_mk, hids, range'_succ]
    · calc (ofRaw parent next ⟨kind, children, span, attrs⟩).2
        _ = (ofRaws (some next) (next + 1) children).2 := by rw [ofRaw]
        _ = next + (count + 1) := by rw [hafter, Nat.add_assoc, Nat.add_comm 1]

theorem ids_ofRaws (parent : Option NodeId) (next : NodeId) : ∀ raws : List RawNode, ∃ count,
    idsAll (ofRaws parent next raws).1 = List.range' next count ∧ (ofRaws parent next raws).2 = next + count
  | [] => ⟨0, by simp [ofRaws], rfl⟩
  | raw :: rest => by
    obtain ⟨count, hids, hafter⟩ := ids_ofRaw parent next raw
    obtain ⟨counts, hall, hlast⟩ := ids_ofRaws parent (next + count) rest
    refine ⟨count + counts, ?_, ?_⟩
    · rw [ofRaws, idsAll_cons, hids, hafter, hall, range'_append_1]
    · calc (ofRaws parent next (raw :: rest)).2
        _ = (ofRaws parent (ofRaw parent next raw).2 rest).2 := by rw [ofRaws]
        _ = next + (count + counts) := by rw [hafter, hlast, Nat.add_assoc]

end

theorem length_ofRaws (parent : Option NodeId) (next : NodeId) (raws : List RawNode) :
    (ofRaws parent next raws).1.length = raws.length := by
  induction raws generalizing next with
  | nil => simp [ofRaws]
  | cons raw rest ih => simp [ofRaws, ih]

theorem exists_raw_of_mem_ofRaws {parent : Option NodeId} {next : NodeId} {raws : List RawNode} {n : Node}
    (h : n ∈ (ofRaws parent next raws).1) : (∃ raw ∈ raws, n.kind = Kind.ofRaw raw) ∧ n.parent = parent := by
  induction raws generalizing next with
  | nil => simp [ofRaws] at h
  | cons raw rest ih =>
    simp only [ofRaws, mem_cons] at h
    rcases h with rfl | h
    · cases raw
      rw [ofRaw]
      exact ⟨⟨_, mem_cons_self, rfl⟩, rfl⟩
    · exact (ih h).imp_left fun ⟨raw', hraw, hkind⟩ => ⟨raw', mem_cons_of_mem _ hraw, hkind⟩

end Node

namespace SyntaxTree

/-- The tree has been made of raw nodes, as one module or as several. -/
inductive FromRaw (tree : SyntaxTree) : Prop
  | module (raw : RawNode) (h : ofModule raw = .ok tree)
  | modules (raws : List (String × RawNode)) (h : ofModules raws = .ok tree)

theorem kind_of_checkModules {seen : List String} {raws : List (String × RawNode)}
    (h : checkModules seen raws = .ok ()) : ∀ raw ∈ raws, raw.2.kind = "Module" := by
  induction raws generalizing seen with
  | nil => simp
  | cons raw rest ih =>
    obtain ⟨name, raw⟩ := raw
    simp only [checkModules, checkModule] at h
    split at h
    · cases h
    next hkind =>
      split at h
      · cases h
      · exact forall_mem_cons.2 ⟨by simpa using hkind, ih h⟩

variable {tree : SyntaxTree}
variable (h : tree.FromRaw)
include h

/-- The modules are numbered one after another, and each is made of a raw module. -/
theorem FromRaw.exists_raws : ∃ parent next raws,
    tree.modules.map (·.2) = (Node.ofRaws parent next raws).1 ∧ ∀ raw ∈ raws, raw.kind = "Module" := by
  cases h with
  | module raw h =>
    unfold ofModule at h
    split at h
    · cases h
    next hkind =>
      cases h
      exact ⟨none, 0, [raw], by simp [ofRoot, Node.ofRaws], by simpa using hkind⟩
  | modules raws h =>
    unfold ofModules at h
    split at h
    · cases h
    · cases hcheck : checkModules [] raws with
      | error e =>
        rw [hcheck] at h
        cases h
      | ok =>
        rw [hcheck] at h
        cases h
        refine ⟨some 0, 1, raws.map (·.2), ?_, List.forall_mem_map.2 (kind_of_checkModules hcheck)⟩
        exact map_snd_zip (by simp [Node.length_ofRaws])

theorem FromRaw.kind : ∀ m ∈ tree.modules, m.2.kind = .module := by
  intro m hm
  obtain ⟨parent, next, raws, hroots, hkinds⟩ := h.exists_raws
  have hroot : m.2 ∈ tree.modules.map (·.2) := List.mem_map_of_mem hm
  rw [hroots] at hroot
  obtain ⟨⟨raw, hraw, hkind⟩, -⟩ := Node.exists_raw_of_mem_ofRaws hroot
  simp [hkind, Kind.ofRaw, Kind.decode, hkinds raw hraw]

theorem FromRaw.nodup : (Node.idsAll (tree.modules.map (·.2))).Nodup := by
  obtain ⟨parent, next, raws, hroots, -⟩ := h.exists_raws
  obtain ⟨count, hids, -⟩ := Node.ids_ofRaws parent next raws
  rw [hroots, hids]
  exact nodup_range'

theorem FromRaw.distinct : ∀ m ∈ tree.modules, m.2.Distinct :=
  fun _ hm => Node.distinct_of_mem h.nodup (List.mem_map_of_mem hm)

end SyntaxTree

namespace ScopeTree

def Distinct (t : ScopeTree) : Prop := ∀ (i : ScopeId) s, t.scopes[i]? = some s → s.node.Distinct

variable {t t' : ScopeTree}

theorem Distinct.silent (ht : t.Distinct) (h : Silent t t') : t'.Distinct := by
  intro i s hs
  have houtline : t.outline[i]? = some (s.node, s.parent) := by
    rw [← h.outline]
    simp [outline, hs]
  rw [outline, getElem?_map, Array.getElem?_toList] at houtline
  obtain ⟨s', hs', heq⟩ := Option.map_eq_some_iff.1 houtline
  exact (Prod.mk.inj heq).1 ▸ ht i s' hs'

theorem Distinct.openScope (ht : t.Distinct) (kind : ScopeKind) {node : Node} (hn : node.Distinct)
    (parent : Option ScopeId) (name : String) : (t.openScope kind node parent name).2.Distinct := by
  intro i s hs
  rw [ScopeTree.openScope, Array.getElem?_push] at hs
  split at hs
  · cases hs
    exact hn
  · exact ht i s hs

theorem Tour.distinct {id : ScopeId} {ns : List Node} (tour : Tour id ns t t')
    (h : ∀ n ∈ ns, ∀ t : ScopeTree, t.Distinct → (ScopeTree.visit id n t).Distinct) (ht : t.Distinct) :
    t'.Distinct := by
  induction tour with
  | done hs => exact ht.silent hs
  | visit hs _ ih =>
    rw [forall_mem_cons] at h
    exact ih h.2 (h.1 _ (ht.silent hs))

theorem distinct_visit (id : ScopeId) (n : Node) (t : ScopeTree) (hn : n.Distinct) (ht : t.Distinct) :
    (visit id n t).Distinct := by
  induction n using Node.below_induction generalizing id t with
  | step n ih =>
    have houtside : ∀ c ∈ n.outerParts, ∀ t : ScopeTree, t.Distinct → (visit id c t).Distinct := fun c hc t =>
      have hc := Node.below_of_mem_outerParts hc
      ih c hc id t (hn.below hc)
    rcases visit_cases id n t with ⟨-, tour⟩ | ⟨-, kind, name, t₁, -, before, after⟩
    · exact tour.distinct houtside ht
    · refine after.distinct (fun c hc t => ?_) ((before.distinct houtside ht).openScope kind hn _ name)
      have hc := Node.below_of_mem_innerParts hc
      exact ih c hc _ t (hn.below hc)

theorem distinct_ofTree {tree : SyntaxTree} (h : tree.FromRaw) : (ScopeTree.ofTree tree).Distinct := by
  refine List.foldlRecOn _ _ (fun i s hs => ?_) fun t ht m hm => ?_
  · simp [empty] at hs
  · have hm := h.distinct m hm
    exact (Tour.visitAll ..).distinct (fun c hc t => distinct_visit _ c t (hm.child hc))
      (ht.openScope .module hm none m.1)

end ScopeTree

namespace Program

theorem nodup_unitBody {node : Node} (h : node.Distinct) (kind : UnitKind) :
    ∀ body ∈ unitBody kind node, (Node.idsAll body).Nodup := by
  intro body hb
  unfold unitBody at hb
  split at hb
  · exact Option.some.inj hb ▸ h.children
  · obtain ⟨block, hblock, rfl⟩ := Option.map_eq_some_iff.1 hb
    exact (h.child (mem_of_find?_eq_some hblock)).children

def BodiesDistinct (units : Array UnitInfo) : Prop :=
  ∀ (i : UnitId) u, units[i]? = some u → ∀ body ∈ u.body, (Node.idsAll body).Nodup

theorem bodiesDistinct_addUnit {scopes : ScopeTree} {acc : Array UnitInfo × Std.ExtTreeMap ScopeId UnitId}
    (h : BodiesDistinct acc.1) {s : Scope} (hs : s.node.Distinct) : BodiesDistinct (addUnit scopes acc s).1 := by
  unfold addUnit
  split
  next => exact h
  next kind _ =>
    intro i u hu
    rw [Array.getElem?_push] at hu
    split at hu
    · cases hu
      exact nodup_unitBody hs kind
    · exact h i u hu

theorem bodiesDistinct_findUnits {scopes : ScopeTree} (h : scopes.Distinct) :
    BodiesDistinct (findUnits scopes).1 := by
  unfold findUnits
  rw [← Array.foldl_toList]
  refine List.foldlRecOn (motive := fun acc : Array UnitInfo × _ => BodiesDistinct acc.1) _ _ (fun i u hu => ?_)
    fun acc hacc s hs => ?_
  · simp at hu
  · obtain ⟨j, hj⟩ := Array.mem_iff_getElem?.1 (Array.mem_def.2 hs)
    exact bodiesDistinct_addUnit hacc (h j s hj)

theorem bodiesDistinct_ofTree {tree : SyntaxTree} (h : tree.FromRaw) (s : Settings) :
    BodiesDistinct (ofTree tree s).units := by
  intro i unit hu
  simp only [ofTree, Array.getElem?_map] at hu
  obtain ⟨u, hfound, rfl⟩ := Option.map_eq_some_iff.1 hu
  exact bodiesDistinct_findUnits (ScopeTree.distinct_ofTree h) i u hfound

end Program
end PointsTo
