import Mathlib.Data.List.Flatten
import Mathlib.Data.List.Perm.Subperm
import Mathlib.Logic.Relation
import PointsTo.Proofs.Program.Numbering

/-! # The walk that opens the scopes

The walk goes from a node in a scope to nodes below it, which may belong to another scope. If classes and
lambdas have the children they should have, it comes to each node at most once, and every scope of a tree
has been opened at a node that the walk has come to, in the scope that is then its parent. -/

namespace PointsTo

open List Node

namespace Node

/-- A class has its body first and then its bases, and a lambda has its parameters and one expression. -/
def isLaidOut (n : Node) : Bool :=
  match n.kind, n.children with
  | .classDef _, block :: bases =>
    block.kind = .block && bases.all fun base => base.kind ≠ .block && base.kind ≠ .arguments
  | .classDef _, [] => false
  | .lambda, [params, _] => params.kind = .arguments
  | .lambda, _ => false
  | _, _ => true

section Parts

variable {ms ns : List Node}

theorem preorderAll_children_sublist (n : Node) : (preorderAll n.children).Sublist n.preorder := by
  rw [preorder_eq]
  exact sublist_cons_self ..

theorem preorderAll_mono (h : ms.Sublist ns) : (preorderAll ms).Sublist (preorderAll ns) := by
  simpa [preorderAll_eq] using h.flatMap preorder

theorem preorderAll_drop_sublist (i : Nat) (n : Node) : (preorderAll (n.children.drop i)).Sublist n.preorder :=
  (preorderAll_mono (drop_sublist ..)).trans (preorderAll_children_sublist n)

theorem preorderAll_grandchildren_sublist (ns : List Node) :
    (preorderAll (ns.flatMap (·.children))).Sublist (preorderAll ns) := by
  rw [preorderAll_eq, preorderAll_eq, flatMap_assoc]
  refine Sublist.flatMap_right ns fun n _ => ?_
  rw [← preorderAll_eq]
  exact preorderAll_children_sublist n

theorem preorderAll_filter_perm (p : Node → Bool) :
    (preorderAll (ns.filter p) ++ preorderAll (ns.filter (!p ·))).Perm (preorderAll ns) := by
  simpa [preorderAll_eq] using (filter_append_perm p ns).flatMap_right preorder

theorem preorderAll_defaults_sublist :
    (preorderAll (defaults ns)).Sublist (preorderAll (ns.filter (·.kind = .arguments))) :=
  (preorderAll_grandchildren_sublist _).trans <|
    (preorderAll_grandchildren_sublist _).trans (preorderAll_mono (take_sublist ..))

theorem preorderAll_body_sublist : (preorderAll (body ns)).Sublist (preorderAll (ns.filter (·.kind = .block))) :=
  (preorderAll_grandchildren_sublist _).trans (preorderAll_mono (take_sublist ..))

theorem preorderAll_clauseParts_sublist (first : Bool) (ns : List Node) :
    (preorderAll (clauseParts first ns)).Sublist (preorderAll (ns.filter (·.kind = .comprehension))) := by
  induction ns generalizing first with
  | nil => simp [clauseParts]
  | cons n ns ih =>
    rw [clauseParts]
    split
    next h => simpa [h] using (preorderAll_drop_sublist _ n).append (ih false)
    next h => simpa [h] using ih first

theorem preorderAll_clauses_sublist (ns : List Node) :
    (preorderAll (firstIterable ns ++ clauseParts true ns)).Sublist
      (preorderAll (ns.filter (·.kind = .comprehension))) := by
  induction ns with
  | nil => simp [clauseParts, firstIterable, firstOf]
  | cons n ns ih =>
    by_cases h : n.kind = .comprehension
    · have hdrop := take_append_drop 1 (n.children.drop 1)
      rw [drop_drop] at hdrop
      have hparts := (preorderAll_drop_sublist 1 n).append (preorderAll_clauseParts_sublist false ns)
      rw [← hdrop] at hparts
      simpa [clauseParts, firstIterable, firstOf, h] using hparts
    · simpa [clauseParts, firstIterable, firstOf, h] using ih

/-- The two lists of nodes that a walk goes to share nothing, and all of it stands below the node. -/
theorem parts_subperm {n : Node} (h : n.isLaidOut = true) :
    (preorderAll n.outerParts ++ preorderAll n.innerParts).Subperm (preorderAll n.children) := by
  obtain ⟨id, kind, span, parent, children⟩ := n
  cases kind with
  | functionDef name =>
    have hbody : (children.filter (·.kind = .block)).Sublist (children.filter fun c => !decide (c.kind = .arguments)) :=
      monotone_filter_right _ (by simp +contextual)
    exact (preorderAll_defaults_sublist.append (preorderAll_body_sublist.trans (preorderAll_mono hbody))).subperm.trans
      (preorderAll_filter_perm _).subperm
  | classDef name =>
    obtain _ | ⟨block, bases⟩ := children
    · cases h
    have hbody : body (block :: bases) = block.children := by
      simp_all [isLaidOut, body, firstOf]
    have hparts := (preorderAll_children_sublist block).append (List.Sublist.refl (preorderAll bases))
    simpa [outerParts, innerParts, hbody] using perm_append_comm.subperm.trans hparts.subperm
  | lambda =>
    obtain _ | ⟨params, _ | ⟨result, _ | _⟩⟩ := children
    · cases h
    · cases h
    · have hdefaults : defaults [params, result] = params.children.flatMap (·.children) := by
        simp_all [isLaidOut, defaults, firstOf]
      have hparams := (preorderAll_grandchildren_sublist params.children).trans (preorderAll_children_sublist params)
      simpa [outerParts, innerParts, hdefaults] using (hparams.append (List.Sublist.refl result.preorder)).subperm
    · cases h
  | listComp | setComp | dictComp | generatorExp =>
    have hparts := (preorderAll_clauses_sublist children).append (.refl (preorderAll (elements children)))
    simpa [outerParts, innerParts] using hparts.subperm.trans (preorderAll_filter_perm _).subperm
  | importModules | importFrom _ | globalNames _ | nonlocalNames _ => exact nil_subperm
  | _ => simp [outerParts, innerParts, List.Subperm.refl]

end Parts

theorem mem_preorder_of_walk {walk : ScopeId × Node → ScopeId × Node → Prop} {a b : ScopeId × Node}
    (hwalk : ∀ {a b}, walk a b → b.2 ∈ preorderAll a.2.children) (h : Relation.ReflTransGen walk a b) :
    b.2 ∈ a.2.preorder := by
  induction h with
  | refl => exact a.2.mem_preorder_self
  | tail _ hbc ih =>
    refine (a.2.preorder_sublist ih).subset ?_
    rw [preorder_eq]
    exact mem_cons_of_mem _ (hwalk hbc)

end Node

/-- Classes and lambdas have the children they should have. -/
def SyntaxTree.LaidOut (tree : SyntaxTree) : Prop := ∀ m ∈ tree.modules, ∀ n ∈ m.2.preorder, n.isLaidOut = true

instance (tree : SyntaxTree) : Decidable tree.LaidOut :=
  inferInstanceAs (Decidable (∀ m ∈ tree.modules, ∀ n ∈ m.2.preorder, n.isLaidOut = true))

namespace ScopeTree

variable {t t' t'' : ScopeTree}

/-- Every node that opened a scope is looked up as a scope that it opened. -/
structure Filed (t : ScopeTree) : Prop where
  opened {k : NodeId} {s : ScopeId} (h : t.scopeOf? k = some s) : ∃ p, t.outline[s]? = some p ∧ p.1.id = k
  isSome {p : Node × Option ScopeId} (h : p ∈ t.outline) : (t.scopeOf? p.1.id).isSome

theorem filed_empty : empty.Filed where
  opened h := by simp [empty, scopeOf?] at h
  isSome h := by simp [empty, outline] at h

theorem Filed.silent (ht : t.Filed) (h : Silent t t') : t'.Filed where
  opened {k s} hs := by
    rw [scopeOf?, h.opened] at hs
    rw [h.outline]
    exact ht.opened hs
  isSome {p} hp := by
    rw [h.outline] at hp
    rw [scopeOf?, h.opened]
    exact ht.isSome hp

theorem Filed.openScope (ht : t.Filed) (kind : ScopeKind) (node : Node) (parent : Option ScopeId) (name : String) :
    (t.openScope kind node parent name).2.Filed where
  opened {k s} hs := by
    rw [outline_openScope]
    rw [scopeOf?, opened_openScope, Std.ExtTreeMap.getElem?_insert] at hs
    split at hs
    next hk =>
      cases hs
      exact ⟨(node, parent), by simp, by simpa using hk⟩
    next =>
      obtain ⟨p, hp, hid⟩ := ht.opened hs
      exact ⟨p, getElem?_append_left (List.getElem?_eq_some_iff.1 hp).1 ▸ hp, hid⟩
  isSome {p} hp := by
    rw [outline_openScope, mem_append, mem_singleton] at hp
    rw [scopeOf?, opened_openScope, Std.ExtTreeMap.getElem?_insert]
    split
    · rfl
    next hne =>
      rcases hp with hp | rfl
      · exact ht.isSome hp
      · simp at hne

/-- Every scope is the one that its node is looked up as. -/
def Numbered (t : ScopeTree) : Prop := ∀ s p, t.outline[s]? = some p → t.scopeOf? p.1.id = some s

theorem Filed.numbered (ht : t.Filed) (hnodup : (t.outline.map (·.1.id)).Nodup) : t.Numbered := by
  intro s p hp
  obtain ⟨s', hs'⟩ := Option.isSome_iff_exists.1 (ht.isSome (mem_of_getElem? hp))
  obtain ⟨p', hp', hid⟩ := ht.opened hs'
  have hlt : s < (t.outline.map (·.1.id)).length := by
    simpa using (List.getElem?_eq_some_iff.1 hp).1
  have hsame : (t.outline.map (·.1.id))[s]? = (t.outline.map (·.1.id))[s']? := by
    simp [hp, hp', hid]
  rw [hs', (getElem?_inj hlt hnodup).1 hsame]

/-- The walk that opens the scopes goes from a node in one scope to a node below it in another. -/
inductive Next (T : ScopeTree) : ScopeId × Node → ScopeId × Node → Prop
  | outside {s : ScopeId} {n c : Node} (h : n.opensScope = true → (T.scopeOf? n.id).isSome = true)
    (hc : c ∈ n.outerParts) : Next T (s, n) (s, c)
  | inside {s inner : ScopeId} {n c : Node} (h : T.scopeOf? n.id = some inner) (hc : c ∈ n.innerParts) :
    Next T (s, n) (inner, c)

theorem Next.below {T : ScopeTree} {a b : ScopeId × Node} (h : Next T a b) : b.2 ∈ Node.preorderAll a.2.children := by
  cases h with
  | outside _ hc => exact below_of_mem_outerParts hc
  | inside _ hc => exact below_of_mem_innerParts hc

/-- Starting at a node in a scope, the walk opens this entry of the outline. -/
def Opens (T : ScopeTree) (a : ScopeId × Node) (p : Node × Option ScopeId) : Prop :=
  ∃ s, p.2 = some s ∧ Relation.ReflTransGen (Next T) a (s, p.1)

/-- The entries that are new in the second tree are about these nodes, each at most once, and if they have
come to stay in `T`, they are as stated. -/
structure Walked (T : ScopeTree) (nodes : List Node) (stated : Node × Option ScopeId → Prop) (t t' : ScopeTree) :
    Prop where
  filed (h : t.Filed) : t'.Filed
  added : ∃ added, t'.outline = t.outline ++ added ∧ (added.map Prod.fst).Subperm nodes ∧
    (t'.outline <+: T.outline → ∀ p ∈ added, stated p)

namespace Walked

variable {T : ScopeTree} {ms ns : List Node} {stated stated' : Node × Option ScopeId → Prop}

theorem isPrefix (h : Walked T ns stated t t') : t.outline <+: t'.outline := by
  obtain ⟨added, houtline, -⟩ := h.added
  exact ⟨added, houtline.symm⟩

theorem mono (h : Walked T ms stated t t') (hnodes : ms.Subperm ns)
    (hstated : t'.outline <+: T.outline → ∀ p, stated p → stated' p) : Walked T ns stated' t t' where
  filed := h.filed
  added := by
    obtain ⟨added, houtline, hadded, hp⟩ := h.added
    exact ⟨added, houtline, hadded.trans hnodes, fun hT p hmem => hstated hT p (hp hT p hmem)⟩

theorem trans (h : Walked T ms stated t t') (h' : Walked T ns stated t' t'') :
    Walked T (ms ++ ns) stated t t'' where
  filed ht := h'.filed (h.filed ht)
  added := by
    obtain ⟨added, houtline, hadded, hp⟩ := h.added
    obtain ⟨added', houtline', hadded', hp'⟩ := h'.added
    refine ⟨added ++ added', by rw [houtline', houtline, append_assoc], ?_, fun hT => ?_⟩
    · rw [map_append]
      exact hadded.append hadded'
    · rw [forall_mem_append]
      exact ⟨hp (h'.isPrefix.trans hT), hp' hT⟩

theorem silent (h : Silent t t') : Walked T [] stated t t' where
  filed ht := ht.silent h
  added := ⟨[], by simp [h.outline], nil_subperm, by simp⟩

theorem openScope (kind : ScopeKind) (n : Node) (parent : Option ScopeId) (name : String) :
    Walked T [n] (· = (n, parent)) t (t.openScope kind n parent name).2 where
  filed ht := ht.openScope kind n parent name
  added := ⟨[(n, parent)], outline_openScope .., .refl _, by simp⟩

end Walked

variable {T : ScopeTree} {id : ScopeId} {ns : List Node}

theorem Tour.walked (tour : Tour id ns t t')
    (h : ∀ n ∈ ns, ∀ t, Walked T n.preorder (Opens T (id, n)) t (ScopeTree.visit id n t)) :
    Walked T (Node.preorderAll ns) (fun p => ∃ n ∈ ns, Opens T (id, n) p) t t' := by
  induction tour with
  | done hs => exact .silent hs
  | @visit n ns t t₁ t' hs _ ih =>
    rw [forall_mem_cons] at h
    rw [preorderAll_cons]
    refine (Walked.silent hs).trans (((h.1 t₁).mono (.refl _) fun _ p hp => ?_).trans
      ((ih h.2).mono (.refl _) fun _ p ⟨m, hm, hp⟩ => ?_))
    · exact ⟨n, mem_cons_self, hp⟩
    · exact ⟨m, mem_cons_of_mem n hm, hp⟩

theorem Opens.of_next {a b : ScopeId × Node} {p : Node × Option ScopeId} (h : Next T a b) (hp : Opens T b p) :
    Opens T a p := by
  obtain ⟨s, hs, hwalk⟩ := hp
  exact ⟨s, hs, hwalk.head h⟩

theorem walked_visit (hT : T.Numbered) (id : ScopeId) (n : Node) (t : ScopeTree)
    (hn : ∀ m ∈ n.preorder, m.isLaidOut = true) : Walked T n.preorder (Opens T (id, n)) t (visit id n t) := by
  induction n using below_induction generalizing id t with
  | step n ih =>
    have hparts := Node.parts_subperm (hn n n.mem_preorder_self)
    have hbelow : ∀ c ∈ Node.preorderAll n.children, ∀ id t,
        Walked T c.preorder (Opens T (id, c)) t (visit id c t) := by
      intro c hc id t
      refine ih c hc id t fun m hm => hn m ?_
      rw [Node.preorder_eq]
      exact mem_cons_of_mem _ ((preorderAll_sublist _ hc).subset hm)
    have houtside : ∀ c ∈ n.outerParts, ∀ t, Walked T c.preorder (Opens T (id, c)) t (visit id c t) :=
      fun c hc => hbelow c (below_of_mem_outerParts hc) id
    rw [n.preorder_eq]
    rcases visit_cases id n t with ⟨hopens, tour⟩ | ⟨-, kind, name, t₁, -, before, after⟩
    · refine (tour.walked houtside).mono ?_ fun _ p ⟨c, hc, hp⟩ => hp.of_next (.outside (by simp [hopens]) hc)
      exact (sublist_append_left ..).subperm.trans (hparts.cons_right n)
    · have hbefore := before.walked houtside
      have hafter := after.walked fun c hc => hbelow c (below_of_mem_innerParts hc) t₁.size
      have hopen : Walked T [n] _ t₁ _ := .openScope kind n (some id) name
      let stated (p : Node × Option ScopeId) : Prop :=
        (∃ c ∈ n.outerParts, Opens T (id, c) p) ∨ p = (n, some id) ∨ ∃ c ∈ n.innerParts, Opens T (t₁.size, c) p
      have hwhole : Walked T (Node.preorderAll n.outerParts ++ ([n] ++ Node.preorderAll n.innerParts)) stated t
          (visit id n t) :=
        (hbefore.mono (.refl _) fun _ p hp => .inl hp).trans <|
          (hopen.mono (.refl _) fun _ p hp => .inr (.inl hp)).trans <|
          hafter.mono (.refl _) fun _ p hp => .inr (.inr hp)
      refine hwhole.mono ?_ fun hprefix p hp => ?_
      · exact perm_middle.subperm.trans ((subperm_cons n).2 hparts)
      -- The entry made here is still in `T`, so `T` looks the node up as the scope opened here.
      have hentry : T.outline[t₁.size]? = some (n, some id) := by
        obtain ⟨rest, hrest⟩ := hafter.isPrefix.trans hprefix
        simp [← hrest, outline_openScope]
      have hscope : T.scopeOf? n.id = some t₁.size := hT _ _ hentry
      rcases hp with ⟨c, hc, hp⟩ | rfl | ⟨c, hc, hp⟩
      · exact hp.of_next (.outside (by simp [hscope]) hc)
      · exact ⟨id, rfl, .refl⟩
      · exact hp.of_next (.inside hscope hc)

def OpensIn (T : ScopeTree) (root : Node) (p : Node × Option ScopeId) : Prop :=
  p = (root, none) ∨ ∃ s, T.scopeOf? root.id = some s ∧ ∃ c ∈ root.children, Opens T (s, c) p

theorem walked_addModule (hT : T.Numbered) (t : ScopeTree) (name : String) {root : Node}
    (hroot : ∀ m ∈ root.preorder, m.isLaidOut = true) :
    Walked T root.preorder (OpensIn T root) t (t.addModule name root) := by
  have hopen : Walked T [root] _ t _ := .openScope .module root none name
  have htour : Tour t.size root.children (t.openScope .module root none name).2 (t.addModule name root) :=
    .visitAll ..
  have hafter := htour.walked (T := T) fun c hc t => walked_visit hT _ c t fun m hm =>
    hroot m (mem_preorder_of_child hc hm)
  rw [root.preorder_eq]
  refine (hopen.mono (.refl _) fun _ p hp => .inl hp).trans (hafter.mono (.refl _) fun hprefix p hp => .inr ?_)
  have hentry : T.outline[t.size]? = some (root, none) := by
    obtain ⟨rest, hrest⟩ := hafter.isPrefix.trans hprefix
    simp [← hrest, outline_openScope]
  exact ⟨t.size, hT _ _ hentry, hp⟩

variable {tree : SyntaxTree}

theorem walked_ofTree (hT : T.Numbered) (hl : tree.LaidOut) :
    Walked T (Node.preorderAll (tree.modules.map (·.2))) (fun p => ∃ m ∈ tree.modules, OpensIn T m.2 p) empty
      (ofTree tree) := by
  suffices h : ∀ (ms : List (String × Node)) (t : ScopeTree), ms ⊆ tree.modules →
      Walked T (Node.preorderAll (ms.map (·.2))) (fun p => ∃ m ∈ tree.modules, OpensIn T m.2 p) t
        (ms.foldl (fun t m => t.addModule m.1 m.2) t) from h _ _ (List.Subset.refl _)
  intro ms
  induction ms with
  | nil => exact fun t _ => .silent (.refl t)
  | cons m ms ih =>
    intro t hms
    rw [cons_subset] at hms
    have hm := walked_addModule hT t m.1 (hl m hms.1)
    exact (hm.mono (.refl _) fun _ p hp => ⟨m, hms.1, hp⟩).trans (ih _ hms.2)

theorem numbered_ofTree (h : tree.FromRaw) (hl : tree.LaidOut) : (ofTree tree).Numbered := by
  have hempty : empty.Numbered := fun s p h => by simp [empty, outline] at h
  have hwalk := walked_ofTree hempty hl
  obtain ⟨added, houtline, ⟨ns, hperm, hsub⟩, -⟩ := hwalk.added
  have hnodup : (ns.map (·.id)).Nodup := h.nodup.sublist (hsub.map _)
  refine (hwalk.filed filed_empty).numbered ?_
  rw [houtline]
  simpa [empty, outline, Function.comp_def] using (hperm.map (·.id)).nodup_iff.1 hnodup

theorem opensIn_of_outline (h : tree.FromRaw) (hl : tree.LaidOut)
    {p : Node × Option ScopeId} (hp : p ∈ (ofTree tree).outline) : ∃ m ∈ tree.modules, OpensIn (ofTree tree) m.2 p := by
  obtain ⟨added, houtline, -, hstated⟩ := (walked_ofTree (numbered_ofTree h hl) hl).added
  rw [houtline] at hp
  exact hstated (prefix_refl _) p (by simpa [empty, outline] using hp)

end ScopeTree

end PointsTo
