import PointsTo.Tree.Node

/-! # Nodes at and below a node

The preorder of a node lists the node and everything below it. -/

namespace PointsTo.Node

open List

theorem preorder_eq (n : Node) : n.preorder = n :: preorderAll n.children := by
  cases n
  rw [preorder]

@[simp] theorem preorderAll_nil : preorderAll [] = [] := by
  rw [preorderAll]

@[simp] theorem preorderAll_cons (n : Node) (ns : List Node) :
    preorderAll (n :: ns) = n.preorder ++ preorderAll ns := by
  rw [preorderAll]

theorem preorderAll_eq (ns : List Node) : preorderAll ns = ns.flatMap preorder := by
  induction ns with
  | nil => simp
  | cons n ns ih => simp [ih]

@[simp] theorem preorderAll_append (ms ns : List Node) :
    preorderAll (ms ++ ns) = preorderAll ms ++ preorderAll ns := by
  simp [preorderAll_eq]

theorem mem_preorder_self (n : Node) : n ∈ n.preorder := by
  rw [preorder_eq]
  exact mem_cons_self

theorem mem_preorderAll {ns : List Node} {n x : Node} (hn : n ∈ ns) (hx : x ∈ n.preorder) : x ∈ preorderAll ns := by
  rw [preorderAll_eq]
  exact mem_flatMap_of_mem hn hx

theorem mem_preorder_of_child {n c x : Node} (hc : c ∈ n.children) (hx : x ∈ c.preorder) : x ∈ n.preorder := by
  rw [preorder_eq]
  exact mem_cons_of_mem _ (mem_preorderAll hc hx)

mutual

theorem child_mem_preorder : ∀ (root : Node) {n c : Node}, n ∈ root.preorder → c ∈ n.children → c ∈ root.preorder
  | ⟨id, kind, span, parent, children⟩, n, c, hn, hc => by
    rw [preorder, mem_cons] at hn ⊢
    rcases hn with rfl | hn
    · exact .inr (mem_preorderAll hc c.mem_preorder_self)
    · exact .inr (child_mem_preorderAll children hn hc)

theorem child_mem_preorderAll : ∀ (roots : List Node) {n c : Node}, n ∈ preorderAll roots → c ∈ n.children →
    c ∈ preorderAll roots
  | [], n, c, hn, _ => by cases hn
  | root :: rest, n, c, hn, hc => by
    rw [preorderAll, mem_append] at hn ⊢
    exact hn.imp (fun hn => child_mem_preorder root hn hc) fun hn => child_mem_preorderAll rest hn hc

end

mutual

theorem preorder_sublist : ∀ (n : Node) {m : Node}, m ∈ n.preorder → m.preorder.Sublist n.preorder
  | ⟨id, kind, span, parent, children⟩, m, hm => by
    rw [preorder, mem_cons] at hm
    rcases hm with rfl | hm
    · exact List.Sublist.refl _
    · rw [preorder]
      exact (preorderAll_sublist children hm).cons _

theorem preorderAll_sublist : ∀ (ns : List Node) {m : Node}, m ∈ preorderAll ns →
    m.preorder.Sublist (preorderAll ns)
  | [], m, hm => by cases hm
  | n :: rest, m, hm => by
    rw [preorderAll, mem_append] at hm
    rw [preorderAll]
    rcases hm with hm | hm
    · exact (preorder_sublist n hm).trans (sublist_append_left ..)
    · exact (preorderAll_sublist rest hm).trans (sublist_append_right ..)

end

theorem below_trans {ns : List Node} {m n : Node} (hm : m ∈ preorderAll ns) (hn : n ∈ preorderAll m.children) :
    n ∈ preorderAll ns := by
  refine (preorderAll_sublist ns hm).subset ?_
  rw [preorder_eq]
  exact mem_cons_of_mem _ hn

section Induction

variable {motive : Node → Prop}

mutual

private theorem all_preorder (step : ∀ n, (∀ m ∈ preorderAll n.children, motive m) → motive n) :
    ∀ n : Node, ∀ m ∈ n.preorder, motive m
  | ⟨id, kind, span, parent, children⟩, m, hm => by
    rw [preorder, mem_cons] at hm
    rcases hm with rfl | hm
    · exact step _ (all_preorderAll step children)
    · exact all_preorderAll step children m hm

private theorem all_preorderAll (step : ∀ n, (∀ m ∈ preorderAll n.children, motive m) → motive n) :
    ∀ ns : List Node, ∀ m ∈ preorderAll ns, motive m
  | [], m, hm => by cases hm
  | n :: rest, m, hm => by
    rw [preorderAll, mem_append] at hm
    exact hm.elim (all_preorder step n m) (all_preorderAll step rest m)

end

@[elab_as_elim] theorem below_induction (n : Node)
    (step : ∀ n, (∀ m ∈ preorderAll n.children, motive m) → motive n) : motive n :=
  all_preorder step n n n.mem_preorder_self

end Induction

end PointsTo.Node

theorem PointsTo.SyntaxTree.node_mem_nodes (tree : SyntaxTree) (d : NodeId) : tree.node d ∈ tree.nodes.toList := by
  unfold SyntaxTree.node
  cases hd : tree.nodes[d]? with
  | none => simpa [tree.nodes_eq] using tree.root.mem_preorder_self
  | some n => exact Array.mem_toList_iff.2 (Array.mem_of_getElem? hd)
