import Mathlib.Data.List.Find
import Mathlib.Data.List.Forall2
import PointsTo.Proofs.Program.Numbering

/-! # Places in the preorder of a raw tree

The nodes of a module are numbered by their places in the preorder of its raw tree. Children keep their order, the link
to the parent undoes the step to a child, and whatever stands below a node takes up the numbers right after it.

The arena is filled with these nodes one after the other. A cell is put there before the cells of its children, and is
told of each child when all below that child is there. So adding a subtree extends the cells by those of the subtree,
and changes just one of the earlier ones, the cell of the parent. -/

namespace PointsTo

namespace RawNode

mutual

/-- A raw node and everything below it, parents first and siblings in order. -/
def preorder : RawNode → List RawNode
  | ⟨kind, children, span, attrs⟩ => ⟨kind, children, span, attrs⟩ :: preorderAll children

def preorderAll : List RawNode → List RawNode
  | [] => []
  | raw :: rest => preorder raw ++ preorderAll rest

end

theorem preorder_eq (raw : RawNode) : raw.preorder = raw :: preorderAll raw.children := by
  cases raw
  rw [preorder]

mutual

theorem prefix_drop_preorder : ∀ (raw : RawNode) {i : Nat} {r : RawNode}, raw.preorder[i]? = some r →
    r.preorder <+: raw.preorder.drop i
  | ⟨kind, children, span, attrs⟩, 0, r, h => by
    rw [preorder] at h
    cases h
    exact List.prefix_refl _
  | ⟨kind, children, span, attrs⟩, i + 1, r, h => by
    rw [preorder] at h ⊢
    exact prefix_drop_preorderAll children h

theorem prefix_drop_preorderAll : ∀ (raws : List RawNode) {i : Nat} {r : RawNode}, (preorderAll raws)[i]? = some r →
    r.preorder <+: (preorderAll raws).drop i
  | [], i, r, h => by
    rw [preorderAll] at h
    cases h
  | raw :: rest, i, r, h => by
    rw [preorderAll] at h ⊢
    rcases Nat.lt_or_ge i raw.preorder.length with hi | hi
    · rw [List.getElem?_append_left hi] at h
      rw [List.drop_append_of_le_length (Nat.le_of_lt hi)]
      exact (prefix_drop_preorder raw h).trans (List.prefix_append ..)
    · rw [List.getElem?_append_right hi] at h
      rw [List.drop_append, List.drop_eq_nil_of_le hi, List.nil_append]
      exact prefix_drop_preorderAll rest h

end

end RawNode

namespace Node

theorem exists_parent_of_mem (n : Node) {m : Node} (hm : m ∈ n.preorder) :
    m = n ∨ ∃ q ∈ n.preorder, m ∈ q.children := by
  induction n using below_induction with
  | step n ih =>
    rw [preorder_eq, List.mem_cons, preorderAll_eq, List.mem_flatMap] at hm
    refine hm.imp_right ?_
    rintro ⟨c, hc, hm⟩
    rcases ih c (mem_preorderAll hc c.mem_preorder_self) hm with rfl | ⟨q, hq, hm⟩
    · exact ⟨n, n.mem_preorder_self, hc⟩
    · exact ⟨q, mem_preorder_of_child hc hq, hm⟩

/-- A node has been made of a raw one. -/
def MadeOf (n : Node) (raw : RawNode) : Prop := n = (ofRaw n.parent n.id raw).1

mutual

theorem forall₂_ofRaw (parent : Option NodeId) (next : NodeId) : ∀ raw : RawNode,
    List.Forall₂ MadeOf (ofRaw parent next raw).1.preorder raw.preorder
  | ⟨kind, children, span, attrs⟩ => by
    rw [RawNode.preorder, preorder_eq]
    refine .cons (by simp [MadeOf, ofRaw]) ?_
    rw [ofRaw]
    exact forall₂_ofRaws (some next) (next + 1) children

theorem forall₂_ofRaws (parent : Option NodeId) (next : NodeId) : ∀ raws : List RawNode,
    List.Forall₂ MadeOf (preorderAll (ofRaws parent next raws).1) (RawNode.preorderAll raws)
  | [] => by
    rw [RawNode.preorderAll, ofRaws, preorderAll]
    exact .nil
  | raw :: rest => by
    rw [RawNode.preorderAll, ofRaws, preorderAll]
    exact List.rel_append (forall₂_ofRaw parent next raw) (forall₂_ofRaws parent _ rest)

end

variable (parent : Option NodeId)

theorem range_ofRaw (next : NodeId) (raw : RawNode) :
    (ofRaw parent next raw).1.ids = List.range' next raw.preorder.length ∧
      (ofRaw parent next raw).2 = next + raw.preorder.length := by
  obtain ⟨count, hids, hafter⟩ := ids_ofRaw parent next raw
  have hlength : raw.preorder.length = count := by
    rw [← (forall₂_ofRaw parent next raw).length_eq, ← List.length_map, ← ids, hids, List.length_range']
  rw [hlength]
  exact ⟨hids, hafter⟩

theorem id_ofRaw (next : NodeId) (raw : RawNode) : (ofRaw parent next raw).1.id = next := by
  cases raw
  rw [ofRaw]

theorem ofRaws_cons (next : NodeId) (raw : RawNode) (rest : List RawNode) : (ofRaws parent next (raw :: rest)).1 =
      (ofRaw parent next raw).1 :: (ofRaws parent (ofRaw parent next raw).2 rest).1 := by
  rw [ofRaws]

theorem place_ofRaws {arena : List RawNode} {next : NodeId} {raws : List RawNode}
    (h : RawNode.preorderAll raws <+: arena.drop next) :
    (ofRaws parent next raws).1.map (fun n => arena[n.id]?) = raws.map some := by
  induction raws generalizing next with
  | nil => simp [ofRaws]
  | cons raw rest ih =>
    obtain ⟨after, h⟩ := h
    rw [RawNode.preorderAll, List.append_assoc] at h
    have hhead : arena[next]? = some raw := by
      rw [← Nat.add_zero next, ← List.getElem?_drop, ← h, raw.preorder_eq]
      rfl
    have htail : RawNode.preorderAll rest <+: arena.drop (next + raw.preorder.length) := by
      rw [← List.drop_drop, ← h, List.drop_left]
      exact List.prefix_append ..
    rw [ofRaws_cons, List.map_cons, List.map_cons, id_ofRaw, hhead, (range_ofRaw parent next raw).2, ih htail]

theorem children_ofRaw (next : NodeId) (raw : RawNode) :
    (ofRaw parent next raw).1.children = (ofRaws (some next) (next + 1) raw.children).1 := by
  cases raw
  rw [ofRaw]

theorem pairwise_childIds_ofRaw (next : NodeId) (raw : RawNode) :
    (ofRaw parent next raw).1.childIds.Pairwise (· < ·) := by
  have hsublist : ∀ ns : List Node, (ns.map (·.id)).Sublist (idsAll ns) := by
    intro ns
    induction ns with
    | nil => simp
    | cons n ns ih =>
      rw [idsAll_cons, ids_eq]
      exact (ih.trans (List.sublist_append_right ..)).cons_cons _
  have hids : (ofRaw parent next raw).1.ids.Pairwise (· < ·) := by
    rw [(range_ofRaw parent next raw).1]
    exact List.pairwise_lt_range'
  rw [ids_eq, List.pairwise_cons] at hids
  exact hids.2.sublist (hsublist _)

end Node

def Node.cell (n : Node) : Cell := ⟨n.id, n.kind, n.span, n.parent, n.childIds⟩

open Node (ofRaw cell preorderAll idsAll)

namespace Arena

variable {a : Arena}

/-- Adds cells and the spans that no earlier cell carries. -/
def extend (a : Arena) (cells : List Cell) : Arena :=
  ⟨a.cells ++ cells.toArray, cells.foldl (fun m c => m.insertIfNew c.span c.id) a.bySpan⟩

/-- Tells a cell of some more children. -/
def linkAll (a : Arena) (parent : NodeId) (children : List NodeId) : Arena :=
  { a with cells := a.cells.modify parent fun c => { c with children := c.children ++ children } }

theorem extend_extend (cells cells' : List Cell) : (a.extend cells).extend cells' = a.extend (cells ++ cells') := by
  simp [extend]

@[simp] theorem size_extend (cells : List Cell) : (a.extend cells).cells.size = a.cells.size + cells.length := by
  simp [extend]

@[simp] theorem size_push (c : Cell) : (a.push c).cells.size = a.cells.size + 1 := Array.size_push _

theorem extend_nil : a.extend [] = a := by simp [extend]

theorem linkAll_nil (parent : NodeId) : a.linkAll parent [] = a := by
  refine congrArg (Arena.mk · _) (Array.ext_getElem? fun i => ?_)
  simp [Array.getElem?_modify]

theorem linkAll_linkAll (parent : NodeId) (ids ids' : List NodeId) :
    (a.linkAll parent ids).linkAll parent ids' = a.linkAll parent (ids ++ ids') := by
  refine congrArg (Arena.mk · _) (Array.ext_getElem? fun i => ?_)
  simp only [linkAll, Array.getElem?_modify]
  split
  · cases a.cells[i]? <;> simp
  · rfl

theorem linkAll_extend {parent : NodeId} (h : parent < a.cells.size) (ids : List NodeId) (cells : List Cell) :
    (a.extend cells).linkAll parent ids = (a.linkAll parent ids).extend cells := by
  refine congrArg (Arena.mk · _) (Array.ext_getElem? fun i => ?_)
  simp only [linkAll, extend, Array.getElem?_modify, Array.getElem?_append, Array.size_modify]
  by_cases hparent : parent = i
  · simp [← hparent, h]
  · simp [hparent]

theorem linkAll_push (c : Cell) (ids : List NodeId) :
    (a.push c).linkAll a.cells.size ids = a.extend [{ c with children := c.children ++ ids }] := by
  refine congrArg (Arena.mk · _) (Array.ext_getElem? fun i => ?_)
  simp only [push, Array.getElem?_modify, Array.getElem?_push, Array.getElem?_append]
  split
  next h => simp [h]
  next h =>
    rw [if_neg (Ne.symm h)]
    split
    · rfl
    · rw [Array.getElem?_eq_none (by omega), Array.getElem?_eq_none]
      simp only [List.size_toArray, List.length_singleton]
      omega

mutual

theorem adapt_eq (a : Arena) (parent : Option NodeId) : ∀ raw : RawNode,
    a.adapt parent raw = (a.cells.size, a.extend ((ofRaw parent a.cells.size raw).1.preorder.map cell))
  | ⟨kind, children, span, attrs⟩ => by
    rw [adapt, adaptAll_eq (by rw [size_push]; exact Nat.lt_succ_self _) children, linkAll_push, extend_extend,
      size_push, ofRaw, Node.preorder]
    rfl

theorem adaptAll_eq {a : Arena} {parent : NodeId} (h : parent < a.cells.size) : ∀ raws : List RawNode,
    a.adaptAll parent raws = (a.linkAll parent ((Node.ofRaws (some parent) a.cells.size raws).1.map (·.id))).extend
      ((preorderAll (Node.ofRaws (some parent) a.cells.size raws).1).map cell)
  | [] => by
    rw [adaptAll, Node.ofRaws, preorderAll, List.map_nil, List.map_nil, linkAll_nil, extend_nil]
  | raw :: rest => by
    -- The subtree of the first child is there; its parent is told of it before the next one is added.
    let cells := (ofRaw (some parent) a.cells.size raw).1.preorder.map cell
    have hnext : (ofRaw (some parent) a.cells.size raw).2 = a.cells.size + cells.length := by
      rw [(Node.range_ofRaw _ _ raw).2, List.length_map, (Node.forall₂_ofRaw _ _ raw).length_eq]
    have hfirst : (a.extend cells).link parent a.cells.size = (a.linkAll parent [a.cells.size]).extend cells :=
      linkAll_extend h _ _
    have hsize : ((a.linkAll parent [a.cells.size]).extend cells).cells.size = a.cells.size + cells.length := by
      rw [size_extend, linkAll, Array.size_modify]
    have hlinked : parent < (a.linkAll parent [a.cells.size]).cells.size := by rwa [linkAll, Array.size_modify]
    have hparent : parent < ((a.linkAll parent [a.cells.size]).extend cells).cells.size :=
      hsize ▸ Nat.lt_of_lt_of_le h (Nat.le_add_right _ _)
    rw [adaptAll, adapt_eq]
    change ((a.extend cells).link parent a.cells.size).adaptAll parent rest = _
    rw [hfirst, adaptAll_eq hparent rest, hsize, linkAll_extend hlinked, linkAll_linkAll, extend_extend,
      Node.ofRaws_cons, hnext, preorderAll, List.map_append, List.map_cons, Node.id_ofRaw]
    rfl

end

/-- The index leads from a span to the first cell that carries it. -/
theorem getElem?_bySpan_extend (cells : List Cell) (s : Span) :
    (a.extend cells).bySpan[s]? = a.bySpan[s]?.or ((cells.find? fun c => c.span == s).map (·.id)) := by
  induction cells generalizing a with
  | nil => simp [extend]
  | cons c cells ih =>
    have hcons : a.extend (c :: cells) = (a.push c).extend cells := by simp [extend, push]
    rw [hcons, ih, push, Std.ExtTreeMap.getElem?_insertIfNew, List.find?_cons]
    by_cases hc : c.span = s
    · subst hc
      have hmem : c.span ∈ a.bySpan ↔ a.bySpan[c.span]?.isSome = true := Std.ExtTreeMap.mem_iff_isSome_getElem?
      cases hs : a.bySpan[c.span]? with
      | none => simp [hmem, hs]
      | some id => simp [hmem, hs]
    · simp [hc, beq_eq_false_iff_ne.2 hc]

theorem unstack_eq {steps : Nat} {stack : List Node} (hsteps : (idsAll stack).length ≤ steps)
    (h : ∀ n ∈ preorderAll stack, a.children n.id = n.childIds) :
    a.unstack steps (stack.map (·.id)) = idsAll stack := by
  induction steps generalizing stack with
  | zero => rw [List.length_eq_zero_iff.1 (Nat.le_zero.1 hsteps), unstack]
  | succ steps ih =>
    cases stack with
    | nil => rw [List.map_nil, unstack, Node.idsAll_nil]; nofun
    | cons n stack =>
      have hlist : preorderAll (n :: stack) = n :: preorderAll (n.children ++ stack) := by
        rw [Node.preorderAll_cons, Node.preorderAll_append, Node.preorder_eq, List.cons_append]
      rw [hlist] at h
      rw [idsAll, hlist] at hsteps ⊢
      rw [List.map_cons, unstack, h n List.mem_cons_self, Node.childIds, ← List.map_append,
        ih (Nat.le_of_succ_le_succ hsteps) fun m hm => h m (List.mem_cons_of_mem n hm)]
      rfl

end Arena

namespace SyntaxTree

theorem nodes_eq_map (tree : SyntaxTree) : tree.nodes.toList = (List.range tree.size).map tree.node := by
  refine List.ext_getElem (by simp [size]) fun i hi _ => ?_
  have hlt : i < tree.nodes.size := by simpa using hi
  simp [node, Array.getElem?_eq_getElem hlt]

section Module

variable {raw r : RawNode} {tree : SyntaxTree} {i j : NodeId}
variable (h : ofModule raw = .ok tree)
include h

theorem nodes_of_ofModule : tree.nodes.toList = (ofRaw none 0 raw).1.preorder := by
  unfold ofModule at h
  split at h
  · cases h
  · cases h
    rfl

theorem size_of_ofModule : tree.size = raw.preorder.length := by
  rw [size, ← Array.length_toList, nodes_of_ofModule h, (Node.forall₂_ofRaw none 0 raw).length_eq]

theorem exists_place (hi : i < tree.size) :
    ∃ r p, raw.preorder[i]? = some r ∧ tree.node i = (ofRaw p i r).1 := by
  obtain ⟨hlength, hmade⟩ := List.forall₂_iff_get.1 (Node.forall₂_ofRaw none 0 raw)
  rw [← nodes_of_ofModule h, nodes_eq_map] at hlength hmade
  have hlt : i < ((List.range tree.size).map tree.node).length := by simpa using hi
  have hmade := hmade i hlt (hlength ▸ hlt)
  have hid : (tree.node i).id = i := by
    have hids : tree.nodes.toList.map (·.id) = List.range' 0 raw.preorder.length := by
      rw [nodes_of_ofModule h, ← Node.ids, (Node.range_ofRaw none 0 raw).1]
    rw [nodes_eq_map, List.map_map, ← List.range_eq_range', ← size_of_ofModule h] at hids
    exact List.map_inj_left.1 (hids.trans (List.map_id _).symm) i (List.mem_range.2 hi)
  refine ⟨_, (tree.node i).parent, List.getElem?_eq_getElem (hlength ▸ hlt), ?_⟩
  rwa [Node.MadeOf, List.get_eq_getElem, List.get_eq_getElem, List.getElem_map, List.getElem_range, hid] at hmade

theorem id_node (hi : i < tree.size) : (tree.node i).id = i := by
  obtain ⟨r, p, -, hnode⟩ := exists_place h hi
  cases r
  rw [hnode, ofRaw]

theorem node_child (hi : i < tree.size) {c : Node} (hc : c ∈ (tree.node i).children) :
    tree.node c.id = c ∧ c.parent = some i := by
  constructor
  · have hmem : c ∈ tree.nodes.toList := by
      have hnode := tree.node_mem_nodes i
      rw [nodes_of_ofModule h] at hnode ⊢
      exact Node.child_mem_preorder _ hnode hc
    rw [nodes_eq_map, List.mem_map] at hmem
    obtain ⟨k, hk, rfl⟩ := hmem
    rw [id_node h (List.mem_range.1 hk)]
  · obtain ⟨r, p, -, hnode⟩ := exists_place h hi
    rw [hnode, Node.children_ofRaw] at hc
    exact (Node.exists_raw_of_mem_ofRaws hc).2

theorem parent_eq_some_iff (hi : i < tree.size) (hj : j < tree.size) :
    (tree.node j).parent = some i ↔ j ∈ (tree.node i).childIds := by
  constructor
  · intro hparent
    have hmem := tree.node_mem_nodes j
    rw [nodes_of_ofModule h] at hmem
    rcases Node.exists_parent_of_mem _ hmem with hroot | ⟨q, hq, hmq⟩
    · cases raw
      rw [hroot, ofRaw] at hparent
      cases hparent
    · rw [← nodes_of_ofModule h, nodes_eq_map, List.mem_map] at hq
      obtain ⟨k, hk, rfl⟩ := hq
      obtain rfl : k = i := Option.some.inj ((node_child h (List.mem_range.1 hk) hmq).2.symm.trans hparent)
      exact List.mem_map.2 ⟨_, hmq, id_node h hj⟩
  · intro hid
    obtain ⟨c, hc, rfl⟩ := List.mem_map.1 hid
    obtain ⟨hnode, hparent⟩ := node_child h hi hc
    rw [hnode, hparent]

omit h

theorem places_children (hr : raw.preorder[i]? = some r) (p : Option NodeId) :
    (ofRaw p i r).1.childIds.map (fun j => raw.preorder[j]?) = r.children.map some := by
  obtain ⟨hlt, -⟩ := List.getElem?_eq_some_iff.1 hr
  have hdrop := raw.prefix_drop_preorder hr
  rw [r.preorder_eq, List.drop_eq_getElem_cons hlt, List.cons_prefix_cons] at hdrop
  rw [Node.childIds, Node.children_ofRaw, List.map_map]
  exact Node.place_ofRaws (some i) hdrop.2

variable (h : ofModule raw = .ok tree)
include h

theorem arena_of_ofModule : tree.arena = ({} : Arena).extend (tree.nodes.toList.map cell) := by
  unfold ofModule at h
  split at h
  · cases h
  · cases h
    exact congrArg Prod.snd (Arena.adapt_eq {} none raw)

theorem size_cells : tree.arena.cells.size = tree.size := by
  rw [arena_of_ofModule h, Arena.size_extend, List.length_map, Array.length_toList, Array.size_empty, Nat.zero_add]
  rfl

theorem getElem?_cells {c : Cell} : tree.arena.cells[i]? = some c ↔ i < tree.size ∧ (tree.node i).cell = c := by
  have hcells : tree.arena.cells[i]? = tree.nodes[i]?.map cell := by
    rw [arena_of_ofModule h]
    simp [Arena.extend]
  rw [hcells, node, size]
  by_cases hi : i < tree.nodes.size
  · simp [hi]
  · simp [hi]

theorem span_cell {s : Span} : tree.arena.cells[i]?.map (·.span) = some s ↔ i < tree.size ∧ tree.span i = s := by
  simp only [Option.map_eq_some_iff, getElem?_cells h]
  constructor
  · rintro ⟨_, ⟨hi, rfl⟩, hs⟩
    exact ⟨hi, hs⟩
  · rintro ⟨hi, hs⟩
    exact ⟨_, ⟨hi, rfl⟩, hs⟩

theorem children_cell (hi : i < tree.size) : tree.arena.children i = (tree.node i).childIds := by
  rw [Arena.children, (getElem?_cells h).2 ⟨hi, rfl⟩]
  rfl

theorem nodeAt?_eq_find? (s : Span) : tree.nodeAt? s = (List.range tree.size).find? fun i => tree.span i == s := by
  rw [nodeAt?, arena_of_ofModule h, Arena.getElem?_bySpan_extend, nodes_eq_map, List.map_map, List.find?_map,
    Option.map_map, Std.ExtTreeMap.getElem?_empty, Option.none_or]
  refine (Option.map_congr fun k hk => ?_).trans Option.map_id'
  exact id_node h (List.mem_range.1 (List.mem_of_find?_eq_some hk))

theorem descendants_eq (hr : raw.preorder[i]? = some r) : tree.descendants i = List.range' i r.preorder.length := by
  have hsize := size_of_ofModule h
  have hlt : i < tree.size := hsize ▸ (List.getElem?_eq_some_iff.1 hr).1
  obtain ⟨r', p, hr', hnode⟩ := exists_place h hlt
  obtain rfl := Option.some.inj (hr'.symm.trans hr)
  have hids : idsAll [tree.node i] = List.range' i r'.preorder.length := by
    rw [Node.idsAll_cons, Node.idsAll_nil, List.append_nil, hnode, (Node.range_ofRaw p i r').1]
  have hsteps : (idsAll [tree.node i]).length ≤ tree.arena.cells.size := by
    rw [hids, List.length_range', size_cells h, hsize]
    have hle := (raw.prefix_drop_preorder hr).length_le
    rw [List.length_drop] at hle
    exact hle.trans (Nat.sub_le _ _)
  have hchildren : ∀ n ∈ preorderAll [tree.node i], tree.arena.children n.id = n.childIds := by
    intro n hn
    have hroot := tree.node_mem_nodes i
    rw [nodes_of_ofModule h] at hroot
    have hmem : n ∈ tree.nodes.toList := by
      rw [nodes_of_ofModule h]
      exact (Node.preorder_sublist _ hroot).subset (by simpa using hn)
    rw [nodes_eq_map, List.mem_map] at hmem
    obtain ⟨k, hk, rfl⟩ := hmem
    rw [id_node h (List.mem_range.1 hk), children_cell h (List.mem_range.1 hk)]
  rw [← hids, ← Arena.unstack_eq hsteps hchildren, descendants, List.map_singleton, id_node h hlt]

theorem parent_root : tree.arena.cells[0]?.map (·.parent) = some none := by
  have hroot : tree.node 0 = (ofRaw none 0 raw).1 := by
    rw [node, ← Array.getElem?_toList, nodes_of_ofModule h, Node.preorder_eq]
    rfl
  have hpos : 0 < tree.size := by
    rw [size_of_ofModule h, raw.preorder_eq]
    exact Nat.succ_pos _
  rw [(getElem?_cells h).2 ⟨hpos, rfl⟩, hroot]
  cases raw
  rw [ofRaw]
  rfl

theorem nodeAt?_eq_some_iff {s : Span} {k : NodeId} : tree.nodeAt? s = some k ↔
    tree.arena.cells[k]?.map (·.span) = some s ∧ ∀ j < k, tree.arena.cells[j]?.map (·.span) ≠ some s := by
  simp only [nodeAt?_eq_find? h, List.find?_range_eq_some, Ne, span_cell h, List.mem_range, beq_iff_eq,
    Bool.not_eq_true', beq_eq_false_iff_ne]
  constructor
  · rintro ⟨hs, hk, hfirst⟩
    exact ⟨⟨hk, hs⟩, fun j hj hspan => hfirst j hj hspan.2⟩
  · rintro ⟨⟨hk, hs⟩, hfirst⟩
    exact ⟨hs, hk, fun j hj hspan => hfirst j hj ⟨Nat.lt_trans hj hk, hspan⟩⟩

theorem nodeAt?_eq_none_iff {s : Span} : tree.nodeAt? s = none ↔ ∀ c ∈ tree.arena.cells, c.span ≠ s := by
  rw [nodeAt?_eq_find? h, List.find?_range_eq_none]
  constructor
  · intro hall c hc
    obtain ⟨i, hi⟩ := Array.getElem?_of_mem hc
    obtain ⟨hlt, rfl⟩ := (getElem?_cells h).1 hi
    simpa [cell, span] using hall i hlt
  · intro hall i hi
    have hmem := Array.mem_of_getElem? ((getElem?_cells h).2 ⟨hi, rfl⟩)
    simpa [cell, span] using hall _ hmem

end Module

/-- A tree has an arena with the nodes of a raw tree, numbered by their places in its preorder. -/
structure Lists (tree : SyntaxTree) (raw : RawNode) : Prop where
  size_eq : tree.arena.cells.size = raw.preorder.length
  place : ∀ {i r}, raw.preorder[i]? = some r → ∃ c, tree.arena.cells[i]? = some c ∧ c.id = i ∧
    c.kind = Kind.ofRaw r ∧ c.span = r.span.getD (Span.synthetic i)
  children : ∀ {i r}, raw.preorder[i]? = some r →
    (tree.arena.children i).map (fun j => raw.preorder[j]?) = r.children.map some ∧
      (tree.arena.children i).Pairwise (· < ·)
  parent : ∀ {i j : NodeId} {c d : Cell}, tree.arena.cells[i]? = some c → tree.arena.cells[j]? = some d →
    (d.parent = some i ↔ j ∈ c.children)
  root : tree.arena.cells[0]?.map (·.parent) = some none
  descendants : ∀ {i r}, raw.preorder[i]? = some r → tree.descendants i = List.range' i r.preorder.length
  nodeAt_eq_some : ∀ {span k}, tree.nodeAt? span = some k ↔
    tree.arena.cells[k]?.map (·.span) = some span ∧ ∀ j < k, tree.arena.cells[j]?.map (·.span) ≠ some span
  nodeAt_eq_none : ∀ {span}, tree.nodeAt? span = none ↔ ∀ c ∈ tree.arena.cells, c.span ≠ span
  /-- The nodes that are nested in each other are the ones in the arena. -/
  nodes : ∀ i < tree.arena.cells.size, tree.arena.cells[i]? = some (tree.node i).cell

/-- A module lists the nodes of its raw tree in preorder. -/
theorem lists_ofModule (raw : RawNode) (h : raw.kind = "Module") :
    ∃ tree, ofModule raw = .ok tree ∧ tree.Lists raw := by
  obtain ⟨tree, htree⟩ : ∃ tree, ofModule raw = .ok tree := ⟨_, by rw [ofModule, h]; rfl⟩
  have hsize := size_of_ofModule htree
  have hnode : ∀ {i r}, raw.preorder[i]? = some r → i < tree.size ∧ ∃ p, tree.node i = (ofRaw p i r).1 := by
    intro i r hr
    have hlt : i < tree.size := hsize ▸ (List.getElem?_eq_some_iff.1 hr).1
    obtain ⟨r', p, hr', hnode⟩ := exists_place htree hlt
    cases Option.some.inj (hr'.symm.trans hr)
    exact ⟨hlt, p, hnode⟩
  refine ⟨tree, htree, (size_cells htree).trans hsize, fun {i r} hr => ?_, fun {i r} hr => ?_,
    fun {i j c d} hc hd => ?_, parent_root htree, descendants_eq htree, nodeAt?_eq_some_iff htree,
    nodeAt?_eq_none_iff htree, fun i hi => (getElem?_cells htree).2 ⟨size_cells htree ▸ hi, rfl⟩⟩
  · obtain ⟨hlt, p, hp⟩ := hnode hr
    refine ⟨_, (getElem?_cells htree).2 ⟨hlt, rfl⟩, ?_⟩
    rw [hp]
    cases r
    simp [ofRaw, cell]
  · obtain ⟨hlt, p, hp⟩ := hnode hr
    rw [children_cell htree hlt, hp]
    exact ⟨places_children hr p, Node.pairwise_childIds_ofRaw p i r⟩
  · obtain ⟨hi, rfl⟩ := (getElem?_cells htree).1 hc
    obtain ⟨hj, rfl⟩ := (getElem?_cells htree).1 hd
    exact parent_eq_some_iff htree hi hj

/-- A module with a loop. The loop carries the same span as its body, and the other nodes carry none. -/
def loopModule : RawNode :=
  .mk "Module" [.mk "While" [.mk "Name" [] none ∅, .mk "Block" [.mk "Pass" [] none ∅] (some ⟨1, 0, 2, 4⟩) ∅]
    (some ⟨1, 0, 2, 4⟩) ∅] none ∅

/-- The test of the loop has the number 2 and its body the number 3. Of the two nodes that carry the same span the loop
is found, and it is followed by all that is below it. -/
theorem lists_ofModule_loopModule : loopModule.kind = "Module" ∧ ∃ tree, ofModule loopModule = .ok tree ∧
      tree.arena.cells.toList.map (fun c => (c.id, c.parent, c.children)) =
        [(0, none, [1]), (1, some 0, [2, 3]), (2, some 1, []), (3, some 1, [4]), (4, some 3, [])] ∧
      tree.descendants 1 = [1, 2, 3, 4] ∧ tree.descendants 3 = [3, 4] ∧
      tree.arena.cells[3]?.map (·.span) = some ⟨1, 0, 2, 4⟩ ∧ tree.nodeAt? ⟨1, 0, 2, 4⟩ = some 1 ∧
      tree.nodeAt? ⟨1, 0, 2, 5⟩ = none ∧ tree.Lists loopModule := by
  have h : (match ofModule loopModule with
      | .ok tree => (tree.arena.cells.toList.map (fun c => (c.id, c.parent, c.children)), tree.descendants 1,
          tree.descendants 3, tree.arena.cells[3]?.map (·.span), tree.nodeAt? ⟨1, 0, 2, 4⟩, tree.nodeAt? ⟨1, 0, 2, 5⟩)
      | .error _ => ([], [], [], none, none, none)) =
        ([(0, none, [1]), (1, some 0, [2, 3]), (2, some 1, []), (3, some 1, [4]), (4, some 3, [])], [1, 2, 3, 4],
          [3, 4], some ⟨1, 0, 2, 4⟩, some 1, none) := by decide +kernel
  obtain ⟨tree, htree, hlists⟩ := lists_ofModule loopModule rfl
  rw [htree] at h
  simp only [Prod.mk.injEq] at h
  obtain ⟨hcells, hloop, hbody, hspan, hfound, hnone⟩ := h
  exact ⟨rfl, tree, htree, hcells, hloop, hbody, hspan, hfound, hnone, hlists⟩

end SyntaxTree
end PointsTo
