import PointsTo.Proofs.Evaluation.Copying
import PointsTo.Proofs.Evaluation.Inlining

/-! # Blocks that end

Hints, scopes, calls and lambdas take evaluation no further than the program goes. Two searches follow the
contents of the state. The one for the objects that a call copies remembers what it has seen, but the one for
the exceptions that a handler names does not. A block has no end exactly if it comes to a handler that meets a
tuple from which there is a way back to itself. -/

namespace PointsTo

open List Option Eval

namespace Frame

variable (f : Frame) (s : AbstractState)

/-- A tuple may hold another one. -/
def Holds (a b : AllocSite) : Prop := TypeTag.object ⟨b, .tuple⟩ ∈ (f.value s (.element a)).toList

/-- Some tuple of the value leads to one that leads back to itself. -/
def Circular (types : TypeSet) : Prop :=
  ∃ a b, TypeTag.object ⟨a, .tuple⟩ ∈ types.toList ∧ Relation.ReflTransGen (f.Holds s) a b ∧
    Relation.TransGen (f.Holds s) b b

section Caught

variable {f s} {handler : NodeId} {types : TypeSet}

theorem caughtTag_eq_none_iff {members : TypeSet → Option TypeSet} {t : TypeTag} :
    f.caughtTag s handler members t = none ↔
      ∃ a, t = .object ⟨a, .tuple⟩ ∧ members (f.value s (.element a)) = none := by
  unfold caughtTag
  split <;> simp_all

theorem caughtTag_congr {members members' : TypeSet → Option TypeSet} {t : TypeTag}
    (h : ∀ a, t = .object ⟨a, .tuple⟩ → members (f.value s (.element a)) = members' (f.value s (.element a))) :
    f.caughtTag s handler members t = f.caughtTag s handler members' t := by
  unfold caughtTag
  split <;> simp_all

theorem caughtBy_succ_eq_none_iff {n : Nat} : f.caughtBy s handler (n + 1) types = none ↔
    ∃ a, TypeTag.object ⟨a, .tuple⟩ ∈ types.toList ∧ f.caughtBy s handler n (f.value s (.element a)) = none := by
  rw [caughtBy]
  split
  next htop =>
    cases types with
    | tags => cases htop
    | top => simp [TypeSet.toList]
  next =>
    simp only [map_eq_none_iff, mapM_eq_none_iff, caughtTag_eq_none_iff]
    constructor
    · rintro ⟨t, ht, a, rfl, hinside⟩
      exact ⟨a, ht, hinside⟩
    · rintro ⟨a, ha, hinside⟩
      exact ⟨_, ha, a, rfl, hinside⟩

theorem Circular.exists_inside (h : f.Circular s types) :
    ∃ a, TypeTag.object ⟨a, .tuple⟩ ∈ types.toList ∧ f.Circular s (f.value s (.element a)) := by
  obtain ⟨a, b, ha, hab, hb⟩ := h
  refine ⟨a, ha, ?_⟩
  -- On the circle itself the next tuple is the one after `b`.
  obtain ⟨c, hac, hcb⟩ : ∃ c, f.Holds s a c ∧ Relation.ReflTransGen (f.Holds s) c b := by
    rcases hab.cases_head with rfl | hab
    · exact Relation.TransGen.head'_iff.1 hb
    · exact hab
  exact ⟨c, b, hac, hcb, hb⟩

theorem Circular.caughtBy_eq_none (h : f.Circular s types) (n : Nat) : f.caughtBy s handler n types = none := by
  induction n generalizing types with
  | zero => rfl
  | succ n ih =>
    obtain ⟨a, ha, hinside⟩ := h.exists_inside
    exact caughtBy_succ_eq_none_iff.2 ⟨a, ha, ih hinside⟩

theorem exists_path {n : Nat} (h : f.caughtBy s handler (n + 1) types = none) :
    ∃ path : List AllocSite, path.length = n ∧ path.IsChain (f.Holds s) ∧ (∀ a ∈ path, ∃ b, f.Holds s a b) ∧
      ∀ a ∈ path.head?, TypeTag.object ⟨a, .tuple⟩ ∈ types.toList := by
  induction n generalizing types with
  | zero => exact ⟨[], rfl, .nil, by simp, by simp⟩
  | succ n ih =>
    obtain ⟨a, ha, hinside⟩ := caughtBy_succ_eq_none_iff.1 h
    obtain ⟨b, hb, -⟩ := caughtBy_succ_eq_none_iff.1 hinside
    obtain ⟨path, hlength, hchain, hholds, hhead⟩ := ih hinside
    refine ⟨a :: path, by rw [length_cons, hlength], isChain_cons.2 ⟨hhead, hchain⟩, ?_, by simpa using ha⟩
    exact forall_mem_cons.2 ⟨⟨b, hb⟩, hholds⟩

theorem nodup_of_not_circular (h : ¬ f.Circular s types) {path : List AllocSite} (hchain : path.IsChain (f.Holds s))
    (hhead : ∀ a ∈ path.head?, TypeTag.object ⟨a, .tuple⟩ ∈ types.toList) : path.Nodup := by
  cases path with
  | nil => exact .nil
  | cons a path =>
    have hway : (a :: path).Pairwise (Relation.TransGen (f.Holds s)) :=
      (hchain.imp fun _ _ => Relation.TransGen.single).pairwise
    have hreach : ∀ b ∈ a :: path, Relation.ReflTransGen (f.Holds s) a b := by
      intro b hb
      rcases mem_cons.1 hb with rfl | hb
      · exact .refl
      · exact (rel_of_pairwise_cons hway hb).to_reflTransGen
    refine hway.imp_of_mem fun {b c} hb _ hbc heq => h ?_
    exact ⟨a, b, hhead a rfl, hreach b hb, heq ▸ hbc⟩

theorem Holds.slot {a b : AllocSite} (h : f.Holds s a b) :
    Location.element a ∈ s.toList.map Prod.fst ++ f.env.toList.map Prod.fst := by
  have hslot : ∀ {t : AbstractState} {v : TypeSet}, t.get? (.element a) = some v →
      Location.element a ∈ t.toList.map Prod.fst :=
    fun ht => List.mem_map.2 ⟨_, Std.ExtTreeMap.mem_toList_iff_getElem?_eq_some.2 ht, rfl⟩
  rw [mem_append]
  cases hs : s.get? (.element a) with
  | some v => exact .inl (hslot hs)
  | none =>
    cases henv : f.env.get? (.element a) with
    | some v => exact .inr (hslot henv)
    | none => simp [Holds, value, hs, henv, TypeSet.join, TypeSet.bottom, TypeSet.toList] at h

theorem circular_of_caughtBy_eq_none {n : Nat} (hn : s.size + f.env.size + 2 ≤ n)
    (h : f.caughtBy s handler n types = none) : f.Circular s types := by
  by_contra hcircular
  -- All the tuples on the way are different and have a slot, and there are more of them than slots.
  obtain ⟨n, rfl⟩ : ∃ k, n = k + 1 := ⟨n - 1, by omega⟩
  obtain ⟨path, hlength, hchain, hholds, hhead⟩ := exists_path h
  have hnodup : (path.map Location.element).Nodup :=
    List.Nodup.map (fun _ _ => Location.element.inj) (nodup_of_not_circular hcircular hchain hhead)
  have hslots : path.map Location.element ⊆ s.toList.map Prod.fst ++ f.env.toList.map Prod.fst := by
    intro l hl
    obtain ⟨a, ha, rfl⟩ := List.mem_map.1 hl
    obtain ⟨b, hb⟩ := hholds a ha
    exact hb.slot
  have hle := (hnodup.subperm hslots).length_le
  simp only [length_map, length_append, AbstractState.toList, Std.ExtTreeMap.length_toList] at hle
  simp only [AbstractState.size] at hn
  omega

theorem caught_eq_none_iff : f.caught s handler types = none ↔ f.Circular s types :=
  ⟨circular_of_caughtBy_eq_none (Nat.le_refl _), fun h => h.caughtBy_eq_none _⟩

theorem caughtBy_eq_caughtBy {n n' : Nat} (hn : f.caughtBy s handler n types ≠ none)
    (hn' : f.caughtBy s handler n' types ≠ none) : f.caughtBy s handler n types = f.caughtBy s handler n' types := by
  induction n generalizing n' types with
  | zero => exact absurd rfl hn
  | succ n ih =>
    obtain _ | n' := n'
    · exact absurd rfl hn'
    rw [Ne, caughtBy_succ_eq_none_iff] at hn hn'
    unfold caughtBy
    split
    · rfl
    congr 1
    refine mapM_congr fun t ht => caughtTag_congr fun a ha => ?_
    exact ih (fun h => hn ⟨a, ha ▸ ht, h⟩) fun h => hn' ⟨a, ha ▸ ht, h⟩

theorem settles_caughtBy (handler : NodeId) (types : TypeSet) :
    Settles (f.caughtBy s handler · types) (f.caught s handler types) := by
  refine ⟨s.size + f.env.size + 2, fun n hn => ?_⟩
  by_cases hcircular : f.Circular s types
  · rw [caught_eq_none_iff.2 hcircular]
    exact hcircular.caughtBy_eq_none n
  · exact caughtBy_eq_caughtBy (fun h => hcircular (circular_of_caughtBy_eq_none hn h))
      fun h => hcircular (caught_eq_none_iff.1 h)

end Caught

/-- Where evaluation counts down, the count is never what ends it. -/
structure Bounded (f : Frame) : Prop where
  scopes {id : ScopeId} (h : id < f.program.scopes.size) :
    Settles (f.program.scopes.chain · id) (f.program.scopes.ancestry id)
  hints (text : String) : Settles (Hint.read · text.toList) (Hint.ofString text)
  copies (call : NodeId) (scope : ScopeId) (v : TypeSet) (m : Machine) :
    Settles (fun n => (rebase f call scope n v []).run m)
      ((rebase f call scope (f.copyDepth m.state) v []).run m)
  calls (lambda : LambdaCall) (call : NodeId) (callee : TypeSet) (args : CallArgs) :
    Settles (fun n => callEach f lambda call (callUpTo f lambda call n) callee args)
      (callValue f lambda call callee args)
  lambdas (call : NodeId) {d : NodeId} (h : f.program.tree.kind d = .lambda) (args : CallArgs) :
    Settles (callLambda f · [] call (f.program.tree.node d) args)
      (Eval.lambdas f call (f.program.tree.node d) args)
  handlers (s : AbstractState) (handler : NodeId) (types : TypeSet) :
    Settles (f.caughtBy s handler · types) (f.caught s handler types)

theorem bounded_of_scopes (h : f.program.scopes.Ordered) : f.Bounded where
  scopes := ScopeTree.settles_chain h
  hints := Hint.settles_read
  copies := settles_rebase f
  calls lambda call := settles_callUpTo call lambda
  lambdas := settles_callLambda
  handlers _ := settles_caughtBy

/-- A handler is given a value with a tuple that leads to one that leads back to itself. -/
def MeetsCircle (f : Frame) (m : Machine) (handler : Node) : Prop :=
  ∃ named body rest types m', handler.children = named :: body :: rest ∧
    (Eval.evaluate f named).run m = (types, m') ∧ f.Circular m'.state types

section Blocks

variable {f} {m : Machine}

theorem handle_eq_none_iff {handler : Node} : f.handle handler m = none ↔ f.MeetsCircle m handler := by
  unfold handle
  split
  next named body rest hchildren =>
    cases hrun : (Eval.evaluate f named).run m with
    | mk types m' =>
      dsimp only
      rw [map_eq_none_iff, caught_eq_none_iff]
      refine ⟨fun h => ⟨named, body, rest, types, m', hchildren, hrun, h⟩, ?_⟩
      rintro ⟨named', body', rest', types', m'', hchildren', hrun', h⟩
      obtain ⟨rfl, -⟩ := List.cons.inj (hchildren.symm.trans hchildren')
      obtain ⟨rfl, rfl⟩ := Prod.mk.inj (hrun.symm.trans hrun')
      exact h
  next hno =>
    refine ⟨fun h => (some_ne_none _ h).elim, ?_⟩
    rintro ⟨named, body, rest, -, -, hchildren, -⟩
    exact absurd hchildren (hno named body rest)

theorem step_eq_none_iff {s : Step} :
    f.step m s = none ↔ ∃ handler, s = .handle handler ∧ f.MeetsCircle m handler := by
  cases s with
  | handle handler => simp [step, handle_eq_none_iff]
  | _ => simp [step]

theorem runBlock_eq_none_iff : f.runBlock m = none ↔
    ∃ before handler after m', f.block.steps = before ++ .handle handler :: after ∧
      before.foldlM f.step m = some m' ∧ f.MeetsCircle m' handler := by
  simp only [runBlock, foldlM_eq_none_iff, step_eq_none_iff]
  constructor
  · rintro ⟨before, _, after, m', hsteps, hbefore, handler, rfl, h⟩
    exact ⟨before, handler, after, m', hsteps, hbefore, h⟩
  · rintro ⟨before, handler, after, m', hsteps, hbefore, h⟩
    exact ⟨before, _, after, m', hsteps, hbefore, handler, rfl, h⟩

end Blocks

end Frame

namespace PreparedUnit

/-- A block of a unit comes to an end whatever the state and the environment hold, unless one of its handlers is
reached and given a tuple that leads back to itself. Then the search of the handler goes on for ever. Every other
recursion settles. -/
theorem apply_eq_none_iff_meetsCircle (tree : SyntaxTree) (settings : Settings) (facts : ProgramFacts)
    (u : PreparedUnit) (env : AbstractState) (b : Block) (m : Machine) :
    let f := { u.frame (Program.ofTree tree settings) facts env with block := b }
    f.Bounded ∧ ((u.frame (Program.ofTree tree settings) facts env).apply b m = none ↔
      ∃ before handler after m', b.steps = before ++ .handle handler :: after ∧
        before.foldlM f.step m = some m' ∧ f.MeetsCircle m' handler) :=
  ⟨Frame.bounded_of_scopes _ (ScopeTree.ordered_ofTree tree), Frame.runBlock_eq_none_iff⟩

open Build in
/-- A function that puts its argument into a tuple is applied twice to say what is caught. -/
def wrappedTwice : RawNode :=
  module [assign (name "f") (lambda ["y"] (tuple [name "y"])),
    tryBlock [pass] [handler (some (call (name "f") [call (name "f") [int]])) Option.none [pass]] [] []]

/-- All tuples of the function are one, so the outer call puts it into itself. The handler, in block 7, never ends. -/
theorem endless_on_wrappedTwice : ∃ tree u m, SyntaxTree.ofModule wrappedTwice = .ok tree ∧
    (Preparation.ofProgram (Program.ofTree tree {})).unit? 0 = some u ∧
    (u.frame (Program.ofTree tree {}) (Preparation.ofProgram (Program.ofTree tree {})).facts .empty).apply
      (u.graph.block 0) { state := .empty } = some m ∧
    (u.frame (Program.ofTree tree {}) (Preparation.ofProgram (Program.ofTree tree {})).facts .empty).apply
      (u.graph.block 7) m = none := by
  have h : ((SyntaxTree.ofModule wrappedTwice).toOption.bind fun tree =>
        let t := Preparation.ofProgram (Program.ofTree tree {})
        (t.unit? 0).map fun u =>
          let f := u.frame t.program t.facts .empty
          (f.apply (u.graph.block 0) { state := .empty }).map fun m =>
            (f.apply (u.graph.block 7) m).isNone) = some (some true) := by
    decide +kernel
  obtain ⟨tree, htree, h⟩ := exists_ok_of_bind h
  obtain ⟨u, hu, h⟩ := map_eq_some_iff.1 h
  obtain ⟨m, hm, h⟩ := map_eq_some_iff.1 h
  exact ⟨tree, u, m, htree, hu, hm, isNone_iff_eq_none.1 h⟩

end PreparedUnit

end PointsTo
