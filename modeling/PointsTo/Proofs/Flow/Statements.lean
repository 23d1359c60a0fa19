import Mathlib.Data.List.TakeWhile
import PointsTo.Proofs.Flow.Construction

/-! # What statements call for

The statements of a body, however deep they stand in blocks, and the steps that each of them calls for by its kind.
Lowering a body takes these steps in, each once. -/

namespace PointsTo

open List Builder Job
open Builder (isHandler)

namespace Node

mutual

/-- A statement together with the statements in its blocks, however deep. Nested functions and classes keep theirs to
themselves. -/
def statements : Node → List Node
  | ⟨id, kind, span, parent, children⟩ =>
    ⟨id, kind, span, parent, children⟩ :: match kind with
      | .ifElse | .whileLoop => statementsAfter 1 children
      | .forLoop => statementsAfter 2 children
      | .tryBlock | .withBlock => statementsWithin children
      | _ => []

def statementsAll : List Node → List Node
  | [] => []
  | n :: rest => statements n ++ statementsAll rest

def statementsAfter : Nat → List Node → List Node
  | _, [] => []
  | 0, ⟨_, _, _, _, stmts⟩ :: rest => statementsAll stmts ++ statementsAfter 0 rest
  | skipped + 1, _ :: rest => statementsAfter skipped rest

def statementsWithin : List Node → List Node
  | [] => []
  | ⟨_, kind, _, _, parts⟩ :: rest =>
    (match kind with
      | .block | .last => statementsAll parts
      | .handler _ => statementsOfLast parts
      | _ => []) ++ statementsWithin rest

def statementsOfLast : List Node → List Node
  | [] => []
  | [⟨_, _, _, _, stmts⟩] => statementsAll stmts
  | _ :: rest => statementsOfLast rest

end

/-- What the steps for a statement have to take in, its blocks apart. A jump out of a loop or back to its header has no
step of its own: it is how its block ends. -/
def duties (n : Node) : List (StepRole × NodeId) :=
  match n.kind with
  | .ifElse | .whileLoop | .assertion => n.children.head?.toList.map fun test => (.test, test.id)
  | .forLoop => n.children.head?.toList.map fun target => (.iterate, target.id)
  | .tryBlock => (n.children.filter isHandler).map fun handler => (.handle, handler.id)
  | .withBlock => (n.children.filter (·.kind == .withItem)).map fun item => (.enter, item.id)
  | .breakLoop | .continueLoop => []
  | _ => [(.exec, n.id)]

def inside (n : Node) : List Node :=
  match n.kind with
  | .ifElse | .whileLoop => statementsAfter 1 n.children
  | .forLoop => statementsAfter 2 n.children
  | .tryBlock | .withBlock => statementsWithin n.children
  | _ => []

theorem statements_eq (n : Node) : n.statements = n :: n.inside := by
  cases n
  unfold statements inside
  rfl

@[simp] theorem statementsAfter_nil (skipped : Nat) : statementsAfter skipped [] = [] := by
  rw [statementsAfter]

@[simp] theorem statementsAfter_succ_cons (skipped : Nat) (n : Node) (rest : List Node) :
    statementsAfter (skipped + 1) (n :: rest) = statementsAfter skipped rest := by
  rw [statementsAfter]

@[simp] theorem statementsAfter_zero_cons (n : Node) (rest : List Node) :
    statementsAfter 0 (n :: rest) = statementsAll n.children ++ statementsAfter 0 rest := by
  cases n
  rw [statementsAfter]

theorem statementsOfLast_cons_cons (first next : Node) (rest : List Node) :
    statementsOfLast (first :: next :: rest) = statementsOfLast (next :: rest) := by
  cases first
  rw [statementsOfLast]
  simp

def partStatements (part : Node) : List Node :=
  match part.kind with
  | .block | .last => statementsAll part.children
  | .handler _ => statementsOfLast part.children
  | _ => []

theorem statementsWithin_eq (parts : List Node) : statementsWithin parts = parts.flatMap partStatements := by
  induction parts with
  | nil => rw [statementsWithin, flatMap_nil]
  | cons part rest ih =>
    cases part
    unfold statementsWithin
    rw [ih, flatMap_cons]
    rfl

/-! ## Dues -/

def duesOf (stmts : List Node) : Multiset (StepRole × NodeId) := ↑(stmts.flatMap duties)

@[simp] theorem duesOf_nil : duesOf [] = 0 := rfl

@[simp] theorem duesOf_cons (n : Node) (ns : List Node) : duesOf (n :: ns) = ↑n.duties + duesOf ns := by
  simp [duesOf]

@[simp] theorem duesOf_append (ms ns : List Node) : duesOf (ms ++ ns) = duesOf ms + duesOf ns := by
  simp [duesOf]

def duesOfHandlers : List Node → Multiset (StepRole × NodeId)
  | [] => 0
  | n :: rest =>
    (if isHandler n then (.handle, n.id) ::ₘ duesOf (partStatements n) else 0) + duesOfHandlers rest

def duesOfFirst (wanted : Kind) : List Node → Multiset (StepRole × NodeId)
  | [] => 0
  | n :: rest => if n.kind = wanted then duesOf (statementsAll n.children) else duesOfFirst wanted rest

def duesOfItems (parts : List Node) : Multiset (StepRole × NodeId) :=
  ↑((parts.filter (·.kind == .withItem)).map fun item => (StepRole.enter, item.id)) + duesOf (statementsWithin parts)

@[simp] theorem duesOfItems_nil : duesOfItems [] = 0 := by
  simp [duesOfItems, statementsWithin]

theorem duesOfItems_cons (n : Node) (rest : List Node) : duesOfItems (n :: rest) =
    (if n.kind = .withItem then {(.enter, n.id)} else 0) + duesOf n.partStatements + duesOfItems rest := by
  rw [duesOfItems, duesOfItems, statementsWithin_eq, statementsWithin_eq, flatMap_cons, duesOf_append,
    filter_cons]
  split
  next h =>
    rw [if_pos (by simpa using h), map_cons, ← Multiset.cons_coe, ← Multiset.singleton_add]
    abel
  next h =>
    rw [if_neg (by simpa using h)]
    abel

/-- The parts of a guarded block stand in order: its body, the handlers, at most one alternative, and at most one last
part. -/
def InOrder (n : Node) : Prop :=
  ∃ (body : Node) (handlers : List Node) (orElse last : Option Node),
    n.children = body :: (handlers ++ (orElse.toList ++ last.toList)) ∧ body.kind = .block ∧
      (∀ h ∈ handlers, isHandler h = true) ∧ (∀ p ∈ orElse, p.kind = .block) ∧ ∀ p ∈ last, p.kind = .last

/-- Whether what follows the handlers is at most one alternative and at most one last part. -/
def endsInOrder : List Node → Bool
  | [] => true
  | [part] => part.kind == .block || part.kind == .last
  | [orElse, last] => orElse.kind == .block && last.kind == .last
  | _ => false

theorem endsInOrder_iff {parts : List Node} : endsInOrder parts = true ↔ ∃ orElse last : Option Node,
    parts = orElse.toList ++ last.toList ∧ (∀ p ∈ orElse, p.kind = .block) ∧ ∀ p ∈ last, p.kind = .last := by
  constructor
  · intro h
    unfold endsInOrder at h
    split at h
    next => exact ⟨none, none, rfl, nofun, nofun⟩
    next part =>
      rcases Bool.or_eq_true_iff.1 h with h | h
      · exact ⟨some part, none, rfl, by simpa using h, nofun⟩
      · exact ⟨none, some part, rfl, nofun, by simpa using h⟩
    next orElse last => exact ⟨some orElse, some last, rfl, by simpa using (Bool.and_eq_true_iff.1 h).1,
        by simpa using (Bool.and_eq_true_iff.1 h).2⟩
    next => cases h
  · rintro ⟨_ | orElse, _ | last, rfl, horElse, hlast⟩
    · rfl
    · simp [endsInOrder, hlast last rfl]
    · simp [endsInOrder, horElse orElse rfl]
    · simp [endsInOrder, horElse orElse rfl, hlast last rfl]

theorem isHandler_eq_false_of_block {n : Node} (h : n.kind = .block ∨ n.kind = .last) :
    isHandler n = false := by
  unfold isHandler
  rcases h with h | h <;> rw [h]

/-- Whether the parts stand in order: once the handlers are dropped, what is left ends in order. -/
def inOrder? (n : Node) : Bool :=
  match n.children with
  | [] => false
  | body :: rest => body.kind == .block && endsInOrder (rest.dropWhile isHandler)

theorem inOrder_iff {n : Node} : n.InOrder ↔ n.inOrder? = true := by
  unfold inOrder?
  constructor
  · rintro ⟨body, handlers, orElse, last, hchildren, hbody, hh, horElse, hlast⟩
    have hdrop : (orElse.toList ++ last.toList).dropWhile isHandler = orElse.toList ++ last.toList := by
      rcases orElse with _ | e <;> rcases last with _ | l
      · rfl
      · simp [isHandler_eq_false_of_block (.inr (hlast l rfl))]
      · simp [isHandler_eq_false_of_block (.inl (horElse e rfl))]
      · simp [isHandler_eq_false_of_block (.inl (horElse e rfl))]
    rw [hchildren]
    dsimp only
    rw [dropWhile_append_of_pos hh, hdrop, endsInOrder_iff.2 ⟨orElse, last, rfl, horElse, hlast⟩, hbody]
    rfl
  · intro h
    split at h
    next => cases h
    next body rest hchildren =>
      obtain ⟨hbody, hends⟩ := Bool.and_eq_true_iff.1 h
      obtain ⟨orElse, last, hrest, horElse, hlast⟩ := endsInOrder_iff.1 hends
      refine ⟨body, rest.takeWhile isHandler, orElse, last, ?_, by simpa using hbody, ?_, horElse, hlast⟩
      · rw [← hrest, takeWhile_append_dropWhile, hchildren]
      · exact fun h hh => mem_takeWhile_imp hh

instance (n : Node) : Decidable n.InOrder := decidable_of_iff (n.inOrder? = true) inOrder_iff.symm

/-- A statement whose parts are all accounted for: a guarded block with its parts in order, or a loop with all of its
parts and no further blocks. -/
structure Orderly (n : Node) : Prop where
  guarded : n.kind = .tryBlock → n.InOrder
  loop : n.kind = .forLoop → 3 ≤ n.children.length ∧ n.children.length ≤ 4

section Parts

variable {handlers : List Node} {rest : List Node}

theorem duesOfFirst_append (hh : ∀ h ∈ handlers, isHandler h = true) {wanted : Kind}
    (hwanted : ∀ c, wanted ≠ .handler c) : duesOfFirst wanted (handlers ++ rest) = duesOfFirst wanted rest := by
  induction handlers with
  | nil => rfl
  | cons h handlers ih =>
    have hne : h.kind ≠ wanted := by
      have hhandler := hh h (by simp)
      unfold isHandler at hhandler
      split at hhandler
      next c hc => exact fun heq => hwanted c (heq.symm.trans hc)
      next => cases hhandler
    rw [cons_append, duesOfFirst, if_neg hne, ih fun h' hh' => hh h' (by simp [hh'])]

theorem duesOfHandlers_append (hh : ∀ h ∈ handlers, isHandler h = true) :
    duesOfHandlers (handlers ++ rest) = ↑(handlers.map fun h => (StepRole.handle, h.id)) +
      duesOf (statementsWithin handlers) + duesOfHandlers rest := by
  induction handlers with
  | nil => simp [statementsWithin]
  | cons h handlers ih =>
    rw [cons_append, duesOfHandlers, if_pos (hh h (by simp)), ih fun h' hh' => hh h' (by simp [hh']),
      statementsWithin_eq, statementsWithin_eq, flatMap_cons, duesOf_append, map_cons, ← Multiset.cons_coe,
      ← Multiset.singleton_add, ← Multiset.singleton_add]
    abel

theorem dues_guarded {body : Node} {orElse last : Option Node} (hbody : body.kind = .block)
    (hh : ∀ h ∈ handlers, isHandler h = true) (helse : ∀ p ∈ orElse, p.kind = .block)
    (hlast : ∀ p ∈ last, p.kind = .last) (hrest : rest = handlers ++ (orElse.toList ++ last.toList)) :
    ↑(((body :: rest).filter isHandler).map fun h => (StepRole.handle, h.id)) +
        duesOf (statementsWithin (body :: rest)) =
      duesOf (statementsAll body.children) +
        (duesOfFirst .block rest + (duesOfHandlers rest + duesOfFirst .last rest)) := by
  have hfilter : (body :: rest).filter isHandler = handlers := by
    have horElse : orElse.toList.filter isHandler = [] :=
      filter_eq_nil_iff.2 fun p hp => by simp [isHandler_eq_false_of_block (.inl (helse p (by simpa using hp)))]
    have hlast : last.toList.filter isHandler = [] :=
      filter_eq_nil_iff.2 fun p hp => by simp [isHandler_eq_false_of_block (.inr (hlast p (by simpa using hp)))]
    rw [filter_cons, isHandler_eq_false_of_block (.inl hbody), hrest, filter_append, filter_append,
      horElse, hlast, filter_eq_self.2 hh]
    simp
  rw [hfilter, hrest, duesOfFirst_append hh (by simp), duesOfFirst_append hh (by simp),
    duesOfHandlers_append hh, statementsWithin_eq, statementsWithin_eq]
  cases orElse with
  | none =>
    cases last with
    | none => simp [duesOfFirst, duesOfHandlers, partStatements, hbody]; abel
    | some l => simp [duesOfFirst, duesOfHandlers, partStatements, hbody, hlast l rfl, isHandler]; abel
  | some e =>
    cases last with
    | none => simp [duesOfFirst, duesOfHandlers, partStatements, hbody, helse e rfl, isHandler]; abel
    | some l =>
      simp [duesOfFirst, duesOfHandlers, partStatements, hbody, helse e rfl, hlast l rfl, isHandler]; abel

end Parts

end Node

open Node (inside duties statementsAll partStatements duesOf)

/-! ## Jobs of statements -/

namespace Builder

def rolesOf (jobs : Multiset Job) : Multiset (StepRole × NodeId) := jobs.bind fun j => j.intake.1

@[simp] theorem rolesOf_zero : rolesOf 0 = 0 := Multiset.zero_bind _

@[simp] theorem rolesOf_singleton (j : Job) : rolesOf {j} = j.intake.1 := Multiset.singleton_bind _ _

@[simp] theorem rolesOf_cons (j : Job) (jobs : Multiset Job) : rolesOf (j ::ₘ jobs) = j.intake.1 + rolesOf jobs :=
  Multiset.cons_bind _ _ _

@[simp] theorem rolesOf_add (jobs jobs' : Multiset Job) : rolesOf (jobs + jobs') = rolesOf jobs + rolesOf jobs' :=
  Multiset.add_bind _ _ _

mutual

/-- The jobs of a statement are what it and the statements in its blocks call for. -/
theorem rolesOf_jobs : ∀ n : Node, (∀ x ∈ n.statements, x.Orderly) → rolesOf n.jobs = duesOf n.statements
  | ⟨id, kind, span, parent, children⟩, horderly => by
    have hself : Node.Orderly ⟨id, kind, span, parent, children⟩ := horderly _ (by simp [Node.statements_eq])
    have hinside : ∀ x ∈ inside ⟨id, kind, span, parent, children⟩, x.Orderly :=
      fun x hx => horderly x (by simp [Node.statements_eq, hx])
    rw [Node.statements_eq, Node.duesOf_cons]
    unfold Node.jobs
    split
    · split
      next test blocks =>
        have hblocks := rolesOf_jobsOfBlocks blocks fun x hx => hinside x (by simpa [inside] using hx)
        simp [hblocks, intake, duties, inside]
      next => simp [duties, inside]
    · split
      next test blocks =>
        have hblocks := rolesOf_jobsOfBlocks blocks fun x hx => hinside x (by simpa [inside] using hx)
        simp [hblocks, intake, duties, inside]
      next => simp [duties, inside]
    · obtain ⟨hthree, hfour⟩ := hself.loop rfl
      split
      next target iterable body rest =>
        have hbody := rolesOf_jobsOfBlock body fun x hx => hinside x (by simp [inside, hx])
        have hfew : rest.length ≤ 1 := by
          simp only [length_cons] at hfour
          omega
        have hrest := rolesOf_jobsOfHead rest hfew fun x hx => hinside x (by simp [inside, hx])
        simp [hbody, hrest, intake, duties, inside, testsOf]
      next hnone =>
        rcases children with _ | ⟨target, _ | ⟨iterable, _ | ⟨body, rest⟩⟩⟩
        · simp at hthree
        · simp at hthree
        · simp at hthree
        · exact absurd rfl (hnone target iterable body rest)
    · obtain ⟨body, handlers, orElse, last, hlayout, hbk, hhk, hek, hlk⟩ := hself.guarded rfl
      dsimp only at hlayout
      obtain ⟨rest, rfl⟩ : ∃ rest, children = body :: rest := ⟨_, hlayout⟩
      have hrest := (List.cons.inj hlayout).2
      have hpart : ∀ c ∈ body :: rest, ∀ x ∈ c.partStatements, x.Orderly := fun c hc x hx =>
        hinside x (by rw [inside, Node.statementsWithin_eq]; exact mem_flatMap.2 ⟨c, hc, hx⟩)
      have hblock : ∀ c ∈ body :: rest, c.kind = .block ∨ c.kind = .last → ∀ x ∈ statementsAll c.children,
          x.Orderly := by
        intro c hc hk x hx
        refine hpart c hc x ?_
        rcases hk with hk | hk <;> rwa [partStatements, hk]
      have hbody := rolesOf_jobsOfBlock body (hblock body (by simp) (.inl hbk))
      have helse := rolesOf_jobsOfFirst .block rest fun c hc hk => hblock c (by simp [hc]) (.inl hk)
      have hhandlers := rolesOf_jobsOfHandlers rest fun c hc _ => hpart c (by simp [hc])
      have hlast := rolesOf_jobsOfFirst .last rest fun c hc hk => hblock c (by simp [hc]) (.inr hk)
      dsimp only
      rw [rolesOf_add, rolesOf_add, rolesOf_add, hbody, helse, hhandlers, hlast]
      exact (Node.dues_guarded hbk hhk hek hlk hrest).symm
    · rw [rolesOf_jobsOfItems children hinside]
      simp [Node.duesOfItems, duties, inside]
    · split
      next test rest => cases rest <;> simp [intake, duties, inside, testsOf]
      next => simp [duties, inside]
    · simp [duties, inside]
    · simp [duties, inside]
    · rw [rolesOf_singleton]
      simp only [duties, inside]
      rfl
termination_by n => sizeOf n
decreasing_by all_goals (subst_vars; simp only [Node.mk.sizeOf_spec, List.cons.sizeOf_spec]; omega)

theorem rolesOf_jobsAll : ∀ stmts : List Node, (∀ x ∈ statementsAll stmts, x.Orderly) →
    rolesOf (Node.jobsAll stmts) = duesOf (statementsAll stmts)
  | [], _ => by simp [Node.jobsAll, statementsAll]
  | n :: rest, horderly => by
    rw [statementsAll] at horderly ⊢
    have hn := rolesOf_jobs n fun x hx => horderly x (by simp [hx])
    have hrest := rolesOf_jobsAll rest fun x hx => horderly x (by simp [hx])
    rw [Node.jobsAll, rolesOf_add, hn, hrest, Node.duesOf_append]
termination_by stmts => sizeOf stmts

theorem rolesOf_jobsOfBlock : ∀ n : Node, (∀ x ∈ statementsAll n.children, x.Orderly) →
    rolesOf (Node.jobsOfBlock n) = duesOf (statementsAll n.children)
  | ⟨_, _, _, _, stmts⟩, horderly => by
    rw [Node.jobsOfBlock]
    exact rolesOf_jobsAll stmts horderly
termination_by n => sizeOf n

theorem rolesOf_jobsOfBlocks : ∀ parts : List Node, (∀ x ∈ Node.statementsAfter 0 parts, x.Orderly) →
    rolesOf (Node.jobsOfBlocks parts) = duesOf (Node.statementsAfter 0 parts)
  | [], _ => by simp [Node.jobsOfBlocks]
  | n :: rest, horderly => by
    rw [Node.statementsAfter_zero_cons] at horderly ⊢
    have hn := rolesOf_jobsOfBlock n fun x hx => horderly x (by simp [hx])
    have hrest := rolesOf_jobsOfBlocks rest fun x hx => horderly x (by simp [hx])
    rw [Node.jobsOfBlocks, rolesOf_add, hn, hrest, Node.duesOf_append]
termination_by parts => sizeOf parts

theorem rolesOf_jobsOfHead : ∀ parts : List Node, parts.length ≤ 1 →
    (∀ x ∈ Node.statementsAfter 0 parts, x.Orderly) →
      rolesOf (Node.jobsOfHead parts) = duesOf (Node.statementsAfter 0 parts)
  | [], _, _ => by simp [Node.jobsOfHead]
  | [n], _, horderly => by
    rw [Node.statementsAfter_zero_cons, Node.statementsAfter_nil, append_nil] at horderly ⊢
    rw [Node.jobsOfHead, rolesOf_jobsOfBlock n horderly]
  | _ :: _ :: _, hlength, _ => by simp at hlength
termination_by parts => sizeOf parts

theorem rolesOf_jobsOfFirst (wanted : Kind) : ∀ parts : List Node,
    (∀ c ∈ parts, c.kind = wanted → ∀ x ∈ statementsAll c.children, x.Orderly) →
      rolesOf (Node.jobsOfFirst wanted parts) = Node.duesOfFirst wanted parts
  | [], _ => by simp [Node.jobsOfFirst, Node.duesOfFirst]
  | ⟨id, kind, span, parent, stmts⟩ :: rest, horderly => by
    unfold Node.jobsOfFirst Node.duesOfFirst
    by_cases h : kind = wanted
    · rw [if_pos h, if_pos h]
      exact rolesOf_jobsAll stmts (horderly _ mem_cons_self h)
    · rw [if_neg h, if_neg h]
      exact rolesOf_jobsOfFirst wanted rest fun c hc => horderly c (by simp [hc])
termination_by parts => sizeOf parts

theorem rolesOf_jobsOfHandlers : ∀ parts : List Node,
    (∀ c ∈ parts, isHandler c = true → ∀ x ∈ c.partStatements, x.Orderly) →
      rolesOf (Node.jobsOfHandlers parts) = Node.duesOfHandlers parts
  | [], _ => by simp [Node.jobsOfHandlers, Node.duesOfHandlers]
  | ⟨id, kind, span, parent, children⟩ :: rest, horderly => by
    have hrest := rolesOf_jobsOfHandlers rest fun c hc => horderly c (by simp [hc])
    rw [Node.jobsOfHandlers, Node.duesOfHandlers, rolesOf_add, hrest]
    congr 1
    split
    next h =>
      have hpart : partStatements ⟨id, kind, span, parent, children⟩ = Node.statementsOfLast children := by
        unfold isHandler at h
        split at h
        next c hc => rw [partStatements, hc]
        next => cases h
      have hfinal := rolesOf_jobsOfFinal children fun x hx => horderly _ mem_cons_self h x (hpart ▸ hx)
      rw [rolesOf_add, hfinal, hpart, rolesOf_singleton]
      rfl
    next => rfl
termination_by parts => sizeOf parts

theorem rolesOf_jobsOfFinal : ∀ parts : List Node, (∀ x ∈ Node.statementsOfLast parts, x.Orderly) →
    rolesOf (Node.jobsOfFinal parts) = duesOf (Node.statementsOfLast parts)
  | [], _ => by simp [Node.jobsOfFinal, Node.statementsOfLast]
  | [⟨id, kind, span, parent, stmts⟩], horderly => by
    rw [Node.statementsOfLast] at horderly ⊢
    rw [Node.jobsOfFinal]
    exact rolesOf_jobsOfBlock ⟨id, kind, span, parent, stmts⟩ horderly
  | first :: next :: rest, horderly => by
    rw [Node.statementsOfLast_cons_cons] at horderly ⊢
    rw [Node.jobsOfFinal]
    · exact rolesOf_jobsOfFinal (next :: rest) horderly
    · simp
termination_by parts => sizeOf parts

theorem rolesOf_jobsOfItems : ∀ parts : List Node, (∀ x ∈ Node.statementsWithin parts, x.Orderly) →
    rolesOf (Node.jobsOfItems parts) = Node.duesOfItems parts
  | [], _ => by simp [Node.jobsOfItems]
  | ⟨id, kind, span, parent, children⟩ :: rest, horderly => by
    rw [Node.statementsWithin_eq, flatMap_cons] at horderly
    have hrest := rolesOf_jobsOfItems rest fun x hx =>
      horderly x (mem_append_right _ (Node.statementsWithin_eq rest ▸ hx))
    have hpart : ∀ x ∈ partStatements ⟨id, kind, span, parent, children⟩, x.Orderly := fun x hx =>
      horderly x (mem_append_left _ hx)
    unfold Node.jobsOfItems
    rw [Node.duesOfItems_cons, rolesOf_add, hrest]
    congr 1
    cases kind with
    | withItem => simp [intake, partStatements]
    | block => simpa [partStatements] using rolesOf_jobsAll children hpart
    | last => simpa [partStatements] using rolesOf_jobsAll children hpart
    | handler name => simpa [partStatements] using rolesOf_jobsOfFinal children hpart
    | _ => simp [partStatements]
termination_by parts => sizeOf parts

end

end Builder

/-! ## Checked bodies -/

namespace Node

variable {policy : UnsupportedPolicy}

theorem check_of_checkAll {ns : List Node} (h : checkAll policy ns = .ok ()) : ∀ n ∈ ns, n.check policy = .ok () := by
  induction ns with
  | nil => exact forall_mem_nil _
  | cons m ns ih =>
    unfold checkAll at h
    obtain ⟨_, hm, h⟩ := exists_ok_of_bind_eq_ok h
    rintro n (_ | ⟨_, hn⟩)
    · exact hm
    · exact ih h n hn

variable {n : Node} {children : List Node}

theorem wellShaped_of_check (h : n.check policy = .ok ()) (hm : ∀ word defect, n.kind ≠ .malformed word defect)
    (hu : ∀ word, n.kind ≠ .unsupported word) : wellShaped n.kind n.children = true := by
  obtain ⟨id, kind, span, parent, children⟩ := n
  unfold check at h
  obtain ⟨_, hone, _⟩ := exists_ok_of_bind_eq_ok h
  unfold checkOne at hone
  split at hone
  next word defect _ => exact absurd rfl (hm word defect)
  next word _ => exact absurd rfl (hu word)
  next =>
    split at hone
    next hshape => exact hshape
    next => cases hone

theorem checkAll_children (h : n.check policy = .ok ()) (hf : ∀ name, n.kind ≠ .functionDef name)
    (hc : ∀ name, n.kind ≠ .classDef name) : checkAll policy n.children = .ok () := by
  obtain ⟨id, kind, span, parent, children⟩ := n
  unfold check at h
  obtain ⟨_, _, hrest⟩ := exists_ok_of_bind_eq_ok h
  split at hrest
  · exact absurd rfl (hf _)
  · exact absurd rfl (hc _)
  · exact hrest

theorem checkAll_of_isBlock (h : n.check policy = .ok ()) (hn : n.isBlock = true) :
    checkAll policy n.children = .ok () := by
  refine checkAll_children h (fun name hk => ?_) fun name hk => ?_
  all_goals
    rw [isBlock, hk] at hn
    simp [Kind.word] at hn

theorem isBlock_of_mem_drop_one {kind : Kind} (h : wellShaped kind children = true)
    (hk : kind = .ifElse ∨ kind = .whileLoop) : ∀ c ∈ children.drop 1, c.isBlock = true := by
  have h : wellShaped .ifElse children = true := by
    rcases hk with rfl | rfl
    · exact h
    · exact h
  rcases children with _ | ⟨test, _ | ⟨body, _ | ⟨orElse, _ | ⟨more, rest⟩⟩⟩⟩
  · cases h
  · cases h
  · simpa [wellShaped, isBlockAt] using h
  · simpa [wellShaped, isBlockAt, and_comm] using h
  · simp [wellShaped] at h

theorem isBlock_of_mem_drop_two (h : wellShaped .forLoop children = true) :
    (3 ≤ children.length ∧ children.length ≤ 4) ∧ ∀ c ∈ children.drop 2, c.isBlock = true := by
  rcases children with _ | ⟨target, _ | ⟨iterable, _ | ⟨body, _ | ⟨orElse, _ | ⟨more, rest⟩⟩⟩⟩⟩
  · cases h
  · cases h
  · cases h
  · simpa [wellShaped, isBlockAt] using h
  · simpa [wellShaped, isBlockAt, and_comm] using h
  · simp [wellShaped] at h

theorem isBlock_of_handler {name : Option String}
    (h : wellShaped (.handler name) children = true) : ∀ c ∈ children.getLast?, c.isBlock = true := by
  rcases children with _ | ⟨first, _ | ⟨second, _ | ⟨more, rest⟩⟩⟩
  · cases h
  · simpa [wellShaped, isBlockAt] using h
  · simpa [wellShaped, isBlockAt] using h
  · simp [wellShaped] at h

mutual

theorem check_of_mem_statements : ∀ n : Node, n.check policy = .ok () → ∀ x ∈ n.statements, x.check policy = .ok ()
  | ⟨id, kind, span, parent, children⟩, h, x, hx => by
    rw [statements_eq] at hx
    rcases mem_cons.1 hx with rfl | hx
    · exact h
    unfold inside at hx
    dsimp only at hx
    split at hx
    · have hchildren := check_of_checkAll (checkAll_children h nofun nofun)
      have hblocks := isBlock_of_mem_drop_one (wellShaped_of_check h nofun nofun) (.inl rfl)
      exact check_of_mem_statementsAfter 1 children hchildren hblocks x hx
    · have hchildren := check_of_checkAll (checkAll_children h nofun nofun)
      have hblocks := isBlock_of_mem_drop_one (wellShaped_of_check h nofun nofun) (.inr rfl)
      exact check_of_mem_statementsAfter 1 children hchildren hblocks x hx
    · have hchildren := check_of_checkAll (checkAll_children h nofun nofun)
      have hblocks := isBlock_of_mem_drop_two (wellShaped_of_check h nofun nofun)
      exact check_of_mem_statementsAfter 2 children hchildren hblocks.2 x hx
    · exact check_of_mem_statementsWithin children (check_of_checkAll (checkAll_children h nofun nofun)) x hx
    · exact check_of_mem_statementsWithin children (check_of_checkAll (checkAll_children h nofun nofun)) x hx
    · cases hx
termination_by n => sizeOf n
decreasing_by all_goals (subst_vars; simp only [Node.mk.sizeOf_spec]; omega)

theorem check_of_mem_statementsAll : ∀ ns : List Node, (∀ n ∈ ns, n.check policy = .ok ()) →
    ∀ x ∈ statementsAll ns, x.check policy = .ok ()
  | [], _, x, hx => by
    rw [statementsAll] at hx
    cases hx
  | n :: ns, h, x, hx => by
    rw [statementsAll] at hx
    rcases mem_append.1 hx with hx | hx
    · exact check_of_mem_statements n (h n mem_cons_self) x hx
    · exact check_of_mem_statementsAll ns (fun m hm => h m (mem_cons_of_mem _ hm)) x hx
termination_by ns => sizeOf ns

theorem check_of_mem_statementsAfter : ∀ (skipped : Nat) (parts : List Node), (∀ n ∈ parts, n.check policy = .ok ()) →
    (∀ c ∈ parts.drop skipped, c.isBlock = true) → ∀ x ∈ statementsAfter skipped parts, x.check policy = .ok ()
  | _, [], _, _, x, hx => by
    rw [statementsAfter_nil] at hx
    cases hx
  | 0, ⟨id, kind, span, parent, stmts⟩ :: rest, h, hblocks, x, hx => by
    rw [statementsAfter_zero_cons] at hx
    rcases mem_append.1 hx with hx | hx
    · have hstmts := checkAll_of_isBlock (h _ mem_cons_self) (hblocks _ mem_cons_self)
      exact check_of_mem_statementsAll stmts (check_of_checkAll hstmts) x hx
    · exact check_of_mem_statementsAfter 0 rest (fun m hm => h m (mem_cons_of_mem _ hm))
        (fun c hc => hblocks c (mem_cons_of_mem _ hc)) x hx
  | skipped + 1, n :: rest, h, hblocks, x, hx => by
    rw [statementsAfter_succ_cons] at hx
    exact check_of_mem_statementsAfter skipped rest (fun m hm => h m (mem_cons_of_mem _ hm)) hblocks x hx
termination_by _ parts => sizeOf parts

theorem check_of_mem_statementsWithin : ∀ parts : List Node, (∀ n ∈ parts, n.check policy = .ok ()) →
    ∀ x ∈ statementsWithin parts, x.check policy = .ok ()
  | [], _, x, hx => by
    rw [statementsWithin] at hx
    cases hx
  | ⟨id, kind, span, parent, parts⟩ :: rest, h, x, hx => by
    have hpart := h _ mem_cons_self
    unfold statementsWithin at hx
    rcases mem_append.1 hx with hx | hx
    · split at hx
      · exact check_of_mem_statementsAll parts (check_of_checkAll (checkAll_children hpart nofun nofun)) x hx
      · exact check_of_mem_statementsAll parts (check_of_checkAll (checkAll_children hpart nofun nofun)) x hx
      · have hblock := isBlock_of_handler (wellShaped_of_check hpart nofun nofun)
        exact check_of_mem_statementsOfLast parts (check_of_checkAll (checkAll_children hpart nofun nofun)) hblock x hx
      · cases hx
    · exact check_of_mem_statementsWithin rest (fun m hm => h m (mem_cons_of_mem _ hm)) x hx
termination_by parts => sizeOf parts

theorem check_of_mem_statementsOfLast : ∀ parts : List Node, (∀ n ∈ parts, n.check policy = .ok ()) →
    (∀ c ∈ parts.getLast?, c.isBlock = true) → ∀ x ∈ statementsOfLast parts, x.check policy = .ok ()
  | [], _, _, x, hx => by
    rw [statementsOfLast] at hx
    cases hx
  | [⟨id, kind, span, parent, stmts⟩], h, hblock, x, hx => by
    rw [statementsOfLast] at hx
    have hstmts := checkAll_of_isBlock (h _ mem_cons_self) (hblock _ rfl)
    exact check_of_mem_statementsAll stmts (check_of_checkAll hstmts) x hx
  | first :: next :: rest, h, hblock, x, hx => by
    rw [statementsOfLast_cons_cons] at hx
    exact check_of_mem_statementsOfLast (next :: rest) (fun m hm => h m (mem_cons_of_mem _ hm))
      (fun c hc => hblock c (by rwa [getLast?_cons_cons])) x hx
termination_by parts => sizeOf parts

end

end Node

namespace Builder

/-- What the steps take in has grown by some roles and by tests, of nodes with the given numbers. -/
def Gains (own : Multiset (StepRole × NodeId)) (ids : List NodeId) (s s' : Multiset (StepRole × NodeId)) : Prop :=
  ∃ tests : Multiset NodeId, s' = s + own + tests.map (Prod.mk .test) ∧
    ∀ i, (own.map Prod.snd).count i + tests.count i ≤ ids.count i

theorem intake_le_ids (j : Job) : j.intake.1.map Prod.snd + j.intake.2 ≤ ↑j.ids := by
  cases j with
  | test n => simp [intake, Job.ids, Node.ids_eq n]
  | settle n => simpa [intake, Job.ids, Node.ids_eq n, testsOf] using (sublist_cons_self _ _).subperm
  | refuse n => simpa [intake, Job.ids, Node.ids_eq n, testsOf] using (sublist_cons_self _ _).subperm
  | exec stmt => simp [intake, Job.ids]
  | iterate target iterable => simp [intake, Job.ids]
  | handle handler => simp [intake, Job.ids]
  | enter item => simp [intake, Job.ids]
  | parameters arguments => simp [intake, Job.ids]
  | returnNone => simp [intake, Job.ids]

/-- The steps for jobs take in what is called for, and tests of further nodes that the jobs deal with. -/
def taking : Ledger where
  rel jobs g g' := ∃ tests : Multiset NodeId,
    (↑g'.roles : Multiset (StepRole × NodeId)) = ↑g.roles + rolesOf jobs + tests.map (Prod.mk .test) ∧
      (rolesOf jobs).map Prod.snd + tests ≤ idsOf jobs
  quiet hq := ⟨0, by simp [hq.roles], by simp⟩
  trans := by
    rintro jobs jobs' g g' g'' ⟨tests, hroles, hle⟩ ⟨tests', hroles', hle'⟩
    refine ⟨tests + tests', ?_, ?_⟩
    · rw [hroles', hroles, rolesOf_add, Multiset.map_add]
      abel
    · rw [rolesOf_add, idsOf_add, Multiset.map_add, add_add_add_comm]
      exact add_le_add hle hle'
  performs := by
    intro j s W H fails b b' x hb hrun
    obtain ⟨_, -, hp, -⟩ := keeps_act j fails b x b' hb (.refl _) hrun
    obtain ⟨tests, hle, hroles⟩ := hp.rel
    refine ⟨tests, by rw [rolesOf_singleton, hroles], ?_⟩
    rw [rolesOf_singleton, idsOf_singleton]
    exact (add_le_add_right hle _).trans (intake_le_ids j)

end Builder

/-- The steps of a unit take in what its statements call for, and tests of other parts of its body, none of them
twice. -/
theorem FlowGraph.gains_of_ofUnit {policy : UnsupportedPolicy} {unit : UnitInfo} {g : FlowGraph} {body : List Node}
    (h : FlowGraph.ofUnit policy unit = .ok g) (hbody : unit.body = some body)
    (horder : ∀ x ∈ statementsAll body, x.kind = .tryBlock → x.InOrder) :
    Builder.Gains (duesOf (statementsAll body)) (Node.idsAll body) 0 ↑g.roles := by
  have horderly : ∀ x ∈ statementsAll body, x.Orderly := by
    refine fun x hx => ⟨horder x hx, fun hk => ?_⟩
    have hx := Node.check_of_mem_statementsAll body (Node.check_of_checkAll (FlowGraph.checkAll_of_ofUnit hbody h)) x hx
    have hshape := Node.wellShaped_of_check hx (by simp [hk]) (by simp [hk])
    rw [hk] at hshape
    exact (Node.isBlock_of_mem_drop_two hshape).1
  obtain ⟨b, fails, -, hp, rfl⟩ := FlowGraph.exists_at_of_ofUnit Builder.taking hbody h
  obtain ⟨tests, hroles, hle⟩ := hp.rel
  have howed := Builder.rolesOf_jobsAll body horderly
  rw [map_unit Builder.rolesOf_zero Builder.rolesOf_add (fun _ => rfl) rfl, howed] at hroles hle
  rw [map_unit idsOf_zero Builder.idsOf_add (fun _ => rfl) rfl] at hle
  refine ⟨tests, by rw [(FlowGraph.Quiet.finish b.graph).roles, hroles]; rfl, fun i => ?_⟩
  rw [← Multiset.count_add]
  exact (Multiset.count_le_of_le i hle).trans (count_idsOf_jobsAll_le body i)

end PointsTo
