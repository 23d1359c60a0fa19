import Mathlib.Data.Multiset.Bind
import PointsTo.Proofs.Flow.Lowering

/-! # Jobs of a body

What a statement gives lowering to do, its blocks apart, are a few jobs: a test to branch on, an expression to settle,
a statement to run. Everything else is blocks and edges. So an account of a lowering is kept job by job, and the jobs of
a body follow from its syntax. -/

namespace PointsTo

open List
open Node (idsAll idsAll_cons ids_mk)

/-- A piece of work that a statement gives lowering to do. -/
inductive Job where
  | test (n : Node)
  | settle (n : Node)
  /-- Settles the message of an assertion that fails. -/
  | refuse (message : Node)
  | exec (stmt : Node)
  | iterate (target iterable : Node)
  | handle (handler : Node)
  | enter (item : Node)
  | parameters (arguments : Node)
  | returnNone

namespace Job

open Builder

def act : Job → Build Unit
  | .test n => do
    lowerExpr n
    push (.test n)
  | .settle n | .refuse n => do
    lowerExpr n
    hoistOnce n
  | .exec stmt => execAfter stmt stmt.operands
  | .iterate target iterable => push (.iterate target iterable)
  | .handle handler => push (.handle handler)
  | .enter item => do
    lowerSequence [] item.children.head?.toList
    push (.enter item)
  | .parameters arguments => push (.parameters arguments)
  | .returnNone => push .returnNone

def intake : Job → Intake
  | .test n => ({(.test, n.id)}, ↑(idsAll n.children))
  | .settle n | .refuse n => testsOf (idsAll n.children)
  | .exec stmt => ({(.exec, stmt.id)}, ↑(idsAll stmt.operands))
  | .iterate target _ => ({(.iterate, target.id)}, 0)
  | .handle handler => ({(.handle, handler.id)}, 0)
  | .enter item => ({(.enter, item.id)}, ↑(idsAll item.children.head?.toList))
  | .parameters _ | .returnNone => 0

def ids : Job → List NodeId
  | .test n | .settle n | .refuse n => n.ids
  | .exec stmt => stmt.id :: idsAll stmt.operands
  | .iterate target _ => [target.id]
  | .handle handler => [handler.id]
  | .enter item => item.id :: idsAll item.children.head?.toList
  | .parameters _ | .returnNone => []

/-- Whether the block that the job is done in is closed although it has been left. -/
def fails : Job → Bool
  | .refuse message => message.needsExpansion
  | _ => false

end Job

namespace Node

mutual

def jobs : Node → Multiset Job
  | ⟨id, kind, span, parent, children⟩ =>
    match kind with
    | .ifElse | .whileLoop => match children with
      | test :: blocks => {.test test} + jobsOfBlocks blocks
      | [] => 0
    | .forLoop => match children with
      | target :: iterable :: body :: rest =>
        {.settle iterable} + ({.iterate target iterable} + (jobsOfBlock body + jobsOfHead rest))
      | _ => 0
    | .tryBlock => match children with
      | body :: rest =>
        jobsOfBlock body + (jobsOfFirst .block rest + (jobsOfHandlers rest + jobsOfFirst .last rest))
      | [] => 0
    | .withBlock => jobsOfItems children
    | .assertion => match children with
      | test :: rest => {.test test} + ↑(rest.head?.toList.map Job.refuse)
      | [] => 0
    | .breakLoop | .continueLoop => 0
    | _ => {.exec ⟨id, kind, span, parent, children⟩}

def jobsAll : List Node → Multiset Job
  | [] => 0
  | n :: rest => jobs n + jobsAll rest

def jobsOfBlock : Node → Multiset Job
  | ⟨_, _, _, _, stmts⟩ => jobsAll stmts

def jobsOfBlocks : List Node → Multiset Job
  | [] => 0
  | n :: rest => jobsOfBlock n + jobsOfBlocks rest

def jobsOfHead : List Node → Multiset Job
  | [] => 0
  | n :: _ => jobsOfBlock n

def jobsOfFirst (wanted : Kind) : List Node → Multiset Job
  | [] => 0
  | ⟨_, kind, _, _, stmts⟩ :: rest => if kind = wanted then jobsAll stmts else jobsOfFirst wanted rest

def jobsOfHandlers : List Node → Multiset Job
  | [] => 0
  | ⟨id, kind, span, parent, children⟩ :: rest =>
    (if Builder.isHandler ⟨id, kind, span, parent, children⟩ then
      {.handle ⟨id, kind, span, parent, children⟩} + jobsOfFinal children else 0) + jobsOfHandlers rest

def jobsOfFinal : List Node → Multiset Job
  | [] => 0
  | [n] => jobsOfBlock n
  | _ :: rest => jobsOfFinal rest

/-- The jobs of the items of a with-block and of its statements. Among other parts it cannot be lowered. -/
def jobsOfItems : List Node → Multiset Job
  | [] => 0
  | ⟨id, kind, span, parent, children⟩ :: rest =>
    (match kind with
      | .withItem => {.enter ⟨id, kind, span, parent, children⟩}
      | .block | .last => jobsAll children
      | .handler _ => jobsOfFinal children
      | _ => 0) + jobsOfItems rest

end

end Node

namespace Builder

/-! ## Numbers -/

variable (children : List Node)

theorem count_parts_le (i : NodeId) : (idsAll (children.filter (·.kind == .block))).count i +
      ((idsAll (children.filter isHandler)).count i +
        (idsAll (children.filter (·.kind == .last))).count i) ≤ (idsAll children).count i := by
  induction children with
  | nil => simp
  | cons n children ih =>
    have hone : (n.kind == .block).toNat + (isHandler n).toNat + (n.kind == .last).toNat ≤ 1 := by
      obtain ⟨id, kind, span, parent, parts⟩ := n
      cases kind <;> first | exact Nat.zero_le _ | exact Nat.le_refl _
    simp only [filter_cons, idsAll_cons, count_append]
    cases hb : n.kind == .block <;> cases hh : isHandler n <;> cases hl : n.kind == .last
    all_goals
      simp only [hb, hh, hl, Bool.toNat_true, Bool.toNat_false, Bool.false_eq_true, if_true, if_false,
        idsAll_cons, count_append] at hone ⊢
      omega

theorem count_rotate (i : NodeId) :
    (idsAll (children.getLast?.toList ++ children.dropLast)).count i = (idsAll children).count i := by
  rcases eq_nil_or_concat children with rfl | ⟨init, last, rfl⟩
  · rfl
  · simp [Node.idsAll_append]
    omega

theorem count_second_le (i : NodeId) : (idsAll children[1]?.toList).count i ≤ (idsAll children).count i := by
  rcases children with _ | ⟨first, _ | ⟨second, rest⟩⟩
  · simp
  · simp
  · simp only [getElem?_cons_succ, getElem?_cons_zero, Option.toList_some, idsAll_cons,
      Node.idsAll_nil, count_append, count_nil]
    omega

def idsOf (jobs : Multiset Job) : Multiset NodeId := jobs.bind fun j => ↑j.ids

@[simp] theorem idsOf_zero : idsOf 0 = 0 := Multiset.zero_bind _

@[simp] theorem idsOf_singleton (j : Job) : idsOf {j} = ↑j.ids := Multiset.singleton_bind _ _

@[simp] theorem idsOf_cons (j : Job) (jobs : Multiset Job) : idsOf (j ::ₘ jobs) = ↑j.ids + idsOf jobs :=
  Multiset.cons_bind _ _ _

@[simp] theorem idsOf_add (jobs jobs' : Multiset Job) : idsOf (jobs + jobs') = idsOf jobs + idsOf jobs' :=
  Multiset.add_bind _ _ _

mutual

theorem count_idsOf_jobs_le : ∀ (n : Node) (i : NodeId), (idsOf n.jobs).count i ≤ n.ids.count i
  | ⟨id, kind, span, parent, children⟩, i => by
    rw [ids_mk, count_cons]
    suffices h : (idsOf (Node.jobs ⟨id, kind, span, parent, children⟩)).count i ≤
        (idsAll children).count i + [id].count i by
      simpa [count_cons] using h
    have hexec : ∀ {ids : List NodeId}, ids.count i ≤ (idsAll children).count i →
        (id :: ids).count i ≤ (idsAll children).count i + [id].count i := by
      intro ids h
      simp only [count_cons, count_nil]
      omega
    unfold Node.jobs
    split
    · split
      next test blocks =>
        have hblocks := count_idsOf_jobsOfBlocks_le blocks i
        simp [Job.ids]
        omega
      next => simp
    · split
      next test blocks =>
        have hblocks := count_idsOf_jobsOfBlocks_le blocks i
        simp [Job.ids]
        omega
      next => simp
    · split
      next target iterable body rest =>
        have hbody := count_idsOf_jobsOfBlock_le body i
        have hrest := count_idsOf_jobsOfHead_le rest i
        simp only [idsOf_add, idsOf_singleton, Job.ids, Multiset.count_add, Multiset.coe_count, idsAll_cons,
          Node.ids_eq target, count_append, count_cons, count_nil]
        omega
      next => simp
    · split
      next body rest =>
        have hbody := count_idsOf_jobsOfBlock_le body i
        have helse := count_idsOf_jobsOfFirst_le .block rest i
        have hhandlers := count_idsOf_jobsOfHandlers_le rest i
        have hlast := count_idsOf_jobsOfFirst_le .last rest i
        have hparts := count_parts_le rest i
        simp
        omega
      next => simp
    · have hitems := count_idsOf_jobsOfItems_le children i
      omega
    · split
      next test rest =>
        cases rest <;> simp [Job.ids]
        omega
      next => simp
    · simp
    · simp
    · rw [idsOf_singleton, Multiset.coe_count]
      refine hexec ?_
      unfold Node.operands
      split
      · exact Nat.le_of_eq (count_rotate children i)
      · exact count_second_le children i
      · exact count_second_le children i
      · exact Nat.le_refl _
      · exact Nat.le_refl _
      · exact Nat.le_refl _
      · simp
termination_by n => sizeOf n
decreasing_by all_goals (subst_vars; simp only [Node.mk.sizeOf_spec, List.cons.sizeOf_spec]; omega)

theorem count_idsOf_jobsAll_le : ∀ (stmts : List Node) (i : NodeId),
    (idsOf (Node.jobsAll stmts)).count i ≤ (idsAll stmts).count i
  | [], i => by simp [Node.jobsAll]
  | n :: rest, i => by
    have hn := count_idsOf_jobs_le n i
    have hrest := count_idsOf_jobsAll_le rest i
    simp [Node.jobsAll]
    omega
termination_by stmts => sizeOf stmts

theorem count_idsOf_jobsOfBlock_le : ∀ (n : Node) (i : NodeId), (idsOf (Node.jobsOfBlock n)).count i ≤ n.ids.count i
  | ⟨_, _, _, _, stmts⟩, i => by
    have hstmts := count_idsOf_jobsAll_le stmts i
    simp [Node.jobsOfBlock, count_cons]
    omega
termination_by n => sizeOf n

theorem count_idsOf_jobsOfBlocks_le : ∀ (parts : List Node) (i : NodeId),
    (idsOf (Node.jobsOfBlocks parts)).count i ≤ (idsAll parts).count i
  | [], i => by simp [Node.jobsOfBlocks]
  | n :: rest, i => by
    have hn := count_idsOf_jobsOfBlock_le n i
    have hrest := count_idsOf_jobsOfBlocks_le rest i
    simp [Node.jobsOfBlocks]
    omega
termination_by parts => sizeOf parts

theorem count_idsOf_jobsOfHead_le : ∀ (parts : List Node) (i : NodeId),
    (idsOf (Node.jobsOfHead parts)).count i ≤ (idsAll parts).count i
  | [], i => by simp [Node.jobsOfHead]
  | n :: rest, i => by
    have hn := count_idsOf_jobsOfBlock_le n i
    simp [Node.jobsOfHead]
    omega
termination_by parts => sizeOf parts

theorem count_idsOf_jobsOfFirst_le (wanted : Kind) : ∀ (parts : List Node) (i : NodeId),
    (idsOf (Node.jobsOfFirst wanted parts)).count i ≤ (idsAll (parts.filter (·.kind == wanted))).count i
  | [], i => by simp [Node.jobsOfFirst]
  | ⟨_, kind, _, _, stmts⟩ :: rest, i => by
    have hstmts := count_idsOf_jobsAll_le stmts i
    have hrest := count_idsOf_jobsOfFirst_le wanted rest i
    by_cases h : kind = wanted
    · simp [Node.jobsOfFirst, h, count_cons]
      omega
    · simpa [Node.jobsOfFirst, h] using hrest
termination_by parts => sizeOf parts

theorem count_idsOf_jobsOfHandlers_le : ∀ (parts : List Node) (i : NodeId),
    (idsOf (Node.jobsOfHandlers parts)).count i ≤ (idsAll (parts.filter isHandler)).count i
  | [], i => by simp [Node.jobsOfHandlers]
  | ⟨id, kind, span, parent, children⟩ :: rest, i => by
    have hfinal := count_idsOf_jobsOfFinal_le children i
    have hrest := count_idsOf_jobsOfHandlers_le rest i
    by_cases h : isHandler ⟨id, kind, span, parent, children⟩ = true
    · simp only [Node.jobsOfHandlers, if_pos h, filter_cons, idsOf_add, idsOf_singleton, Job.ids,
        Multiset.count_add, Multiset.coe_count, idsAll_cons, ids_mk, count_append, count_cons,
        count_nil]
      omega
    · simpa [Node.jobsOfHandlers, h] using hrest
termination_by parts => sizeOf parts

theorem count_idsOf_jobsOfFinal_le : ∀ (parts : List Node) (i : NodeId),
    (idsOf (Node.jobsOfFinal parts)).count i ≤ (idsAll parts).count i
  | [], i => by simp [Node.jobsOfFinal]
  | [n], i => by
    have hn := count_idsOf_jobsOfBlock_le n i
    simpa [Node.jobsOfFinal] using hn
  | first :: n :: rest, i => by
    have hrest := count_idsOf_jobsOfFinal_le (n :: rest) i
    rw [Node.jobsOfFinal, idsAll_cons, count_append]
    · omega
    · simp
termination_by parts => sizeOf parts

theorem count_idsOf_jobsOfItems_le : ∀ (parts : List Node) (i : NodeId),
    (idsOf (Node.jobsOfItems parts)).count i ≤ (idsAll parts).count i
  | [], i => by simp [Node.jobsOfItems]
  | ⟨id, kind, span, parent, children⟩ :: rest, i => by
    have hstmts := count_idsOf_jobsAll_le children i
    have hfinal := count_idsOf_jobsOfFinal_le children i
    have hrest := count_idsOf_jobsOfItems_le rest i
    have hhead : (idsAll children.head?.toList).count i ≤ (idsAll children).count i := by
      cases children <;> simp
    unfold Node.jobsOfItems
    rw [idsOf_add, Multiset.count_add, idsAll_cons, count_append, ids_mk, count_cons]
    split
    · simp [Job.ids, count_cons]; omega
    · omega
    · omega
    · omega
    · simp; omega
termination_by parts => sizeOf parts

end

end Builder
end PointsTo
