import PointsTo.Proofs.Flow.Mirrored
import PointsTo.Solver

/-! # The visits of a solve

A solve is a sequence of visits, and each visit is given by its block and by what was known just before
it. One lemma says everything a visit does to the facts and to the blocks that wait; whatever every
visit preserves then holds when the solve ends. -/

namespace PointsTo

open List

namespace Worklist

theorem insertRanked_perm (w : Worklist) (b : BlockId) (bs : List BlockId) :
    (w.insertRanked b bs).Perm (b :: bs) := by
  induction bs with
  | nil => exact .refl _
  | cons d bs ih =>
    rw [insertRanked]
    split
    · exact .refl _
    · exact (ih.cons d).trans (.swap b d bs)

variable {w : Worklist} {b : BlockId}

theorem push_perm (h : b ∉ w.waiting) : (w.push b).waiting.Perm (b :: w.waiting) := by
  rw [push, if_neg (by simpa using h)]
  cases w.order with
  | fifo => exact perm_append_singleton b _
  | lifo => exact .refl _
  | reversePostorder => exact insertRanked_perm w b _

theorem push_of_mem (h : b ∈ w.waiting) : w.push b = w := by
  rw [push, if_pos (by simpa using h)]

@[simp] theorem mem_push {c : BlockId} : c ∈ (w.push b).waiting ↔ c = b ∨ c ∈ w.waiting := by
  by_cases hb : b ∈ w.waiting
  · rw [push_of_mem hb]
    constructor
    · exact .inr
    · rintro (rfl | hc)
      · exact hb
      · exact hc
  · rw [(push_perm hb).mem_iff, mem_cons]

@[simp] theorem mem_pushAll {bs : List BlockId} {c : BlockId} :
    c ∈ (w.pushAll bs).waiting ↔ c ∈ bs ∨ c ∈ w.waiting := by
  unfold pushAll
  induction bs generalizing w with
  | nil => simp
  | cons b bs ih =>
    rw [foldl_cons, ih, mem_push, mem_cons, or_left_comm, or_assoc]

theorem nodup_push (h : w.waiting.Nodup) (b : BlockId) : (w.push b).waiting.Nodup := by
  by_cases hb : b ∈ w.waiting
  · rwa [push_of_mem hb]
  · exact (push_perm hb).nodup_iff.2 (nodup_cons.2 ⟨hb, h⟩)

theorem nodup_pushAll (h : w.waiting.Nodup) (bs : List BlockId) : (w.pushAll bs).waiting.Nodup :=
  List.foldlRecOn (motive := fun w => w.waiting.Nodup) bs push h fun _ h b _ => nodup_push h b

theorem length_push_le (w : Worklist) (b : BlockId) : (w.push b).waiting.length ≤ w.waiting.length + 1 := by
  by_cases hb : b ∈ w.waiting
  · rw [push_of_mem hb]
    exact Nat.le_succ _
  · exact Nat.le_of_eq (push_perm hb).length_eq

theorem length_pushAll_le (w : Worklist) (bs : List BlockId) :
    (w.pushAll bs).waiting.length ≤ w.waiting.length + bs.length := by
  unfold pushAll
  induction bs generalizing w with
  | nil => exact Nat.le_refl _
  | cons b bs ih =>
    calc (bs.foldl push (w.push b)).waiting.length
        ≤ (w.push b).waiting.length + bs.length := ih _
      _ ≤ w.waiting.length + 1 + bs.length := Nat.add_le_add_right (length_push_le w b) _
      _ = w.waiting.length + (b :: bs).length := by rw [length_cons, Nat.add_assoc, Nat.add_comm 1]

end Worklist

/-- A visit: the block, and what was known just before it. -/
structure Visit (F : Type) where
  block : BlockId
  before : Progress F

namespace Solver

variable {F : Type} (s : Solver) (a : Analysis F) (g : FlowGraph)

def inputOf (v : Visit F) : F := a.join (inputs a g v.before.inFacts v.before.outFacts v.block)

def startFrom (inFacts outFacts : Std.ExtTreeMap BlockId F) (pending : List BlockId) : Progress F :=
  ⟨inFacts, outFacts, 0, (Worklist.empty s.order g).pushAll pending⟩

variable {b : BlockId} {p : Progress F}

@[simp] theorem mem_waiting_startFrom {inFacts outFacts : Std.ExtTreeMap BlockId F} {pending : List BlockId} :
    b ∈ (s.startFrom g inFacts outFacts pending).worklist.waiting ↔ b ∈ pending := by
  simp [startFrom, Worklist.empty]

theorem insert_eq_self {facts : Std.ExtTreeMap BlockId F} {x : F} (h : facts[b]? = some x) :
    facts.insert b x = facts := by
  apply Std.ExtTreeMap.ext_getElem?
  intro c
  rw [Std.ExtTreeMap.getElem?_insert]
  split
  next hc =>
    cases Std.LawfulEqOrd.eq_of_compare hc
    exact h.symm
  next => rfl

variable [DecidableEq F]

def visits : Nat → Progress F → List (Visit F)
  | 0, _ => []
  | budget + 1, p =>
    match p.worklist.waiting with
    | [] => []
    | b :: rest =>
      if s.timeUp p.visits then []
      else ⟨b, p⟩ :: ((visit a g p b rest).map (visits budget)).getD []

def solveVisits : List (Visit F) := s.visits a g s.maxIterations (s.startFrom g ∅ ∅ [g.entry])

variable {s a g}

/-- What one visit does: it stores the facts of its block, takes nothing else off the worklist, and puts
the successors there if the output is new. -/
theorem visit_eq_some {q : Progress F} {rest : List BlockId} (h : visit a g p b rest = some q) :
    ∃ output, a.transfer (g.block b) (inputOf a g ⟨b, p⟩) = some output ∧
      q.inFacts = p.inFacts.insert b (inputOf a g ⟨b, p⟩) ∧
      q.outFacts = p.outFacts.insert b output ∧
      (∀ c ∈ rest, c ∈ q.worklist.waiting) ∧
      (∀ c ∈ q.worklist.waiting, c ∈ rest ∨ c ∈ g.successors b) ∧
      (p.outFacts[b]? = some output ∨ ∀ c ∈ g.successors b, c ∈ q.worklist.waiting) := by
  simp only [visit, Option.bind_eq_bind, Option.bind_eq_some_iff] at h
  obtain ⟨output, ht, h⟩ := h
  refine ⟨output, ht, ?_⟩
  split at h
  next hout =>
    cases h
    exact ⟨rfl, (insert_eq_self hout).symm, fun c hc => hc, fun c hc => .inl hc, .inl hout⟩
  next =>
    cases h
    refine ⟨rfl, rfl, ?_, ?_, .inr ?_⟩
    · intro c hc
      exact Worklist.mem_pushAll.2 (.inr hc)
    · intro c hc
      exact (Worklist.mem_pushAll.1 hc).symm
    · intro c hc
      exact Worklist.mem_pushAll.2 (.inl hc)

/-- A visit counts once. It lets no more than the successors of its block wait, and none of them if the block puts out
what it did before. -/
theorem visit_load {q : Progress F} {rest : List BlockId} (h : visit a g p b rest = some q) :
    q.visits = p.visits + 1 ∧
      (q.outFacts = p.outFacts ∧ q.worklist.waiting.length = rest.length ∨
        q.outFacts[b]? ≠ p.outFacts[b]? ∧ q.worklist.waiting.length ≤ rest.length + (g.successors b).length) := by
  simp only [visit, Option.bind_eq_bind, Option.bind_eq_some_iff] at h
  obtain ⟨output, -, h⟩ := h
  split at h
  next =>
    cases h
    exact ⟨rfl, .inl ⟨rfl, rfl⟩⟩
  next hnew =>
    cases h
    refine ⟨rfl, .inr ⟨?_, Worklist.length_pushAll_le { p.worklist with waiting := rest } _⟩⟩
    simpa using fun h => hnew h.symm

theorem exists_visit (rest : List BlockId)
    (h : (a.transfer (g.block b) (inputOf a g ⟨b, p⟩)).isSome) : ∃ q, visit a g p b rest = some q := by
  obtain ⟨output, houtput⟩ := Option.isSome_iff_exists.1 h
  have hvisit : visit a g p b rest = (a.transfer (g.block b) (inputOf a g ⟨b, p⟩)).bind _ := rfl
  rw [hvisit, houtput, Option.bind_some]
  split
  · exact ⟨_, rfl⟩
  · exact ⟨_, rfl⟩

/-- What every visit preserves holds when a run ends, and nothing waits then if it has converged. -/
theorem run_induction {Inv : List (Visit F) → Progress F → Prop}
    (step : ∀ vs p b rest q, p.worklist.waiting = b :: rest → visit a g p b rest = some q →
      Inv vs p → Inv (vs ++ [⟨b, p⟩]) q)
    {budget : Nat} {vs : List (Visit F)} {r : Solution F}
    (h : run s a g budget p = some r) (hp : Inv vs p) :
    ∃ q, Inv (vs ++ s.visits a g budget p) q ∧ r.inFacts = q.inFacts ∧ r.outFacts = q.outFacts ∧
      (r.status = .converged → q.worklist.waiting = []) := by
  induction budget generalizing p vs with
  | zero =>
    unfold run at h
    split at h
    next hw =>
      cases h
      exact ⟨p, by simpa [visits] using hp, rfl, rfl, fun _ => hw⟩
    next =>
      cases h
      exact ⟨p, by simpa [visits] using hp, rfl, rfl, fun hc => by cases hc⟩
  | succ budget ih =>
    unfold run at h
    split at h
    next hw =>
      cases h
      exact ⟨p, by simpa [visits, hw] using hp, rfl, rfl, fun _ => hw⟩
    next b rest hw =>
      simp only at h
      split at h
      next ht =>
        cases h
        exact ⟨p, by simpa [visits, hw, ht] using hp, rfl, rfl, fun hc => by cases hc⟩
      next ht =>
        obtain ⟨q, hv, hr⟩ := Option.bind_eq_some_iff.1 h
        obtain ⟨q', hq', hin, hout, hc⟩ := ih hr (step vs p b rest q hw hv hp)
        refine ⟨q', ?_, hin, hout, hc⟩
        simpa [visits, hw, ht, hv] using hq'

theorem solve_induction {Inv : List (Visit F) → Progress F → Prop} (start : Inv [] (s.startFrom g ∅ ∅ [g.entry]))
    (step : ∀ vs p b rest q, p.worklist.waiting = b :: rest → visit a g p b rest = some q →
      Inv vs p → Inv (vs ++ [⟨b, p⟩]) q)
    {r : Solution F} (h : s.solve a g = some r) :
    ∃ q, Inv (s.solveVisits a g) q ∧ r.inFacts = q.inFacts ∧ r.outFacts = q.outFacts ∧
      (r.status = .converged → q.worklist.waiting = []) :=
  run_induction step h start

end Solver
end PointsTo
