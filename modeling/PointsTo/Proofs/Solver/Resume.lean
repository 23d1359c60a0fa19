import Mathlib.Data.List.Perm.Subperm
import PointsTo.Proofs.Solver.ExceptionEdges
import PointsTo.Proofs.Solver.Least

/-! # Going on from a fixed point

A visit to a block whose facts satisfy its equations finds the facts that are there: it only takes the block off the
worklist. So a solve that goes on from facts that satisfy all equations visits every block with facts once, in
whatever order, and gives the facts back as they were. Conversely, where every block is visited only once, what its
visit stored is what the solve returns. If these are the facts that the solve went on from, each visit has found them
as they were, so they satisfy the equations. -/

namespace PointsTo
namespace Solver

open Std (ExtTreeMap)
open List Option

variable {F : Type} {s : Solver} {a : Analysis F} {g : FlowGraph}

/-- Where the facts reach from the entry along every edge, exactly the blocks with facts are taken up again. -/
theorem waiting_perm_keys (s : Solver) (inFacts : ExtTreeMap BlockId F) {outFacts : ExtTreeMap BlockId F}
    (hentry : g.entry ∈ outFacts) (hclosed : ∀ b ∈ outFacts, ∀ c ∈ g.successors b, c ∈ outFacts) :
    (s.startFrom g inFacts outFacts (seeds g outFacts)).worklist.waiting.Perm outFacts.keys := by
  have hnodup : (s.startFrom g inFacts outFacts (seeds g outFacts)).worklist.waiting.Nodup :=
    Worklist.nodup_pushAll (w := .empty s.order g) nodup_nil _
  refine (perm_ext_iff_of_nodup hnodup ExtTreeMap.nodup_keys).2 fun c => ?_
  rw [mem_waiting_startFrom, mem_seeds, ExtTreeMap.mem_keys]
  constructor
  · rintro (rfl | h | ⟨b, hb, hc⟩)
    · exact hentry
    · exact h
    · exact hclosed b hb c hc
  · exact fun h => .inr (.inl h)

variable [DecidableEq F] {p q r : Progress F} {b : BlockId} {rest : List BlockId} {budget : Nat}

section Balanced

theorem visit_of_balanced (h : Balanced a g p.inFacts p.outFacts b) (rest : List BlockId) :
    visit a g p b rest = some { p with visits := p.visits + 1, worklist := { p.worklist with waiting := rest } } := by
  obtain ⟨hin, output, hout, ht⟩ := h
  simp only [visit, ht, hout, insert_eq_self hin, bind_eq_bind, bind_some, if_true]

/-- As long as the facts of every waiting block satisfy its equations, a run takes the waiting blocks in their order and
ends with the facts it had. -/
theorem run_of_balanced (htime : s.maxDurationMs = none)
    (h : ∀ b ∈ p.worklist.waiting, Balanced a g p.inFacts p.outFacts b)
    (hbudget : p.worklist.waiting.length ≤ budget) :
    run s a g budget p = some ⟨p.inFacts, p.outFacts, p.visits + p.worklist.waiting.length, .converged⟩ ∧
      (s.visits a g budget p).map (·.block) = p.worklist.waiting := by
  induction hw : p.worklist.waiting generalizing budget p with
  | nil => cases budget <;> simp [run, visits, hw, Progress.finish]
  | cons b rest ih =>
    obtain _ | budget := budget
    · simp [hw] at hbudget
    rw [hw, forall_mem_cons] at h
    have hvisit := visit_of_balanced h.1 rest
    obtain ⟨hrun, hvisits⟩ :=
      ih (p := { p with visits := p.visits + 1, worklist := { p.worklist with waiting := rest } }) h.2
        (by simpa [hw] using hbudget) rfl
    constructor
    · rw [run, hw]
      simp only [timeUp, htime, any_none, Bool.false_eq_true, if_false, hvisit, bind_some, hrun]
      simp [Nat.add_comm, Nat.add_left_comm]
    · simp [visits, hw, timeUp, htime, hvisit, hvisits]

end Balanced

section Once

theorem visit_counts (h : visit a g p b rest = some q) (hrest : rest.Nodup) :
    q.visits = p.visits + 1 ∧ q.worklist.waiting.Nodup := by
  simp only [visit, bind_eq_bind, bind_eq_some_iff] at h
  obtain ⟨output, -, h⟩ := h
  split at h
  · cases h
    exact ⟨rfl, hrest⟩
  · cases h
    exact ⟨rfl, Worklist.nodup_pushAll (w := { p.worklist with waiting := rest }) hrest _⟩

/-- A visit takes one block off the worklist. Where as few wait afterwards as before without that block, it has put
none there. -/
theorem visit_perm (h : visit a g p b rest = some q) (hrest : rest.Nodup) :
    rest.length ≤ q.worklist.waiting.length ∧
      (q.worklist.waiting.length ≤ rest.length → rest.Perm q.worklist.waiting) := by
  obtain ⟨-, -, -, -, hkept, -⟩ := visit_eq_some h
  have hsub := subperm_of_subset hrest hkept
  exact ⟨hsub.length_le, hsub.perm_of_length_le⟩

/-- Visits lead from one state of a solve to another one in which nothing waits. -/
inductive Completes (a : Analysis F) (g : FlowGraph) : Progress F → Progress F → Prop
  | done {p : Progress F} (hw : p.worklist.waiting = []) : Completes a g p p
  | visit {p q r : Progress F} {b : BlockId} {rest : List BlockId} (hw : p.worklist.waiting = b :: rest)
      (hv : Solver.visit a g p b rest = some q) (hr : Completes a g q r) : Completes a g p r

theorem completes_of_run {r : Solution F} (h : run s a g budget p = some r) (hc : r.status = .converged) :
    ∃ q, Completes a g p q ∧ r = q.finish .converged := by
  induction budget generalizing p with
  | zero =>
    unfold run at h
    split at h
    next hw => exact ⟨p, .done hw, (some.inj h).symm⟩
    next =>
      cases h
      cases hc
  | succ budget ih =>
    unfold run at h
    split at h
    next hw => exact ⟨p, .done hw, (some.inj h).symm⟩
    next b rest hw =>
      simp only at h
      split at h
      · cases h
        cases hc
      · obtain ⟨q, hv, hr⟩ := bind_eq_some_iff.1 h
        obtain ⟨r, hqr, rfl⟩ := ih hr
        exact ⟨r, .visit hw hv hqr, rfl⟩

theorem Completes.visits_le (h : Completes a g p r) (hp : p.worklist.waiting.Nodup) :
    p.visits + p.worklist.waiting.length ≤ r.visits := by
  induction h with
  | done hw => simp [hw]
  | @visit p q r b rest hw hv _ ih =>
    rw [hw, nodup_cons] at hp
    obtain ⟨hvisits, hq⟩ := visit_counts hv hp.2
    have hlength := (visit_perm hv hp.2).1
    have hle := ih hq
    rw [hw, length_cons]
    omega

/-- Where the waiting blocks take all visits, a visit puts no block on the worklist. -/
theorem Completes.visit_once (hr : Completes a g q r) (hw : p.worklist.waiting = b :: rest)
    (hv : Solver.visit a g p b rest = some q) (hp : p.worklist.waiting.Nodup)
    (honce : r.visits = p.visits + p.worklist.waiting.length) :
    q.worklist.waiting.Nodup ∧ rest.Perm q.worklist.waiting ∧ r.visits = q.visits + q.worklist.waiting.length := by
  rw [hw, nodup_cons] at hp
  obtain ⟨hvisits, hq⟩ := visit_counts hv hp.2
  obtain ⟨hlength, hperm⟩ := visit_perm hv hp.2
  have hle := hr.visits_le hq
  rw [hw, length_cons] at honce
  exact ⟨hq, hperm (by omega), by omega⟩

/-- Where the waiting blocks take all visits, the facts of the other blocks stay. -/
theorem Completes.facts_eq (h : Completes a g p r) (hp : p.worklist.waiting.Nodup)
    (honce : r.visits = p.visits + p.worklist.waiting.length) {c : BlockId} (hc : c ∉ p.worklist.waiting) :
    r.inFacts[c]? = p.inFacts[c]? ∧ r.outFacts[c]? = p.outFacts[c]? := by
  induction h with
  | done => exact ⟨rfl, rfl⟩
  | @visit p q r b rest hw hv hr ih =>
    obtain ⟨hq, hperm, honce⟩ := hr.visit_once hw hv hp honce
    obtain ⟨output, -, hin, hout, -⟩ := visit_eq_some hv
    rw [hw, mem_cons, not_or] at hc
    obtain ⟨hin', hout'⟩ := ih hq honce fun h => hc.2 (hperm.mem_iff.2 h)
    rw [hin', hout', hin, hout]
    simp [ExtTreeMap.getElem?_insert, Ne.symm hc.1]

/-- Where the waiting blocks take all visits and the facts come out as they were, each visit found the facts of its
block as they were, so they satisfy its equations. -/
theorem Completes.balanced (h : Completes a g p r) (hp : p.worklist.waiting.Nodup)
    (honce : r.visits = p.visits + p.worklist.waiting.length) (hin : r.inFacts = p.inFacts)
    (hout : r.outFacts = p.outFacts) : ∀ b ∈ p.worklist.waiting, Balanced a g p.inFacts p.outFacts b := by
  induction h with
  | done hw => simp [hw]
  | @visit p q r b rest hw hv hr ih =>
    obtain ⟨hq, hperm, honce⟩ := hr.visit_once hw hv hp honce
    obtain ⟨output, ht, hqin, hqout, -⟩ := visit_eq_some hv
    rw [hw, nodup_cons] at hp
    -- The block is not visited again, so what its visit stored is what was there before.
    obtain ⟨hbin, hbout⟩ := hr.facts_eq hq honce fun h => hp.1 (hperm.mem_iff.2 h)
    have hinput : p.inFacts[b]? = some (inputOf a g ⟨b, p⟩) := by rw [← hin, hbin, hqin]; simp
    have houtput : p.outFacts[b]? = some output := by rw [← hout, hbout, hqout]; simp
    rw [insert_eq_self hinput] at hqin
    rw [insert_eq_self houtput] at hqout
    rw [hw, forall_mem_cons]
    refine ⟨⟨hinput, output, houtput, ht⟩, fun c hc => ?_⟩
    have := ih hq honce (hin.trans hqin.symm) (hout.trans hqout.symm) c (hperm.mem_iff.1 hc)
    rwa [hqin, hqout] at this

end Once

/-- Going on from a fixed point gives it back, and nothing else is given back. From facts for the entry and for all
successors of blocks with facts, a solve with a visit to spend on each of these blocks converges to the same facts after
one visit to each exactly if the facts satisfy the equations of these blocks. -/
theorem resume_fixedPoint {seed : Solution F} (hentry : g.entry ∈ seed.outFacts)
    (hclosed : ∀ b ∈ seed.outFacts, ∀ c ∈ g.successors b, c ∈ seed.outFacts)
    (htime : s.maxDurationMs = none) (hbudget : seed.outFacts.size ≤ s.maxIterations) :
    (∀ b ∈ seed.outFacts, Balanced a g seed.inFacts seed.outFacts b) ↔
      s.resume a g seed = some ⟨seed.inFacts, seed.outFacts, seed.outFacts.size, .converged⟩ ∧
      ((s.visits a g s.maxIterations
        (s.startFrom g seed.inFacts seed.outFacts (seeds g seed.outFacts))).map (·.block)).Perm seed.outFacts.keys := by
  have hperm := waiting_perm_keys s seed.inFacts hentry hclosed
  have hlength := hperm.length_eq.trans ExtTreeMap.length_keys
  have hmem : ∀ b, b ∈ (s.startFrom g seed.inFacts seed.outFacts (seeds g seed.outFacts)).worklist.waiting ↔
      b ∈ seed.outFacts := fun b => hperm.mem_iff.trans ExtTreeMap.mem_keys
  constructor
  · intro h
    obtain ⟨hrun, hvisits⟩ := run_of_balanced htime (fun b hb => h b ((hmem b).1 hb)) (hlength ▸ hbudget)
    refine ⟨hrun.trans ?_, hvisits ▸ hperm⟩
    rw [hlength]
    simp [startFrom]
  · rintro ⟨h, -⟩ b hb
    obtain ⟨q, hq, hfinish⟩ :=
      completes_of_run (p := s.startFrom g seed.inFacts seed.outFacts (seeds g seed.outFacts)) h rfl
    obtain ⟨hin, hout, hvisits, -⟩ := Solution.mk.inj hfinish
    refine hq.balanced (hperm.nodup_iff.2 ExtTreeMap.nodup_keys) ?_ hin.symm hout.symm b ((hmem b).2 hb)
    rw [← hvisits, hlength]
    simp [startFrom]

/-- Two loops, the inner one of which may leave by an exception. -/
def raisingLoops : FlowGraph := FlowGraph.twoLoops.addEdge 5 1 .exception

/-- First in, first out, counting to three on the two loops reaches a fixed point, exception edge included. Last in,
first out, a solve that goes on from there visits its five blocks once and gives it back. -/
theorem resume_fixedPoint_on_raisingLoops :
    ∃ r, ({ order := .fifo, maxIterations := 100 } : Solver).solve (.counter 3) raisingLoops = some r ∧
      r.outFacts.keys = [0, 1, 3, 4, 5] ∧
      (∀ b ∈ r.outFacts, Balanced (.counter 3) raisingLoops r.inFacts r.outFacts b) ∧
      ({ order := .lifo, maxIterations := 5 } : Solver).resume (.counter 3) raisingLoops r =
        some ⟨r.inFacts, r.outFacts, 5, .converged⟩ := by
  have h : (({ order := .fifo, maxIterations := 100 } : Solver).solve (.counter 3) raisingLoops).map (fun r =>
      (r.outFacts.keys, decide (raisingLoops.entry ∈ r.outFacts),
        decide (∀ b ∈ r.outFacts.keys, ∀ c ∈ raisingLoops.successors b, c ∈ r.outFacts),
        decide (∀ b ∈ r.outFacts.keys, Balanced (.counter 3) raisingLoops r.inFacts r.outFacts b))) =
      some ([0, 1, 3, 4, 5], true, true, true) := by decide +kernel
  obtain ⟨r, hr, h⟩ := map_eq_some_iff.1 h
  obtain ⟨hkeys, hentry, hclosed, hbalanced⟩ : _ ∧ _ ∧ _ ∧ _ := by simpa using h
  have hsize : r.outFacts.size = 5 := by rw [← ExtTreeMap.length_keys, hkeys]; rfl
  have hresume := ((resume_fixedPoint (s := { order := .lifo, maxIterations := 5 }) hentry hclosed rfl
    (Nat.le_of_eq hsize)).1 hbalanced).1
  exact ⟨r, hr, hkeys, hbalanced, by rw [hresume, hsize]⟩

end Solver
end PointsTo
