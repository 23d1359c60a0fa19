import PointsTo.Proofs.Solver.ExceptionEdges

/-! # Terminators and edges

In the flow graph of a unit the terminator of a block agrees with the edges that lead out of it. The one exception are
assertions with a message that becomes branches: the block where such a message starts is closed as if it raised the
exception, although it has been left by then, and the block where the message ends stays open. -/

namespace PointsTo
namespace FlowGraph

def freeLedger : Builder.Ledger where
  rel _ _ _ := True
  quiet _ := trivial
  trans _ _ := trivial
  performs _ _ := trivial

/-- At the end of the lowering of a unit, one block has failed for each assertion whose message is expanded, and
everywhere else terminator and edges agree. -/
theorem exists_failed_of_ofUnit {policy : UnsupportedPolicy} {unit : UnitInfo} {body : List Node} {g : FlowGraph}
    (hbody : unit.body = some body) (h : ofUnit policy unit = .ok g) :
    ∃ fails : List BlockId, fails.Nodup ∧ fails.length = (Node.jobsAll body).countP (·.fails = true) ∧
      (∀ b ∈ fails, (g.ending b).Failed) ∧ ∀ b ∉ fails, (g.ending b).Agrees := by
  obtain ⟨b, fails, hat, hpasses, rfl⟩ := exists_at_of_ofUnit freeLedger hbody h
  refine ⟨fails, hat.nodup, ?_, fun i hi => ?_, fun i hi => ?_⟩
  · obtain ⟨new, hnew, hcount⟩ := hpasses.failures
    rw [hnew, List.append_nil, hcount]
    exact Builder.map_unit (map_zero _) (map_add _) (fun _ => rfl) rfl unit _
  · exact b.graph.ending_finish i ▸ hat.failed i hi
  · exact b.graph.ending_finish i ▸ hat.agrees i hi

theorem countP_fails_eq_zero {jobs : Multiset Job} :
    jobs.countP (·.fails = true) = 0 ↔ ∀ message, .refuse message ∈ jobs → message.needsExpansion = false := by
  refine Multiset.countP_eq_zero.trans ⟨fun h message hm => ?_, fun h j hj => ?_⟩
  · exact Bool.eq_false_iff.2 (h _ hm)
  · cases j with
    | refuse message => exact Bool.eq_false_iff.1 (h message hj)
    | _ => exact Bool.false_ne_true

/-- The terminator of a block disagrees with its edges only where the message of an assertion that is expanded starts:
the block ends by raising the exception, and edges without an exception lead out of it. There is one such block for
each of these assertions, so the terminators of a unit agree with its edges if and only if it has none. -/
theorem ofUnit_terminators_agree {policy : UnsupportedPolicy} {unit : UnitInfo} {g : FlowGraph}
    (h : ofUnit policy unit = .ok g) : ∃ body, unit.body = some body ∧
      (∃ fails : List BlockId, fails.Nodup ∧ fails.length = (Node.jobsAll body).countP (·.fails = true) ∧
        (∀ b ∈ fails, b < g.size ∧ (g.ending b).Failed) ∧ ∀ b, (g.ending b).Agrees ↔ b ∉ fails) ∧
      ((∀ b, (g.ending b).Agrees) ↔
        ∀ message, .refuse message ∈ Node.jobsAll body → message.needsExpansion = false) := by
  obtain ⟨body, hbody⟩ := exists_body_of_ofUnit h
  obtain ⟨fails, hnodup, hlength, hfailed, hagrees⟩ := exists_failed_of_ofUnit hbody h
  have hlt : ∀ b ∈ fails, b < g.size := fun b hb =>
    Nat.lt_of_not_le fun hle => (hfailed b hb).left.not_open (ending_of_size_le hle)
  have hiff : ∀ b, (g.ending b).Agrees ↔ b ∉ fails := fun b =>
    ⟨fun ha hb => (hfailed b hb).not_agrees ha, hagrees b⟩
  refine ⟨body, hbody, ⟨fails, hnodup, hlength, fun b hb => ⟨hlt b hb, hfailed b hb⟩, hiff⟩, ?_⟩
  rw [← countP_fails_eq_zero, ← hlength, List.length_eq_zero_iff, List.eq_nil_iff_forall_not_mem]
  exact forall_congr' hiff

open Build in
/-- Two assertions with a message, of which the second is expanded. -/
def explainedAssertions : RawNode :=
  module [(assertion boolean).withChild (call (name "f") []),
    (assertion boolean).withChild (logical "and" [call (name "f") [], string])]

def raises (x : Ending) : Bool := x.terminator matches some .raise

/-- The second message starts in block 5, which is left for the blocks 8 and 7 before it is closed. -/
theorem ending_explainedAssertions : ∃ unit g, ofUnit .failUnit unit = .ok g ∧
    unit.body.map (fun body => (Node.jobsAll body).countP (·.fails = true)) = some 1 ∧
    (g.ending 5).terminator = some .raise ∧ (g.ending 5).edges = [⟨5, 8, .whenTrue⟩, ⟨5, 7, .whenFalse⟩] := by
  have h : ((Program.ofModule? explainedAssertions {}).bind fun p => p.units[0]?.bind fun unit =>
      (ofUnit .failUnit unit).toOption.map fun g =>
        decide (unit.body.map (fun body => (Node.jobsAll body).countP (·.fails = true)) = some 1 ∧
          raises (g.ending 5) = true ∧ (g.ending 5).edges = [⟨5, 8, .whenTrue⟩, ⟨5, 7, .whenFalse⟩])) = some true := by
    decide +kernel
  obtain ⟨p, -, h⟩ := Option.bind_eq_some_iff.1 h
  obtain ⟨unit, -, h⟩ := Option.bind_eq_some_iff.1 h
  cases hg : ofUnit .failUnit unit with
  | error fault =>
    rw [hg] at h
    cases h
  | ok g =>
    rw [hg] at h
    obtain ⟨hcount, hraise, hedges⟩ := of_decide_eq_true (Option.some.inj h)
    refine ⟨unit, g, hg, hcount, ?_, hedges⟩
    unfold raises at hraise
    split at hraise
    next heq => exact heq
    next => cases hraise

/-- Only the second message makes a terminator disagree. -/
theorem ofUnit_terminators_agree_on_explainedAssertions : ∃ unit g, ofUnit .failUnit unit = .ok g ∧
    ¬(g.ending 5).Agrees ∧ ∀ b, b ≠ 5 → (g.ending b).Agrees := by
  obtain ⟨unit, g, hg, hcount, hraise, hedges⟩ := ending_explainedAssertions
  obtain ⟨body, hbody, ⟨fails, -, hlength, -, hagrees⟩, -⟩ := ofUnit_terminators_agree hg
  have hfailed : (g.ending 5).Failed := ⟨hraise, ⟨5, 8, .whenTrue⟩, by simp [hedges], nofun⟩
  have hmem : 5 ∈ fails := by_contra fun hnot => hfailed.not_agrees ((hagrees 5).2 hnot)
  rw [hbody, Option.map_some, Option.some_inj, ← hlength, List.length_eq_one_iff] at hcount
  obtain ⟨c, rfl⟩ := hcount
  cases List.mem_singleton.1 hmem
  exact ⟨unit, g, hg, hfailed.not_agrees, fun b hb => (hagrees b).2 (mt List.mem_singleton.1 hb)⟩

/-- A block ends by raising an exception, and no edge that leads out of it is for an exception. A condition decides
along both, and no terminator names it. -/
theorem raise_without_exception : ∃ unit g, ofUnit .failUnit unit = .ok g ∧
    (g.ending 5).terminator = some .raise ∧ (g.ending 5).choices = [(.whenTrue, 8), (.whenFalse, 7)] ∧
    ∀ e ∈ (g.ending 5).edges, e.kind ≠ .exception := by
  obtain ⟨unit, g, hg, -, hraise, hedges⟩ := ending_explainedAssertions
  refine ⟨unit, g, hg, hraise, ?_, ?_⟩
  · rw [Ending.choices, hedges]
    rfl
  · rw [hedges]
    decide

end FlowGraph
end PointsTo
