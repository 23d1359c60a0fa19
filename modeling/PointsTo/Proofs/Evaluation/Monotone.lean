import PointsTo.Proofs.Evaluation.Footprint
import PointsTo.Proofs.Evaluation.Plain

/-! # Blocks on ordered states

A block need not leave a larger state behind when it starts from a larger one: a call of something that may be
anything writes nothing, while the call of a known method may write to an object. Where values accumulate this
is all that can go wrong, so that the states afterwards are compared by what the two runs write. -/

namespace PointsTo

open Option

namespace AbstractState

variable {s : AbstractState} {l : Location}

theorem holds_read_iff (hl : l.accumulates = true) {x : Option TypeTag} : (s.read l).Holds x ↔ s.Holds l x := by
  have hinitial : l.initial = .bottom := by
    cases l <;> first | rfl | cases hl
  refine ⟨fun h => ?_, holds_read⟩
  rw [read, hinitial] at h
  cases hs : s.get? l with
  | some v => exact ⟨v, hs, by simpa [hs] using h⟩
  | none =>
    rw [hs] at h
    exact absurd h TypeSet.not_holds_bottom

end AbstractState

section Accumulated

variable {f : Frame} {l : Location} {x : Option TypeTag}

namespace Frame

variable {b : Block} {s s' t t' : AbstractState}

theorem holds_transfer_iff (h : f.transfer b s = some s') (hl : l.accumulates = true) :
    s'.Holds l x ↔ s.Holds l x ∨ (f.writes b s).Holds l x := by
  obtain ⟨m, hm, rfl⟩ := map_eq_some_iff.1 h
  exact holds_apply_iff hm (Block.accumulates_of_accumulates hl) fun _ => Location.isVariable_of_accumulates hl

/-- Of two runs on ordered states, the larger one covers the smaller one where values accumulate exactly if
nothing that the smaller one writes is lost. -/
theorem read_le_iff (hle : s.le t = true) (hs : f.transfer b s = some s') (ht : f.transfer b t = some t')
    (hl : l.accumulates = true) : s'.read l ≤ t'.read l ↔
      ∀ x, (f.writes b s).Holds l x → t.Holds l x ∨ (f.writes b t).Holds l x := by
  have hread := AbstractState.le_iff_read.1 hle l
  simp only [TypeSet.le_iff_holds, AbstractState.holds_read_iff hl, holds_transfer_iff hs hl,
    holds_transfer_iff ht hl] at hread ⊢
  exact ⟨fun h x hx => h x (.inr hx), fun h x hx => hx.elim (fun hx => .inl (hread x hx)) (h x)⟩

end Frame
end Accumulated

namespace Frame

/-- The order of two states outlasts a block exactly if nothing is lost that the smaller run writes to objects
and returns, and variables and temporaries are still ordered. A plain block ends and always keeps the
order. -/
theorem transfer_le_iff (f : Frame) (b : Block) {s t : AbstractState} (hle : s.le t = true) :
    (∀ s' t', f.transfer b s = some s' → f.transfer b t = some t' →
      (s'.le t' = true ↔
        (∀ l x, l.accumulates = true → (f.writes b s).Holds l x → t.Holds l x ∨ (f.writes b t).Holds l x) ∧
        ∀ l, l.accumulates = false → s'.read l ≤ t'.read l)) ∧
    ∀ scalars, f.isPlainBlock scalars b = true →
      (scalars = true → f.isScalar s = true ∧ f.isScalar t = true ∧ f.isScalar f.env = true) →
      ∃ s' t', f.transfer b s = some s' ∧ f.transfer b t = some t' ∧ s'.le t' = true := by
  refine ⟨fun s' t' hs ht => ?_, fun scalars hb hscalar => transfer_le_of_isPlainBlock hb hle hscalar⟩
  rw [AbstractState.le_iff_read]
  constructor
  · intro h
    exact ⟨fun l x hl hx => (read_le_iff hle hs ht hl).1 (h l) x hx, fun l _ => h l⟩
  · rintro ⟨hwrites, hrest⟩ l
    by_cases hl : l.accumulates = true
    · exact (read_le_iff hle hs ht hl).2 fun x => hwrites l x hl
    · exact hrest l (by simpa using hl)

open Build in
/-- A word is read letter by letter. -/
def spelling : RawNode :=
  module [forLoop (name "c") (name "word") [assign (name "n") (binary "+" (name "n") (name "c"))]]

/-- A state in which the word and what was made of it hold one of the given tags. -/
def spelled (word text : List TypeTag) : AbstractState :=
  (AbstractState.empty.set (.temp 3) (.ofList word)).set (.var 0 "n") (.ofList text)

/-- The body of the loop is plain as long as it deals with scalars. -/
theorem transfer_le_on_spelling : ∃ p u s t, firstUnit? spelling .reversePostorder = some (p, u) ∧
      (spelled [.str] [.str]).le (spelled [.str, .bytes] [.str, .none]) = true ∧
      (u.frame p (Preparation.ofProgram p).facts .empty).transfer (u.graph.block 5)
        (spelled [.str] [.str]) = some s ∧
      (u.frame p (Preparation.ofProgram p).facts .empty).transfer (u.graph.block 5)
        (spelled [.str, .bytes] [.str, .none]) = some t ∧
      s.le t = true := by
  have h : ((firstUnit? spelling .reversePostorder).map fun (p, u) =>
      let f := u.frame p (Preparation.ofProgram p).facts .empty
      (f.isPlainBlock true (u.graph.block 5), f.isScalar (spelled [.str] [.str]),
        f.isScalar (spelled [.str, .bytes] [.str, .none]), f.isScalar f.env)) =
      some (true, true, true, true) := by decide +kernel
  have hle : (spelled [.str] [.str]).le (spelled [.str, .bytes] [.str, .none]) = true := by decide +kernel
  obtain ⟨⟨p, u⟩, hu, h⟩ := map_eq_some_iff.1 h
  simp only [Prod.mk.injEq] at h
  obtain ⟨hplain, hs, ht, henv⟩ := h
  obtain ⟨s, t, hs', ht', hst⟩ := (transfer_le_iff _ _ hle).2 true hplain fun _ => ⟨hs, ht, henv⟩
  exact ⟨p, u, s, t, hu, hle, hs', ht', hst⟩

open Build in
/-- A method of a list is called before its name is lost. -/
def lastAppend : RawNode :=
  module [expr (methodCall (name "x") "append" [int]), assign (name "x") int]

/-- Called on the list, the method writes to its elements; called on something that may be anything, it writes
nothing. -/
theorem not_transfer_le_on_lastAppend : ∃ p u s t s' t', firstUnit? lastAppend .reversePostorder = some (p, u) ∧
      s = AbstractState.empty.set (.var 0 "x") (.single (.object ⟨heldList, .list⟩)) ∧
      t = AbstractState.empty.set (.var 0 "x") .top ∧ s.le t = true ∧
      (u.frame p (Preparation.ofProgram p).facts .empty).transfer (u.graph.block 0) s = some s' ∧
      (u.frame p (Preparation.ofProgram p).facts .empty).transfer (u.graph.block 0) t = some t' ∧
      s'.read (.element heldList) = .single .int ∧ t'.read (.element heldList) = .bottom ∧
      s'.le t' = false := by
  have h : ((firstUnit? lastAppend .reversePostorder).bind fun (p, u) =>
      let f := u.frame p (Preparation.ofProgram p).facts .empty
      let s := AbstractState.empty.set (.var 0 "x") (.single (.object ⟨heldList, .list⟩))
      let t := AbstractState.empty.set (.var 0 "x") .top
      (f.transfer (u.graph.block 0) s).bind fun s' => (f.transfer (u.graph.block 0) t).map fun t' =>
        (s.le t, decide (s'.read (.element heldList) = .single .int),
          decide (t'.read (.element heldList) = .bottom), s'.le t')) = some (true, true, true, false) := by
    decide +kernel
  obtain ⟨⟨p, u⟩, hu, h⟩ := bind_eq_some_iff.1 h
  obtain ⟨s', hs', h⟩ := bind_eq_some_iff.1 h
  obtain ⟨t', ht', h⟩ := map_eq_some_iff.1 h
  simp only [Prod.mk.injEq, decide_eq_true_eq] at h
  obtain ⟨hle, hint, hbottom, hnot⟩ := h
  exact ⟨p, u, _, _, s', t', hu, rfl, rfl, hle, hs', ht', hint, hbottom, hnot⟩

end Frame
end PointsTo
