import PointsTo.Proofs.Value.Accumulate

/-! # States as a semilattice

There are two orders of states. The one by readings counts a location without an entry with its initial value, and two
states that read the same lie below each other in it. The finer one also asks for the entries, and in that one states
below each other are the same. The join is the least upper bound in both: by the finer order its laws are equations
between states, and joining changes a state exactly if the other one does not lie below it there. -/

namespace PointsTo
namespace AbstractState

variable {a b c : AbstractState}

theorem join_comm (a b : AbstractState) : a.join b = b.join a :=
  eq_of_forall_ge_iff fun c => by rw [join_le_iff, join_le_iff, and_comm]

theorem join_assoc (a b c : AbstractState) : (a.join b).join c = a.join (b.join c) :=
  eq_of_forall_ge_iff fun u => by simp only [join_le_iff, and_assoc]

theorem join_self (a : AbstractState) : a.join a = a :=
  eq_of_forall_ge_iff fun c => by rw [join_le_iff, and_self]

theorem join_eq_left_iff : a.join b = a ↔ b ≤ a := by
  constructor
  · intro h
    exact (join_le_iff.1 (le_of_eq h)).2
  · intro h
    exact le_antisymm (join_le_iff.2 ⟨le_refl a, h⟩) (join_le_iff.1 (le_refl _)).1

theorem le_join_iff : (a.join b).le c = true ↔ a.le c = true ∧ b.le c = true := by
  simp only [le_iff_read, read_join, TypeSet.join_le_iff, forall_and]

theorem le_self (a : AbstractState) : a.le a = true := le_iff_read.2 fun _ => le_refl _

theorem joinGrows_eq_false_iff : a.joinGrows b = false ↔ b ≤ a := by
  rw [joinGrows, Bool.or_eq_false_iff, ← Bool.not_eq_true, ← Bool.not_eq_true, any_eq_true_iff, any_eq_true_iff, le_iff]
  simp only [not_exists, not_and, Bool.not_eq_true, TypeSet.joinGrows_eq_false_iff, Bool.not_eq_false']
  constructor
  · rintro ⟨htags, hentries⟩ l
    constructor
    · intro hb
      obtain ⟨w, hw⟩ := Option.isSome_iff_exists.1 hb
      exact Std.ExtTreeMap.mem_iff_isSome_getElem?.1 (hentries l w hw)
    · intro ha
      obtain ⟨v, hv⟩ := Option.isSome_iff_exists.1 ha
      rw [read.eq_def a, hv]
      exact htags l v hv
  · intro h
    constructor
    · intro l v hv
      have hle := (h l).2 (Option.isSome_iff_exists.2 ⟨v, hv⟩)
      rwa [read.eq_def a, get?, hv] at hle
    · intro l w hw
      exact Std.ExtTreeMap.mem_iff_isSome_getElem?.2 ((h l).1 (Option.isSome_iff_exists.2 ⟨w, hw⟩))

/-- Abstract states form a semilattice. The order compares what two states say of every location, stored or not. The
join is commutative, associative and idempotent as a map, and in the order it is the least upper bound. Joining one
state into another is reported as a change exactly if the map changes. -/
theorem semilattice (a b c : AbstractState) : (a.le b = true ↔ ∀ l, (a.read l).le (b.read l) = true) ∧
    (a.join b = b.join a ∧ (a.join b).join c = a.join (b.join c) ∧ a.join a = a) ∧
    (a.le (a.join b) = true ∧ b.le (a.join b) = true ∧
      ((a.join b).le c = true ↔ a.le c = true ∧ b.le c = true)) ∧
    (a.joinGrows b = true ↔ a.join b ≠ a) := by
  obtain ⟨hleft, hright⟩ := le_join_iff.1 (le_self (a.join b))
  refine ⟨le_iff_read, ⟨join_comm a b, join_assoc a b c, join_self a⟩, ⟨hleft, hright, le_join_iff⟩, ?_⟩
  rw [Ne, join_eq_left_iff, ← joinGrows_eq_false_iff, Bool.not_eq_false]

-- Below each other by readings, and still not the same: only one of them has an entry.
example : (empty.set (.var 0 "x") .unbound).le empty = true ∧ empty.le (empty.set (.var 0 "x") .unbound) = true ∧
    empty.joinGrows (empty.set (.var 0 "x") .unbound) = true := by decide +kernel

end AbstractState
end PointsTo
