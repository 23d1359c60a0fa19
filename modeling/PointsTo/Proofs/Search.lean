import Mathlib.Data.Fintype.Card
import Mathlib.Data.List.Nodup
import Mathlib.Data.Set.Finite.Basic
import Mathlib.Logic.Function.Iterate
import Mathlib.Logic.Relation
import Mathlib.Order.WellFounded

/-! # Searches with a stack

A search takes places off a stack, passes over those it has met, and puts on the stack what each other one leads
to. Every place puts what it leads to there at most once, so the search ends after as many steps as there are ways
from one place to another, and it has then met exactly what can be reached, each place once. In finitely many places a
way back that never ends goes round. -/

namespace PointsTo

open List

variable {α ε : Type}

section Invariant

variable {next : α → List α} {roots stack met : List α} {a : α}

def LeadsTo (next : α → List α) (a b : α) : Prop := b ∈ next a

/-- A place can be reached from one of those that a search starts from. -/
def ReachedFrom (next : α → List α) (roots : List α) (a : α) : Prop :=
  ∃ root ∈ roots, Relation.ReflTransGen (LeadsTo next) root a

/-- Where a search stands: it has met nothing twice and nothing out of reach, and what it has met leads to what it has
met or to what it has yet to look at. Nothing that it started from is forgotten. -/
structure Searching (next : α → List α) (roots stack met : List α) : Prop where
  nodup : met.Nodup
  started : ∀ root ∈ roots, root ∈ met ++ stack
  reached : ∀ a ∈ met ++ stack, ReachedFrom next roots a
  followed : ∀ a ∈ met, ∀ b ∈ next a, b ∈ met ++ stack

theorem Searching.start (next : α → List α) (roots : List α) : Searching next roots roots [] where
  nodup := .nil
  started root hroot := hroot
  reached a ha := ⟨a, ha, .refl⟩
  followed := by simp

theorem Searching.pass (h : Searching next roots (a :: stack) met) (ha : a ∈ met) :
    Searching next roots stack met := by
  -- What is taken off the stack has been met.
  have hkept : ∀ b ∈ met ++ a :: stack, b ∈ met ++ stack := by
    intro b hb
    rcases mem_append.1 hb with hmet | hstack
    · exact mem_append_left _ hmet
    · rcases mem_cons.1 hstack with rfl | hstack
      · exact mem_append_left _ ha
      · exact mem_append_right _ hstack
  constructor
  · exact h.nodup
  · exact fun root hroot => hkept root (h.started root hroot)
  · exact fun b hb => h.reached b (mem_append.2 ((mem_append.1 hb).imp_right (mem_cons_of_mem a)))
  · exact fun b hb c hc => hkept c (h.followed b hb c hc)

theorem Searching.meet (h : Searching next roots (a :: stack) met) (ha : a ∉ met) :
    Searching next roots (next a ++ stack) (met ++ [a]) := by
  have hkept : ∀ b ∈ met ++ a :: stack, b ∈ met ++ [a] ++ (next a ++ stack) := by
    intro b hb
    simp only [mem_append, mem_cons] at hb ⊢
    tauto
  constructor
  · simpa [nodup_append] using ⟨h.nodup, fun b hb hba => ha (hba ▸ hb)⟩
  · exact fun root hroot => hkept root (h.started root hroot)
  · intro b hb
    obtain ⟨root, hroot, hreach⟩ := h.reached a (by simp)
    simp only [append_assoc, mem_append, mem_singleton] at hb
    rcases hb with hb | rfl | hb | hb
    · exact h.reached b (mem_append_left _ hb)
    · exact ⟨root, hroot, hreach⟩
    · exact ⟨root, hroot, hreach.tail hb⟩
    · exact h.reached b (mem_append_right _ (mem_cons_of_mem _ hb))
  · intro b hb c hc
    rcases mem_append.1 hb with hb | hb
    · exact hkept c (h.followed b hb c hc)
    · cases mem_singleton.1 hb
      simp [hc]

/-- A search with nothing left to look at has met exactly what can be reached. -/
theorem Searching.mem_iff (h : Searching next roots [] met) : a ∈ met ↔ ReachedFrom next roots a := by
  constructor
  · exact fun ha => h.reached a (mem_append_left _ ha)
  · rintro ⟨root, hroot, hreach⟩
    induction hreach with
    | refl => simpa using h.started root hroot
    | tail _ hstep ih => simpa using h.followed _ ih _ hstep

end Invariant

variable [BEq α] [LawfulBEq α]

/-- The places met, in order, after some steps of a search. -/
def search (next : α → List α) : Nat → List α → List α → List α
  | 0, _, met => met
  | _, [], met => met
  | n + 1, a :: stack, met =>
    if met.contains a then search next n stack met else search next n (next a ++ stack) (met ++ [a])

/-- One step of a search, with what there is to look at and what has been met. -/
def searchStep (next : α → List α) : List α × List α → List α × List α
  | ([], met) => ([], met)
  | (a :: stack, met) => if met.contains a then (stack, met) else (next a ++ stack, met ++ [a])

omit [LawfulBEq α] in
theorem search_eq_iterate (next : α → List α) (n : Nat) (stack met : List α) :
    search next n stack met = ((searchStep next)^[n] (stack, met)).2 := by
  induction n generalizing stack met with
  | zero => rfl
  | succ n ih =>
    cases stack with
    | nil =>
      rw [Function.iterate_fixed rfl]
      rfl
    | cons a stack =>
      rw [Function.iterate_succ_apply, search, searchStep]
      split <;> exact ih ..

section Table

variable (key : ε → Option α) (values : ε → List α) (table : List ε) {met : List α} {a : α}

/-- How many values stand in a table under keys that have not been met. -/
def unmet (met : List α) : Nat := ((table.filter fun e => !(key e).any met.contains).flatMap values).length

omit [LawfulBEq α] in
theorem unmet_nil : unmet key values table [] = (table.flatMap values).length := by
  have hall : ∀ e ∈ table, (!(key e).any ([] : List α).contains) = true := by
    intro e _
    cases key e <;> rfl
  rw [unmet, filter_eq_self.2 hall]

theorem unmet_append (h : a ∉ met) :
    unmet key values table (met ++ [a]) + ((table.filter fun e => key e == some a).flatMap values).length =
      unmet key values table met := by
  unfold unmet
  induction table with
  | nil => rfl
  | cons e es ih =>
    by_cases he : key e = some a
    · have hmet : (key e).any (met ++ [a]).contains = true := by simp [he]
      have hold : (key e).any met.contains = false := by simpa [he] using h
      have hkey : (key e == some a) = true := beq_iff_eq.2 he
      simp only [filter_cons, hmet, hold, hkey, Bool.not_true, Bool.not_false, if_true, Bool.false_eq_true,
        if_false, flatMap_cons, length_append]
      omega
    · have hsame : (key e).any (met ++ [a]).contains = (key e).any met.contains := by
        cases hkey : key e with
        | none => rfl
        | some b =>
          have hb : b ≠ a := fun hb => he (hb ▸ hkey)
          simp [hb]
      simp only [filter_cons, hsame, beq_iff_eq, he, if_false]
      split
      · simp only [flatMap_cons, length_append]
        omega
      · exact ih

end Table

section Steps

variable {next : α → List α} {key : ε → Option α} {values : ε → List α} {table : List ε} {stack met : List α}
  {roots : List α} {a : α} {n k : Nat}

/-- A table lists all ways: under every place stands at least as much as it leads to. -/
def Lists (next : α → List α) (key : ε → Option α) (values : ε → List α) (table : List ε) : Prop :=
  ∀ a, (next a).length ≤ ((table.filter fun e => key e == some a).flatMap values).length

theorem Lists.step (h : Lists next key values table) (stack : List α) (ha : a ∉ met) :
    (next a ++ stack).length + unmet key values table (met ++ [a]) ≤ stack.length + unmet key values table met := by
  have hlists := h a
  have hunmet := unmet_append key values table ha
  rw [length_append]
  omega

theorem stack_iterate_searchStep (h : Lists next key values table)
    (hn : stack.length + unmet key values table met ≤ n) : ((searchStep next)^[n] (stack, met)).1 = [] := by
  induction n generalizing stack met with
  | zero => exact eq_nil_of_length_eq_zero (Nat.le_zero.1 (Nat.le_trans (Nat.le_add_right ..) hn))
  | succ n ih =>
    cases stack with
    | nil => rw [Function.iterate_fixed rfl]
    | cons a stack =>
      rw [length_cons] at hn
      rw [Function.iterate_succ_apply, searchStep]
      split
      · exact ih (by omega)
      next hnew =>
        have hstep := h.step stack (mt contains_iff_mem.2 hnew)
        exact ih (by omega)

/-- A search that has enough steps comes to its end and starts with what it had met. -/
theorem Searching.search (hs : Searching next roots stack met) (h : Lists next key values table)
    (hn : stack.length + unmet key values table met ≤ n) :
    Searching next roots [] (search next n stack met) ∧ met <+: PointsTo.search next n stack met := by
  induction n generalizing stack met with
  | zero =>
    obtain rfl : stack = [] := eq_nil_of_length_eq_zero (by omega)
    exact ⟨hs, prefix_rfl⟩
  | succ n ih =>
    cases stack with
    | nil => exact ⟨hs, prefix_rfl⟩
    | cons a stack =>
      rw [length_cons] at hn
      unfold PointsTo.search
      split
      next hmet => exact ih (hs.pass (contains_iff_mem.1 hmet)) (by omega)
      next hnew =>
        have ha : a ∉ met := mt contains_iff_mem.2 hnew
        have hstep := h.step stack ha
        obtain ⟨hdone, hprefix⟩ := ih (hs.meet ha) (by omega)
        exact ⟨hdone, (prefix_append met [a]).trans hprefix⟩

/-- A search from several places meets exactly what can be reached from one of them, and nothing twice. -/
theorem search_from (h : Lists next key values table) (hn : roots.length + (table.flatMap values).length ≤ n) :
    (search next n roots []).Nodup ∧ ∀ a, a ∈ search next n roots [] ↔ ReachedFrom next roots a := by
  rw [← unmet_nil key] at hn
  obtain ⟨hdone, -⟩ := (Searching.start next roots).search h hn
  exact ⟨hdone.nodup, fun a => hdone.mem_iff⟩

theorem search_spec (h : Lists next key values table) (hn : (table.flatMap values).length < n) (root : α) :
    (search next n [root] []).head? = some root ∧ (search next n [root] []).Nodup ∧
      ∀ a, a ∈ search next n [root] [] ↔ Relation.ReflTransGen (LeadsTo next) root a := by
  obtain ⟨n, rfl⟩ := Nat.exists_eq_succ_of_ne_zero (Nat.ne_zero_of_lt hn)
  have hall : [root].length + (table.flatMap values).length ≤ n + 1 := by
    rw [length_singleton]
    omega
  obtain ⟨hnodup, hmem⟩ := search_from h hall
  refine ⟨?_, hnodup, fun a => by simpa [ReachedFrom] using hmem a⟩
  -- The first step meets the place itself.
  have hfirst : Searching next [root] (next root ++ []) ([] ++ [root]) :=
    (Searching.start next [root]).meet not_mem_nil
  have hsteps := h.step [] (a := root) not_mem_nil
  rw [unmet_nil, length_nil, Nat.zero_add] at hsteps
  obtain ⟨-, later, hlater⟩ := hfirst.search h (n := n) (by omega)
  have heq : search next (n + 1) [root] [] = search next n (next root ++ []) ([] ++ [root]) := by simp [search]
  rw [heq, ← hlater]
  rfl

end Steps

omit [BEq α] [LawfulBEq α] in
/-- Where going backwards never comes to an end in finitely many places, it goes round. -/
theorem exists_transGen_self {r : α → α → Prop} {S : Set α} (hfinite : S.Finite) (hne : S.Nonempty)
    (h : ∀ x ∈ S, ∃ y ∈ S, r y x) : ∃ x ∈ S, Relation.TransGen r x x := by
  have := hfinite.to_subtype
  let back : S → S → Prop := fun y x => Relation.TransGen r y x
  by_contra hround
  push Not at hround
  have htrans : IsTrans S back := ⟨fun _ _ _ h h' => h.trans h'⟩
  have hirrefl : Std.Irrefl back := ⟨fun x => hround x x.2⟩
  obtain ⟨x, hx⟩ := hne
  obtain ⟨⟨y, hy⟩, -, hmin⟩ := (Finite.wellFounded_of_trans_of_irrefl back).has_min Set.univ ⟨⟨x, hx⟩, trivial⟩
  obtain ⟨z, hz, hzy⟩ := h y hy
  exact hmin ⟨z, hz⟩ trivial (.single hzy)

end PointsTo
