import Mathlib.Algebra.Order.BigOperators.Group.List
import Mathlib.Algebra.Order.Ring.Nat
import Mathlib.Data.Finset.Card
import Mathlib.Data.List.Nodup
import Mathlib.Logic.Relation
import PointsTo.Hierarchy
import PointsTo.Proofs.Mapping

/-! # The preferred order of a class

A merge takes heads that stand in no tail, so what it takes is in no sequence any more. It keeps the order of
every sequence and takes nothing twice. If all sequences are parts of one list without repetition, then the
first class of that list which any of them has is such a head, so the merge does not get stuck.

A linearization goes down to the bases of a class with the class on its path. No class is on its path twice, so
there are only so many steps down, and a class that inherits from itself comes back to its path. The path matters
for nothing else: where it has no class that is met, the answer is the same with any other such path. -/

namespace PointsTo
namespace Hierarchy

open List Option

section Merging

variable {seqs : List (List ClassId)} {s m l : List ClassId} {c d : ClassId} {n : Nat}

/-- A class may be taken next: it heads a sequence and stands in no tail. -/
structure Eligible (seqs : List (List ClassId)) (c : ClassId) : Prop where
  heads : ∃ s ∈ seqs, s.head? = some c
  free : ∀ s ∈ seqs, c ∉ s.tail

theorem eligible_of_goodHead? (h : goodHead? seqs = some c) : Eligible seqs c where
  heads := mem_filterMap.1 (mem_of_find?_eq_some h)
  free s hs := by
    have hfree := find?_some h
    simp only [Bool.not_eq_true', List.any_eq_false] at hfree
    simpa using hfree s hs

theorem Eligible.exists_goodHead? (h : Eligible seqs c) : ∃ d, goodHead? seqs = some d := by
  refine isSome_iff_exists.1 (find?_isSome.2 ⟨c, mem_filterMap.2 h.heads, ?_⟩)
  simpa using h.free

theorem dropHead_cases (h : c ∉ s.tail) : s = c :: dropHead c s ∨ (c ∉ s ∧ dropHead c s = s) := by
  cases s with
  | nil => exact .inr ⟨not_mem_nil, rfl⟩
  | cons d rest =>
    by_cases hd : d = c
    · subst hd
      exact .inl (by simp [dropHead])
    · refine .inr ⟨?_, by simp [dropHead, hd]⟩
      rw [mem_cons]
      rintro (rfl | hc)
      · exact hd rfl
      · exact h hc

theorem dropHead_sublist (c : ClassId) (s : List ClassId) : (dropHead c s).Sublist s := by
  unfold dropHead
  split
  · exact .refl _
  · split
    · exact sublist_cons_self ..
    · exact .refl _

theorem not_mem_dropHead (h : c ∉ s.tail) : c ∉ dropHead c s := by
  rcases dropHead_cases h with hs | ⟨hc, hs⟩
  · rwa [hs, tail_cons] at h
  · rwa [hs]

/-- A list keeps the order of each of the sequences, has nothing else, and has nothing twice. -/
structure Merges (seqs : List (List ClassId)) (l : List ClassId) : Prop where
  sublist : ∀ s ∈ seqs, s.Sublist l
  covered : ∀ c ∈ l, ∃ s ∈ seqs, c ∈ s
  nodup : l.Nodup

def live (seqs : List (List ClassId)) : List (List ClassId) := seqs.filter (!·.isEmpty)

theorem mem_live : s ∈ live seqs ↔ s ∈ seqs ∧ s ≠ [] := by
  simp [live]

theorem Merges.of_live (h : Merges (live seqs) l) : Merges seqs l where
  sublist s hs := by
    by_cases hempty : s = []
    · exact hempty ▸ nil_sublist l
    · exact h.sublist s (mem_live.2 ⟨hs, hempty⟩)
  covered c hc := by
    obtain ⟨s, hs, hcs⟩ := h.covered c hc
    exact ⟨s, (mem_live.1 hs).1, hcs⟩
  nodup := h.nodup

theorem Merges.take (hc : Eligible seqs c) (h : Merges (seqs.map (dropHead c)) l) : Merges seqs (c :: l) where
  sublist s hs := by
    have hrest := h.sublist _ (List.mem_map_of_mem hs)
    rcases dropHead_cases (hc.free s hs) with heq | ⟨-, heq⟩
    · rw [heq]
      exact hrest.cons_cons c
    · rw [heq] at hrest
      exact hrest.cons c
  covered d hd := by
    rcases mem_cons.1 hd with rfl | hd
    · obtain ⟨s, hs, hhead⟩ := hc.heads
      exact ⟨s, hs, mem_of_head? hhead⟩
    · obtain ⟨t, ht, hdt⟩ := h.covered d hd
      obtain ⟨s, hs, rfl⟩ := List.mem_map.1 ht
      exact ⟨s, hs, (dropHead_sublist c s).subset hdt⟩
  nodup := by
    refine nodup_cons.2 ⟨fun hcl => ?_, h.nodup⟩
    obtain ⟨t, ht, hct⟩ := h.covered c hcl
    obtain ⟨s, hs, rfl⟩ := List.mem_map.1 ht
    exact not_mem_dropHead (hc.free s hs) hct

theorem merge_zero (seqs : List (List ClassId)) :
    merge 0 seqs = if (live seqs).isEmpty then some [] else none := rfl

theorem merge_succ (n : Nat) (seqs : List (List ClassId)) :
    merge (n + 1) seqs = if (live seqs).isEmpty then some [] else
      (goodHead? (live seqs)).bind fun c =>
        (merge n ((live seqs).map (dropHead c))).bind fun rest => some (c :: rest) := rfl

theorem merge_of_live_eq_nil (h : live seqs = []) (n : Nat) : merge n seqs = some [] := by
  cases n <;> simp [merge_zero, merge_succ, h]

/-- What a merge does: it ends when no classes are left, and otherwise takes a head and goes on. -/
theorem merge_eq_some (h : merge n seqs = some l) : (live seqs = [] ∧ l = []) ∨
    ∃ k c rest, n = k + 1 ∧ goodHead? (live seqs) = some c ∧
      merge k ((live seqs).map (dropHead c)) = some rest ∧ l = c :: rest := by
  by_cases hlive : live seqs = []
  · rw [merge_of_live_eq_nil hlive] at h
    exact .inl ⟨hlive, (some.inj h).symm⟩
  · cases n with
    | zero => simp [merge_zero, hlive] at h
    | succ n =>
      rw [merge_succ, if_neg (by simpa using hlive)] at h
      obtain ⟨c, hc, h⟩ := bind_eq_some_iff.1 h
      obtain ⟨rest, hrest, h⟩ := bind_eq_some_iff.1 h
      exact .inr ⟨n, c, rest, rfl, hc, hrest, (some.inj h).symm⟩

theorem merges_of_merge (h : merge n seqs = some l) : Merges seqs l := by
  induction n generalizing seqs l with
  | zero =>
    obtain ⟨hlive, rfl⟩ := (merge_eq_some h).resolve_right nofun
    exact .of_live (hlive ▸ ⟨by simp, by simp, .nil⟩)
  | succ n ih =>
    rcases merge_eq_some h with ⟨hlive, rfl⟩ | ⟨k, c, rest, hk, hc, hrest, rfl⟩
    · exact .of_live (hlive ▸ ⟨by simp, by simp, .nil⟩)
    · cases Nat.succ.inj hk
      exact .of_live (.take (eligible_of_goodHead? hc) (ih hrest))

/-- Of sequences that are parts of one list without repetition, one has a head that may be taken. -/
theorem exists_eligible (hm : m.Nodup) (h : ∀ s ∈ seqs, s.Sublist m) (hne : ∃ s ∈ seqs, s ≠ []) :
    ∃ c, Eligible seqs c := by
  induction m with
  | nil =>
    obtain ⟨s, hs, hempty⟩ := hne
    exact absurd (sublist_nil.1 (h s hs)) hempty
  | cons x m ih =>
    obtain ⟨hx, hm⟩ := nodup_cons.1 hm
    have hsplit : ∀ s ∈ seqs, s.Sublist m ∨ ∃ rest, s = x :: rest ∧ rest.Sublist m :=
      fun s hs => sublist_cons_iff.1 (h s hs)
    by_cases hall : ∀ s ∈ seqs, s.Sublist m
    · exact ih hm hall
    · -- Some sequence has the first class of the list, and wherever that class stands it is a head.
      push Not at hall
      obtain ⟨s, hs, hsm⟩ := hall
      obtain ⟨rest, rfl, -⟩ := (hsplit s hs).resolve_left hsm
      refine ⟨x, ⟨_, hs, rfl⟩, fun t ht hxt => hx ?_⟩
      rcases hsplit t ht with htm | ⟨rest', rfl, hrest'⟩
      · exact htm.subset (mem_of_mem_tail hxt)
      · exact hrest'.subset hxt

theorem length_flatten_live (seqs : List (List ClassId)) : (live seqs).flatten.length = seqs.flatten.length := by
  rw [live, flatten_filter_not_isEmpty]

theorem length_flatten_pos (h : live seqs ≠ []) : 0 < seqs.flatten.length := by
  obtain ⟨s, hs⟩ := exists_mem_of_ne_nil _ h
  obtain ⟨hs, hne⟩ := mem_live.1 hs
  exact Nat.lt_of_lt_of_le (length_pos_iff.2 hne) (sublist_flatten_of_mem hs).length_le

theorem length_flatten_map_dropHead_lt (h : ∃ s ∈ seqs, s.head? = some c) :
    (seqs.map (dropHead c)).flatten.length < seqs.flatten.length := by
  have hle : ∀ s : List ClassId, (dropHead c s).length ≤ s.length := fun s => (dropHead_sublist c s).length_le
  obtain ⟨s, hs, hhead⟩ := h
  have hlt : (dropHead c s).length < s.length := by
    obtain ⟨rest, rfl⟩ := head?_eq_some_iff.1 hhead
    simp [dropHead]
  rw [length_flatten, length_flatten, List.map_map]
  exact sum_lt_sum _ _ (fun t _ => hle t) ⟨s, hs, hlt⟩

/-- A round of a merge leaves the sequences that the next one starts with. -/
def Leaves (rest seqs : List (List ClassId)) : Prop :=
  ∃ c, goodHead? (live seqs) = some c ∧ rest = (live seqs).map (dropHead c)

theorem Leaves.length_lt {rest : List (List ClassId)} (h : Leaves rest seqs) :
    rest.flatten.length < seqs.flatten.length := by
  obtain ⟨c, hc, rfl⟩ := h
  have hless := length_flatten_map_dropHead_lt (eligible_of_goodHead? hc).heads
  rwa [length_flatten_live] at hless

theorem wellFounded_leaves : WellFounded Leaves :=
  Subrelation.wf Leaves.length_lt (measure fun seqs : List (List ClassId) => seqs.flatten.length).wf

theorem merge_eq_merge {k : Nat} (hn : seqs.flatten.length ≤ n) (hk : seqs.flatten.length ≤ k) :
    merge n seqs = merge k seqs := by
  induction n generalizing seqs k with
  | zero =>
    have hlive : live seqs = [] := by_contra fun h => absurd (length_flatten_pos h) (Nat.not_lt.2 hn)
    rw [merge_of_live_eq_nil hlive, merge_of_live_eq_nil hlive]
  | succ n ih =>
    by_cases hlive : live seqs = []
    · rw [merge_of_live_eq_nil hlive, merge_of_live_eq_nil hlive]
    · obtain _ | k := k
      · exact absurd (length_flatten_pos hlive) (Nat.not_lt.2 hk)
      rw [merge_succ, merge_succ]
      congr 1
      refine Option.bind_congr fun c hc => ?_
      have hless := Leaves.length_lt ⟨c, hc, rfl⟩
      rw [ih (k := k) (by omega) (by omega)]

/-- A merge finds an order if the sequences are parts of one list without repetition. -/
theorem exists_mergeAll (hm : m.Nodup) (h : ∀ s ∈ seqs, s.Sublist m) : ∃ l, mergeAll seqs = some l := by
  unfold mergeAll
  induction hn : seqs.flatten.length using Nat.strong_induction_on generalizing seqs with
  | h n ih =>
    by_cases hlive : live seqs = []
    · exact ⟨[], merge_of_live_eq_nil hlive _⟩
    · have hparts : ∀ s ∈ live seqs, s.Sublist m := fun s hs => h s (mem_live.1 hs).1
      obtain ⟨s, hs⟩ := exists_mem_of_ne_nil _ hlive
      obtain ⟨d, hd⟩ := exists_eligible hm hparts ⟨s, hs, (mem_live.1 hs).2⟩
      obtain ⟨c, hc⟩ := hd.exists_goodHead?
      have hless := Leaves.length_lt ⟨c, hc, rfl⟩
      have hrest : ∀ t ∈ (live seqs).map (dropHead c), t.Sublist m := by
        intro t ht
        obtain ⟨s, hs, rfl⟩ := List.mem_map.1 ht
        exact (dropHead_sublist c s).trans (hparts s hs)
      obtain ⟨rest, hmerge⟩ := ih _ (hn ▸ hless) hrest rfl
      obtain ⟨k, rfl⟩ := Nat.exists_eq_succ_of_ne_zero (Nat.ne_of_gt (hn ▸ length_flatten_pos hlive))
      rw [merge_eq_merge (k := k) le_rfl (by omega)] at hmerge
      exact ⟨c :: rest, by simp [merge_succ, hlive, hc, hmerge]⟩

end Merging

section Linearizing

variable {h : Hierarchy} {path path' l : List ClassId} {c d b : ClassId} {n k : Nat}

def HasBase (h : Hierarchy) (c d : ClassId) : Prop := d ∈ h.basesOf c

/-- A class is reached from another one through bases, or is that class. -/
def Inherits (h : Hierarchy) : ClassId → ClassId → Prop := Relation.ReflTransGen h.HasBase

theorem HasBase.lt_size (hb : h.HasBase c b) : c < h.size := by
  unfold HasBase basesOf at hb
  by_contra hc
  simp [Array.getElem?_eq_none (Nat.le_of_not_lt hc)] at hb

/-- What a linearization does: the class must be off its path, its bases are linearized below it, and their
orders are merged with their list. -/
theorem linearizeBelow_succ_eq_some : h.linearizeBelow (n + 1) path c = some l ↔ c ∉ path ∧ ∃ seqs rest,
      (h.basesOf c).mapM (h.linearizeBelow n (c :: path)) = some seqs ∧
      mergeAll (seqs ++ [h.basesOf c]) = some rest ∧ l = c :: rest := by
  rw [linearizeBelow]
  split
  next hc => simp [contains_iff_mem.1 hc]
  next hc =>
    have hc : c ∉ path := by simpa using hc
    simp [hc, bind_eq_some_iff, eq_comm (a := l)]

/-- A list starts with a class and has exactly what the class inherits from, nothing twice. -/
structure LookupOrder (h : Hierarchy) (c : ClassId) (l : List ClassId) : Prop where
  head : l.head? = some c
  nodup : l.Nodup
  mem_iff : ∀ d, d ∈ l ↔ h.Inherits c d

/-- What an answer says of a class and of the path above it. -/
structure Linear (h : Hierarchy) (path : List ClassId) (c : ClassId) (l : List ClassId) : Prop
    extends h.LookupOrder c l where
  bases : (h.basesOf c).Sublist l
  off : ∀ d ∈ l, d ∉ path

theorem linear_of_linearizeBelow (hl : h.linearizeBelow n path c = some l) : h.Linear path c l := by
  induction n generalizing path c l with
  | zero => cases hl
  | succ n ih =>
    obtain ⟨hc, seqs, rest, hseqs, hrest, rfl⟩ := linearizeBelow_succ_eq_some.1 hl
    have hmerges := merges_of_merge hrest
    have hbase : ∀ b, h.HasBase c b → ∃ s ∈ seqs, h.Linear (c :: path) b s := by
      intro b hb
      obtain ⟨s, hs, hbs⟩ := exists_of_mem_left (forall₂_of_mapM hseqs) hb
      exact ⟨s, hs, ih hbs⟩
    -- What the merge takes comes from a base and is off the path.
    have hfrom : ∀ d ∈ rest, ∃ b, h.HasBase c b ∧ h.Inherits b d ∧ d ∉ c :: path := by
      intro d hd
      obtain ⟨s, hs, hds⟩ := hmerges.covered d hd
      rcases mem_append.1 hs with hs | hs
      · obtain ⟨b, hb, hbs⟩ := exists_of_mem_mapM hseqs hs
        exact ⟨b, hb, ((ih hbs).mem_iff d).1 hds, (ih hbs).off d hds⟩
      · cases mem_singleton.1 hs
        obtain ⟨s, -, hs⟩ := hbase d hds
        exact ⟨d, hds, .refl, hs.off d (mem_of_head? hs.head)⟩
    refine { head := rfl, nodup := ?nodup, mem_iff := ?mem_iff, bases := ?bases, off := ?off }
    case nodup =>
      refine nodup_cons.2 ⟨fun hmem => ?_, hmerges.nodup⟩
      obtain ⟨-, -, -, hoff⟩ := hfrom c hmem
      exact hoff mem_cons_self
    case mem_iff =>
      refine fun d => ⟨fun hd => ?_, fun hd => ?_⟩
      · rcases mem_cons.1 hd with rfl | hd
        · exact .refl
        · obtain ⟨b, hb, hbd, -⟩ := hfrom d hd
          exact .head hb hbd
      · rcases Relation.ReflTransGen.cases_head hd with rfl | ⟨b, hb, hbd⟩
        · exact mem_cons_self
        · obtain ⟨s, hs, hlinear⟩ := hbase b hb
          have hsub := hmerges.sublist s (mem_append_left _ hs)
          exact mem_cons_of_mem _ (hsub.subset ((hlinear.mem_iff d).2 hbd))
    case bases => exact (hmerges.sublist _ (mem_append_right _ (mem_singleton_self _))).cons c
    case off =>
      refine fun d hd => ?_
      rcases mem_cons.1 hd with rfl | hd
      · exact hc
      · obtain ⟨-, -, -, hoff⟩ := hfrom d hd
        exact fun hmem => hoff (mem_cons_of_mem _ hmem)

/-- How many classes of the hierarchy are not on a path. -/
def remaining (h : Hierarchy) (path : List ClassId) : Nat := (Finset.range h.size \ path.toFinset).card

theorem remaining_lt (hc : c ∉ path) (hb : h.HasBase c b) : h.remaining (c :: path) < h.remaining path := by
  refine Finset.card_lt_card (Finset.ssubset_iff.2 ⟨c, by simp, ?_⟩)
  intro d hd
  simp only [Finset.mem_insert, Finset.mem_sdiff, Finset.mem_range, List.mem_toFinset, mem_cons] at hd ⊢
  rcases hd with rfl | ⟨hd, hoff⟩
  · exact ⟨hb.lt_size, hc⟩
  · exact ⟨hd, fun hmem => hoff (.inr hmem)⟩

/-- The answer does not depend on the path, as long as it meets no class on it. -/
theorem linearizeBelow_of_disjoint (hl : h.linearizeBelow n path c = some l) (hpath : ∀ d ∈ l, d ∉ path')
    (hk : h.remaining path' < k) : h.linearizeBelow k path' c = some l := by
  induction n generalizing path path' c l k with
  | zero => cases hl
  | succ n ih =>
    obtain ⟨-, seqs, rest, hseqs, hrest, rfl⟩ := linearizeBelow_succ_eq_some.1 hl
    obtain ⟨k, rfl⟩ := Nat.exists_eq_succ_of_ne_zero (Nat.ne_zero_of_lt hk)
    have hc : c ∉ path' := hpath c mem_cons_self
    refine linearizeBelow_succ_eq_some.2 ⟨hc, seqs, rest, ?_, hrest, rfl⟩
    rw [← hseqs]
    refine mapM_congr fun b hb => ?_
    obtain ⟨s, hs, hbs⟩ := exists_of_mem_left (forall₂_of_mapM hseqs) hb
    rw [hbs]
    refine ih hbs (fun d hd => ?_) (Nat.lt_of_lt_of_le (remaining_lt hc hb) (Nat.le_of_lt_succ hk))
    have hoff := (linear_of_linearizeBelow hbs).off d hd
    have hrest := (merges_of_merge hrest).sublist s (mem_append_left _ hs)
    rw [mem_cons]
    rintro (rfl | hd')
    · exact hoff mem_cons_self
    · exact hpath d (mem_cons_of_mem _ (hrest.subset hd)) hd'

/-- A linearization asks for another one: that of a base, with the class added to the path. -/
def Asks (h : Hierarchy) (inner outer : List ClassId × ClassId) : Prop :=
  outer.2 ∉ outer.1 ∧ h.HasBase outer.2 inner.2 ∧ inner.1 = outer.2 :: outer.1

theorem wellFounded_asks (h : Hierarchy) : WellFounded h.Asks := by
  refine Subrelation.wf ?_ (measure fun q : List ClassId × ClassId => h.remaining q.1).wf
  rintro ⟨path', b⟩ ⟨path, c⟩ ⟨hc, hb, rfl⟩
  exact remaining_lt hc hb

@[simp] theorem remaining_nil (h : Hierarchy) : h.remaining [] = h.size := by
  simp [remaining]

theorem linearizeBelow_eq_linearize? (hn : h.size < n) : h.linearizeBelow n [] c = h.linearize? c :=
  eq_of_eq_some fun _ =>
    ⟨fun hl => linearizeBelow_of_disjoint hl (by simp) (by simp),
      fun hl => linearizeBelow_of_disjoint hl (by simp) (by simpa using hn)⟩

theorem linear_of_linearize? (hl : h.linearize? c = some l) : h.Linear [] c l := linear_of_linearizeBelow hl

theorem linearize?_eq_some_iff : h.linearize? c = some l ↔ ¬ Relation.TransGen h.HasBase c c ∧ ∃ seqs rest,
      (h.basesOf c).mapM h.linearize? = some seqs ∧ mergeAll (seqs ++ [h.basesOf c]) = some rest ∧
      l = c :: rest := by
  constructor
  · intro hl
    obtain ⟨-, seqs, rest, hseqs, hrest, rfl⟩ := linearizeBelow_succ_eq_some.1 hl
    have hall := forall₂_of_mapM hseqs
    refine ⟨fun hcycle => ?_, seqs, rest, ?_, hrest, rfl⟩
    · obtain ⟨b, hb, hbc⟩ := Relation.TransGen.head'_iff.1 hcycle
      obtain ⟨s, -, hbs⟩ := exists_of_mem_left hall hb
      have hlinear := linear_of_linearizeBelow hbs
      exact hlinear.off c ((hlinear.mem_iff c).2 hbc) mem_cons_self
    · rw [← hseqs]
      refine mapM_congr fun b hb => ?_
      obtain ⟨s, -, hbs⟩ := exists_of_mem_left hall hb
      rw [hbs]
      exact linearizeBelow_of_disjoint hbs (by simp) (by simp)
  · rintro ⟨hcycle, seqs, rest, hseqs, hrest, rfl⟩
    refine linearizeBelow_succ_eq_some.2 ⟨not_mem_nil, seqs, rest, ?_, hrest, rfl⟩
    rw [← hseqs]
    refine mapM_congr fun b hb => ?_
    obtain ⟨s, -, hbs⟩ := exists_of_mem_left (forall₂_of_mapM hseqs) hb
    rw [hbs]
    refine linearizeBelow_of_disjoint hbs (fun d hd hdc => hcycle ?_) ?_
    · obtain rfl := mem_singleton.1 hdc
      exact .head' hb (((linear_of_linearize? hbs).mem_iff d).1 hd)
    · simpa using remaining_lt not_mem_nil hb

/-- The search for the preferred order of a class ends whatever the hierarchy is, and its two bounds are never
what ends it. An order that it finds starts with the class, has exactly what the class inherits from, nothing
twice, and keeps the list of bases and their orders. There is one exactly if the class does not inherit from
itself and some list without repetition keeps them all. -/
theorem preferred_order (h : Hierarchy) (c : ClassId) : (WellFounded h.Asks ∧ WellFounded Leaves ∧
      (∀ seqs n, seqs.flatten.length ≤ n → merge n seqs = mergeAll seqs) ∧
      ∀ n, h.size < n → h.linearizeBelow n [] c = h.linearize? c) ∧
    (∀ l, h.linearize? c = some l →
      l.head? = some c ∧ l.Nodup ∧ (∀ d, d ∈ l ↔ h.Inherits c d) ∧ (h.basesOf c).Sublist l ∧
        ∀ b ∈ h.basesOf c, ∃ s, h.linearize? b = some s ∧ s.Sublist l) ∧
    ((∃ l, h.linearize? c = some l) ↔ ¬ Relation.TransGen h.HasBase c c ∧
      ∃ m : List ClassId, m.Nodup ∧ (h.basesOf c).Sublist m ∧
        ∀ b ∈ h.basesOf c, ∃ s, h.linearize? b = some s ∧ s.Sublist m) := by
  have hsound : ∀ l, h.linearize? c = some l →
      ∀ b ∈ h.basesOf c, ∃ s, h.linearize? b = some s ∧ s.Sublist l := by
    intro l hl b hb
    obtain ⟨-, seqs, rest, hseqs, hrest, rfl⟩ := linearize?_eq_some_iff.1 hl
    obtain ⟨s, hs, hbs⟩ := exists_of_mem_left (forall₂_of_mapM hseqs) hb
    exact ⟨s, hbs, ((merges_of_merge hrest).sublist s (mem_append_left _ hs)).cons c⟩
  refine ⟨⟨h.wellFounded_asks, wellFounded_leaves, fun seqs n hn => merge_eq_merge hn le_rfl,
    fun n => linearizeBelow_eq_linearize?⟩, fun l hl => ?_, ?_, ?_⟩
  · have hlinear := linear_of_linearize? hl
    exact ⟨hlinear.head, hlinear.nodup, hlinear.mem_iff, hlinear.bases, hsound l hl⟩
  · rintro ⟨l, hl⟩
    have hlinear := linear_of_linearize? hl
    exact ⟨(linearize?_eq_some_iff.1 hl).1, l, hlinear.nodup, hlinear.bases, hsound l hl⟩
  · rintro ⟨hcycle, m, hm, hbases, hparts⟩
    obtain ⟨seqs, hseqs⟩ := exists_mapM fun b hb => (hparts b hb).imp fun s hs => hs.1
    have hall : ∀ s ∈ seqs ++ [h.basesOf c], s.Sublist m := by
      refine forall_mem_append.2 ⟨fun s hs => ?_, forall_mem_singleton.2 hbases⟩
      obtain ⟨b, hb, hbs⟩ := exists_of_mem_mapM hseqs hs
      obtain ⟨s', hbs', hsub⟩ := hparts b hb
      cases some.inj (hbs.symm.trans hbs')
      exact hsub
    obtain ⟨rest, hrest⟩ := exists_mergeAll hm hall
    exact ⟨c :: rest, linearize?_eq_some_iff.2 ⟨hcycle, seqs, rest, hseqs, hrest, rfl⟩⟩

/-- A class with two bases that share one. -/
def diamond : Hierarchy := #[[], [0], [0], [1, 2]]

theorem preferred_order_on_diamond :
    diamond.linearize? 3 = some [3, 1, 2, 0] ∧ (∀ d, d ∈ [3, 1, 2, 0] ↔ diamond.Inherits 3 d) ∧
      ¬ Relation.TransGen diamond.HasBase 3 3 ∧
      (∃ s, diamond.linearize? 2 = some s ∧ s.Sublist [3, 1, 2, 0]) := by
  have hl : diamond.linearize? 3 = some [3, 1, 2, 0] := by decide
  obtain ⟨-, hsound, hcomplete⟩ := preferred_order diamond 3
  obtain ⟨-, -, hmem, -, hbases⟩ := hsound _ hl
  exact ⟨hl, hmem, (hcomplete.1 ⟨_, hl⟩).1, hbases 2 (by decide)⟩

end Linearizing

end Hierarchy
end PointsTo
