import Mathlib.Algebra.Order.BigOperators.Group.List
import Mathlib.Algebra.Order.Ring.Nat
import PointsTo.Evaluation.Hint
import PointsTo.Evaluation.Call
import PointsTo.Proofs.Scope.Outline
import PointsTo.Proofs.Search

/-! # Counts that never run out

Some recursions of the evaluation count down: the reader of hints, the walk up the scopes and the collection
of the objects that a call copies. The count they start with is large enough, so what they give is what they
give with any larger one. -/

namespace PointsTo

open List

/-- The answers to growing counts come to rest at a final one. -/
def Settles {α : Type} (answers : Nat → α) (final : α) : Prop := ∃ bound, ∀ n, bound ≤ n → answers n = final

section Hints

namespace Text

theorem length_strip_le (test : Char → Bool) (cs : List Char) : (strip test cs).length ≤ cs.length := by
  have hleft := (dropWhile_sublist test (l := cs)).length_le
  have hright := (dropWhile_sublist test (l := (cs.dropWhile test).reverse)).length_le
  simp only [strip, length_reverse] at hright ⊢
  omega

end Text

namespace Hint

variable {separator : Char} {cs p : List Char}

theorem length_pieces (separator : Char) (depth : Int) (piece cs : List Char) :
    ((pieces separator depth piece cs).map List.length).sum + (pieces separator depth piece cs).length =
      piece.length + cs.length + 1 := by
  fun_induction pieces separator depth piece cs with
  | case1 => simp
  | case2 depth piece c cs _ ih | case3 depth piece c cs _ _ ih | case5 depth piece c cs _ _ _ ih =>
    rw [ih]
    simp only [length_cons]
    omega
  | case4 depth piece c cs _ _ _ ih =>
    simp only [map_cons, sum_cons, length_cons, length_reverse, length_nil] at ih ⊢
    omega

theorem length_piece_add_le (h : p ∈ pieces separator 0 [] cs) :
    p.length + (pieces separator 0 [] cs).length ≤ cs.length + 1 := by
  have hsum := length_pieces separator 0 [] cs
  have hp : p.length ≤ ((pieces separator 0 [] cs).map List.length).sum :=
    single_le_sum (by simp) _ (List.mem_map_of_mem h)
  simp only [length_nil] at hsum
  omega

theorem mem_split (h : p ∈ split separator cs) : ∃ q ∈ pieces separator 0 [] cs, p = Text.trim q := by
  unfold split at h
  split at h
  · cases h
  · obtain ⟨q, hq, rfl⟩ := List.mem_map.1 h
    exact ⟨q, hq, rfl⟩

theorem length_split_le (separator : Char) (cs : List Char) :
    (split separator cs).length ≤ (pieces separator 0 [] cs).length := by
  unfold split
  split <;> simp

theorem length_add_le_of_mem_split (h : p ∈ split separator cs) :
    p.length + (split separator cs).length ≤ cs.length + 1 := by
  obtain ⟨q, hq, rfl⟩ := mem_split h
  have htrim : (Text.trim q).length ≤ q.length := Text.length_strip_le _ q
  have hq := length_piece_add_le hq
  have hlength := length_split_le separator cs
  omega

theorem length_lt_of_application? {name args : List Char} (h : application? cs = some (name, args)) :
    args.length < cs.length := by
  unfold application? at h
  split at h
  · cases h
  next c inside hdrop =>
    have hinside := (dropWhile_sublist (· != '[') (l := cs)).length_le
    rw [hdrop, length_cons] at hinside
    obtain ⟨-, rfl⟩ := Prod.mk.inj (Option.some.inj h)
    split
    · simp only [length_dropLast]
      omega
    · omega

theorem ofContainer_congr {read read' : List Char → Hint} {kind : ObjKind} {args : List (List Char)}
    (h : ∀ a ∈ args, read a = read' a) : ofContainer read kind args = ofContainer read' kind args := by
  have hcontents : ∀ as ⊆ args,
      (as.filter (· != ['.', '.', '.'])).map read = (as.filter (· != ['.', '.', '.'])).map read' :=
    fun as has => map_congr_left fun a ha => h a (has (mem_filter.1 ha).1)
  cases args with
  | nil => rfl
  | cons first rest =>
    simp only [ofContainer, h first mem_cons_self, hcontents rest (subset_cons_self ..),
      hcontents _ (List.Subset.refl _)]

theorem ofApplication_congr {read read' : List Char → Hint} {name : String} {args : List (List Char)}
    (h : ∀ a ∈ args, read a = read' a) : ofApplication read name args = ofApplication read' name args := by
  have hhead : args.head?.map read = args.head?.map read' := by
    cases args with
    | nil => rfl
    | cons a rest => simp [h a mem_cons_self]
  simp only [ofApplication, hhead, map_congr_left h, ofContainer_congr h]

theorem read_eq_read {n n' : Nat} (hn : cs.length < n) (hn' : cs.length < n') : read n cs = read n' cs := by
  induction n generalizing n' cs with
  | zero => omega
  | succ n ih =>
    obtain _ | n' := n'
    · omega
    unfold read
    generalize hinner : Text.strip _ (Text.trim cs) = inner
    have hlength : inner.length ≤ cs.length := by
      have houter : (Text.trim cs).length ≤ cs.length := Text.length_strip_le _ cs
      have := Text.length_strip_le (fun c => c = '"' ∨ c = '\x27') (Text.trim cs)
      rw [hinner] at this
      omega
    have hread : ∀ p : List Char, p.length < inner.length → read n p = read n' p :=
      fun p hp => ih (by omega) (by omega)
    dsimp only
    split
    next a b rest hsplit =>
      congr 1
      refine List.map_congr_left fun p hp => hread p ?_
      have := length_add_le_of_mem_split (hsplit ▸ hp)
      simp only [hsplit, List.length_cons] at this
      omega
    next =>
      split
      next name args happlied =>
        refine ofApplication_congr fun p hp => hread p ?_
        have hargs := length_lt_of_application? happlied
        have := length_add_le_of_mem_split hp
        have := List.length_pos_of_mem hp
        omega
      next => exact ofApplication_congr (by simp)

theorem settles_read (text : String) : Settles (read · text.toList) (ofString text) :=
  ⟨text.toList.length + 1, fun _ hn => read_eq_read hn (Nat.lt_succ_self _)⟩

end Hint

end Hints

section Scopes

namespace ScopeTree

variable {t : ScopeTree}

theorem settles_chain (ht : t.Ordered) {id : ScopeId} (hid : id < t.size) : Settles (t.chain · id) (t.ancestry id) :=
  ⟨t.size, fun _ hn => chain_eq_chain ht (hid.trans_le hn) hid⟩

end ScopeTree

end Scopes

end PointsTo
