import PointsTo.Proofs.Evaluation.Provenance
import PointsTo.Proofs.Solver.ExceptionEdges

/-! # What a block leaves behind

Almost everything that evaluation does to a state adds to it. A value is replaced in a temporary, in a variable outside
of loops, and where parameters are bound; anywhere else a block keeps what was there and adds what it writes. Binding a
variable only ends that it may be unbound. A recorder that watches the block does not change what it does. It keeps the
writes that it has and gets those of the block, so that nothing new stands in the state afterwards that it has not
seen, temporaries apart. -/

namespace PointsTo

open AbstractState Option
open UnitFlow (isVariable)

/-- Whether values are only ever added at the location: slots of objects and what functions return. -/
def Location.accumulates : Location → Bool
  | .element _ | .key _ | .field _ _ | .ret _ => true
  | _ => false

/-- Whether a block only adds to what a location holds. In a loop, variables accumulate too unless parameters are
bound. -/
def Block.accumulates (b : Block) (l : Location) : Bool :=
  l.accumulates || (isVariable l && b.loopDepth != 0 && !b.bindsParameters)

theorem Location.isVariable_of_accumulates {l : Location} (h : l.accumulates = true) :
    isVariable l = false := by
  cases l with
  | var scope name => cases h
  | _ => rfl

theorem Block.accumulates_of_accumulates {b : Block} {l : Location} (h : l.accumulates = true) :
    b.accumulates l = true := by
  simp [accumulates, h]

namespace AbstractState

variable {s : AbstractState} {l m : Location} {v : TypeSet} {x : Option TypeTag}

theorem holds_set_of_ne (h : s.Holds l x) (hm : m ≠ l) : (s.set m v).Holds l x := by
  obtain ⟨w, hw, hx⟩ := h
  exact ⟨w, by rw [get?_set, if_neg hm, hw], hx⟩

theorem fits_weakUpdate (s : AbstractState) (l : Location) (v : TypeSet) : s.Fits (s.weakUpdate l v) where
  entries {m} hm := by
    rw [get?_weakUpdate]
    split
    · rfl
    · exact hm
  within m x hx := holds_weakUpdate.2 (.inl hx)

end AbstractState

namespace Deed

variable {f : Frame} {d : Deed} {s : AbstractState} {l : Location} {x : Option TypeTag}

def replaced? : Deed → Option Location
  | .replace l _ => some l
  | .keep node _ | .hold node _ => some (.temp node)
  | .observe _ | .write _ _ => none

theorem replaced?_ne (hd : d.Allowed f) (hl : f.block.accumulates l = true) : d.replaced? ≠ some l := by
  cases d with
  | observe change => nofun
  | write m v => nofun
  | replace m v =>
    intro hm
    obtain rfl := some.inj hm
    rcases hd with hd | ⟨hparams, name, rfl⟩
    · cases m with
      | var scope name =>
        simp only [Frame.replaces, Bool.and_eq_true, beq_iff_eq] at hd
        simp [Block.accumulates, Location.accumulates, hd.1.1.1] at hl
      | _ => simp [Frame.replaces, Frame.owns] at hd
    · simp [Block.accumulates, Location.accumulates, hparams] at hl
  | keep node v =>
    intro hm
    cases hm
    cases hl
  | hold node v =>
    intro hm
    cases hm
    cases hl

/-- A location whose value a deed does not replace keeps what it holds and gets what is written to it, except that a
variable that is written is no longer unbound. -/
theorem onState_holds (hl : d.replaced? ≠ some l) (hx : x = some .unbound → isVariable l = false)
    (h : s.Holds l x ∨ ∃ v, d.published? = some (l, v) ∧ v.Holds x) : (d.onState s).Holds l x := by
  -- Whatever is replaced lies elsewhere, and so does what is written along with it.
  have hset : ∀ {m : Location} {v : TypeSet}, m ≠ l → (s.Holds l x ∨ ∃ w, some (m, v) = some (l, w) ∧ w.Holds x) →
      (s.set m v).Holds l x := by
    intro m v hm h
    refine AbstractState.holds_set_of_ne (h.resolve_right ?_) hm
    rintro ⟨w, hw, -⟩
    exact hm (Prod.mk.inj (some.inj hw)).1
  cases d with
  | observe change => exact h.resolve_right (by simp [published?])
  | write m v =>
    have hwrite : s.Holds l x ∨ (m = l ∧ (stored m v).Holds x) := by
      refine h.imp_right ?_
      rintro ⟨w, hw, hx⟩
      obtain ⟨rfl, rfl⟩ := Prod.mk.inj (some.inj hw)
      exact ⟨rfl, hx⟩
    cases m with
    | var scope name =>
      refine AbstractState.holds_weakUpdate.2 (hwrite.imp_left fun h => ?_)
      by_cases hunbound : x = some .unbound
      · have hne : Location.var scope name ≠ l := by
          rintro rfl
          cases hx hunbound
        obtain ⟨w, hw, hx⟩ := h
        exact ⟨w, by rw [get?_discardUnbound, if_neg hne, hw], hx⟩
      · exact holds_discardUnbound_of_ne h hunbound
    | _ => exact AbstractState.holds_weakUpdate.2 hwrite
  | replace m v => exact hset (fun hm => hl (congrArg some hm)) h
  | keep node v => exact hset (fun hm => hl (congrArg some hm)) h
  | hold node v =>
    exact hset (fun hm => hl (congrArg some hm)) (.inl (h.resolve_right (by simp [published?])))

theorem fits_onRecorder (hd : d.Allowed f) (r : Recorder) : r.effects.Fits (d.onRecorder r).effects := by
  cases d with
  | observe change =>
    change r.effects.Fits (change r).effects
    rw [hd r]
    exact .refl _
  | hold node v => exact .refl _
  | _ => exact AbstractState.fits_weakUpdate _ _ _

end Deed

section Scripts

variable {f : Frame} {ds : List Deed} {l : Location} {x : Option TypeTag}

theorem deeds_holds (hds : ∀ d ∈ ds, d.Allowed f) (hl : f.block.accumulates l = true)
    (hx : x = some .unbound → isVariable l = false) {s : AbstractState}
    (h : s.Holds l x ∨ ∃ d ∈ ds, ∃ v, d.published? = some (l, v) ∧ v.Holds x) :
    (ds.foldl (fun s d => d.onState s) s).Holds l x := by
  induction ds generalizing s with
  | nil => simpa using h
  | cons d ds ih =>
    have hkept := Deed.replaced?_ne (hds d (by simp)) hl
    refine ih (fun e he => hds e (by simp [he])) ?_
    rcases h with h | ⟨e, he, hwritten⟩
    · exact .inl (Deed.onState_holds hkept hx (.inl h))
    · rcases List.mem_cons.1 he with rfl | he
      · exact .inl (Deed.onState_holds hkept hx (.inr hwritten))
      · exact .inr ⟨e, he, hwritten⟩

theorem fits_deeds (hds : ∀ d ∈ ds, d.Allowed f) (r : Recorder) :
    r.effects.Fits (ds.foldl (fun r d => d.onRecorder r) r).effects := by
  induction ds generalizing r with
  | nil => exact .refl _
  | cons d ds ih =>
    exact (Deed.fits_onRecorder (hds d (by simp)) r).trans (ih (fun e he => hds e (by simp [he])) _)

end Scripts

namespace Frame

variable {f : Frame} {b : Block} {m m' : Machine} {l : Location} {x : Option TypeTag}

theorem holds_apply_iff (h : f.apply b m = some m') (hl : b.accumulates l = true)
    (hx : x = some .unbound → isVariable l = false) :
    m'.state.Holds l x ↔ m.state.Holds l x ∨ (f.writes b m.state).Holds l x := by
  have htemp : l.isTemp = false := by
    cases l with
    | temp node => cases hl
    | _ => rfl
  obtain ⟨ds, hds, hrun⟩ := exists_deeds h
  cases some.inj ((hrun m.recorder).symm.trans h)
  rw [holds_writes_iff hds hrun]
  exact ⟨holds_deeds htemp, deeds_holds hds hl hx⟩

/-- A block destroys nothing in the heap: every tag in a slot of an object, or among what a function returns, stays
there, and what may be anything stays so. In a loop, and unless parameters are bound, variables keep all their tags as
well, except that they may be unbound. -/
theorem apply_keeps (f : Frame) (b : Block) {m m' : Machine} (h : f.apply b m = some m') :
    (∀ l x, l.accumulates = true → m.state.Holds l x → m'.state.Holds l x) ∧
    (1 ≤ b.loopDepth → b.bindsParameters = false → ∀ scope name x, x ≠ some .unbound →
      m.state.Holds (.var scope name) x → m'.state.Holds (.var scope name) x) := by
  constructor
  · intro l x hl hx
    exact (holds_apply_iff h (Block.accumulates_of_accumulates hl) fun _ =>
      Location.isVariable_of_accumulates hl).2 (.inl hx)
  · intro hloop hparams scope name x hbound hx
    have hl : b.accumulates (.var scope name) = true := by
      simp [Block.accumulates, isVariable, hparams, Nat.ne_of_gt hloop]
    exact (holds_apply_iff h hl fun hunbound => absurd hunbound hbound).2 (.inl hx)

open Build in
/-- In a loop, a list gets a number, and then the variable that names it does. -/
def loopedAppend : RawNode :=
  module [whileLoop (name "q") [expr (methodCall (name "x") "append" [int]), assign (name "x") int]]

def heldList : AllocSite := { span := ⟨9, 0, 9, 2⟩, scope := 0 }

/-- A variable may be unbound or name a list of strings. -/
def heldStrings : AbstractState :=
  (AbstractState.empty.set (.var 0 "x") (.ofList [.object ⟨heldList, .list⟩, .unbound])).set (.element heldList)
    (.single .str)

theorem heldStrings_element {t : TypeTag} : heldStrings.Holds (.element heldList) (some t) ↔ t = .str := by
  rw [heldStrings, holds_iff ((AbstractState.get?_set ..).trans (if_pos rfl)), TypeSet.holds_single,
    Option.some.injEq]

/-- In the loop the variable may still name the list, and the list still has its strings. -/
theorem apply_keeps_on_loopedAppend :
    ∃ p u m, firstUnit? loopedAppend .reversePostorder = some (p, u) ∧ 1 ≤ (u.graph.block 5).loopDepth ∧
      (u.graph.block 5).bindsParameters = false ∧
      (u.frame p (Preparation.ofProgram p).facts .empty).apply (u.graph.block 5) ⟨heldStrings, none⟩ = some m ∧
      m.state.Holds (.element heldList) (some .str) ∧
      m.state.Holds (.var 0 "x") (some (.object ⟨heldList, .list⟩)) := by
  have h : ((firstUnit? loopedAppend .reversePostorder).bind fun (p, u) =>
      ((u.frame p (Preparation.ofProgram p).facts .empty).apply (u.graph.block 5) ⟨heldStrings, none⟩).map fun _ =>
        (decide (1 ≤ (u.graph.block 5).loopDepth), (u.graph.block 5).bindsParameters)) = some (true, false) := by
    decide +kernel
  obtain ⟨⟨p, u⟩, hu, h⟩ := Option.bind_eq_some_iff.1 h
  obtain ⟨m, hm, h⟩ := Option.map_eq_some_iff.1 h
  simp only [Prod.mk.injEq, decide_eq_true_eq] at h
  obtain ⟨hloop, hparams⟩ := h
  obtain ⟨hslots, hvars⟩ := apply_keeps _ _ hm
  refine ⟨p, u, m, hu, hloop, hparams, hm, hslots _ _ rfl (heldStrings_element.2 rfl), ?_⟩
  refine hvars hloop hparams _ _ _ (by decide) ⟨.ofList [.object ⟨heldList, .list⟩, .unbound], ?_, by decide⟩
  decide +kernel

/-- No write escapes a recorder: watched or not, a block leaves the same state. The recorder is still there and keeps
its writes, and whatever stands in the state afterwards, temporaries apart, stood there before or is among them. -/
theorem apply_recorded (f : Frame) (b : Block) {s : AbstractState} {r : Recorder} {m : Machine}
    (h : f.apply b ⟨s, some r⟩ = some m) :
    ∃ r', m.recorder = some r' ∧ f.apply b ⟨s, none⟩ = some ⟨m.state, none⟩ ∧ r.effects.Fits r'.effects ∧
      ∀ l x, l.isTemp = false → m.state.Holds l x → s.Holds l x ∨ r'.effects.Holds l x := by
  obtain ⟨ds, hds, hrun⟩ := exists_deeds h
  cases some.inj ((hrun (some r)).symm.trans h)
  refine ⟨_, rfl, hrun none, fits_deeds hds r, fun l x hl hx => ?_⟩
  exact (holds_deeds hl hx).imp_right fun hwritten => (holds_effects_deeds hds).2 (.inr hwritten)

/-- The recorder sees that the list gets a number, and it does not forget what it has seen before. -/
theorem apply_recorded_on_loopedAppend : ∃ p u m r, firstUnit? loopedAppend .reversePostorder = some (p, u) ∧
      (u.frame p (Preparation.ofProgram p).facts .empty).apply (u.graph.block 5)
        ⟨heldStrings, some { effects := AbstractState.empty.set (.ret 0) (.single .none) }⟩ = some m ∧
      m.recorder = some r ∧
      (u.frame p (Preparation.ofProgram p).facts .empty).apply (u.graph.block 5) ⟨heldStrings, none⟩ =
        some ⟨m.state, none⟩ ∧
      r.effects.Holds (.ret 0) (some .none) ∧ r.effects.Holds (.element heldList) (some .int) := by
  have h : ((firstUnit? loopedAppend .reversePostorder).bind fun (p, u) =>
      ((u.frame p (Preparation.ofProgram p).facts .empty).apply (u.graph.block 5)
        ⟨heldStrings, some { effects := AbstractState.empty.set (.ret 0) (.single .none) }⟩).map fun m =>
          decide (m.state.get? (.element heldList) = some (.ofList [.int, .str]))) = some true := by
    decide +kernel
  obtain ⟨⟨p, u⟩, hu, h⟩ := Option.bind_eq_some_iff.1 h
  obtain ⟨m, hm, h⟩ := Option.map_eq_some_iff.1 h
  have hint : m.state.Holds (.element heldList) (some .int) := ⟨_, of_decide_eq_true h, by decide⟩
  obtain ⟨r, hr, hsame, hfits, hseen⟩ := apply_recorded _ _ hm
  refine ⟨p, u, m, r, hu, hm, hr, hsame, hfits.within _ _ ⟨.single .none, by decide +kernel, by decide⟩, ?_⟩
  refine (hseen _ _ rfl hint).resolve_left fun h => ?_
  cases heldStrings_element.1 h

end Frame
end PointsTo
