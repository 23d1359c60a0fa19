import PointsTo.Proofs.Flow.Exceptions

/-! # What handlers protect

Follows the lowering of statements with the register. Each statement is lowered at some place, and so is all that is
in it, unless there is a guarded block in between: the body of that one stands in one region more. What an outer
statement keeps away from, such as an earlier dispatch, all that is in it keeps away from too. For a guarded block
with handlers this gives the two halves of their protection: the body stands under the dispatch, and neither the
handlers nor what follows do, the block in which the body has ended apart. For one with a last part it gives what the
last part guards: all of the guarded block but the last part itself. -/

namespace PointsTo

open List Node

namespace Register

variable {w w' w'' : Register} {p q : Place} {d : BlockId} {ids ids' bare bare' : List NodeId}

/-- What is lowered at the place raises nothing to a target, except perhaps in one block. -/
def Avoids (w : Register) (d : BlockId) (except : Option BlockId) (p : Place) : Prop :=
  d ∉ p.targets ∧ ∀ c ∈ p.seam, c ∈ except ∨ ∃ o, w.origins[c]? = some o ∧ d ∉ o.targets

/-- Nodes have been lowered at a place or inside what is lowered there, some of them at the place itself: all of them
are in the regions of the place, and whatever was there before and is avoided at the place is avoided by them. -/
structure Lowered (w : Register) (p : Place) (w' : Register) (ids bare : List NodeId) : Prop where
  bare : w'.Puts p bare
  inside : ∀ i ∈ ids, ∃ q, w'.places i = some q ∧ (w'.Valid q ∧ p.regions ⊆ q.regions) ∧
    ∀ d except, d < w.origins.length → w.Avoids d except p → w'.Avoids d except q

variable {except : Option BlockId}

theorem Avoids.mono (h : w.Avoids d except p) (hw : w ≤ w') : w'.Avoids d except p :=
  ⟨h.1, fun c hc => (h.2 c hc).imp id fun ⟨o, ho, hd⟩ => ⟨o, origins_mono hw ho, hd⟩⟩

theorem Avoids.of_fits {c : BlockId} (h : w.Avoids d except p) (hc : w.Fits p c) :
    c ∈ except ∨ ∃ o, w.origins[c]? = some o ∧ d ∉ o.targets := by
  rcases hc with ⟨o, ho, hregions⟩ | hc
  · exact .inr ⟨o, ho, by rw [Origin.targets, hregions]; exact h.1⟩
  · exact h.2 c hc

theorem Puts.lowered (h : w'.Puts p ids) (hw : w ≤ w') (hp : w.Valid p) : w.Lowered p w' ids ids :=
  ⟨h, fun i hi => ⟨p, h i hi, ⟨hp.mono hw, .refl _⟩, fun _ _ _ hd => hd.mono hw⟩⟩

theorem Lowered.avoids (h : w.Lowered p w' ids bare) (hd : d < w.origins.length)
    (hp : w.Avoids d except p) : ∀ i ∈ ids, ∃ q, w'.places i = some q ∧ w'.Avoids d except q := fun i hi =>
  (h.inside i hi).imp fun _ hq => ⟨hq.1, hq.2.2 d except hd hp⟩

theorem Lowered.mono (h : w.Lowered p w' ids bare) (hw : w' ≤ w'') : w.Lowered p w'' ids bare where
  bare := h.bare.mono hw
  inside i hi := by
    obtain ⟨q, hq, hin, hd⟩ := h.inside i hi
    exact ⟨q, hw.2 i q hq, hin.imp_left (·.mono hw), fun d except hlt hp => (hd d except hlt hp).mono hw⟩

theorem Lowered.of_le (h : w'.Lowered p w'' ids bare) (hw : w ≤ w') : w.Lowered p w'' ids bare where
  bare := h.bare
  inside i hi := by
    obtain ⟨q, hq, hin, hd⟩ := h.inside i hi
    exact ⟨q, hq, hin, fun d except hlt hp => hd d except (hlt.trans_le hw.1.length_le) (hp.mono hw)⟩

/-- A place under the targets of another one and under new ones avoids all that was there before and is avoided at
the other. -/
theorem Avoids.under (h : w.Avoids d except p) (hd : d < w.origins.length)
    (ht : ∀ c ∈ q.targets, c ∈ p.targets ∨ w.origins.length ≤ c)
    (hs : ∀ c ∈ q.seam, ∃ o, w'.origins[c]? = some o ∧ ∀ t ∈ o.targets, t ∈ p.targets ∨ w.origins.length ≤ t) :
    w'.Avoids d except q := by
  have hnot : ∀ ts : List BlockId, (∀ t ∈ ts, t ∈ p.targets ∨ w.origins.length ≤ t) → d ∉ ts := fun ts hts hmem =>
    (hts d hmem).elim h.1 (Nat.not_le.2 hd)
  refine ⟨hnot _ ht, fun c hc => .inr ?_⟩
  obtain ⟨o, ho, hts⟩ := hs c hc
  exact ⟨o, ho, hnot _ hts⟩

theorem Lowered.under (h : w'.Lowered q w'' ids bare) (hw : w ≤ w') (hin : p.regions ⊆ q.regions)
    (ht : ∀ c ∈ q.targets, c ∈ p.targets ∨ w.origins.length ≤ c)
    (hs : ∀ c ∈ q.seam, ∃ o, w'.origins[c]? = some o ∧ ∀ t ∈ o.targets, t ∈ p.targets ∨ w.origins.length ≤ t) :
    w.Lowered p w'' ids [] where
  bare := nofun
  inside i hi := by
    obtain ⟨x, hx, ⟨hvalid, hsub⟩, hd⟩ := h.inside i hi
    refine ⟨x, hx, ⟨hvalid, List.Subset.trans hin hsub⟩, fun d except hlt hp => ?_⟩
    exact hd d except (hlt.trans_le hw.1.length_le) (hp.under hlt ht hs)

theorem Lowered.append (h : w.Lowered p w' ids bare) (h' : w.Lowered p w' ids' bare') :
    w.Lowered p w' (ids ++ ids') (bare ++ bare') :=
  ⟨puts_append.2 ⟨h.bare, h'.bare⟩, forall_mem_append.2 ⟨h.inside, h'.inside⟩⟩

/-- The dispatch of some handlers gets the exceptions of a guarded body and of nothing else, except that the
alternative may begin in the block in which the body has ended. -/
structure Protects (w : Register) (body orElse others : List NodeId) (handlers : List Node)
    (dispatch seam : BlockId) : Prop where
  lt_length : dispatch < w.origins.length
  ne_raiseExit : dispatch ≠ FlowGraph.initial.raiseExit
  puts_body : ∃ regions, w.Puts ⟨.handlers dispatch :: regions, none⟩ body
  ends : ∃ o, w.origins[seam]? = some o ∧ o.targets.head? = some dispatch
  avoids_orElse : ∀ i ∈ orElse, ∃ q, w.places i = some q ∧ w.Avoids dispatch (some seam) q
  avoids_others : ∀ i ∈ others, ∃ q, w.places i = some q ∧ w.Avoids dispatch none q
  starts : ∀ h ∈ handlers, ∃ (c : BlockId) (o : Origin), w.origins[c]? = some o ∧ o.handler = some (dispatch, h)

/-- A last part is entered from all that stands in its region: all of its guarded block but the last part itself. The
dispatch that leads to each of the handlers stands there too. -/
structure Closes (w : Register) (inner last : List NodeId) (handlers : List Node) (entry : BlockId) : Prop where
  inner : ∀ i ∈ inner, ∃ q, w.places i = some q ∧ w.Valid q ∧ .last entry [] ∈ q.regions
  last : ∀ i ∈ last, ∃ q, w.places i = some q ∧ w.Avoids entry none q
  dispatches : ∀ h ∈ handlers, ∃ (c dispatch : BlockId) (o o' : Origin), w.origins[c]? = some o ∧
    o.handler = some (dispatch, h) ∧ w.origins[dispatch]? = some o' ∧ .last entry [] ∈ o'.regions

section Protects

variable {body orElse others : List NodeId} {handlers : List Node} {dispatch seam : BlockId}

theorem Closes.mono {inner last : List NodeId} {entry : BlockId} (h : w.Closes inner last handlers entry)
    (hw : w ≤ w') :
    w'.Closes inner last handlers entry where
  inner i hi := (h.inner i hi).imp fun q h => ⟨hw.2 i q h.1, h.2.1.mono hw, h.2.2⟩
  last i hi := (h.last i hi).imp fun q h => ⟨hw.2 i q h.1, h.2.mono hw⟩
  dispatches n hn := by
    obtain ⟨c, dispatch, o, o', ho, hh, ho', hin⟩ := h.dispatches n hn
    exact ⟨c, dispatch, o, o', origins_mono hw ho, hh, origins_mono hw ho', hin⟩

theorem Protects.mono (h : w.Protects body orElse others handlers dispatch seam) (hw : w ≤ w') :
    w'.Protects body orElse others handlers dispatch seam where
  lt_length := h.lt_length.trans_le hw.1.length_le
  ne_raiseExit := h.ne_raiseExit
  puts_body := h.puts_body.imp fun _ h => h.mono hw
  ends := h.ends.imp fun _ h => ⟨origins_mono hw h.1, h.2⟩
  avoids_orElse i hi := (h.avoids_orElse i hi).imp fun q h => ⟨hw.2 i q h.1, h.2.mono hw⟩
  avoids_others i hi := (h.avoids_others i hi).imp fun q h => ⟨hw.2 i q h.1, h.2.mono hw⟩
  starts n hn := (h.starts n hn).imp fun _ h => h.imp fun _ h => ⟨origins_mono hw h.1, h.2⟩

theorem Protects.also (h : w.Protects body orElse others handlers dispatch seam) (hd : dispatch ∉ p.targets)
    (hp : p.seam = none) (hlast : w.Lowered p w' ids bare) (hw : w ≤ w') :
    w'.Protects body orElse (others ++ ids) handlers dispatch seam where
  __ := h.mono hw
  avoids_others i hi := by
    rcases mem_append.1 hi with hi | hi
    · exact (h.mono hw).avoids_others i hi
    · exact hlast.avoids h.lt_length ⟨hd, by rw [hp]; nofun⟩ i hi

theorem Protects.of_lowered {regions : List Region} {o : Origin} {alternative : List NodeId}
    (hlt : dispatch < w.origins.length) (hne : dispatch ≠ FlowGraph.initial.raiseExit)
    (hnot : dispatch ∉ regions.map Region.target) (hbody : w.Puts ⟨.handlers dispatch :: regions, none⟩ body)
    (hend : w.origins[seam]? = some o) (hunder : o.regions = .handlers dispatch :: regions) (hw : w ≤ w')
    (helse : w.Lowered ⟨regions, some seam⟩ w' orElse alternative) (hw' : w' ≤ w'')
    (hhandlers : w'.Lowered ⟨regions, none⟩ w'' others []) (hstarts : ∀ h ∈ handlers, ∃ (c : BlockId) (o : Origin),
      w''.origins[c]? = some o ∧ o.handler = some (dispatch, h)) :
    w''.Protects body orElse others handlers dispatch seam where
  lt_length := hlt.trans_le (hw.trans hw').1.length_le
  ne_raiseExit := hne
  puts_body := ⟨regions, hbody.mono (hw.trans hw')⟩
  ends := ⟨o, origins_mono (hw.trans hw') hend, by rw [Origin.targets, hunder]; rfl⟩
  avoids_orElse := (helse.mono hw').avoids hlt ⟨hnot, fun _ => .inl⟩
  avoids_others := hhandlers.avoids (hlt.trans_le hw.1.length_le) ⟨hnot, nofun⟩
  starts := hstarts

end Protects

end Register

namespace Builder

variable {α β : Type} {w : Register} {s : Standing} {x : Place} {todo rest ids ids' bare bare' : List NodeId}
  {act : Build Unit} {goal goal' : Register → Prop} {result : β → Register → Standing → Prop}

theorem Carries.put {act : Build β} (q : Place) (ids rest : List NodeId)
    (hc : ∀ i, ids.count i + rest.count i ≤ todo.count i)
    (h : ∀ w', w ≤ w' → w'.Puts q ids → Carries Kept w' ⟨x, rest⟩ act result) :
    Carries Kept w ⟨x, todo⟩ act result := by
  refine .revise fun w₁ b hw hb => ?_
  set w₂ : Register := { w₁ with places := fun i => if i ∈ ids then some q else w₁.places i } with hw₂
  -- A number that is still to be done stands there once and has no place.
  have hnew : ∀ i ∈ ids, rest.count i = 0 ∧ w₁.places i = none := by
    intro i hi
    have hfresh := hb.fresh i
    have hcount := hc i
    have hpos := count_pos_iff.2 hi
    cases hplace : w₁.places i with
    | none => exact ⟨by simp only at hfresh; omega, rfl⟩
    | some _ =>
      rw [hplace, Option.isSome_some, Bool.toNat_true] at hfresh
      simp only at hfresh
      omega
  have hle : w₁ ≤ w₂ := by
    refine ⟨prefix_rfl, fun i y hy => ?_⟩
    rw [hw₂]
    simp only
    rw [if_neg fun hi => ?_, hy]
    rw [(hnew i hi).2] at hy
    cases hy
  have hput : w₂.Puts q ids := fun i hi => if_pos hi
  refine ⟨w₂, ⟨x, rest⟩, hle, ?_, h w₂ (hw.trans hle) hput⟩
  exact { hb with
    noted := { hb.noted with
      steps := fun hs hi => (hb.noted.steps hs hi).imp fun y hy => ⟨hle.2 _ y hy.1, hy.2.mono hle⟩ }
    free := fun c hc => (hb.free c hc).mono hle
    loops := fun l hl => (hb.loops l hl).imp (·.mono hle) (·.mono hle)
    await := hb.await.imp fun _ _ hj => ⟨hj.1.mono hle, hj.2⟩
    here := hb.here.mono hle
    fresh := fun i => by
      have hfresh := hb.fresh i
      have hcount := hc i
      simp only [hw₂] at hfresh ⊢
      split
      next hi =>
        rw [(hnew i hi).1]
        rfl
      next => omega }

/-- An action lowers nodes with the given numbers, some of them where it is itself lowered, and reaches a goal. -/
structure Notes (ids bare : List NodeId) (goal : Register → Prop) (act : Build Unit) : Prop where
  mono : Monotone goal
  carries : ∀ (w : Register) (x : Place) (rest : List NodeId), w.Valid x →
    Carries Kept w ⟨x, ids ++ rest⟩ act fun _ w' s => s = ⟨x, rest⟩ ∧ w.Lowered x w' ids bare ∧ goal w'

theorem Notes.drop (h : Notes ids bare goal act) (hc : ∀ i, ids.count i ≤ ids'.count i)
    (hb : ∀ i ∈ bare', i ∈ bare ∨ ids.count i < ids'.count i) : Notes ids' bare' goal act where
  mono := h.mono
  carries w x rest hp := by
    have hdiff : ∀ i, (ids'.diff ids).count i = ids'.count i - ids.count i := fun i => count_diff ..
    refine .put x (ids'.diff ids) (ids ++ rest) (fun i => ?_) fun w₁ hw₁ hput => ?_
    · have := hc i
      have := hdiff i
      simp only [count_append]
      omega
    refine (h.carries w₁ x rest (hp.mono hw₁)).imp fun _ w₂ s hw₂ ⟨hs, hlowered, hgoal⟩ => ⟨hs, ⟨?_, ?_⟩, hgoal⟩
    · intro i hi
      rcases hb i hi with hi | hi
      · exact hlowered.bare i hi
      · refine hput.mono hw₂ i (count_pos_iff.1 ?_)
        have := hdiff i
        omega
    · intro i hi
      by_cases hmem : i ∈ ids
      · exact (hlowered.of_le hw₁).inside i hmem
      · have hi : i ∈ ids'.diff ids := by
          rw [← count_pos_iff, hdiff, count_eq_zero_of_not_mem hmem]
          exact count_pos_iff.2 hi
        exact ((hput.mono hw₂).lowered (hw₁.trans hw₂) hp).inside i hi

theorem notes_of_keeps (ids : List NodeId)
    (h : ∀ w (s : Standing), w.Valid s.place → w.Puts s.place ids → Carries Kept w s act fun _ _ s' => s' = s) :
    Notes ids ids (fun _ => True) act where
  mono := monotone_const
  carries w x rest hp := by
    refine .put x ids rest (fun i => by simp) fun w₁ hw₁ hput => ?_
    refine (h w₁ ⟨x, rest⟩ (hp.mono hw₁) hput).imp fun _ w₂ s' hw₂ hs => ⟨hs, ?_, trivial⟩
    exact (hput.mono hw₂).lowered (hw₁.trans hw₂) hp

theorem notes_pure (ids : List NodeId) : Notes ids ids (fun _ => True) (pure ()) :=
  notes_of_keeps ids fun _ _ _ _ => .pure fun _ _ => rfl

/-! ## Simple statements -/

theorem notes_execAfter {stmt : Node} {operands : List Node} (h : operands ⊆ stmt.children)
    (hput : w.Puts s.place stmt.ids) : Carries Kept w s (execAfter stmt operands) fun _ _ s' => s' = s := by
  have hoperands : idsAll operands ⊆ stmt.ids := fun i hi => by
    obtain ⟨n, hn, hi⟩ := mem_idsAll.1 hi
    exact ids_subset_of_mem (h hn) hi
  refine .andThen (notes_lowerSequence [] operands w s (forall_mem_nil _) (hput.subset hoperands)) ?_
  exact notes_push fun i hi => Option.some.inj hi ▸ hput _ stmt.id_mem_ids

theorem notes_returnFrom {stmt : Node} (hput : w.Puts s.place stmt.ids) :
    Carries Kept w s (returnFrom stmt) fun _ _ s' => s' = s := by
  refine .andThen (notes_execAfter (.refl _) hput) ?_
  refine Carries.get.giving fun b w₁ _ hb => ?_
  refine .andThen (notes_setTerminator _ _) ?_
  refine .andThen (notes_route (j := (b.graph.exit, 0, .unconditional)) ⟨hb.free _ (by simp), nofun⟩) notes_startDead

theorem notes_raiseFrom {stmt : Node} (hp : w.Valid s.place) (hput : w.Puts s.place stmt.ids) :
    Carries Kept w s (raiseFrom stmt) fun _ _ s' => s' = s := by
  refine .andThen (notes_execAfter (.refl _) hput) ?_
  refine Carries.get.giving fun b w₁ hw₁ hb => ?_
  obtain ⟨o, ho, hsub⟩ := (hp.mono hw₁).regions_subset hb.here
  refine .andThen (notes_modifyGraph fun w₂ b₂ hw₂ hb₂ => ?_) notes_startDead
  exact (FlowGraph.Joins.setTerminator _ _ _ _).trans (.addEdge _ (hb.mayRaise hb₂ hw₂ ho hsub))

theorem notes_leaveLoop (stmt : Node) (isBreak : Bool) :
    Carries Kept w s (leaveLoop stmt isBreak) fun _ _ s' => s' = s := by
  refine Carries.get.giving fun b w₁ _ hb => ?_
  split
  next => exact .throw _
  next frame _ hl =>
    obtain ⟨hcontinue, hbreak⟩ := hb.loops frame (hl ▸ mem_cons_self)
    cases isBreak with
    | true =>
      refine .andThen (notes_setTerminator _ _) ?_
      exact .andThen (notes_route (j := (frame.breakBlock, frame.regionDepth, .unconditional)) ⟨hbreak, nofun⟩)
        notes_startDead
    | false =>
      refine .andThen (notes_setTerminator _ _) ?_
      exact .andThen (notes_route (j := (frame.continueBlock, frame.regionDepth, .loopBack)) ⟨hcontinue, nofun⟩)
        notes_startDead

theorem notes_separate : Carries Kept w s separate fun _ _ s' => s' = s := by
  refine Carries.get.giving fun b w₁ _ _ => ?_
  split
  · refine notes_newBlock.giving fun next w₂ _ hnext => ?_
    exact .andThen (notes_jump hnext.1.free) (notes_setCurrent hnext.1)
  · exact .pure fun _ _ => rfl

/-! ## Branches -/

theorem Notes.giving {w₁ : Register} {next : Unit → Build β} (h : Notes ids bare goal act) (hw : w ≤ w₁)
    (hp : w.Valid x)
    (hnext : ∀ w₂, w₁ ≤ w₂ → w.Lowered x w₂ ids bare → goal w₂ → Carries Kept w₂ ⟨x, rest⟩ (next ()) result) :
    Carries Kept w₁ ⟨x, ids ++ rest⟩ (act >>= next) result :=
  (h.carries w₁ x rest (hp.mono hw)).giving fun _ w₂ hw₂ h => hnext w₂ hw₂ (h.1.of_le hw) h.2

theorem Carries.noteTest {test : Node} {next : Unit → Build β} (hput : w.Puts s.place test.ids)
    (h : Carries Kept w s (next ()) result) :
    Carries Kept w s (lowerExpr test >>= fun _ => push (.test test) >>= next) result := by
  refine .andThen (notes_lowerExpr test w s hput) (.andThen (notes_push fun i hi => ?_) h)
  exact Option.some.inj hi ▸ hput _ test.id_mem_ids

theorem notes_buildIf (test : Node) {body orElse : Build Unit} (hbody : Notes ids bare goal body)
    (helse : Notes ids' bare' goal' orElse) :
    Notes (test.ids ++ (ids ++ ids')) (test.ids ++ (bare ++ bare')) (fun w => goal w ∧ goal' w)
      (buildIf test body orElse) where
  mono _ _ hw h := ⟨hbody.mono hw h.1, helse.mono hw h.2⟩
  carries w x rest hp := by
    refine .put x test.ids (ids ++ (ids' ++ rest)) (fun i => by simp) fun w₁ hw₁ hput => ?_
    refine .noteTest hput ?_
    refine notes_newBlock.giving fun thenBlock w₂ hw₂ hthen => ?_
    refine notes_newBlock.giving fun elseBlock w₃ hw₃ helseBlock => ?_
    refine notes_newBlock.giving fun merge w₄ hw₄ hm => ?_
    have hthen := hthen.1.mono (hw₃.trans hw₄)
    have helseBlock := helseBlock.1.mono hw₄
    have hw := hw₂.trans (hw₃.trans hw₄)
    refine .andThen (notes_fork hthen.free helseBlock.free) (.andThen (notes_setCurrent hthen) ?_)
    refine hbody.giving (hw₁.trans hw) hp fun w₅ hw₅ hlowered hgoal => ?_
    refine .andThen (notes_jump (hm.1.free.mono hw₅)) (.andThen (notes_setCurrent (helseBlock.mono hw₅)) ?_)
    have hw := hw.trans hw₅
    refine helse.giving (hw₁.trans hw) hp fun w₆ hw₆ hlowered' hgoal' => ?_
    have hm : w₆.Made merge x.regions := hm.1.mono (hw₅.trans hw₆)
    refine .andThen (notes_jump hm.free) ((notes_setCurrent hm).imp fun _ w₇ s' hw₇ hs => ⟨hs, ?_, ?_⟩)
    · have hw := hw.trans (hw₆.trans hw₇)
      exact ((hput.mono hw).lowered (hw₁.trans hw) hp).append
        ((hlowered.mono (hw₆.trans hw₇)).append (hlowered'.mono hw₇))
    · exact ⟨hbody.mono (hw₆.trans hw₇) hgoal, helse.mono hw₇ hgoal'⟩

theorem notes_buildAssert {test : Node} {message : Option Node} (hp : w.Valid s.place)
    (htest : w.Puts s.place test.ids) (hmessage : ∀ m ∈ message, w.Puts s.place m.ids) :
    Carries Kept w s (buildAssert test message) fun _ _ s' => s' = s := by
  refine .noteTest htest ?_
  refine notes_newBlock.giving fun failBlock w₁ hw₁ hfail => ?_
  refine notes_newBlock.giving fun after w₂ hw₂ hafter => ?_
  have hfail := hfail.1.mono hw₂
  refine .andThen (notes_fork hafter.1.free hfail.free) (.andThen (notes_setCurrent hfail) ?_)
  extract_lets finish
  have hfinish : Carries Kept w₂ s (finish ⟨⟩) fun _ _ s' => s' = s := by
    refine .andThen (notes_setTerminator _ _) ?_
    refine Carries.get.giving fun b w₃ hw₃ hb => ?_
    obtain ⟨o, ho, hsub⟩ := (hp.mono (hw₁.trans (hw₂.trans hw₃))).regions_subset hb.here
    exact .andThen (notes_raise hb ho hsub) (notes_setCurrent (hafter.1.mono hw₃))
  split
  next m =>
    have hm := (hmessage m rfl).mono (hw₁.trans hw₂)
    exact .andThen (notes_lowerExpr m w₂ s hm) (.andThen (notes_hoistOnce (hm _ m.id_mem_ids)) hfinish)
  next => exact hfinish

/-! ## Loops -/

/-- The blocks that a loop starts with are made where the loop is lowered. -/
structure LoopMade (w : Register) (regions : List Region) (exit : BlockId) (elseBlock : Option BlockId)
    (header : BlockId) : Prop where
  exit : w.Made exit regions
  elseBlock : ∀ c ∈ elseBlock, w.Made c regions
  header : w.Made header regions

section Loops

variable {regions : List Region} {exit header : BlockId} {elseBlock : Option BlockId} {w' : Register}

theorem LoopMade.mono (h : LoopMade w regions exit elseBlock header) (hw : w ≤ w') :
    LoopMade w' regions exit elseBlock header :=
  ⟨h.exit.mono hw, fun c hc => (h.elseBlock c hc).mono hw, h.header.mono hw⟩

theorem LoopMade.leave (h : LoopMade w regions exit elseBlock header) : w.Free (elseBlock.getD exit) := by
  cases elseBlock with
  | none => exact h.exit.free
  | some c => exact (h.elseBlock c rfl).free

theorem notes_startLoop (hasElse : Bool) : Carries Kept w s (startLoop hasElse) fun r w' s' =>
      s' = s ∧ LoopMade w' s.place.regions r.1 r.2.1 r.2.2 ∧ r.2.1.isSome = hasElse := by
  refine notes_newBlock.giving fun exit w₁ _ hexit => ?_
  extract_lets rest
  have hrest : ∀ (elseBlock : Option BlockId) w₂, w₁ ≤ w₂ → (∀ c ∈ elseBlock, w₂.Made c s.place.regions) →
      elseBlock.isSome = hasElse →
      Carries Kept w₂ s (rest elseBlock) fun r w' s' =>
        s' = s ∧ LoopMade w' s.place.regions r.1 r.2.1 r.2.2 ∧ r.2.1.isSome = hasElse := by
    intro elseBlock w₂ hw₂ helse hsome
    refine Carries.get.giving fun b w₃ hw₃ _ => ?_
    refine (notes_newBlockAt _).giving fun header w₄ hw₄ hheader => ?_
    refine .andThen (notes_jump hheader.1.free) (.pure fun w₅ hw₅ => ⟨rfl, ?_, hsome⟩)
    have hw := hw₃.trans (hw₄.trans hw₅)
    exact ⟨hexit.1.mono (hw₂.trans hw), fun c hc => (helse c hc).mono hw, hheader.1.mono hw₅⟩
  split
  next h =>
    rw [map_eq_pure_bind, bind_assoc]
    refine notes_newBlock.giving fun c w₂ hw₂ hc => ?_
    rw [pure_bind]
    exact hrest (some c) w₂ hw₂ (fun d hd => Option.some.inj hd ▸ hc.1) h.symm
  next h =>
    rw [pure_bind]
    exact hrest none w₁ le_rfl nofun (by simpa using h)

theorem notes_openLoop (h : LoopMade w s.place.regions exit elseBlock header) :
    Carries Kept w s (openLoop header exit) fun _ _ s' => s' = s :=
  .modify fun w₁ _ hw hb => ⟨w₁, s, le_rfl,
    { hb with loops := forall_mem_cons.2 ⟨⟨h.header.free.mono hw, h.exit.free.mono hw⟩, hb.loops⟩ }, rfl⟩

theorem notes_closeLoop : Carries Kept w s closeLoop fun _ _ s' => s' = s :=
  .modify fun w₁ _ _ hb => ⟨w₁, s, le_rfl, { hb with loops := fun l hl => hb.loops l (mem_of_mem_tail hl) }, rfl⟩

theorem notes_closeBody {body : Build Unit} {orElse : Option (Build Unit)}
    (h : LoopMade w x.regions exit elseBlock header) (hsome : elseBlock.isSome = orElse.isSome)
    (hp : w.Valid x) (hbody : Notes ids bare goal body) (helse : Notes ids' bare' goal' (orElse.getD (pure ()))) :
    Carries Kept w ⟨x, ids ++ (ids' ++ rest)⟩
      (do
        body
        jumpBy .loopBack header
        closeLoop
        finishLoop exit elseBlock (orElse.getD (pure ())))
      fun _ w' s => s = ⟨x, rest⟩ ∧ w.Lowered x w' (ids ++ ids') (bare ++ bare') ∧ goal w' ∧ goal' w' := by
  refine hbody.giving le_rfl hp fun w₁ hw₁ hlowered hgoal => ?_
  refine .andThen (notes_jumpBy nofun (h.header.free.mono hw₁)) (.andThen notes_closeLoop ?_)
  have h := h.mono hw₁
  have hfinish : ∀ {w₂}, w₁ ≤ w₂ → w.Lowered x w₂ ids' bare' → goal' w₂ →
      Carries Kept w₂ ⟨x, rest⟩ (setCurrent exit) fun _ w' s =>
        s = ⟨x, rest⟩ ∧ w.Lowered x w' (ids ++ ids') (bare ++ bare') ∧ goal w' ∧ goal' w' := by
    intro w₂ hw₂ hlowered' hgoal'
    have hexit : w₂.Made exit x.regions := h.exit.mono hw₂
    refine (notes_setCurrent hexit).imp fun _ w₃ s' hw₃ hs => ⟨hs, ?_, ?_⟩
    · exact (hlowered.mono (hw₂.trans hw₃)).append (hlowered'.mono hw₃)
    · exact ⟨hbody.mono (hw₂.trans hw₃) hgoal, helse.mono hw₃ hgoal'⟩
  unfold finishLoop
  cases elseBlock with
  | some c =>
    refine .andThen (notes_setCurrent (h.elseBlock c rfl)) ?_
    refine helse.giving hw₁ hp fun w₂ hw₂ hlowered' hgoal' => ?_
    exact .andThen (notes_jump (h.exit.free.mono hw₂)) (hfinish hw₂ hlowered' hgoal')
  | none =>
    obtain rfl : orElse = none := by simpa using hsome.symm
    change Carries Kept w₁ _ ((none : Option (Build Unit)).getD (pure ()) >>= fun _ => setCurrent exit) _
    exact helse.giving hw₁ hp fun w₂ hw₂ hlowered' hgoal' => hfinish hw₂ hlowered' hgoal'

theorem notes_buildWhile (node test : Node) {body : Build Unit} {orElse : Option (Build Unit)}
    (hbody : Notes ids bare goal body) (helse : Notes ids' bare' goal' (orElse.getD (pure ()))) :
    Notes (test.ids ++ (ids ++ ids')) (test.ids ++ (bare ++ bare')) (fun w => goal w ∧ goal' w)
      (buildWhile node test body orElse) where
  mono _ _ hw h := ⟨hbody.mono hw h.1, helse.mono hw h.2⟩
  carries w x rest hp := by
    refine .put x test.ids (ids ++ (ids' ++ rest)) (fun i => by simp) fun w₁ hw₁ hput => ?_
    refine (notes_startLoop _).giving fun (exit, elseBlock, header) w₂ hw₂ ⟨h, hsome⟩ => ?_
    refine .andThen (notes_openLoop h) (.andThen (notes_setCurrent h.header) ?_)
    refine .noteTest (hput.mono hw₂) ?_
    refine notes_newBlock.giving fun bodyBlock w₃ hw₃ hbodyBlock => ?_
    have h := h.mono hw₃
    refine .andThen (notes_fork hbodyBlock.1.free h.leave) (.andThen (notes_setCurrent hbodyBlock.1) ?_)
    have hw := hw₂.trans hw₃
    refine (notes_closeBody h hsome (hp.mono (hw₁.trans hw)) hbody helse).imp fun _ w₄ s' hw₄ hs => ⟨hs.1, ?_, hs.2.2⟩
    have hw' := hw₁.trans (hw.trans hw₄)
    exact ((hput.mono (hw.trans hw₄)).lowered hw' hp).append (hs.2.1.of_le (hw₁.trans hw))

theorem notes_buildFor (node target iterable : Node) {body : Build Unit} {orElse : Option (Build Unit)}
    (hbody : Notes ids bare goal body) (helse : Notes ids' bare' goal' (orElse.getD (pure ()))) :
    Notes ((target.ids ++ iterable.ids) ++ (ids ++ ids')) ((target.ids ++ iterable.ids) ++ (bare ++ bare'))
      (fun w => goal w ∧ goal' w) (buildFor node target iterable body orElse) where
  mono _ _ hw h := ⟨hbody.mono hw h.1, helse.mono hw h.2⟩
  carries w x rest hp := by
    refine .put x (target.ids ++ iterable.ids) (ids ++ (ids' ++ rest)) (fun i => by simp [Nat.add_assoc])
      fun w₁ hw₁ hput => ?_
    obtain ⟨htarget, hiterable⟩ := Register.puts_append.1 hput
    refine .andThen (notes_lowerExpr iterable w₁ _ hiterable) ?_
    refine .andThen (notes_hoistOnce (hiterable _ iterable.id_mem_ids)) ?_
    refine (notes_startLoop _).giving fun (exit, elseBlock, header) w₂ hw₂ ⟨h, hsome⟩ => ?_
    refine .andThen (notes_openLoop h) ?_
    refine notes_newBlock.giving fun bodyBlock w₃ hw₃ hbodyBlock => ?_
    have h := h.mono hw₃
    have hw := hw₂.trans hw₃
    refine .andThen (notes_setCurrent h.header) (.andThen (notes_fork hbodyBlock.1.free h.leave) ?_)
    refine .andThen (notes_setCurrent hbodyBlock.1) (.andThen (notes_push fun i hi => ?_) ?_)
    · exact Option.some.inj hi ▸ htarget.mono hw _ target.id_mem_ids
    refine (notes_closeBody h hsome (hp.mono (hw₁.trans hw)) hbody helse).imp fun _ w₄ s' hw₄ hs => ⟨hs.1, ?_, hs.2.2⟩
    have hw' := hw₁.trans (hw.trans hw₄)
    exact ((hput.mono (hw.trans hw₄)).lowered hw' hp).append (hs.2.1.of_le (hw₁.trans hw))

end Loops

/-! ## Guarded blocks -/

section Guarded

variable {regions : List Region} {seam : Option BlockId} {dispatch join after entry : BlockId} {hs : List Node}

theorem notes_openRegion {region : BlockId → Region} {next : BlockId → Build β}
    (hregion : ∀ id, (region id).bare = region id ∧ (region id).target = id ∧ (region id).pending = [])
    (h : ∀ id w' c, w ≤ w' → w.origins.length ≤ id → w'.Made id regions →
      Carries Kept w' ⟨⟨region id :: regions, some c⟩, todo⟩ (next id) result) :
    Carries Kept w ⟨⟨regions, seam⟩, todo⟩ (openRegion region >>= next) result := by
  unfold openRegion
  simp only [bind_assoc, pure_bind]
  refine notes_newBlock.giving fun id w₁ hw₁ hid => ?_
  obtain ⟨hbare, htarget, hpending⟩ := hregion id
  have hopen : Carries Kept w₁ ⟨⟨regions, seam⟩, todo⟩
      (modify fun b => { b with regions := region id :: b.regions } : Build Unit)
      fun _ _ s' => ∃ c, s' = ⟨⟨region id :: regions, some c⟩, todo⟩ := by
    refine .modify fun w₂ b hw₂ hb => ⟨w₂, ⟨⟨region id :: regions, some b.current⟩, todo⟩, le_rfl, ?_, _, rfl⟩
    refine { hb with
      regions_eq := by simp only [map_cons, hbare, hb.regions_eq]
      free := fun c hc => ?_
      await := ⟨by simp [hpending], hb.await⟩
      here := .inr rfl }
    simp only [Place.targets, map_cons, htarget, mem_cons] at hc
    rcases hc with hc | hc | rfl | hc
    · exact hb.free c (hc ▸ mem_cons_self)
    · exact hb.free c (hc ▸ mem_cons_of_mem _ mem_cons_self)
    · exact hid.1.free.mono hw₂
    · exact hb.free_target hc
  refine hopen.bind fun _ w₂ s' hw₂ hs => ?_
  obtain ⟨c, rfl⟩ := hs
  exact h id w₂ c (hw₁.trans hw₂) hid.2 (hid.1.mono hw₂)

theorem notes_closeRegion {r : Region} : Carries Kept w ⟨⟨r :: regions, none⟩, todo⟩ closeRegion fun _ w' s' =>
      ∃ c o, s' = ⟨⟨regions, some c⟩, todo⟩ ∧ w'.origins[c]? = some o ∧
        o.regions = r :: regions := by
  refine .modify fun w₁ b hw hb => ?_
  obtain ⟨y, outer, hr, -, hbare⟩ := map_eq_cons_iff.1 hb.regions_eq
  obtain ⟨o, ho, htargets⟩ := hb.here.resolve_right nofun
  have hawait := hb.await
  rw [hr] at hawait
  refine ⟨w₁, ⟨⟨regions, some b.current⟩, todo⟩, le_rfl, ?_, b.current, o, rfl, ho, htargets⟩
  rw [hr]
  refine { hb with regions_eq := hbare, free := fun c hc => hb.free c ?_, await := hawait.2, here := .inr rfl }
  exact cons_subset_cons _ (cons_subset_cons _ (subset_cons_self _ _)) hc

theorem Carries.loosen {act : Build Unit} {fits : Register → Prop}
    (h : Carries Kept w s act fun _ w' s' => s' = ⟨⟨regions, none⟩, rest⟩ ∧ fits w') :
    Carries Kept w s act fun _ w' s' => s' = ⟨⟨regions, seam⟩, rest⟩ ∧ fits w' := by
  intro w₁ b y b' hw hb hrun
  obtain ⟨w₂, _, hw₂, hb', rfl, hfits⟩ := h w₁ b y b' hw hb hrun
  exact ⟨w₂, ⟨⟨regions, seam⟩, rest⟩, hw₂, { hb' with here := hb'.here.imp id nofun }, rfl, hfits⟩

theorem Carries.noteBody {body : Build Unit} {next : Unit → Build β} (hbody : Notes ids bare goal body)
    (h : ∀ w', w ≤ w' → w.Lowered ⟨regions, none⟩ w' ids bare → goal w' →
      Carries Kept w' ⟨⟨regions, none⟩, rest⟩ (next ()) result) :
    Carries Kept w ⟨⟨regions, seam⟩, ids ++ rest⟩ (do
      let start ← newBlock
      jump start
      setCurrent start
      let first ← newBlock
      jump first
      setCurrent first
      body >>= next) result := by
  refine notes_newBlock.giving fun start w₁ hw₁ hstart => ?_
  refine .andThen (notes_jump hstart.1.free) (.andThen (notes_turnTo none hstart.1) ?_)
  refine notes_newBlock.giving fun first w₂ hw₂ hfirst => ?_
  refine .andThen (notes_jump hfirst.1.free) (.andThen (notes_setCurrent hfirst.1) ?_)
  have hw := hw₁.trans hw₂
  exact hbody.giving hw (w.valid_none _) fun w₃ hw₃ => h w₃ (hw.trans hw₃)

theorem notes_buildLast {last : Build Unit} (hentry : w.Made entry regions)
    (hafter : w.Free after) (hlast : Notes ids bare goal last) :
    Carries Kept w ⟨⟨.last entry [] :: regions, seam⟩, ids ++ rest⟩ (buildLast after last) fun _ w' s' =>
      s' = ⟨⟨regions, none⟩, rest⟩ ∧ w.Lowered ⟨regions, none⟩ w' ids bare ∧ goal w' := by
  refine .withState fun w₁ b y b' hw hb hrun => ?_
  obtain ⟨region, outer, hregions, hbare, houter⟩ := map_eq_cons_iff.1 hb.regions_eq
  have hawait := hb.await
  rw [hregions] at hawait
  cases region with
  | handlers dispatch => cases hbare
  | last entry' pending =>
    obtain rfl := (Region.last.inj hbare).1
    rw [hregions] at hrun
    have hrest : Carries Kept w₁ ⟨⟨regions, none⟩, ids ++ rest⟩ (do
        last
        let b ← get
        addEdge b.current b.exceptionTarget .exception
        pending.forM fun j => route b.current j.1 j.2.1 j.2.2
        jump after) fun _ w' s' =>
          s' = ⟨⟨regions, none⟩, rest⟩ ∧ w.Lowered ⟨regions, none⟩ w' ids bare ∧ goal w' := by
      refine hlast.giving hw (w.valid_none _) fun w₂ hw₂ hlowered hgoal => ?_
      refine Carries.get.giving fun b₂ w₃ hw₃ hb₂ => ?_
      obtain ⟨o, ho, hsub⟩ := (w₃.valid_none _).regions_subset hb₂.here
      refine .andThen (notes_raise hb₂ ho hsub) ?_
      have hw := hw₂.trans hw₃
      refine .andThen (.forM fun j hj => notes_route ⟨(hawait.1 j hj).2.1.mono hw, (hawait.1 j hj).2.2⟩) ?_
      refine (notes_jump (hafter.mono ?_)).imp fun _ w₄ s' hw₄ hs => ⟨hs, ?_, ?_⟩
      · exact (‹w ≤ w₁›).trans hw
      · exact hlowered.mono (hw₃.trans hw₄)
      · exact hlast.mono (hw₃.trans hw₄) hgoal
    refine hrest w₁ { b with regions := outer, current := entry' } y b' le_rfl ?_ hrun
    refine { hb with
      regions_eq := houter
      free := fun c hc => hb.free c ?_
      await := hawait.2
      here := .inl ⟨_, hentry.mono hw, rfl⟩ }
    exact cons_subset_cons _ (cons_subset_cons _ (subset_cons_self _ _)) hc

/-- An action lowers handlers with the given numbers, each of which starts in a block of its own that only the
dispatch leads to. -/
structure NotesHandlers (dispatch join : BlockId) (ids : List NodeId) (hs : List Node) (goal : Register → Prop)
    (act : Build Unit) : Prop where
  mono : Monotone goal
  carries : ∀ (w : Register) (regions : List Region) (seam : Option BlockId) (rest : List NodeId),
    w.Made dispatch regions → w.Free join →
    Carries Kept w ⟨⟨regions, seam⟩, ids ++ rest⟩ act fun _ w' s' => s' = ⟨⟨regions, seam⟩, rest⟩ ∧
      w.Lowered ⟨regions, none⟩ w' ids [] ∧ goal w' ∧
      ∀ h ∈ hs, ∃ (c : BlockId) (o : Origin), w'.origins[c]? = some o ∧ o.handler = some (dispatch, h)

theorem notes_enterHandler {handler : Node} {next : Unit → Build β}
    (hd : w.Made dispatch regions) (hh : w.places handler.id = some ⟨regions, none⟩)
    (h : ∀ w' (c : BlockId), w ≤ w' →
      w'.origins[c]? = some ⟨regions, some (dispatch, handler)⟩ →
      Carries Kept w' ⟨⟨regions, none⟩, todo⟩ (next ()) result) :
    Carries Kept w ⟨⟨regions, seam⟩, todo⟩ (do
      let block ← newBlock
      addEdge dispatch block .unconditional
      setCurrent block
      push (.handle handler) >>= next) result := by
  intro w₁ b y b' hw hb hrun
  obtain ⟨block, b₁, hnew, hrun⟩ := run_bind_eq_ok hrun
  obtain ⟨_, _, hget, hnew⟩ := run_bind_eq_ok hnew
  cases hget
  obtain ⟨rfl, g, rfl, hsprouts⟩ := sprouts_newBlockAt hb hnew
  have hlen := hb.noted.length_eq
  -- The block, the edge to it and its first step come together: a block without them might be led to from elsewhere.
  have hnoted := hb.noted.sproutHandler hsprouts (fun _ => hb.free_target) (hlen ▸ (hd.free.mono hw).lt_length)
    (hw.2 _ _ hh) rfl
  set o : Origin := ⟨regions, some (dispatch, handler)⟩
  have horigin : (w₁.add o).origins[b.graph.size]? = some o := hlen ▸ w₁.origins_add o
  have hjoin : g.Joins (g.addEdge dispatch b.graph.size .unconditional) fun _ _ => True := .addEdge g trivial
  have hkept := hb.extend hnoted (hjoin.exit_eq.trans hsprouts.exit_eq)
    (hjoin.raiseExit_eq.trans hsprouts.raiseExit_eq)
  have hentered : Kept ⟨⟨regions, none⟩, todo⟩ (w₁.add o) { b with
      graph := (g.addEdge dispatch b.graph.size .unconditional).addStep b.graph.size (.handle handler)
      current := b.graph.size } := { hkept with here := .inl ⟨o, horigin, rfl⟩ }
  obtain ⟨w₂, s', hw₂, hb', hy⟩ := h _ _ (hw.trans (w₁.le_add o)) horigin _ _ y b' le_rfl hentered hrun
  exact ⟨w₂, s', (w₁.le_add o).trans hw₂, hb', hy⟩

theorem notes_buildHandler (handler : Node) {body : Build Unit}
    (hbody : Notes (idsAll handler.children.getLast?.toList) bare goal body) :
    NotesHandlers dispatch join handler.ids [handler] goal (buildHandler handler dispatch join body) where
  mono := hbody.mono
  carries w regions seam rest hd hj := by
    have hcount : ∀ i, (idsAll handler.children.dropLast).count i +
        (idsAll handler.children.getLast?.toList).count i = (idsAll handler.children).count i := by
      intro i
      rw [← count_rotate handler.children i, idsAll_append, count_append, Nat.add_comm]
    refine .put ⟨regions, none⟩ (handler.id :: idsAll handler.children.dropLast)
      (idsAll handler.children.getLast?.toList ++ rest) (fun i => ?_) fun w₁ hw₁ hput => ?_
    · have := hcount i
      simp only [ids_eq, count_append, count_cons, cons_append]
      omega
    refine notes_enterHandler (hd.mono hw₁) (hput _ mem_cons_self) fun w₂ c hw₂ hc => ?_
    refine hbody.giving (hw₁.trans hw₂) (w.valid_none _) fun w₃ hw₃ hlowered hgoal => .loosen ?_
    have hw := hw₁.trans (hw₂.trans hw₃)
    refine (notes_jump (hj.mono hw)).imp fun _ w₄ s' hw₄ hs =>
      ⟨hs, ⟨nofun, fun i hi => ?_⟩, hbody.mono hw₄ hgoal, ?_⟩
    · have hnames := (hput.mono (hw₂.trans (hw₃.trans hw₄))).lowered (hw.trans hw₄) (w.valid_none _)
      refine (hnames.append (hlowered.mono hw₄)).inside i ?_
      have hpos := count_pos_iff.2 hi
      have := hcount i
      rw [← count_pos_iff]
      simp only [ids_eq, count_append, count_cons, cons_append] at hpos ⊢
      omega
    · intro h hh
      cases mem_singleton.1 hh
      exact ⟨c, _, Register.origins_mono (hw₃.trans hw₄) hc, rfl⟩

section Try

variable {outer : List Region} {seam' : Option BlockId}
  {idsB idsE idsH idsL bareB bareE bareL : List NodeId} {goalB goalE goalH goalL : Register → Prop}
  {body orElse : Build Unit} {handlers : BlockId → BlockId → Build Unit} {catchesAll : Bool} {k : Unit → Build β}

/-- A body with handlers stands under their dispatch, and the rest of the regions is as it was. -/
theorem notes_guarded (hbody : Notes idsB bareB goalB body) (helse : Notes idsE bareE goalE orElse)
    (hhandlers : ∀ dispatch join, NotesHandlers dispatch join idsH hs goalH (handlers dispatch join))
    (hexit : w.Free FlowGraph.initial.raiseExit) (houter : ∀ c ∈ outer.map Region.target, c < w.origins.length)
    (hjoin : w.Free join) (hk : ∀ w' c, w ≤ w' → w.Lowered ⟨outer, none⟩ w' (idsB ++ (idsE ++ idsH)) [] →
      goalB w' ∧ goalE w' ∧ goalH w' →
      (∃ dispatch, w.origins.length ≤ dispatch ∧ w'.Made dispatch outer ∧
        w'.Protects bareB idsE idsH hs dispatch c) →
      Carries Kept w' ⟨⟨outer, some c⟩, rest⟩ (k ()) result) :
    Carries Kept w ⟨⟨outer, seam'⟩, idsB ++ (idsE ++ (idsH ++ rest))⟩ (do
      let dispatch ← openRegion .handlers
      let start ← newBlock
      jump start
      setCurrent start
      let first ← newBlock
      jump first
      setCurrent first
      body
      closeRegion
      orElse
      jump join
      handlers dispatch join
      if !catchesAll then addEdge dispatch (← get).exceptionTarget .exception
      k ()) result := by
  refine notes_openRegion (fun _ => ⟨rfl, rfl, rfl⟩) fun dispatch w₁ c hw₁ hnew hdispatch => ?_
  have htargets : ∀ t ∈ (Region.handlers dispatch :: outer).map Region.target,
      t ∈ outer.map Region.target ∨ w.origins.length ≤ t := forall_mem_cons.2 ⟨.inr hnew, fun _ => .inl⟩
  refine .noteBody hbody fun w₂ hw₂ hB hgoalB => ?_
  refine notes_closeRegion.bind fun _ w₃ s hw₃ ⟨e, o, hs, he, ho⟩ => ?_
  subst hs
  -- The body has ended in a block made under the dispatch, and under all that is around it.
  have hvalid : w₃.Valid ⟨outer, some e⟩ := fun t ht => ⟨o, Option.some.inj ht ▸ he, ho ▸ subset_cons_self _ _⟩
  refine helse.giving le_rfl hvalid fun w₄ hw₄ hE hgoalE => ?_
  have hw' := hw₁.trans (hw₂.trans (hw₃.trans hw₄))
  refine .andThen (notes_jump (hjoin.mono hw')) ?_
  have hdispatch := hdispatch.mono (hw₂.trans hw₃)
  have hlower := (hhandlers dispatch join).carries w₄ outer (some e) rest (hdispatch.mono hw₄) (hjoin.mono hw')
  refine hlower.giving fun _ w₅ hw₅ ⟨hH, hgoalH, hstarts⟩ => ?_
  have hlowered : w.Lowered ⟨outer, none⟩ w₅ (idsB ++ (idsE ++ idsH)) [] := by
    have hB := hB.under (p := ⟨outer, none⟩) hw₁ (subset_cons_self _ _) htargets nofun
    have hE := hE.under (p := ⟨outer, none⟩) (hw₁.trans (hw₂.trans hw₃)) (.refl _) (fun _ => .inl)
      fun t ht => ⟨o, Option.some.inj ht ▸ he, by rw [Origin.targets, ho]; exact htargets⟩
    exact (hB.mono (hw₃.trans (hw₄.trans hw₅))).append ((hE.mono hw₅).append (hH.of_le hw'))
  have hprotects : w₅.Protects bareB idsE idsH hs dispatch e :=
    .of_lowered hdispatch.free.lt_length (fun heq => Nat.not_lt.2 hnew (heq ▸ hexit.lt_length))
      (fun hmem => Nat.not_lt.2 hnew (houter _ hmem)) (hB.bare.mono hw₃) he ho hw₄ hE hw₅ hH hstarts
  have hrest : ∀ {w'}, w₅ ≤ w' → Carries Kept w' ⟨⟨outer, some e⟩, rest⟩ (k ()) result := by
    intro w₆ hw₆
    refine hk w₆ e (hw'.trans (hw₅.trans hw₆)) (hlowered.mono hw₆) ⟨?_, ?_, ?_⟩
      ⟨dispatch, hnew, hdispatch.mono (hw₄.trans (hw₅.trans hw₆)), hprotects.mono hw₆⟩
    · exact hbody.mono (hw₃.trans (hw₄.trans (hw₅.trans hw₆))) hgoalB
    · exact helse.mono (hw₅.trans hw₆) hgoalE
    · exact (hhandlers dispatch join).mono hw₆ hgoalH
  split
  · refine Carries.get.giving fun b w₆ hw₆ hb => ?_
    exact .andThen (notes_raise hb (hdispatch.mono (hw₄.trans (hw₅.trans hw₆))) (.refl _)) (hrest hw₆)
  · exact hrest le_rfl

/-- A guarded block: the dispatch of its handlers gets what its body raises, and its last part guards the rest. -/
theorem notes_buildTry {handlers : Option (BlockId → BlockId → Build Unit)} {last : Option (Build Unit)}
    (hbody : Notes idsB bareB goalB body) (helse : Notes idsE bareE goalE orElse)
    (hhandlers : ∀ h ∈ handlers, ∀ dispatch join, NotesHandlers dispatch join idsH hs goalH (h dispatch join))
    (hnone : handlers = none → idsH = [] ∧ hs = [] ∧ ∀ w, goalH w)
    (hlast : ∀ l ∈ last, Notes idsL bareL goalL l) (hnone' : last = none → idsL = [] ∧ ∀ w, goalL w) :
    Notes (idsB ++ (idsE ++ (idsH ++ idsL))) []
      (fun w => ((goalB w ∧ goalE w ∧ goalH w) ∧ goalL w) ∧
        (handlers.isSome = true → ∃ dispatch seam, w.Protects bareB idsE (idsH ++ idsL) hs dispatch seam) ∧
        (last.isSome = true → ∃ entry, w.Closes (idsB ++ (idsE ++ idsH)) idsL hs entry))
      (buildTry body orElse handlers catchesAll last) := by
  have hmono : Monotone fun w => goalB w ∧ goalE w ∧ goalH w := by
    refine fun w w' hw h => ⟨hbody.mono hw h.1, helse.mono hw h.2.1, ?_⟩
    cases handlers with
    | none => exact (hnone rfl).2.2 w'
    | some a => exact (hhandlers a rfl 0 0).mono hw h.2.2
  have hmono' : Monotone goalL := by
    cases last with
    | none => exact fun _ w' _ _ => (hnone' rfl).2 w'
    | some a => exact (hlast a rfl).mono
  refine ⟨fun w w' hw h => ⟨⟨hmono hw h.1.1, hmono' hw h.1.2⟩, fun hsome => ?_, fun hsome => ?_⟩,
    fun w ⟨regions, seam⟩ rest hp => ?_⟩
  · obtain ⟨dispatch, seam, h⟩ := h.2.1 hsome
    exact ⟨dispatch, seam, h.mono hw⟩
  · exact (h.2.2 hsome).imp fun _ h => h.mono hw
  simp only [append_assoc]
  refine .start fun w₀ b₀ hw₀ hb₀ => ?_
  have hexit : w₀.Free FlowGraph.initial.raiseExit := hb₀.raiseExit_eq ▸ hb₀.free _ (by simp)
  have hregions : ∀ c ∈ regions.map Region.target, c < w₀.origins.length := fun c hc =>
    (hb₀.free_target hc).lt_length
  refine notes_newBlock.giving fun after w₁ hw₁ hmade => ?_
  have hafter : w₁.Made after regions := hmade.1
  extract_lets finish conclude guarded
  set final := fun (_ : Unit) (w' : Register) (s : Standing) => s = ⟨⟨regions, seam⟩, rest⟩ ∧
    w.Lowered ⟨regions, seam⟩ w' (idsB ++ (idsE ++ (idsH ++ idsL))) [] ∧
    ((goalB w' ∧ goalE w' ∧ goalH w') ∧ goalL w') ∧
    (handlers.isSome = true → ∃ dispatch seam, w'.Protects bareB idsE (idsH ++ idsL) hs dispatch seam) ∧
    (last.isSome = true → ∃ entry, w'.Closes (idsB ++ (idsE ++ idsH)) idsL hs entry)
  have hguarded : ∀ {outer : List Region} {seam₂ : Option BlockId} {join : BlockId} {w₂ : Register}, w₁ ≤ w₂ →
      (∀ c ∈ outer.map Region.target, c < w₂.origins.length) → w₂.Free join →
      (∀ w₃ seam₃, w₂ ≤ w₃ → w₂.Lowered ⟨outer, none⟩ w₃ (idsB ++ (idsE ++ idsH)) [] →
        goalB w₃ ∧ goalE w₃ ∧ goalH w₃ →
        (handlers.isSome = true → ∃ dispatch seam, w₂.origins.length ≤ dispatch ∧ w₃.Made dispatch outer ∧
          w₃.Protects bareB idsE idsH hs dispatch seam) →
        Carries Kept w₃ ⟨⟨outer, seam₃⟩, idsL ++ rest⟩ (conclude ⟨⟩) final) →
      Carries Kept w₂ ⟨⟨outer, seam₂⟩, idsB ++ (idsE ++ (idsH ++ (idsL ++ rest)))⟩ (guarded join) final := by
    intro outer seam₂ join w₂ hw₂ houter hjoin hconclude
    unfold guarded
    extract_lets protect
    split
    next hsome =>
      obtain ⟨h, rfl⟩ := Option.isSome_iff_exists.1 hsome
      rw [map_eq_pure_bind, bind_assoc]
      simp only [pure_bind]
      refine notes_guarded (k := conclude) hbody helse (hhandlers h rfl) (hexit.mono (hw₁.trans hw₂)) houter hjoin ?_
      intro w₃ c hw₃ hlowered hgoals ⟨dispatch, hprotects⟩
      exact hconclude w₃ _ hw₃ hlowered hgoals fun _ => ⟨dispatch, c, hprotects⟩
    next hnot =>
      obtain rfl : handlers = none := by simpa using hnot
      obtain ⟨rfl, -, hgoalH⟩ := hnone rfl
      rw [pure_bind]
      refine .noteBody hbody fun w₃ hw₃ hB hgoalB => ?_
      refine helse.giving le_rfl (w₃.valid_none _) fun w₄ hw₄ hE hgoalE => ?_
      refine .andThen (notes_jump (hjoin.mono (hw₃.trans hw₄))) ?_
      refine hconclude w₄ none (hw₃.trans hw₄) ?_ ⟨hbody.mono hw₄ hgoalB, hgoalE, hgoalH w₄⟩ nofun
      have hB := hB.under (p := ⟨outer, none⟩) le_rfl (.refl _) (fun _ => .inl) nofun
      have hE := hE.under (p := ⟨outer, none⟩) hw₃ (.refl _) (fun _ => .inl) nofun
      rw [append_nil]
      exact (hB.mono hw₄).append hE
  -- The targets around the guarded block have been there before its dispatch and its last part.
  have hnot : ∀ {c : BlockId}, w₀.origins.length ≤ c → c ∉ regions.map Region.target :=
    fun hnew hmem => Nat.not_lt.2 hnew (hregions _ hmem)
  split
  next hsome =>
    obtain ⟨l, rfl⟩ := Option.isSome_iff_exists.1 hsome
    refine notes_openRegion (fun _ => ⟨rfl, rfl, rfl⟩) fun entry w₂ c hw₂ hnew hentry => ?_
    have hnew₀ : w₀.origins.length ≤ entry := hw₁.1.length_le.trans hnew
    have hw := hw₁.trans hw₂
    refine hguarded hw₂ (forall_mem_cons.2 ⟨hentry.free.lt_length, fun t ht => ?_⟩) hentry.free
      fun w₃ seam₃ hw₃ hlowered hgoals hprotects => ?_
    · exact (hregions t ht).trans_le hw.1.length_le
    have hafter := hafter.mono (hw₂.trans hw₃)
    refine (notes_buildLast (hentry.mono hw₃) hafter.free (hlast l rfl)).giving fun _ w₄ hw₄ ⟨hL, hgoalL⟩ => ?_
    have hcloses : w₄.Closes (idsB ++ (idsE ++ idsH)) idsL hs entry := by
      refine ⟨fun i hi => ?_, hL.avoids (hentry.mono hw₃).free.lt_length ⟨hnot hnew₀, nofun⟩, fun h hh => ?_⟩
      · obtain ⟨q, hq, ⟨hvalid, hin⟩, -⟩ := (hlowered.mono hw₄).inside i hi
        exact ⟨q, hq, hvalid, hin mem_cons_self⟩
      · obtain ⟨a, rfl⟩ : ∃ a, handlers = some a := by
          refine Option.ne_none_iff_exists'.1 fun hnone₁ => ?_
          rw [(hnone hnone₁).2.1] at hh
          cases hh
        obtain ⟨dispatch, seam, -, hdispatch, hprotects⟩ := hprotects rfl
        obtain ⟨c, o, hc, ho⟩ := (hprotects.mono hw₄).starts h hh
        exact ⟨c, dispatch, o, _, hc, ho, hdispatch.mono hw₄, mem_cons_self⟩
    refine (notes_turnTo seam (hafter.mono hw₄)).imp fun _ w₅ s' hw₅ hs =>
      ⟨hs, ?_, ⟨?_, hmono' hw₅ hgoalL⟩, fun hsome => ?_, fun _ => ⟨entry, hcloses.mono hw₅⟩⟩
    · have hlowered := hlowered.under (p := ⟨regions, seam⟩) hw (subset_cons_self _ _)
        (forall_mem_cons.2 ⟨.inr hnew₀, fun _ => .inl⟩) nofun
      have hL := hL.under (p := ⟨regions, seam⟩) (hw.trans hw₃) (.refl _) (fun _ => .inl) nofun
      simpa using (((hlowered.mono hw₄).append hL).mono hw₅).of_le hw₀
    · exact hmono (hw₄.trans hw₅) hgoals
    · obtain ⟨dispatch, seam, hnew, -, hprotects⟩ := hprotects hsome
      exact ⟨dispatch, seam, (hprotects.also (hnot (hw.1.length_le.trans hnew)) rfl hL hw₄).mono hw₅⟩
  next hnone₁ =>
    obtain rfl : last = none := by simpa using hnone₁
    obtain ⟨rfl, hgoalL⟩ := hnone' rfl
    rw [pure_bind]
    refine hguarded le_rfl (fun t ht => (hregions t ht).trans_le hw₁.1.length_le) hafter.free
      fun w₃ seam₃ hw₃ hlowered hgoals hprotects => ?_
    refine (notes_turnTo seam (hafter.mono hw₃)).imp fun _ w₄ s' hw₄ hs =>
      ⟨hs, ?_, ⟨hmono hw₄ hgoals, hgoalL w₄⟩, fun hsome => ?_, nofun⟩
    · have hlowered := hlowered.under (p := ⟨regions, seam⟩) hw₁ (.refl _) (fun _ => .inl) nofun
      rw [append_nil]
      exact (hlowered.mono hw₄).of_le hw₀
    · obtain ⟨dispatch, seam, -, -, hprotects⟩ := hprotects hsome
      rw [append_nil]
      exact ⟨dispatch, seam, hprotects.mono hw₄⟩

end Try

end Guarded

end Builder
end PointsTo
