import PointsTo.Proofs.Flow.Charting

/-! # Every unit has a chart

Follows the lowering of statements with the chart. A statement leaves the site that it was lowered in as it found
it: it reaches no further up the chart than its site, and whatever it hands to a loop or a region around it stands
beyond. -/

namespace PointsTo

open List Chart
open Node (Held idsAll idsAll_cons)

theorem Node.count_idsAll_of_perm {ms ns : List Node} (h : ms.Perm ns) (i : NodeId) :
    (idsAll ms).count i = (idsAll ns).count i := by
  induction h with
  | nil => rfl
  | cons n _ ih => simp [ih]
  | swap m n _ =>
    simp
    omega
  | trans _ _ ih ih' => exact ih.trans ih'

namespace Site

variable {s : Site} {w : Chart}

def inLoop (s : Site) (header exit : BlockId) (limit : ℚ) (base : List NodeId) : Site :=
  { s with loops := ⟨header, exit, s.regions.length⟩ :: s.loops, limit, base }

def inRegion (s : Site) (r : Region) (limit : ℚ) : Site := { s with regions := r :: s.regions, limit }

theorem Open.inLoop (h : s.Open w) {header exit : BlockId} {limit : ℚ} {base : List NodeId} {p q : Spot}
    (hl : limit ≤ s.limit) (hb : s.base ⊆ base) (hexit : w.spots[exit]? = some q)
    (hq : (s.within limit base).Beyond q) (hheader : w.spots[header]? = some p)
    (hp : p.nest ⊆ header :: s.headers) (hk : p.known ⊆ base) : (s.inLoop header exit limit base).Open w where
  aims c hc := by
    have hbeyond : ∀ {q : Spot}, (s.within limit base).Beyond q → (s.inLoop header exit limit base).Beyond q :=
      fun hq => ⟨hq.limit_le, subset_cons_of_subset _ hq.nest_subset, hq.known_subset⟩
    have hold : c = exit ∨ c ∈ (s.within limit base).aims := by
      rw [mem_aims] at hc ⊢
      rcases hc with hc | hc | hc | ⟨l, hl, hc⟩
      · exact .inr (.inl hc)
      · exact .inr (.inr (.inl hc))
      · exact .inr (.inr (.inr (.inl hc)))
      · rcases mem_cons.1 hl with rfl | hl
        · exact .inl hc.symm
        · exact .inr (.inr (.inr (.inr ⟨l, hl, hc⟩)))
    rcases hold with rfl | hc
    · exact ⟨q, hexit, hbeyond hq⟩
    · obtain ⟨q, hq, hbe⟩ := (h.within hl hb).aims c hc
      exact ⟨q, hq, hbeyond hbe⟩
  back c hc := by
    rcases mem_cons.1 hc with rfl | hc
    · exact ⟨p, hheader, hp, hk⟩
    · obtain ⟨q, hq, hnest, hknown⟩ := (h.within hl hb).back c hc
      exact ⟨q, hq, subset_cons_of_subset _ hnest, hknown⟩

theorem Open.inRegion (h : s.Open w) {r : Region} {limit : ℚ} {q : Spot} (hl : limit ≤ s.limit)
    (hr : w.spots[r.target]? = some q) (hq : (s.within limit s.base).Beyond q) : (s.inRegion r limit).Open w where
  aims c hc := by
    have hold : c = r.target ∨ c ∈ (s.within limit s.base).aims := by
      rw [mem_aims] at hc ⊢
      rcases hc with hc | hc | ⟨x, hx, hc⟩ | hc
      · exact .inr (.inl hc)
      · exact .inr (.inr (.inl hc))
      · rcases mem_cons.1 hx with rfl | hx
        · exact .inl hc.symm
        · exact .inr (.inr (.inr (.inl ⟨x, hx, hc⟩)))
      · exact .inr (.inr (.inr (.inr hc)))
    rcases hold with rfl | hc
    · exact ⟨q, hr, hq.limit_le, hq.nest_subset, hq.known_subset⟩
    · obtain ⟨q, hq, hbe⟩ := (h.within hl (.refl _)).aims c hc
      exact ⟨q, hq, hbe.limit_le, hbe.nest_subset, hbe.known_subset⟩
  back := (h.within hl (.refl _)).back

end Site

namespace Laid

variable {site : Site} {bound : ℚ} {now todo : List NodeId} {w : Chart} {b : Builder}

theorem leaveRegion {r x : Region} {outer : List Region} {limit : ℚ}
    (h : Laid ⟨site.inRegion r limit, bound, now, todo⟩ w b) (hr : b.regions = x :: outer)
    (hopen : site.Open w) (hl : limit ≤ site.limit) :
    Laid ⟨site, site.limit, now, todo⟩ w { b with regions := outer } := by
  obtain ⟨p, hp, hat⟩ := h.here
  have hregions := h.regions_eq
  rw [hr] at hregions
  have hawait := h.await
  rw [hr] at hawait
  have hlt : p.rank < site.limit := hat.rank_lt.trans_le hl
  exact { h with
    regions_eq := (List.cons.inj hregions).2
    isOpen := hopen
    await := hawait.2
    here := ⟨p, hp, { hat with rank_lt := hlt, rank_lt_bound := hlt }⟩ }

end Laid

namespace Builder

variable {β : Type} {w : Chart} {site : Site} {bound : ℚ} {now todo rest ids ids' : List NodeId} {n : Node}
  {next : Unit → Build β} {result : β → Chart → Stage → Prop}

/-! ## Simple statements -/

/-- An action lowers nodes with the given numbers, and leaves the site as it found it. -/
def Places (ids : List NodeId) (act : Build Unit) : Prop :=
  ∀ (w : Chart) (site : Site) (rest : List NodeId),
    Carries Laid w (site.stage (ids ++ rest)) act fun _ _ s => s = site.stage rest

theorem Carries.clear {act : Build Unit} {s : Stage}
    (h : Carries Laid w s act fun _ _ s' => ∃ now, s' = ⟨site, site.limit, now, rest⟩) :
    Carries Laid w s act fun _ _ s' => s' = site.stage rest := by
  intro w₁ b x b' hw hb hrun
  obtain ⟨w₂, _, hw₂, hb', now, rfl⟩ := h w₁ b x b' hw hb hrun
  obtain ⟨w₃, hw₃, hlaid, -⟩ := hb'.forget (fun _ => Nat.le_refl _) (.refl _) hb'.base_subset
  exact ⟨w₃, _, hw₂.trans hw₃, hlaid, rfl⟩

theorem Places.drop {ids ids' : List NodeId} {act : Build Unit} (h : Places ids act)
    (hd : ∀ i, ids.count i ≤ ids'.count i) : Places ids' act := fun w site rest =>
  .forget site.base (ids ++ rest) (fun i => by simpa using hd i) (.refl _) (.refl _) fun w' _ _ => h w' site rest

theorem places_pure (ids : List NodeId) : Places ids (pure ()) := fun _ site rest =>
  .forget site.base rest (fun i => by simp) (.refl _) (.refl _) fun _ _ _ => .pure fun _ _ => rfl

theorem places_evaluate (step : Step) {operands children : List Node} (others : List Node)
    (hreads : ∀ hoisted, step.reads hoisted = Node.heldAll hoisted children)
    (hperm : (operands ++ others).Perm children) :
    Places (idsAll children) (lowerSequence [] operands >>= fun _ => push step) := by
  intro w site rest
  have hcount : ∀ i, (idsAll operands).count i + (idsAll others).count i =
      (idsAll children).count i := by
    intro i
    rw [← Node.count_idsAll_of_perm hperm, Node.idsAll_append, count_append]
  refine .forget site.base (idsAll operands ++ rest) (fun i => ?_) (.refl _) (.refl _) fun w₁ _ hfalse => ?_
  · have := hcount i
    simp only [count_append]
    omega
  have hothers : Held w₁ site.base others := by
    refine Node.held_of_not_hoisted fun hoisted hh i hi => hfalse hoisted hh i ?_
    have := hcount i
    have := count_pos_iff.2 hi
    simp only [count_append]
    omega
  refine (carries_lowerSequence [] operands w₁ site site.base rest (forall_mem_nil _)).bind
    fun _ w₂ s₂ hw₂ hs₂ => ?_
  obtain ⟨now₂, rfl, hnow₂, hheld⟩ := hs₂
  have hchildren := (hheld.append (hothers.mono hw₂ hnow₂)).subset hperm.symm.subset
  refine .clear ((carries_push step fun hoisted hh => ?_).imp fun _ _ _ _ hs => ⟨_, hs⟩)
  exact hreads hoisted ▸ hchildren hoisted hh

theorem places_execAfter (stmt : Node) {operands : List Node} (others : List Node)
    (h : (operands ++ others).Perm stmt.children) : Places (idsAll stmt.children) (execAfter stmt operands) :=
  places_evaluate (.exec stmt) others (fun _ => rfl) h

theorem places_returnFrom (stmt : Node) : Places (idsAll stmt.children) (returnFrom stmt) := by
  intro w site rest
  refine .andThen (places_execAfter stmt [] (by simp) w site rest) ?_
  refine Carries.get.giving fun b w₁ _ hb => ?_
  obtain ⟨p, hp, hat⟩ := hb.here
  refine .andThen (carries_setTerminator _ _) ?_
  refine .andThen (carries_route (j := (b.graph.exit, 0, .unconditional)) hp hat.toHolds ?_) carries_startDead
  exact .inl ⟨hb.exit_eq, rfl⟩

theorem places_raiseFrom (stmt : Node) : Places (idsAll stmt.children) (raiseFrom stmt) := by
  intro w site rest
  refine .andThen (places_execAfter stmt [] (by simp) w site rest) ?_
  refine Carries.get.giving fun b w₁ _ hb => ?_
  obtain ⟨p, hp, hat⟩ := hb.here
  refine .andThen (carries_modifyGraph fun w₂ b₂ hw₂ _ => ?_) carries_startDead
  have hjoin := FlowGraph.Joins.setTerminator b₂.graph b.current .raise (b₂.graph.Allows w₂)
  exact hjoin.trans (.addEdge _ ((hb.allows_raise hp hat.toHolds _).mono hw₂))

theorem places_leaveLoop (stmt : Node) (isBreak : Bool) (ids : List NodeId) :
    Places ids (leaveLoop stmt isBreak) := by
  suffices h : Places [] (leaveLoop stmt isBreak) from h.drop fun i => by simp
  intro w site rest
  refine Carries.get.giving fun b w₁ _ hb => ?_
  obtain ⟨p, hp, hat⟩ := hb.here
  split
  next => exact .throw _
  next frame _ hl =>
    have hmem : frame ∈ site.loops := by
      have hloops : b.loops = site.loops := hb.loops_eq
      rw [← hloops, hl]
      exact mem_cons_self
    cases isBreak with
    | true =>
      refine .andThen (carries_setTerminator _ _) ?_
      refine .andThen (carries_route (j := (frame.breakBlock, frame.regionDepth, .unconditional)) hp hat.toHolds ?_)
        carries_startDead
      exact .inr ⟨frame, hmem, rfl, .inl ⟨rfl, rfl⟩⟩
    | false =>
      refine .andThen (carries_setTerminator _ _) ?_
      refine .andThen (carries_route (j := (frame.continueBlock, frame.regionDepth, .loopBack)) hp hat.toHolds ?_)
        carries_startDead
      exact .inr ⟨frame, hmem, rfl, .inr ⟨rfl, rfl⟩⟩

theorem places_separate (ids : List NodeId) : Places ids separate := by
  suffices h : Places [] separate from h.drop fun i => by simp
  intro w site rest
  refine Carries.get.giving fun b w₁ _ hb => ?_
  split
  · refine .between fun r hr => ?_
    refine (carries_newBlock hr (.refl _)).giving fun next w₂ hw₂ hnext => ?_
    refine .andThen (carries_jump hnext (.spot le_rfl (.refl _))) ?_
    exact carries_setCurrent hnext (hb.isOpen.mono hw₂) (.refl _) (.spot hr hr (.refl _) (.refl _))
  · exact .pure fun _ _ => rfl

/-! ## Branches -/

variable {body : Build Unit}

theorem places_buildIf (test : Node) {orElse : Build Unit} (hbody : Places ids body)
    (helse : Places ids' orElse) : Places (test.ids ++ (ids ++ ids')) (buildIf test body orElse) := by
  intro w site rest
  rw [append_assoc, append_assoc]
  refine (carries_lowerExpr test w site site.base _).test fun w₁ _ => ?_
  refine .opened fun w₂ hw₂ hopen _ => ?_
  refine .between fun r₀ hr₀ => ?_
  obtain ⟨r₁, hlt, hr₁⟩ := exists_between hr₀
  refine (carries_newBlock hr₀ (.refl _)).giving fun thenBlock w₃ hw₃ hthen => ?_
  refine (carries_newBlock hr₀ (.refl _)).giving fun elseBlock w₄ hw₄ helseBlock => ?_
  refine (carries_newBlock hr₁ (.refl _)).giving fun merge w₅ hw₅ hm => ?_
  have hthen := spots_mono (hw₄.trans hw₅) hthen
  have helseBlock := spots_mono hw₅ helseBlock
  have hopen := hopen.mono ((hw₃.trans hw₄).trans hw₅)
  have hinner : (site.within r₁ site.base).Open w₅ := hopen.within hr₁.le (.refl _)
  refine .andThen (carries_fork hthen (.spot le_rfl (.refl _)) helseBlock (.spot le_rfl (.refl _))) ?_
  refine .andThen (carries_setCurrent hthen hinner (.refl _) (.spot hlt hlt (.refl _) (.refl _))) ?_
  refine .andThen (hbody w₅ (site.within r₁ site.base) _) ?_
  refine .andThen (carries_jump hm (.spot le_rfl (.refl _))) ?_
  refine .andThen (carries_setCurrent helseBlock hinner (.refl _) (.spot hlt hlt (.refl _) (.refl _))) ?_
  refine .andThen (helse w₅ (site.within r₁ site.base) _) ?_
  refine .andThen (carries_jump hm (.spot le_rfl (.refl _))) ?_
  exact carries_setCurrent hm hopen (.refl _) (.spot hr₁ hr₁ (.refl _) (.refl _))

theorem places_buildAssert (test : Node) (message : Option Node) :
    Places (test.ids ++ idsAll message.toList) (buildAssert test message) := by
  intro w site rest
  rw [append_assoc]
  refine (carries_lowerExpr test w site site.base _).test fun w₁ _ => ?_
  refine .opened fun w₂ hw₂ hopen _ => ?_
  refine .between fun r hr => ?_
  refine (carries_newBlock hr (.refl _)).giving fun failBlock w₃ hw₃ hfail => ?_
  refine (carries_newBlock hr (.refl _)).giving fun after w₄ hw₄ hafter => ?_
  have hfail := spots_mono hw₄ hfail
  have hopen := hopen.mono (hw₃.trans hw₄)
  refine .andThen (carries_fork hafter (.spot le_rfl (.refl _)) hfail (.spot le_rfl (.refl _))) ?_
  refine .andThen (carries_setCurrent hfail hopen (.refl _) (.spot hr hr (.refl _) (.refl _))) ?_
  extract_lets finish
  have hfinish : ∀ {w now}, w₄ ≤ w → Carries Laid w ⟨site, site.limit, now, rest⟩ (finish ⟨⟩)
      fun _ _ s => s = site.stage rest := by
    intro w now hw
    refine .andThen (carries_setTerminator _ _) ?_
    refine Carries.get.giving fun b w₅ hw₅ hb => ?_
    obtain ⟨p, hp, hat⟩ := hb.here
    refine .andThen (carries_addEdge (hb.allows_raise hp hat.toHolds)) ?_
    have hw := hw.trans hw₅
    exact carries_setCurrent (spots_mono hw hafter) (hopen.mono hw) (.refl _)
      (.spot hr hr (.refl _) (.refl _))
  split
  next m =>
    refine .forget site.base (m.ids ++ rest) (fun i => by simp) (.refl _) (.refl _) fun w₅ hw₅ _ => ?_
    exact (carries_lowerExpr m w₅ site site.base rest).settle fun w₆ _ hw₆ _ _ => hfinish (hw₅.trans hw₆)
  next => exact .forget site.base rest (fun i => by simp) (.refl _) (.refl _) fun w₅ hw₅ _ => hfinish hw₅

/-! ## Loops -/

/-- The blocks that a loop starts with: its exit and its alternative stand in the site around it, the header in
front of them. -/
structure LoopSpots (site : Site) (known : List NodeId) (rh re rx : ℚ) (w : Chart) (exit : BlockId)
    (elseBlock : Option BlockId) (header : BlockId) : Prop where
  exit : w.spots[exit]? = some ⟨rx, site.headers, site.base⟩
  elseBlock : ∀ c ∈ elseBlock, w.spots[c]? = some ⟨re, site.headers, site.base⟩
  header : w.spots[header]? = some ⟨rh, header :: site.headers, known⟩

section Loops

variable {known : List NodeId} {rh re rx : ℚ} {exit header : BlockId} {elseBlock : Option BlockId} {w' : Chart}
variable (h : LoopSpots site known rh re rx w exit elseBlock header)
include h

theorem LoopSpots.mono (hw : w ≤ w') : LoopSpots site known rh re rx w' exit elseBlock header :=
  ⟨spots_mono hw h.exit, fun c hc => spots_mono hw (h.elseBlock c hc), spots_mono hw h.header⟩

theorem LoopSpots.leave (hx : re ≤ rx) :
    ∃ r, re ≤ r ∧ w.spots[elseBlock.getD exit]? = some ⟨r, site.headers, site.base⟩ := by
  cases elseBlock with
  | none => exact ⟨rx, hx, h.exit⟩
  | some c => exact ⟨re, le_rfl, h.elseBlock c rfl⟩

theorem LoopSpots.isOpen (hopen : site.Open w)
    (hk : site.base ⊆ known) (hx : re ≤ rx) (hl : rx ≤ site.limit) : (site.inLoop header exit re known).Open w :=
  hopen.inLoop (hx.trans hl) hk h.exit ⟨hx, .refl _, hk⟩ h.header (.refl _) (.refl _)

omit h

theorem carries_startLoop (hasElse : Bool) (hk : site.base ⊆ known) (hn : known ⊆ now) (he : rh < re)
    (hx : re < rx) (hl : rx < site.limit) : Carries Laid w ⟨site, rh, now, todo⟩ (startLoop hasElse) fun r w' s' =>
      s' = ⟨site, rh, now, todo⟩ ∧ LoopSpots site known rh re rx w' r.1 r.2.1 r.2.2 := by
  refine (carries_newBlock hl (.refl _)).giving fun exit w₁ _ hexit => ?_
  extract_lets rest
  have hrest : ∀ (elseBlock : Option BlockId) w₂, w₁ ≤ w₂ →
      (∀ c ∈ elseBlock, w₂.spots[c]? = some ⟨re, site.headers, site.base⟩) →
      Carries Laid w₂ ⟨site, rh, now, todo⟩ (rest elseBlock) fun r w' s' =>
        s' = ⟨site, rh, now, todo⟩ ∧ LoopSpots site known rh re rx w' r.1 r.2.1 r.2.2 := by
    intro elseBlock w₂ h₂ helse
    refine Carries.get.giving fun b w₃ h₃ hb => ?_
    have hnew : Carries Laid w₃ ⟨site, rh, now, todo⟩ (newBlockAt (b.loops.length + 1)) fun id w' s' =>
        s' = ⟨site, rh, now, todo⟩ ∧ w'.spots[id]? = some ⟨rh, id :: site.headers, known⟩ := by
      refine carries_newBlockAt (p := fun id => ⟨rh, id :: site.headers, known⟩) (fun id => ?_) fun id => ?_
      · exact ⟨(he.trans hx).trans hl, subset_cons_self _ _, hk⟩
      · rw [hb.loops_eq, length_cons, Site.headers, length_map]
    refine hnew.giving fun header w₄ h₄ hheader => ?_
    have honward : Stage.Onward ⟨site, rh, now, todo⟩ header ⟨rh, header :: site.headers, known⟩ :=
      ⟨le_rfl, fun c hc => mem_cons.1 hc, hn⟩
    refine .andThen (carries_jump hheader honward) (.pure fun w₅ h₅ => ⟨rfl, ?_⟩)
    have h := (h₃.trans h₄).trans h₅
    exact ⟨spots_mono (h₂.trans h) hexit, fun c hc => spots_mono h (helse c hc),
      spots_mono h₅ hheader⟩
  split
  · rw [map_eq_pure_bind, bind_assoc]
    refine (carries_newBlock (hx.trans hl) (.refl _)).giving fun c w₂ h₂ hc => ?_
    rw [pure_bind]
    exact hrest (some c) w₂ h₂ fun d hd => Option.some.inj hd ▸ hc
  · rw [pure_bind]
    exact hrest none w₁ le_rfl (by simp)

theorem Carries.enterLoop (h : LoopSpots site known rh re rx w exit elseBlock header)
    (hopen : (site.inLoop header exit re known).Open w) (he : rh < re)
    (hnext : Carries Laid w ((site.inLoop header exit re known).stage todo) (next ()) result) :
    Carries Laid w ⟨site, bound, now, todo⟩ (openLoop header exit >>= fun _ => setCurrent header >>= next)
      result := by
  rw [← bind_assoc]
  refine .andThen ?_ hnext
  intro w₁ b x b' hw hb hrun
  cases hrun
  have hregions : b.regions.length = site.regions.length := by
    rw [← hb.regions_eq, length_map]
  refine ⟨w₁, (site.inLoop header exit re known).stage todo, le_rfl, { hb with
    loops_eq := ?_
    isOpen := hopen.mono hw
    await := ?_
    base_subset := .refl _
    here := ⟨_, spots_mono hw h.header, ⟨he, .refl _, .refl _⟩, he, fun _ => .inl⟩ }, rfl⟩
  · simp only [Site.inLoop, hregions, hb.loops_eq]
  · refine hb.await.imp fun j _ hj => hj.imp id ?_
    rintro ⟨l, hl, hgoal⟩
    exact ⟨l, mem_cons_of_mem _ hl, hgoal⟩

theorem carries_closeLoop (hopen : site.Open w) (hk : site.base ⊆ known) (hl : re ≤ site.limit) :
    Carries Laid w ((site.inLoop header exit re known).stage todo) closeLoop fun _ _ s =>
      s = site.stage todo := by
  refine .modify fun w₁ b hw hb => ⟨w₁, site.stage todo, le_rfl, ?_, rfl⟩
  obtain ⟨p, hp, hat⟩ := hb.here
  have hlt : p.rank < site.limit := hat.rank_lt.trans_le hl
  have hregions : b.regions.length = site.regions.length := by
    have hregions : b.regions.map Region.bare = site.regions := hb.regions_eq
    rw [← hregions, length_map]
  refine { hb with
    loops_eq := ?_
    isOpen := hopen.mono hw
    await := ?_
    base_subset := .refl _
    here := ⟨p, hp, ⟨hlt, ?_, List.Subset.trans hk hat.base_subset⟩, hlt,
      fun n hn => .inl (hat.base_subset (hk hn))⟩ }
  · rw [hb.loops_eq]
    rfl
  -- A region was opened before the loop, so a jump that waits for it goes to a loop around the region.
  · refine hb.await.imp fun j hj hgoal => hgoal.imp id ?_
    rintro ⟨l, hl, hdepth, hdest⟩
    rcases mem_cons.1 hl with rfl | hl
    · simp only at hdepth
      omega
    · exact ⟨l, hl, hdepth, hdest⟩
  · exact fun c hc => hat.headers_subset (mem_cons_of_mem _ hc)

theorem carries_finishLoop {orElse : Build Unit} (h : LoopSpots site known rh re rx w exit elseBlock header)
    (hopen : site.Open w) (hx : re < rx) (hl : rx < site.limit) (helse : Places ids orElse) :
    Carries Laid w (site.stage (ids ++ rest)) (finishLoop exit elseBlock orElse) fun _ _ s =>
      s = site.stage rest := by
  unfold finishLoop
  have hinner : (site.within rx site.base).Open w := hopen.within hl.le (.refl _)
  split
  next c =>
    refine .andThen (carries_setCurrent (h.elseBlock c rfl) hinner (.refl _) (.spot hx hx (.refl _) (.refl _))) ?_
    refine .andThen (helse w (site.within rx site.base) rest) ?_
    refine .andThen (carries_jump h.exit (.spot le_rfl (.refl _))) ?_
    exact carries_setCurrent h.exit hopen (.refl _) (.spot hl hl (.refl _) (.refl _))
  next =>
    refine .forget site.base rest (fun i => by simp) (.refl _) (.refl _) fun w' hw' _ => ?_
    have h := h.mono hw'
    exact carries_setCurrent h.exit (hopen.mono hw') (.refl _) (.spot hl hl (.refl _) (.refl _))

theorem places_getD {act : Option (Build Unit)} (h : ∀ a ∈ act, Places ids a) :
    Places ids (act.getD (pure ())) := by
  cases act with
  | none => exact places_pure ids
  | some a => exact h a rfl

variable {orElse : Option (Build Unit)} {body : Build Unit}

theorem carries_closeBody
    (h : LoopSpots site known rh re rx w exit elseBlock header) (hopen : site.Open w) (hk : site.base ⊆ known)
    (hx : re < rx) (hl : rx < site.limit) (hbody : Places ids body) (helse : ∀ a ∈ orElse, Places ids' a) :
    Carries Laid w ((site.inLoop header exit re known).stage (ids ++ (ids' ++ rest)))
      (do
        body
        jumpBy .loopBack header
        closeLoop
        finishLoop exit elseBlock (orElse.getD (pure ())))
      fun _ _ s => s = site.stage rest := by
  refine .andThen (hbody w _ _) ?_
  refine .andThen (carries_jumpBy h.header fun made p hat => ?_) ?_
  · exact hat.toHolds.leads_back mem_cons_self (.refl _) (.refl _)
  refine .andThen (carries_closeLoop hopen hk (hx.trans hl).le) ?_
  exact carries_finishLoop h hopen hx hl (places_getD helse)

theorem places_buildWhile (node test : Node) (hbody : Places ids body) (helse : ∀ a ∈ orElse, Places ids' a) :
    Places (test.ids ++ (ids ++ ids')) (buildWhile node test body orElse) := by
  intro w site rest
  rw [append_assoc, append_assoc]
  refine .opened fun w₀ _ hopen _ => ?_
  refine .between fun rh hrh => ?_
  obtain ⟨rx, hhx, hl⟩ := exists_between hrh
  obtain ⟨re, he, hx⟩ := exists_between hhx
  -- From the bottom up: the header, what is inside the loop, the alternative, and what follows.
  refine (carries_startLoop _ (.refl _) (.refl _) he hx hl).giving fun (exit, elseBlock, header) w₁ hw₁ h => ?_
  have hin := h.isOpen (hopen.mono hw₁) (.refl _) hx.le hl.le
  refine .enterLoop h hin he ?_
  refine (carries_lowerExpr test w₁ _ _ _).test fun w₂ hw₂ => ?_
  refine .between fun r hr => ?_
  refine (carries_newBlock hr (.refl _)).giving fun bodyBlock w₃ hw₃ hbodyBlock => ?_
  have h := h.mono (hw₂.trans hw₃)
  have hin := hin.mono (hw₂.trans hw₃)
  obtain ⟨rl, hrl, hleave⟩ := h.leave hx.le
  refine .andThen (carries_fork hbodyBlock (.spot le_rfl (.refl _)) hleave ?_) ?_
  · exact ⟨hr.le.trans hrl, fun c hc => .inr (mem_cons_of_mem _ hc), .refl _⟩
  refine .andThen (carries_setCurrent hbodyBlock hin (.refl _) (.spot hr hr (.refl _) (.refl _))) ?_
  exact carries_closeBody h (hopen.mono (hw₁.trans (hw₂.trans hw₃))) (.refl _) hx hl hbody helse

theorem newBlock_setCurrent (c : BlockId) (next : BlockId → Build β) :
    (newBlock >>= fun id => setCurrent c >>= fun _ => next id) =
      (setCurrent c >>= fun _ => newBlock >>= next) := by
  funext b
  rfl

theorem places_buildFor (node target iterable : Node)
    (hbody : Places ids body) (helse : ∀ a ∈ orElse, Places ids' a) :
    Places (target.ids ++ (iterable.ids ++ (ids ++ ids'))) (buildFor node target iterable body orElse) := by
  intro w site rest
  refine .forget site.base (iterable.ids ++ (ids ++ (ids' ++ rest))) (fun i => by simp) (.refl _) (.refl _)
    fun w₀ _ hfalse => ?_
  have htarget : ∀ now, Held w₀ now [target] := by
    refine fun now => Node.held_of_not_hoisted fun hoisted hh i hi => hfalse hoisted hh i ?_
    have := count_pos_iff.2 hi
    simp only [idsAll_cons, Node.idsAll_nil, append_nil, count_append] at this ⊢
    omega
  refine (carries_lowerExpr iterable w₀ site site.base _).settle fun w₁ now hw₁ _ hid => ?_
  refine .opened fun w₂ hw₂ hopen hk => ?_
  refine .between fun rh hrh => ?_
  obtain ⟨rx, hhx, hl⟩ := exists_between hrh
  obtain ⟨re, he, hx⟩ := exists_between hhx
  refine (carries_startLoop _ hk (.refl _) he hx hl).giving fun (exit, elseBlock, header) w₃ hw₃ h => ?_
  have hin := h.isOpen (hopen.mono hw₃) hk hx.le hl.le
  dsimp only
  rw [newBlock_setCurrent]
  refine .enterLoop h hin he ?_
  refine .between fun r hr => ?_
  refine (carries_newBlock hr (.refl _)).giving fun bodyBlock w₄ hw₄ hbodyBlock => ?_
  have h := h.mono hw₄
  have hin := hin.mono hw₄
  obtain ⟨rl, hrl, hleave⟩ := h.leave hx.le
  refine .andThen (carries_fork hbodyBlock (.spot le_rfl (.refl _)) hleave ?_) ?_
  · exact ⟨hr.le.trans hrl, fun c hc => .inr (mem_cons_of_mem _ hc), hk⟩
  refine .andThen (carries_setCurrent hbodyBlock hin (.refl _) (.spot hr hr (.refl _) (.refl _))) ?_
  have hw := ((hw₁.trans hw₂).trans hw₃).trans hw₄
  refine .andThen (carries_push (.iterate target iterable) fun hoisted hh => ?_) ?_
  · have hread := htarget now hoisted (hw.2 hh)
    rw [Node.heldAll_singleton] at hread
    exact cons_subset.2 ⟨hid, hread⟩
  exact carries_closeBody h (hopen.mono (hw₃.trans hw₄)) hk hx hl hbody helse

end Loops

/-! ## Guarded blocks -/

theorem Carries.openRegion {region : BlockId → Region} {next : BlockId → Build β} {r : ℚ}
    (hregion : ∀ id, (region id).bare = region id ∧ (region id).target = id ∧ (region id).pending = [])
    (hr : r < site.limit) (hb : bound ≤ r)
    (h : ∀ id w', w ≤ w' → w'.spots[id]? = some ⟨r, site.headers, site.base⟩ →
      (site.inRegion (region id) r).Open w' →
      Carries Laid w' ⟨site.inRegion (region id) r, bound, now, todo⟩ (next id) result) :
    Carries Laid w ⟨site, bound, now, todo⟩ (Builder.openRegion region >>= next) result := by
  unfold Builder.openRegion
  simp only [bind_assoc, pure_bind]
  refine .opened fun w₀ hw₀ hopen _ => ?_
  refine (carries_newBlock hr (.refl _)).giving fun id w₁ hw₁ hid => ?_
  obtain ⟨hbare, htarget, hpending⟩ := hregion id
  have hin : (site.inRegion (region id) r).Open w₁ :=
    (hopen.mono hw₁).inRegion hr.le (htarget.symm ▸ hid) ⟨le_rfl, .refl _, .refl _⟩
  refine .andThen (.modify fun w₂ b hw₂ hlaid => ⟨w₂, ⟨site.inRegion (region id) r, bound, now, todo⟩, le_rfl, ?_,
    rfl⟩) (h id w₁ (hw₀.trans hw₁) hid hin)
  obtain ⟨p, hp, hat⟩ := hlaid.here
  refine { hlaid with
    regions_eq := ?_
    isOpen := hin.mono hw₂
    await := ⟨fun j hj => ?_, hlaid.await⟩
    here := ⟨p, hp, { hat with rank_lt := hat.rank_lt_bound.trans_le hb }⟩ }
  · simp only [map_cons, hbare, hlaid.regions_eq, Site.inRegion]
  · rw [hpending] at hj
    cases hj

theorem carries_closeRegion {r : Region} {limit : ℚ} (hopen : site.Open w) (hl : limit ≤ site.limit) :
    Carries Laid w ((site.inRegion r limit).stage todo) closeRegion fun _ _ s => s = site.stage todo := by
  refine .modify fun w₁ b hw hb => ⟨w₁, site.stage todo, le_rfl, ?_, rfl⟩
  obtain ⟨x, outer, hr, -⟩ := map_eq_cons_iff.1 hb.regions_eq
  rw [hr]
  exact hb.leaveRegion hr (hopen.mono hw) hl

theorem carries_buildLast {after entry : BlockId} {re ra : ℚ} {last : Build Unit} (hopen : site.Open w)
    (hentry : w.spots[entry]? = some ⟨re, site.headers, site.base⟩)
    (hafter : w.spots[after]? = some ⟨ra, site.headers, site.base⟩) (hr : re < ra) (hl : ra < site.limit)
    (hlast : Places ids last) :
    Carries Laid w ((site.inRegion (.last entry []) re).stage (ids ++ rest)) (buildLast after last) fun _ _ s =>
      s = (site.within ra site.base).stage rest := by
  refine .withState fun w₁ b x b' hw hb hrun => ?_
  have hinner : (site.within ra site.base).Open w₁ := (hopen.mono hw).within hl.le (.refl _)
  have hentry := spots_mono hw hentry
  have hafter := spots_mono hw hafter
  obtain ⟨region, outer, hregions, hbare, -⟩ := map_eq_cons_iff.1 hb.regions_eq
  have hawait := hb.await
  rw [hregions] at hawait
  cases region with
  | handlers dispatch => cases hbare
  | last entry' pending =>
    obtain rfl := (Region.last.inj hbare).1
    rw [hregions] at hrun
    -- Inside the region nothing depends on how far the site around it reaches.
    have hin : Laid (((site.within ra site.base).inRegion (.last entry' []) re).stage (ids ++ rest)) w₁ b := hb
    have hb' := hin.leaveRegion hregions hinner hr.le
    have hrest : Carries Laid w₁ ((site.within ra site.base).stage (ids ++ rest)) (do
        setCurrent entry'
        last
        let b ← get
        addEdge b.current b.exceptionTarget .exception
        pending.forM fun j => route b.current j.1 j.2.1 j.2.2
        jump after) fun _ _ s => s = (site.within ra site.base).stage rest := by
      refine .andThen (carries_setCurrent hentry hinner (.refl _) (.spot hr hr (.refl _) (.refl _))) ?_
      refine .andThen (hlast w₁ (site.within ra site.base) rest) ?_
      refine Carries.get.giving fun b₂ w₂ hw₂ hb₂ => ?_
      obtain ⟨p, hp, hat⟩ := hb₂.here
      refine .andThen (carries_addEdge (hb₂.allows_raise hp hat.toHolds)) ?_
      refine .andThen (.forM fun j hj => carries_route hp hat.toHolds (hawait.1 j hj).2) ?_
      exact carries_jump (spots_mono hw₂ hafter) (.spot le_rfl (.refl _))
    exact hrest w₁ { b with regions := outer } x b' le_rfl hb' hrun

/-- An action lowers nodes with the given numbers between the dispatch of the handlers and the place where the
parts of the guarded block meet. -/
def PlacesBetween (dispatch join : BlockId) (ids : List NodeId) (act : Build Unit) : Prop :=
  ∀ (w : Chart) (site : Site) (rest : List NodeId) (r r' : ℚ), r < site.limit → site.limit ≤ r' →
    w.spots[dispatch]? = some ⟨r, site.headers, site.base⟩ →
    w.spots[join]? = some ⟨r', site.headers, site.base⟩ →
    Carries Laid w (site.stage (ids ++ rest)) act fun _ _ s => s = site.stage rest

theorem placesBetween_buildHandler (handler : Node) (dispatch join : BlockId)
    (hbody : Places (idsAll handler.children.getLast?.toList) body) :
    PlacesBetween dispatch join handler.ids (buildHandler handler dispatch join body) := by
  intro w site rest r r' hr hr' hd hj
  have hcount : ∀ i, (idsAll handler.children.dropLast).count i +
      (idsAll handler.children.getLast?.toList).count i = (idsAll handler.children).count i := by
    intro i
    rw [← count_rotate handler.children i, Node.idsAll_append, count_append, Nat.add_comm]
  refine .forget site.base (idsAll handler.children.getLast?.toList ++ rest) (fun i => ?_) (.refl _) (.refl _)
    fun w₁ hw₁ hfalse => ?_
  · have := hcount i
    simp only [Node.ids_eq, count_append, count_cons, cons_append]
    omega
  have hnames : Held w₁ site.base handler.children.dropLast := by
    refine Node.held_of_not_hoisted fun hoisted hh i hi => hfalse hoisted hh i ?_
    have := hcount i
    have := count_pos_iff.2 hi
    simp only [Node.ids_eq, count_append, count_cons, cons_append]
    omega
  refine .opened fun w₂ hw₂ hopen _ => ?_
  obtain ⟨rb, hrb, hl⟩ := exists_between hr
  refine (carries_newBlock hl (.refl _)).giving fun block w₃ hw₃ hblock => ?_
  have hw := (hw₁.trans hw₂).trans hw₃
  have hedge : ∀ g : FlowGraph, g.Allows w₃ dispatch ⟨dispatch, block, .unconditional⟩ := fun g =>
    ⟨_, _, spots_mono hw hd, hblock, fun _ => hrb, nofun, fun _ => .inr, fun _ => .inl⟩
  refine .andThen (carries_addEdge hedge) ?_
  refine .andThen (carries_setCurrent hblock (hopen.mono hw₃) (.refl _) (.spot hl hl (.refl _) (.refl _))) ?_
  refine .andThen (carries_push (.handle handler) fun hoisted hh => hnames hoisted ((hw₂.trans hw₃).2 hh)) ?_
  refine .andThen (hbody w₃ site rest) ?_
  exact carries_jump (spots_mono hw hj) (.spot hr' (.refl _))

theorem Carries.guardBody {rs rf : ℚ} (hopen : site.Open w) (hs : rs < rf)
    (hf : rf < site.limit) (hbody : Places ids body) (hnext : Carries Laid w (site.stage rest) (next ()) result) :
    Carries Laid w ⟨site, rs, site.base, ids ++ rest⟩ (do
      let start ← newBlock
      jump start
      setCurrent start
      let first ← newBlock
      jump first
      setCurrent first
      body >>= next) result := by
  refine (carries_newBlock (hs.trans hf) (.refl _)).giving fun start w₁ hw₁ hstart => ?_
  refine .andThen (carries_jump hstart (.spot le_rfl (.refl _))) ?_
  have hopen := hopen.mono hw₁
  have hat : Stage.At ⟨site, rf, site.base, ids ++ rest⟩ [] ⟨rs, site.headers, site.base⟩ :=
    .spot (hs.trans hf) hs (.refl _) (.refl _)
  refine .andThen (carries_setCurrent hstart hopen (.refl _) hat) ?_
  refine (carries_newBlock hf (.refl _)).giving fun first w₂ hw₂ hfirst => ?_
  refine .andThen (carries_jump hfirst (.spot le_rfl (.refl _))) ?_
  refine .andThen (carries_setCurrent hfirst (hopen.mono hw₂) (.refl _) (.spot hf hf (.refl _) (.refl _))) ?_
  exact .andThen (hbody w₂ site rest) (hnext.weaken (hw₁.trans hw₂))

theorem places_buildTry {idsB idsE idsH idsL : List NodeId} {orElse : Build Unit}
    {handlers : Option (BlockId → BlockId → Build Unit)} {catchesAll : Bool} {last : Option (Build Unit)}
    (hbody : Places idsB body) (helse : Places idsE orElse)
    (hhandlers : ∀ h ∈ handlers, ∀ dispatch join, PlacesBetween dispatch join idsH (h dispatch join))
    (hlast : ∀ l ∈ last, Places idsL l) :
    Places (idsB ++ (idsE ++ (idsH ++ idsL))) (buildTry body orElse handlers catchesAll last) := by
  intro w site rest
  simp only [append_assoc]
  refine .opened fun w₀ _ hopen _ => ?_
  -- From the bottom up: the start of the body, its first block, the dispatch, the last part, and what follows.
  refine .between fun rs hrs => ?_
  obtain ⟨ra, hsa, hra⟩ := exists_between hrs
  obtain ⟨re, hse, hea⟩ := exists_between hsa
  obtain ⟨rd, hsd, hde⟩ := exists_between hse
  obtain ⟨rf, hsf, hfd⟩ := exists_between hsd
  refine (carries_newBlock hra (.refl _)).giving fun after w₁ hw₁ hafter => ?_
  have hopen := hopen.mono hw₁
  extract_lets finish conclude guarded
  have hguarded : ∀ {site₁ : Site} {join : BlockId} {rj : ℚ} {w₂ : Chart}, rd < site₁.limit → site₁.limit ≤ rj →
      w₂.spots[join]? = some ⟨rj, site₁.headers, site₁.base⟩ → site₁.Open w₂ →
      (∀ w₃, w₂ ≤ w₃ → Carries Laid w₃ (site₁.stage (idsL ++ rest)) (conclude ⟨⟩) fun _ _ s =>
        s = site.stage rest) →
      Carries Laid w₂ ⟨site₁, rs, site₁.base, idsB ++ (idsE ++ (idsH ++ (idsL ++ rest)))⟩ (guarded join)
        fun _ _ s => s = site.stage rest := by
    intro site₁ join rj w₂ hd hj hjoin hopen₁ hconclude
    unfold guarded
    extract_lets protect
    split
    next hsome =>
      obtain ⟨h, rfl⟩ := Option.isSome_iff_exists.1 hsome
      rw [map_eq_pure_bind, bind_assoc]
      refine .openRegion (fun _ => ⟨rfl, rfl, rfl⟩) hd hsd.le fun dispatch w₃ hw₃ hdispatch hopen₂ => ?_
      rw [pure_bind]
      refine .guardBody hopen₂ hsf hfd hbody ?_
      refine .andThen (carries_closeRegion (hopen₁.mono hw₃) hd.le) ?_
      refine .andThen (helse w₃ site₁ _) ?_
      refine .andThen (carries_jump (spots_mono hw₃ hjoin) (.spot hj (.refl _))) ?_
      refine .andThen (hhandlers h rfl dispatch join w₃ site₁ _ rd rj hd hj hdispatch
        (spots_mono hw₃ hjoin)) ?_
      split
      · refine Carries.get.giving fun b w₄ hw₄ hb => ?_
        have hraise := hb.allows_raise (spots_mono hw₄ hdispatch) ⟨hd, .refl _, .refl _⟩
        exact .andThen (carries_addEdge hraise) (hconclude w₄ (hw₃.trans hw₄))
      · exact hconclude w₃ hw₃
    next hnone =>
      have hnone : handlers = none := by simpa using hnone
      rw [pure_bind]
      refine .guardBody hopen₁ hsf (hfd.trans hd) hbody ?_
      refine .andThen (helse w₂ site₁ _) ?_
      refine .andThen (carries_jump hjoin (.spot hj (.refl _))) ?_
      rw [hnone]
      refine .forget _ (idsL ++ rest) (fun i => by simp) (.refl _) (.refl _) fun w₃ hw₃ _ => hconclude w₃ hw₃
  split
  next hsome =>
    obtain ⟨l, rfl⟩ := Option.isSome_iff_exists.1 hsome
    refine .openRegion (fun _ => ⟨rfl, rfl, rfl⟩) (hea.trans hra) hse.le fun entry w₂ hw₂ hentry hopen₁ => ?_
    refine hguarded hde le_rfl hentry hopen₁ fun w₃ hw₃ => ?_
    have hafter := spots_mono (hw₂.trans hw₃) hafter
    have hopen := hopen.mono (hw₂.trans hw₃)
    refine .andThen (carries_buildLast hopen (spots_mono hw₃ hentry) hafter hea hra (hlast l rfl)) ?_
    exact carries_setCurrent hafter hopen (.refl _) (.spot hra hra (.refl _) (.refl _))
  next hnone =>
    have hnone : last = none := by simpa using hnone
    rw [pure_bind]
    refine .narrow hse.le (hea.trans hra).le ?_
    refine hguarded hde hea.le hafter (hopen.within (hea.trans hra).le (.refl _)) fun w₃ hw₃ => ?_
    unfold conclude
    rw [hnone]
    refine .forget _ rest (fun i => by simp) (.refl _) (.refl _) fun w₄ hw₄ _ => ?_
    have hw := hw₃.trans hw₄
    exact carries_setCurrent (spots_mono hw hafter) (hopen.mono hw) (.refl _)
      (.spot hra hra (.refl _) (.refl _))

/-! ## Units -/

theorem places_exec (stmt : Node) : Places (idsAll stmt.children) (push (.exec stmt)) := by
  have h : Places (idsAll stmt.children) (execAfter stmt []) := places_execAfter stmt stmt.children (.refl _)
  unfold execAfter lowerSequence at h
  exact h

theorem perm_second (children : List Node) : (children[1]?.toList ++ children.eraseIdx 1).Perm children := by
  rcases children with _ | ⟨first, _ | ⟨second, rest⟩⟩
  · exact .refl _
  · exact .refl _
  · exact .swap first second rest

mutual

theorem places_buildStmt : ∀ node : Node, Places node.ids (buildStmt node)
  | ⟨id, kind, span, parent, children⟩ => by
    suffices h : Places (idsAll children) (buildStmt ⟨id, kind, span, parent, children⟩) from
      h.drop fun i => by simp [count_cons]
    have hnone : ∀ a ∈ (none : Option (Build Unit)), Places [] a := nofun
    intro w site todo
    unfold buildStmt
    extract_lets node
    refine .andThen (places_separate [] w site _) ?_
    split
    · split
      next test body =>
        have h := places_buildIf test (places_buildBlock body) (places_pure [])
        exact (h.drop fun i => by simp) w site todo
      next test body orElse =>
        have h := places_buildIf test (places_buildBlock body) (places_buildBlock orElse)
        exact (h.drop fun i => by simp) w site todo
      next => exact .throw _
    · split
      next test body =>
        have h := places_buildWhile node test (places_buildBlock body) hnone
        exact (h.drop fun i => by simp) w site todo
      next test body orElse =>
        have helse : ∀ a ∈ some (buildBlock orElse), Places orElse.ids a :=
          fun _ ha => Option.some.inj ha ▸ places_buildBlock orElse
        have h := places_buildWhile node test (places_buildBlock body) helse
        exact (h.drop fun i => by simp) w site todo
      next => exact .throw _
    · split
      next target iterable body =>
        have h := places_buildFor node target iterable (places_buildBlock body) hnone
        exact (h.drop fun i => by simp) w site todo
      next target iterable body orElse _ =>
        have helse : ∀ a ∈ some (buildBlock orElse), Places orElse.ids a :=
          fun _ ha => Option.some.inj ha ▸ places_buildBlock orElse
        have h := places_buildFor node target iterable (places_buildBlock body) helse
        exact (h.drop fun i => by simp) w site todo
      next => exact .throw _
    · split
      next body rest =>
        have hhandlers : ∀ h ∈ if rest.any isHandler then
            some fun dispatch join => buildHandlers dispatch join rest else none,
            ∀ dispatch join, PlacesBetween dispatch join (idsAll (rest.filter isHandler))
              (h dispatch join) := by
          intro h hh dispatch join
          cases Option.some.inj (Option.ite_none_right_eq_some.1 hh).2
          exact placesBetween_buildHandlers dispatch join rest
        have hlast : ∀ l ∈ if rest.any (·.kind == .last) then some (buildFirst .last rest) else none,
            Places (idsAll (rest.filter (·.kind == .last))) l := by
          intro l hl
          cases Option.some.inj (Option.ite_none_right_eq_some.1 hl).2
          exact places_buildFirst .last rest
        have hbody := places_buildBlock body
        refine ((places_buildTry hbody (places_buildFirst .block rest) hhandlers hlast).drop fun i => ?_) w site todo
        have hparts := count_parts_le rest i
        simp only [idsAll_cons, count_append]
        omega
      next => exact .throw _
    · exact places_buildItems children w site todo
    · split
      next test rest =>
        refine ((places_buildAssert test rest.head?).drop fun i => ?_) w site todo
        cases rest <;> simp
      next => exact .throw _
    · exact places_returnFrom node w site todo
    · exact places_raiseFrom node w site todo
    · exact places_leaveLoop node true _ w site todo
    · exact places_leaveLoop node false _ w site todo
    · refine places_execAfter node [] ?_ w site todo
      rcases eq_nil_or_concat children with rfl | ⟨init, last, rfl⟩
      · simp [node]
      · simpa [node] using (perm_append_singleton last init).symm
    · exact places_execAfter node _ (perm_second children) w site todo
    · exact places_execAfter node _ (perm_second children) w site todo
    · exact places_execAfter node [] (by simp [node]) w site todo
    · exact .throw _
    · split
      · exact .throw _
      · exact places_exec node w site todo
termination_by node => sizeOf node
decreasing_by all_goals (subst_vars; simp only [Node.mk.sizeOf_spec, List.cons.sizeOf_spec]; omega)

theorem places_buildBody : ∀ stmts : List Node, Places (idsAll stmts) (buildBody stmts)
  | [] => by
    unfold buildBody
    exact places_pure _
  | node :: rest => fun w site todo => by
    unfold buildBody
    rw [idsAll_cons, append_assoc]
    exact .andThen (places_buildStmt node w site _) (places_buildBody rest w site todo)
termination_by stmts => sizeOf stmts

theorem places_buildBlock : ∀ node : Node, Places node.ids (buildBlock node)
  | ⟨_, _, _, _, stmts⟩ => by
    unfold buildBlock
    exact (places_buildBody stmts).drop fun i => by simp [count_cons]
termination_by node => sizeOf node

theorem places_buildFirst (wanted : Kind) : ∀ children : List Node,
    Places (idsAll (children.filter (·.kind == wanted))) (buildFirst wanted children)
  | [] => by
    unfold buildFirst
    exact places_pure _
  | ⟨_, kind, _, _, stmts⟩ :: rest => by
    unfold buildFirst
    split
    next h => exact (places_buildBody stmts).drop fun i => by simp [h, count_cons]; omega
    next h => simpa [h] using places_buildFirst wanted rest
termination_by children => sizeOf children

theorem placesBetween_buildHandlers (dispatch join : BlockId) : ∀ children : List Node,
    PlacesBetween dispatch join (idsAll (children.filter isHandler)) (buildHandlers dispatch join children)
  | [] => by
    unfold buildHandlers
    exact fun _ _ _ _ _ _ _ _ _ => .pure fun _ _ => rfl
  | ⟨id, kind, span, parent, children⟩ :: rest => by
    unfold buildHandlers
    extract_lets node
    split
    next h =>
      intro w site todo r r' hr hr' hdispatch hjoin
      rw [filter_cons, if_pos h, idsAll_cons, append_assoc]
      have hfinal := places_buildFinal children
      have hhandler := placesBetween_buildHandler node dispatch join hfinal
      refine .andThen (hhandler w site _ r r' hr hr' hdispatch hjoin) ?_
      exact placesBetween_buildHandlers dispatch join rest w site todo r r' hr hr' hdispatch hjoin
    next h => simpa [node, h] using placesBetween_buildHandlers dispatch join rest
termination_by children => sizeOf children

theorem places_buildFinal : ∀ children : List Node, Places (idsAll children.getLast?.toList) (buildFinal children)
  | [] => by
    unfold buildFinal
    exact places_pure _
  | [node] => by
    unfold buildFinal
    exact (places_buildBlock node).drop fun i => by simp
  | _ :: node :: rest => by
    unfold buildFinal
    rw [getLast?_cons_cons]
    exact places_buildFinal (node :: rest)
termination_by children => sizeOf children

theorem places_buildItems : ∀ children : List Node, Places (idsAll children) (buildItems children)
  | [] => by
    unfold buildItems
    exact places_pure _
  | ⟨id, kind, span, parent, children⟩ :: rest => by
    unfold buildItems
    extract_lets node
    intro w site todo
    rw [idsAll_cons, append_assoc]
    refine .forget site.base (idsAll children ++ (idsAll rest ++ todo)) (fun i => ?_) (.refl _) (.refl _)
      fun w₁ _ _ => ?_
    · simp [count_cons]
    split
    · have hitem : Places (idsAll children)
          (lowerSequence [] children.head?.toList >>= fun _ => push (.enter node)) := by
        refine places_evaluate (.enter node) children.tail (fun _ => rfl) ?_
        cases children <;> simp
      rw [← bind_assoc]
      exact .andThen (hitem w₁ site _) (places_buildItems rest w₁ site todo)
    · exact .andThen (places_buildBody children w₁ site _) (places_buildItems rest w₁ site todo)
    · exact .andThen (.throw _) (places_buildItems rest w₁ site todo)
termination_by children => sizeOf children

end

theorem places_buildUnit (unit : UnitInfo) (body : List Node) : Places (idsAll body) (buildUnit unit body) := by
  intro w site rest
  unfold buildUnit
  extract_lets finish start
  have hfinish : ∀ w', Carries Laid w' (site.stage rest) (finish ⟨⟩) fun _ _ s => s = site.stage rest := by
    intro w'
    refine Carries.get.giving fun b w₁ _ hb => ?_
    obtain ⟨q, hq, hbeyond⟩ := hb.isOpen.aims site.exit mem_cons_self
    refine carries_jump (hb.exit_eq.symm ▸ hq) ⟨hbeyond.limit_le, fun c hc => .inr (hbeyond.nest_subset hc), ?_⟩
    exact hbeyond.known_subset
  have hstart : Carries Laid w (site.stage (idsAll body ++ rest)) (start ⟨⟩) fun _ _ s =>
      s = site.stage rest := by
    refine .andThen (places_buildBody body w site rest) ?_
    split
    · exact .andThen (carries_push .returnNone fun _ _ => nil_subset _) (hfinish w)
    · exact hfinish w
  split
  · split
    · exact .andThen (carries_push (.parameters _) fun _ _ => nil_subset _) hstart
    · exact hstart
  · exact hstart

end Builder

def Site.initial : Site := ⟨FlowGraph.initial.exit, FlowGraph.initial.raiseExit, [], [], 1, []⟩

def Chart.initial (todo : List NodeId) : Chart :=
  ⟨[⟨0, [], []⟩, ⟨1, [], []⟩, ⟨1, [], []⟩], FlowGraph.initial.outlook todo⟩

theorem Laid.initial {todo : List NodeId} (h : todo.Nodup) :
    Laid (Site.initial.stage todo) (Chart.initial todo) {} where
  charted := by
    refine ⟨rfl, ⟨0, rfl⟩, fun {b p} hp => ?_, fun {b e} he => ?_, fun {b p} hp hoisted _ => ?_⟩
    · match b with
      | 0 | 1 | 2 => exact Option.some.inj hp ▸ rfl
    · match b with
      | 0 | 1 | 2 | _ + 3 => cases he
    · match b with
      | 0 | 1 | 2 | _ + 3 => trivial
  outlook_eq := rfl
  fresh i := by
    have hnone : FlowGraph.initial.isHoisted i = false := Std.ExtTreeSet.contains_empty
    simpa [hnone] using nodup_iff_count_le_one.1 h i
  exit_eq := rfl
  raiseExit_eq := rfl
  loops_eq := rfl
  regions_eq := rfl
  isOpen := by
    refine ⟨fun c hc => ⟨⟨1, [], []⟩, ?_, le_rfl, .refl _, .refl _⟩, nofun⟩
    rcases Site.mem_aims.1 hc with rfl | rfl | ⟨_, hr, _⟩ | ⟨_, hl, _⟩
    · rfl
    · rfl
    · cases hr
    · cases hl
  await := trivial
  base_subset := .refl _
  here := ⟨⟨0, [], []⟩, rfl, ⟨zero_lt_one, .refl _, .refl _⟩, zero_lt_one, nofun⟩

theorem FlowGraph.exists_charted_of_ofUnit {policy : UnsupportedPolicy} {unit : UnitInfo} {g : FlowGraph}
    (h : FlowGraph.ofUnit policy unit = .ok g) (hbody : ∀ body ∈ unit.body, (idsAll body).Nodup) :
    ∃ (made : FlowGraph) (w : Chart), g = made.finish ∧ made.Charted w ∧ made.isHoisted ∈ w.outlook := by
  obtain ⟨body, x, b, hb, -, hrun, rfl⟩ := exists_run_of_ofUnit h
  have hinit : Laid (Site.initial.stage (idsAll body ++ [])) _ {} :=
    .initial (by simpa using hbody body hb)
  obtain ⟨w, _, -, hlaid, rfl⟩ := Builder.places_buildUnit unit body _ _ [] _ _ _ _ le_rfl hinit hrun
  exact ⟨b.graph, w, rfl, hlaid.charted, hlaid.isHoisted_mem⟩

theorem FlowGraph.Charted.finish {g : FlowGraph} {w : Chart} (hg : g.Charted w) : g.finish.Charted w :=
  hg.join (.finish g _)

end PointsTo
