import PointsTo.Proofs.Flow.Jobs

/-! # Construction of bodies

Statements are lowered job by job. Blocks that wait to be entered stay open meanwhile, blocks of handlers are hubs, and
at the end of a statement another open block is under construction. -/

namespace PointsTo

open List
open Node (jobs jobsAll jobsOfBlocks jobsOfFinal jobsOfFirst jobsOfHandlers)
open Ending (Open)

namespace Builder

/-- An account that is kept job by job. -/
structure Ledger where
  rel : Multiset Job → FlowGraph → FlowGraph → Prop
  quiet : ∀ {g g' : FlowGraph}, g.Quiet g' → rel 0 g g'
  trans : ∀ {m m' : Multiset Job} {g g' g'' : FlowGraph}, rel m g g' → rel m' g' g'' → rel (m + m') g g''
  performs : ∀ {j : Job} {s : Scene} {W H fails : List BlockId} {b b' : Builder} {x : Unit},
    b.At ⟨s, s.guards, W, H, [], Opened⟩ fails → j.act.run b = .ok (x, b') → rel {j} b.graph b'.graph

def Ledger.account (L : Ledger) : Account (Multiset Job) where
  rel := L.rel
  failures := Multiset.countPAddMonoidHom fun j => j.fails = true
  quiet := L.quiet
  trans := L.trans

theorem Ledger.failures_singleton (L : Ledger) (j : Job) : L.account.failures {j} = j.fails.toNat := by
  change Multiset.countP (fun j => j.fails = true) (j ::ₘ 0) = _
  rw [Multiset.countP_cons, Multiset.countP_zero, Nat.zero_add]
  cases j.fails <;> rfl

variable {b : Builder} {s : Scene} {here here' : List BlockId} {g g' : FlowGraph}

section Jobs

variable {β : Type} {L : Ledger} {W H : List BlockId} {m : Multiset Job} {st' : β → Phase} {next : Unit → Build β}
  {result : β → FlowGraph → Prop}

theorem keeps_act (j : Job) :
    Keeps stock ⟨s, s.guards, W, H, [], Opened⟩ ⟨s, s.guards, W, H, [], Opened⟩ j.intake g j.act := by
  cases j with
  | test n =>
    refine .stock_mono (.plus ((keeps_lowerExpr n).imp fun _ _ _ _ => trivial) fun _ => keeps_push (.test n)) ?_ ?_
    · simp [testsOf, Step.role?, Job.intake]
    · simp [testsOf, Job.intake]
  | settle n => exact .closing (keeps_lowerExpr n) (keeps_hoistOnce n)
  | refuse n => exact .closing (keeps_lowerExpr n) (keeps_hoistOnce n)
  | exec stmt =>
    refine .stock_mono (.plus (keeps_lowerSequence [] _) fun _ => keeps_push (.exec stmt)) ?_ ?_
    · simp [testsOf, Step.role?, Job.intake]
    · simp [testsOf, Job.intake]
  | iterate target iterable => exact keeps_push (.iterate target iterable)
  | handle handler => exact keeps_push (.handle handler)
  | enter item =>
    refine .stock_mono (.plus (keeps_lowerSequence [] _) fun _ => keeps_push (.enter item)) ?_ ?_
    · simp [testsOf, Step.role?, Job.intake]
    · simp [testsOf, Job.intake]
  | parameters arguments => exact keeps_push (.parameters arguments)
  | returnNone => exact keeps_push .returnNone

theorem keeps_perform (j : Job) (hj : j.fails = false) :
    Keeps L.account ⟨s, s.guards, W, H, [], Opened⟩ ⟨s, s.guards, W, H, [], Opened⟩ {j} g j.act := by
  refine (keeps_act j).account (fun _ b x b' hb hrun _ => L.performs hb hrun) ?_
  rw [L.failures_singleton, hj]
  rfl

theorem keeps_tested (n : Node) (h : KeepsAt L.account ⟨s, s.guards, W, H, [], Opened⟩ st' m g (next ()) result) :
    KeepsAt L.account ⟨s, s.guards, W, H, [], Opened⟩ st' ({.test n} + m) g
      (lowerExpr n >>= fun _ => push (.test n) >>= next) result := by
  have hperform := (keeps_perform (L := L) (.test n) rfl).plus fun _ => h
  rwa [Job.act, bind_assoc] at hperform

theorem keeps_settled (n : Node) (h : KeepsAt L.account ⟨s, s.guards, W, H, [], Opened⟩ st' m g (next ()) result) :
    KeepsAt L.account ⟨s, s.guards, W, H, [], Opened⟩ st' ({.settle n} + m) g
      (lowerExpr n >>= fun _ => hoistOnce n >>= next) result := by
  have hperform := (keeps_perform (L := L) (.settle n) rfl).plus fun _ => h
  rwa [Job.act, bind_assoc] at hperform

variable {stmt : Node}

theorem keeps_exec {operands : List Node} (h : stmt.operands = operands) :
    Keeps L.account ⟨s, s.guards, W, H, [], Opened⟩ ⟨s, s.guards, W, H, [], Opened⟩ {.exec stmt} g
      (execAfter stmt operands) :=
  h ▸ keeps_perform (.exec stmt) rfl

/-! ## Closing a block for good -/

section Closing

variable {M : Type} [AddMonoid M] {A : Account M} {P : List BlockId}

theorem keeps_close {source : BlockId} {t : Terminator} (ht : t = .ret ∨ ∃ d, t = .goto d) :
    Keeps A ⟨s, here, W, H, P, fun c x => c = source ∧ Opened c x⟩ ⟨s, here, W, H, P, Resting source⟩ 0 g
      (modifyGraph fun g => g.setTerminator source t) := by
  refine .modify fun fails b hb _ => ?_
  obtain ⟨rfl, hopen⟩ := hb.now
  have hadv := hb.confined.setTerminator hb.mirrored b.current t
  have hending := FlowGraph.ending_setTerminator hb.current.lt_size t
  have hplain : ((b.graph.setTerminator b.current t).ending b.current).Plain := by
    rw [hending, if_pos rfl]
    exact (Open.plain hopen).close ht
  refine ⟨hb.advance (Open.plain hopen) hadv (fun j hj => ?_) hplain.agrees ⟨rfl, hplain⟩, hadv.toWidens,
    .setTerminator _ _ _⟩
  rw [hending, if_neg hj]

theorem keeps_stand {source target : BlockId} {kind : EdgeKind} (ht : g.Admits here target)
    (hk : kind.isDecided = false) :
    Keeps A ⟨s, here, W, H, P, fun c x => c = source ∧ Opened c x⟩ ⟨s, here, W, H, P, Resting source⟩ 0 g
      (addEdge source target kind) := by
  refine .modify fun fails b hb hg => ?_
  have hstanding : b.At ⟨s, here, W, H, P, Resting source⟩ fails :=
    hb.relax fun _ _ h => ⟨h.1, Open.plain h.2⟩
  obtain ⟨hadv, hb'⟩ := hstanding.addEdge (ht.mono hg.toExtends) hk
  exact ⟨hb', hadv.toWidens, .addEdge _ _ _ _⟩

theorem keeps_raise {source target : BlockId} (ht : g.Admits here target) :
    Keeps A ⟨s, here, W, H, P, fun c x => c = source ∧ Opened c x⟩ ⟨s, here, W, H, P, Unknown⟩ 0 g
      (modifyGraph fun g => (g.setTerminator source .raise).addEdge source target .exception) := by
  refine .modify fun fails b hb hg => ?_
  obtain ⟨rfl, hopen⟩ := hb.now
  obtain ⟨hadv, hquiet, hending, hother⟩ := hb.closed .raise (ht.mono hg.toExtends) .exception
  refine ⟨hb.advance (Open.plain hopen) hadv hother ?_ trivial, hadv.toWidens, hquiet⟩
  exact hending ▸ Open.raise hopen rfl

end Closing

theorem lowers_returnFrom (h : stmt.operands = stmt.children) :
    Lowers L.account {.exec stmt} (returnFrom stmt) := by
  intro s W H g
  refine .closing (keeps_exec h) ?_
  refine .followed .getHere fun b g' _ hb => ?_
  obtain ⟨⟨_, hb⟩, rfl⟩ := hb
  have hexit : b.graph.MadeUnder b.graph.exit (outerGuards s.stack 0) := by
    rw [outerGuards_zero]
    exact hb.exit
  refine .andThen (keeps_close (.inl rfl)) ?_
  exact .andThen (keeps_route (Nat.zero_le _) hexit rfl) keeps_startDead

theorem lowers_raiseFrom (h : stmt.operands = stmt.children) : Lowers L.account {.exec stmt} (raiseFrom stmt) := by
  intro s W H g
  refine .closing (keeps_exec h) ?_
  refine .followed .getHere fun b g' _ hb => ?_
  obtain ⟨⟨_, hb⟩, rfl⟩ := hb
  obtain rfl : b.scene = s := hb.scene_eq
  exact .andThen (keeps_raise hb.admits_exceptionTarget) keeps_startDead

theorem lowers_leaveLoop (stmt : Node) (isBreak : Bool) : Lowers L.account 0 (leaveLoop stmt isBreak) := by
  intro s W H g
  refine .followed .getHere fun b g' _ hb => ?_
  obtain ⟨⟨_, hb⟩, rfl⟩ := hb
  obtain rfl : b.scene = s := hb.scene_eq
  split
  next => exact .throw _
  next frame rest hl =>
    have hframe := hb.loops frame (by simp [hl])
    refine .andThen (keeps_close (.inr ⟨_, rfl⟩)) ?_
    refine .andThen (keeps_route hframe.depth_le ?_ ?_) keeps_startDead
    · cases isBreak
      · exact hframe.continueBlock
      · exact hframe.breakBlock
    · cases isBreak <;> rfl

theorem lowers_separate : Lowers L.account 0 separate := by
  intro s W H g
  refine .followed .get fun b g' _ _ => ?_
  split
  · refine .followed keeps_newBlock fun next g₁ _ hnext => ?_
    exact .andThen (keeps_jump hnext.1.admits) (keeps_enter W hnext.1)
  · exact .pure fun _ _ => trivial

theorem lowers_buildIf (test : Node) {m m' : Multiset Job} {body orElse : Build Unit}
    (hbody : Lowers L.account m body) (helse : Lowers L.account m' orElse) :
    Lowers L.account ({.test test} + (m + m')) (buildIf test body orElse) := by
  intro s W H g
  refine keeps_tested test ?_
  refine .followed keeps_newBlock fun thenBlock g₁ _ ht => ?_
  refine .followed keeps_newBlock fun elseBlock g₂ h₂ he => ?_
  refine .followed keeps_newBlock fun merge g₃ h₃ hm => ?_
  have hthen := (ht.1.mono h₂.toExtends).mono h₃.toExtends
  have helseBlock := he.1.mono h₃.toExtends
  refine .andThen (keeps_fork hthen.admits helseBlock.admits) ?_
  refine .andThen (keeps_enter (elseBlock :: merge :: W) hthen) ?_
  refine .plus (hbody s _ H g₃) fun _ => ?_
  refine .andThen (keeps_jump hm.1.admits) ?_
  refine .andThen (keeps_enter (merge :: W) helseBlock) ?_
  refine .closing (helse s _ H g₃) ?_
  exact .andThen (keeps_jump hm.1.admits) (keeps_enter W hm.1)

/-! ## Loops -/

section Loops

variable {header exit : BlockId} {elseBlock : Option BlockId} {now : BlockId → Ending → Prop}

theorem keeps_openLoop (hh : g.MadeUnder header s.guards) (he : g.MadeUnder exit s.guards) :
    Keeps L.account ⟨s, here, W, H, [], now⟩ ⟨s.inLoop header exit, here, W, H, [], now⟩ 0 g
      (openLoop header exit) := by
  refine .modify fun fails b hb hg => ?_
  obtain rfl : b.scene = s := hb.scene_eq
  have hlength : b.scene.stack.length = b.regions.length := by simp [scene]
  refine ⟨{ hb with loops := fun l hl => ?_, scene_eq := by simp [scene, Scene.inLoop] }, .refl _, .refl _⟩
  rcases mem_cons.1 hl with rfl | hl
  · have hguards : outerGuards b.scene.stack b.regions.length = b.scene.guards := by
      rw [← hlength, outerGuards_length, Scene.guards]
    exact ⟨Nat.le_of_eq hlength.symm, hguards ▸ hh.mono hg.toExtends, hguards ▸ he.mono hg.toExtends⟩
  · exact hb.loops l hl

theorem keeps_closeLoop :
    Keeps L.account ⟨s.inLoop header exit, here, W, H, [], now⟩ ⟨s, here, W, H, [], now⟩ 0 g closeLoop := by
  refine .modify fun fails b hb _ => ⟨{ hb with loops := fun l hl => ?_, scene_eq := ?_ }, .refl _, .refl _⟩
  · exact hb.loops l (mem_of_mem_tail hl)
  · obtain ⟨hstack, hloops⟩ := Scene.mk.inj hb.scene_eq
    rw [scene, hstack, hloops]
    rfl

/-- The blocks that a loop starts with are new and were made in the scene around it. -/
structure LoopStart (s : Scene) (W : List BlockId) (g : FlowGraph) (exit : BlockId) (elseBlock : Option BlockId)
    (header : BlockId) : Prop where
  new : exit ∉ W ∧ (∀ b ∈ elseBlock, b ∉ exit :: W) ∧ header ∉ elseBlock.toList ++ exit :: W
  exit : g.MadeUnder exit s.guards
  elseBlock : ∀ b ∈ elseBlock, g.MadeUnder b s.guards
  header : g.MadeUnder header s.guards

theorem LoopStart.mono (h : LoopStart s W g exit elseBlock header) (hg : g.Widens g') :
    LoopStart s W g' exit elseBlock header :=
  ⟨h.new, h.exit.mono hg.toExtends, fun b hb => (h.elseBlock b hb).mono hg.toExtends, h.header.mono hg.toExtends⟩

theorem LoopStart.admits_leave (h : LoopStart s W g exit elseBlock header) :
    g.Admits s.guards (elseBlock.getD exit) := by
  cases elseBlock with
  | none => exact h.exit.admits
  | some b => exact (h.elseBlock b rfl).admits

theorem keeps_startLoop (hasElse : Bool) : KeepsAt L.account ⟨s, s.guards, W, H, [], Opened⟩
      (fun r => ⟨s, s.guards, r.2.2 :: (r.2.1.toList ++ r.1 :: W), H, [], Unknown⟩) 0 g (startLoop hasElse)
      fun r g' => LoopStart s W g' r.1 r.2.1 r.2.2 ∧ r.2.1.isSome = hasElse := by
  refine .followed keeps_newBlock fun exit g₁ _ he => ?_
  extract_lets rest
  have hrest : ∀ (elseBlock : Option BlockId) g₂, g₁.Widens g₂ →
      (∀ b ∈ elseBlock, g₂.MadeUnder b s.guards ∧ b ∉ exit :: W) → elseBlock.isSome = hasElse →
      KeepsAt L.account ⟨s, s.guards, elseBlock.toList ++ exit :: W, H, [], Opened⟩
        (fun r => ⟨s, s.guards, r.2.2 :: (r.2.1.toList ++ r.1 :: W), H, [], Unknown⟩) 0 g₂ (rest elseBlock)
        fun r g' => LoopStart s W g' r.1 r.2.1 r.2.2 ∧ r.2.1.isSome = hasElse := by
    intro elseBlock g₂ h₂ hb hsome
    refine .followed .get fun b g₃ h₃ _ => ?_
    refine .followed (keeps_newBlockAt _) fun header g₄ h₄ hh => ?_
    refine .followed (keeps_jump hh.1.admits) fun _ g₅ h₅ _ => ?_
    intro fails c r c' hc hg hrun
    cases hrun
    have h := ((h₃.trans h₄).trans h₅).trans hg
    refine ⟨fails, hc, .quiet (.refl _) (.refl _), ⟨?_, he.1.mono (h₂.trans h).toExtends, fun b hb' => ?_, ?_⟩, hsome⟩
    · exact ⟨he.2, fun b hb' => (hb b hb').2, hh.2⟩
    · exact (hb b hb').1.mono h.toExtends
    · exact hh.1.mono (h₅.trans hg).toExtends
  split
  next hhas =>
    rw [map_eq_pure_bind, bind_assoc]
    refine .followed keeps_newBlock fun b g₂ h₂ hb => ?_
    rw [pure_bind]
    exact hrest (some b) g₂ h₂ (fun c hc => Option.some.inj hc ▸ hb) hhas.symm
  next hhas =>
    rw [pure_bind]
    exact hrest none g₁ (.refl _) nofun (by simpa using hhas)

theorem keeps_finishLoop {m : Multiset Job} {orElse : Option (Build Unit)}
    (hr : LoopStart s W g exit elseBlock header ∧ elseBlock.isSome = orElse.isSome)
    (helse : ∀ a ∈ orElse, Lowers L.account m a) (hnone : orElse = none → m = 0) :
    Keeps L.account ⟨s, here, elseBlock.toList ++ exit :: W, H, [], Unknown⟩ ⟨s, s.guards, W, H, [], Opened⟩ m g
      (finishLoop exit elseBlock (orElse.getD (pure ()))) := by
  obtain ⟨hr, hsome⟩ := hr
  have hnew := hr.new
  cases elseBlock with
  | some e =>
    obtain ⟨a, rfl⟩ := Option.isSome_iff_exists.1 hsome.symm
    have he := hnew.2.1 e rfl
    refine .andThen (keeps_enter (exit :: W) (hr.elseBlock e rfl)) ?_
    refine .closing (helse a rfl s _ H g) ?_
    exact .andThen (keeps_jump hr.exit.admits) (keeps_enter W hr.exit)
  | none =>
    rw [hnone (Option.isNone_iff_eq_none.1 (Option.isSome_eq_false_iff.1 hsome.symm))]
    exact keeps_enter W hr.exit

section

variable {m m' : Multiset Job} {body : Build Unit} {orElse : Option (Build Unit)}

theorem lowers_buildWhile (node test : Node) (hbody : Lowers L.account m body)
    (helse : ∀ a ∈ orElse, Lowers L.account m' a) (hnone : orElse = none → m' = 0) :
    Lowers L.account ({.test test} + (m + m')) (buildWhile node test body orElse) := by
  intro s W H g
  refine .followed (keeps_startLoop _) fun (exit, elseBlock, header) g₁ _ hr => ?_
  have hnew := hr.1.new
  refine .andThen (keeps_openLoop hr.1.header hr.1.exit) ?_
  refine .andThen (keeps_enter (elseBlock.toList ++ exit :: W) hr.1.header) ?_
  refine keeps_tested (s := s.inLoop header exit) test ?_
  refine .followed keeps_newBlock fun bodyBlock g₂ h₂ hbb => ?_
  have hr' := hr.1.mono h₂
  refine .andThen (keeps_fork hbb.1.admits hr'.admits_leave) ?_
  refine .andThen (keeps_enter (elseBlock.toList ++ exit :: W) hbb.1) ?_
  refine .plus (hbody _ _ H g₂) fun _ => ?_
  refine .andThen (keeps_jumpBy hr'.header.admits) ?_
  exact .andThen keeps_closeLoop (keeps_finishLoop ⟨hr', hr.2⟩ helse hnone)

theorem lowers_buildFor (node target iterable : Node) (hbody : Lowers L.account m body)
    (helse : ∀ a ∈ orElse, Lowers L.account m' a) (hnone : orElse = none → m' = 0) :
    Lowers L.account ({.settle iterable} + ({.iterate target iterable} + (m + m')))
      (buildFor node target iterable body orElse) := by
  intro s W H g
  refine keeps_settled iterable ?_
  refine .followed (keeps_startLoop _) fun (exit, elseBlock, header) g₁ _ hr => ?_
  have hnew := hr.1.new
  refine .andThen (keeps_openLoop hr.1.header hr.1.exit) ?_
  refine .followed keeps_newBlock fun bodyBlock g₂ h₂ hbb => ?_
  have hr' := hr.1.mono h₂
  refine .andThen (keeps_enter (bodyBlock :: (elseBlock.toList ++ exit :: W)) hr'.header) ?_
  refine .andThen (keeps_fork (s := s.inLoop header exit) hbb.1.admits hr'.admits_leave) ?_
  refine .andThen (keeps_enter (elseBlock.toList ++ exit :: W) hbb.1) ?_
  refine .plus (keeps_perform (s := s.inLoop header exit) (.iterate target iterable) rfl) fun _ => ?_
  refine .plus (hbody _ _ H g₂) fun _ => ?_
  refine .andThen (keeps_jumpBy hr'.header.admits) ?_
  exact .andThen keeps_closeLoop (keeps_finishLoop ⟨hr', hr.2⟩ helse hnone)

end

end Loops

/-! ## Guarded blocks -/

section Regions

variable {now : BlockId → Ending → Prop}
variable {x : Option BlockId} {fails : List BlockId}

theorem admits_of_inRegion {id : BlockId} (h : g.MadeUnder id (s.inRegion x).guards) : g.Admits s.guards id := by
  refine ⟨h.lt_size, fun f hf => .inr ?_⟩
  rw [h.guards_eq]
  cases x with
  | none => exact hf
  | some _ => exact mem_cons_of_mem _ hf

theorem keeps_openRegion {region : BlockId → Region} {next : BlockId → Build β}
    (hregion : ∀ {id g'}, g'.MadeUnder id s.guards → (region id).MadeIn g' s.stack)
    (h : ∀ id g', g.Widens g' → g'.MadeUnder id s.guards ∧ id ∉ W →
      KeepsAt L.account ⟨s.inRegion (region id).guard?, here, id :: W, H, [], now⟩ st' m g' (next id) result) :
    KeepsAt L.account ⟨s, here, W, H, [], now⟩ st' m g (openRegion region >>= next) result := by
  unfold openRegion
  simp only [bind_assoc, pure_bind]
  refine .followed keeps_newBlock fun id g' hg' hid => ?_
  refine .andThen (.modify fun fails b hb hg => ?_) (h id g' hg' hid)
  obtain rfl : b.scene = s := hb.scene_eq
  refine ⟨{ hb with loops := fun l hl => (hb.loops l hl).cons _, regions := ⟨?_, hb.regions⟩, scene_eq := rfl },
    .refl _, .refl _⟩
  exact hregion (hid.1.mono hg.toExtends)

theorem exists_regions_of_inRegion (hs : b.scene = s.inRegion x) :
    ∃ r outer, b.regions = r :: outer ∧ r.guard? = x := by
  obtain ⟨hstack, -⟩ := Scene.mk.inj hs
  obtain ⟨r, outer, hr, hx, -⟩ := map_eq_cons_iff.1 hstack
  exact ⟨r, outer, hr, hx⟩

theorem At.leaveRegion {r : Region} {outer : List Region}
    (hb : b.At ⟨s.inRegion x, here, W, H, [], now⟩ fails) (hr : b.regions = r :: outer)
    (hloops : ∀ l ∈ s.loops, l.MadeIn b.graph s.stack) :
    At { b with regions := outer } ⟨s, here, W, H, [], now⟩ fails := by
  obtain ⟨hstack, hl⟩ := Scene.mk.inj hb.scene_eq
  rw [hr] at hstack
  have hscene : scene { b with regions := outer } = s := by
    rw [scene, (List.cons.inj hstack).2, hl]
  have hregions := hb.regions
  rw [hr] at hregions
  refine { hb with loops := ?_, regions := hregions.2, scene_eq := hscene }
  rw [hscene]
  exact hl ▸ hloops

theorem keeps_closeRegion (hloops : ∀ l ∈ s.loops, l.MadeIn g s.stack) :
    Keeps L.account ⟨s.inRegion x, here, W, H, [], now⟩ ⟨s, here, W, H, [], now⟩ 0 g closeRegion := by
  refine .modify fun fails b hb hg => ?_
  obtain ⟨r, outer, hr, -⟩ := exists_regions_of_inRegion hb.scene_eq
  rw [hr]
  exact ⟨hb.leaveRegion hr fun l hl => (hloops l hl).mono hg, .refl _, .refl _⟩

theorem keeps_buildLast {after entry : BlockId} {last : Build Unit} (ha : g.MadeUnder after s.guards)
    (hnew : entry ∉ after :: W) (hloops : ∀ l ∈ s.loops, l.MadeIn g s.stack) (hlast : Lowers L.account m last) :
    Keeps L.account ⟨s.inRegion (some entry), here, entry :: after :: W, H, [], Unknown⟩
      ⟨s, s.guards, after :: W, H, [], Unknown⟩ m g (buildLast after last) := by
  intro fails b x b' hb hg hrun
  obtain ⟨r, outer, hr, hx⟩ := exists_regions_of_inRegion hb.scene_eq
  have hb' := hb.leaveRegion hr fun l hl => (hloops l hl).mono hg
  obtain ⟨_, _, hget, hrun⟩ := run_bind_eq_ok hrun
  cases hget
  cases r with
  | handlers dispatch => cases hx
  | last entry pending =>
    cases hx
    have hregions := hb.regions
    rw [hr] at hregions hrun
    have houter : outer.map Region.guard? = s.stack := congrArg Scene.stack hb'.scene_eq
    obtain ⟨⟨hentry, hpending⟩, -⟩ := hregions
    rw [houter] at hentry hpending
    have hrest : Keeps L.account ⟨s, here, entry :: after :: W, H, [], Unknown⟩
        ⟨s, s.guards, after :: W, H, [], Unknown⟩ m b.graph (do
          setCurrent entry
          last
          let b ← get
          addEdge b.current b.exceptionTarget .exception
          pending.forM fun j => route b.current j.1 j.2.1 j.2.2
          jump after) := by
      refine .andThen (keeps_enter (after :: W) hentry) ?_
      refine .closing (hlast s _ H b.graph) ?_
      refine .followed .getHere fun b₁ g₁ h₁ hb₁ => ?_
      obtain ⟨⟨_, hb₁⟩, rfl⟩ := hb₁
      obtain rfl : b₁.scene = s := hb₁.scene_eq
      refine .andThen (keeps_stand hb₁.admits_exceptionTarget rfl) ?_
      refine .andThen (.forM fun j hj => ?_) ?_
      · obtain ⟨hlimit, hdest, hkind⟩ := hpending j hj
        exact keeps_route hlimit (hdest.mono h₁.toExtends) hkind
      · exact (keeps_jump ((ha.mono hg.toExtends).mono h₁.toExtends).admits fun _ _ h => h.plain).imp
          fun _ _ _ _ => trivial
    exact hrest fails { b with regions := outer } _ _ hb' (.refl _) hrun

theorem keeps_buildHandler (handler : Node) {dispatch join : BlockId} {body : Build Unit} (hH : dispatch ∈ H)
    (hd : g.MadeUnder dispatch s.guards) (hj : g.Admits s.guards join) (hbody : Lowers L.account m body) :
    Keeps L.account ⟨s, here, W, H, [], Unknown⟩ ⟨s, s.guards, W, H, [], Unknown⟩ ({.handle handler} + m) g
      (buildHandler handler dispatch join body) := by
  refine .followed keeps_newBlock fun block g' h hb => ?_
  refine .andThen (keeps_addEdge hH (hd.mono h.toExtends) hb.1.admits) ?_
  refine .andThen (keeps_enter W hb.1) ?_
  refine .plus (keeps_perform (.handle handler) rfl) fun _ => ?_
  exact .closing (hbody s _ H g') ((keeps_jump (hj.mono h.toExtends)).imp fun _ _ _ _ => trivial)

theorem At.hub {d : BlockId} {P : List BlockId} (h : b.At ⟨s, here, d :: W, H, P, now⟩ fails) (hd : d ∉ W) :
    b.At ⟨s, here, W, d :: H, P, now⟩ fails :=
  { h with
    waiting := fun i hi => h.waiting i (mem_cons_of_mem _ hi)
    hubs := fun i hi => by
      rcases mem_cons.1 hi with rfl | hi
      · obtain ⟨hlt, hne, hopen⟩ := h.waiting i mem_cons_self
        exact ⟨hlt, hne, hd, hopen.plain⟩
      · obtain ⟨hlt, hne, hw, hplain⟩ := h.hubs i hi
        exact ⟨hlt, hne, fun hi => hw (mem_cons_of_mem _ hi), hplain⟩ }

theorem At.dismiss {d : BlockId} {P : List BlockId} (h : b.At ⟨s, here, W, d :: H, P, now⟩ fails) :
    b.At ⟨s, here, W, H, P, now⟩ fails :=
  { h with hubs := fun i hi => h.hubs i (mem_cons_of_mem _ hi) }

end Regions

/-! ## Assertions -/

section Assertions

variable {fail after : BlockId}

/-- Closes the block that an assertion fails in, wherever lowering is, and goes on after the assertion. -/
def raiseAt (fail after : BlockId) : Build Unit := do
  modifyGraph fun g => g.setTerminator fail .raise
  let b ← get
  addEdge b.current b.exceptionTarget .exception
  setCurrent after

theorem At.refuse {P fails : List BlockId} (h : b.At ⟨s, here, W, H, P, Opened⟩ fails)
    (hleft : (b.graph.ending fail).Left) (hlt : fail < b.graph.size) (hH : fail ∉ H) (hfails : fail ∉ fails) :
    At { b with graph := b.graph.setTerminator fail .raise } ⟨s, here, W, H, [], Opened⟩ (fail :: fails) := by
  have hadv := h.confined.setTerminator h.mirrored fail .raise
  have hending := FlowGraph.ending_setTerminator hlt .raise
  have hother : ∀ j, j ≠ fail → (b.graph.setTerminator fail .raise).ending j = b.graph.ending j := fun j hj => by
    rw [hending, if_neg hj]
  have hopen : ∀ j, (b.graph.ending j).Open → j ≠ fail := fun j hj heq => hleft.not_open (heq ▸ hj)
  constructor
  · exact h.toSound.withGraph hadv
  · exact h.scene_eq
  · exact (hother _ (hopen _ h.now)).symm ▸ h.now
  · intro j hj
    obtain ⟨hlt, hne, hj⟩ := h.waiting j hj
    exact ⟨hlt.trans_le hadv.size_le, hne, (hother j (hopen j hj)).symm ▸ hj⟩
  · intro j hj
    obtain ⟨hlt, hne, hw, hplain⟩ := h.hubs j hj
    exact ⟨hlt.trans_le hadv.size_le, hne, hw, (hother j fun heq => hH (heq ▸ hj)).symm ▸ hplain⟩
  · nofun
  · intro j hj
    obtain ⟨hne, hj⟩ := not_or.1 (mt mem_cons.2 hj)
    exact (hother j hne).symm ▸ h.agrees j hj
  · intro j hj
    rcases mem_cons.1 hj with rfl | hj
    · refine ⟨?_, hadv.toWidens.left hleft⟩
      rw [hending, if_pos rfl]
      rfl
    · exact (hother j fun heq => hfails (heq ▸ hj)).symm ▸ h.failed j hj
  · exact nodup_cons.2 ⟨hfails, h.nodup⟩

theorem keeps_raiseAt (ha : g.MadeUnder after s.guards) (hnew : after ∉ W) :
    Keeps L.account ⟨s, s.guards, after :: W, H, [], fun c x => c = fail ∧ Opened c x⟩
      ⟨s, s.guards, W, H, [], Opened⟩ 0 g (raiseAt fail after) := by
  intro fails b x b' hb hg hrun
  obtain ⟨rfl, hopen⟩ := hb.now
  obtain rfl : b.scene = s := hb.scene_eq
  obtain ⟨hadv, hquiet, hending, hother⟩ := hb.closed .raise hb.admits_exceptionTarget .exception
  have hagrees := hending ▸ Open.raise hopen rfl
  have hb₁ : At { b with graph := _ } ⟨b.scene, b.scene.guards, after :: W, H, [], Unknown⟩ fails :=
    hb.advance (Open.plain hopen) hadv hother hagrees trivial
  cases hrun
  exact ⟨fails, hb₁.enter mem_cons_self ((ha.mono hg.toExtends).mono hadv.toExtends) (by grind) nofun,
    .quiet hadv.toWidens hquiet, trivial⟩

theorem keeps_refuse {m : Node} (hm : m.needsExpansion = true) (hf : g.MadeUnder fail s.guards)
    (ha : g.MadeUnder after s.guards) (hnew : fail ∉ W) (hnew' : after ∉ fail :: W) :
    Keeps L.account ⟨s, s.guards, after :: fail :: W, H, [], Unknown⟩ ⟨s, s.guards, W, H, [], Opened⟩
      {.refuse m} g (setCurrent fail >>= fun _ => (Job.refuse m).act >>= fun _ => raiseAt fail after) := by
  intro fails b x b' hb hg hrun
  obtain ⟨_, b₁, hset, hrun⟩ := run_bind_eq_ok hrun
  cases hset
  obtain ⟨_, b₂, hact, hfinish⟩ := run_bind_eq_ok hrun
  have hwait : fail ∈ after :: fail :: W := by simp
  have hH : fail ∉ H := fun hi => (hb.hubs _ hi).2.2.1 hwait
  have hfails : fail ∉ fails := fun hi => (hb.waiting _ hwait).2.2.plain.not_failed (hb.failed _ hi)
  have hW : ∀ i ∈ after :: W, i ≠ fail ∧ i ∈ after :: fail :: W := by grind
  have hb₁ : At { b with current := fail } ⟨s, s.guards, after :: W, H, [fail], Opened⟩ fails :=
    hb.enter hwait (hf.mono hg.toExtends) hW fun o ho => .inl (mem_singleton.1 ho)
  have hlower : KeepsAt stock ⟨s, s.guards, after :: W, H, [fail], Opened⟩
      (fun _ => ⟨s, s.guards, after :: W, H, [fail], Opened⟩) (testsOf (Node.idsAll m.children)) g
      (Job.refuse m).act fun _ g' => (g'.ending fail).Left := by
    refine .lastly (keeps_lowerExpr m) fun _ g₁ _ hl => ?_
    exact (keeps_hoistOnce m).imp fun _ _ hg _ => hg.left (hl hm fail mem_cons_self)
  obtain ⟨_, hb₂, hp, hleft⟩ := hlower fails _ _ b₂ hb₁ hg hact
  obtain ⟨new, rfl, hlength⟩ := hp.failures
  obtain rfl : new = [] := length_eq_zero_iff.1 hlength
  have hrel := L.performs (hb.enter hwait (hf.mono hg.toExtends) hW nofun) hact
  have hterm := hb₂.confined.setTerminator hb₂.mirrored fail .raise
  have hb₃ := hb₂.refuse hleft ((hf.mono hg.toExtends).mono hp.toExtends).lt_size hH hfails
  have hstanding : At _ ⟨s, s.guards, after :: W, H, [], Resting b₂.current⟩ (fail :: fails) :=
    { hb₃ with now := ⟨rfl, Open.plain hb₃.now⟩ }
  have htarget := hb₃.admits_exceptionTarget
  rw [hb₃.scene_eq] at htarget
  obtain ⟨hadv, hb₄⟩ := hstanding.addEdge htarget (rfl : EdgeKind.exception.isDecided = false)
  have hgrown := hp.toWidens.trans (hterm.trans hadv).toWidens
  cases hfinish
  refine ⟨fail :: fails, hb₄.enter mem_cons_self ((ha.mono hg.toExtends).mono hgrown.toExtends) (by grind) nofun,
    ⟨hgrown, ?_, [fail], rfl, ?_⟩, trivial⟩
  · rw [← add_zero ({.refuse m} : Multiset Job)]
    exact L.trans hrel (L.quiet ((FlowGraph.Quiet.setTerminator _ _ _).trans (.addEdge _ _ _ _)))
  · exact ((L.failures_singleton (.refuse m)).trans (congrArg Bool.toNat hm)).symm

theorem lowers_buildAssert (test : Node) (message : Option Node) :
    Lowers L.account ({.test test} + ↑(message.toList.map Job.refuse)) (buildAssert test message) := by
  intro s W H g
  refine keeps_tested test ?_
  refine .followed keeps_newBlock fun fail g₁ _ hf => ?_
  refine .followed keeps_newBlock fun after g₂ h₂ ha => ?_
  have hmade := hf.1.mono h₂.toExtends
  refine .andThen (keeps_fork ha.1.admits hmade.admits) ?_
  have hhere : Keeps L.account ⟨s, s.guards, after :: fail :: W, H, [], Unknown⟩
      ⟨s, s.guards, after :: W, H, [], fun c x => c = fail ∧ Opened c x⟩ 0 g₂ (setCurrent fail) :=
    .modify fun fails b hb hg =>
      have hb' : At _ ⟨s, s.guards, after :: W, H, [], Opened⟩ fails :=
        hb.enter (by simp) (hmade.mono hg.toExtends) (by grind) nofun
      ⟨{ hb' with now := ⟨rfl, hb'.now⟩ }, .refl _, .refl _⟩
  have hafter : after ∉ W := fun h => ha.2 (mem_cons_of_mem _ h)
  cases message with
  | none => exact .andThen hhere (keeps_raiseAt ha.1 hafter)
  | some m =>
    by_cases hm : m.needsExpansion = true
    · have h := keeps_refuse (L := L) (H := H) hm hmade ha.1 hf.2 ha.2
      simp only [Job.act, bind_assoc] at h
      exact h
    · have hm : m.needsExpansion = false := by simpa using hm
      refine .andThen hhere ?_
      have hact : Keeps L.account ⟨s, s.guards, after :: W, H, [], fun c x => c = fail ∧ Opened c x⟩
          ⟨s, s.guards, after :: W, H, [], fun c x => c = fail ∧ Opened c x⟩ {.refuse m} g₂ (Job.refuse m).act := by
        have hhoist : Keeps stock ⟨s, s.guards, after :: W, H, [], fun c x => c = fail ∧ Opened c x⟩
            ⟨s, s.guards, after :: W, H, [], fun c x => c = fail ∧ Opened c x⟩ 0 g₂ (Job.refuse m).act := by
          rw [Job.act, lowerExpr_of_not_needsExpansion hm, pure_bind]
          exact keeps_hoistOnce m
        refine hhoist.account (fun _ b x b' hb hrun _ => L.performs (hb.relax fun _ _ h => h.2) hrun) ?_
        exact ((L.failures_singleton (.refuse m)).trans (congrArg Bool.toNat hm)).symm
      have h : Keeps L.account _ ⟨s, s.guards, W, H, [], Opened⟩ {.refuse m} g₂
          ((Job.refuse m).act >>= fun _ => raiseAt fail after) := hact.closing (keeps_raiseAt ha.1 hafter)
      simp only [Job.act, bind_assoc] at h
      exact h

end Assertions

/-- The scene inside a guarded block, under its last part if it has one, where its parts go on to, and what waits: the
entry of the last part, or only what follows. -/
inductive Guarding (s : Scene) (W : List BlockId) (after : BlockId) (last : Option (Build Unit)) :
    Scene → BlockId → List BlockId → Prop
  | plain : last = none → Guarding s W after last s after (after :: W)
  | last (l : Build Unit) (entry : BlockId) : last = some l → entry ∉ after :: W →
      Guarding s W after last (s.inRegion (some entry)) entry (entry :: after :: W)

theorem Guarding.admits {s₁ : Scene} {after join id : BlockId} {last : Option (Build Unit)} {W W₁ : List BlockId}
    (h : Guarding s W after last s₁ join W₁) (hid : g.MadeUnder id s₁.guards) : g.Admits s.guards id := by
  cases h with
  | plain _ => exact hid.admits
  | last l entry _ _ => exact admits_of_inRegion hid

theorem lowers_buildTry {mB mE mH mL : Multiset Job} {body orElse : Build Unit}
    {handlers : Option (BlockId → BlockId → Build Unit)} {catchesAll : Bool} {last : Option (Build Unit)}
    (hbody : Lowers L.account mB body) (helse : Lowers L.account mE orElse)
    (hhandlers : ∀ h ∈ handlers, ∀ {s : Scene} {W H : List BlockId} {g : FlowGraph} {dispatch join : BlockId},
      dispatch ∈ H → g.MadeUnder dispatch s.guards → g.Admits s.guards join →
      Keeps L.account ⟨s, s.guards, W, H, [], Unknown⟩ ⟨s, s.guards, W, H, [], Unknown⟩ mH g (h dispatch join))
    (hnone : handlers = none → mH = 0) (hlast : ∀ l ∈ last, Lowers L.account mL l) (hnone' : last = none → mL = 0) :
    Lowers L.account (mB + (mE + (mH + mL))) (buildTry body orElse handlers catchesAll last) := by
  intro s W H g
  refine .withLoops fun g₀ _ hloops => ?_
  refine .followed keeps_newBlock fun after g₁ h₁ ha => ?_
  have hloops : ∀ l ∈ s.loops, l.MadeIn g₁ s.stack := fun l hl => (hloops l hl).mono h₁
  extract_lets finish conclude guarded
  have hconclude : ∀ {s₁ : Scene} {join : BlockId} {W₁ here : List BlockId}, Guarding s W after last s₁ join W₁ →
      Keeps L.account ⟨s₁, here, W₁, H, [], Unknown⟩ ⟨s, s.guards, W, H, [], Opened⟩ mL g₁ (conclude ⟨⟩) := by
    intro s₁ join W₁ here hguarding
    cases hguarding with
    | plain hn =>
      subst hn
      rw [hnone' rfl]
      exact keeps_enter W ha.1
    | last l entry hsome hnew =>
      subst hsome
      exact .closing (keeps_buildLast ha.1 hnew hloops (hlast l rfl)) (keeps_enter W ha.1)
  have hguarded : ∀ {s₁ : Scene} {join : BlockId} {W₁ : List BlockId} {g₂ : FlowGraph},
      Guarding s W after last s₁ join W₁ → g₁.Widens g₂ → g₂.Admits s₁.guards join →
      (∀ l ∈ s₁.loops, l.MadeIn g₂ s₁.stack) →
      Keeps L.account ⟨s₁, s.guards, W₁, H, [], Opened⟩ ⟨s, s.guards, W, H, [], Opened⟩ (mB + (mE + (mH + mL))) g₂
        (guarded join) := by
    intro s₁ join W₁ g₂ hguarding h₂ hjoin hloops₁
    unfold guarded
    extract_lets protect
    -- The handlers, if there are any, add a region without a guard until the body ends.
    have hprotect : ∀ (dispatch : Option BlockId) {s₂ : Scene} {g₃ : FlowGraph}, g₂.Widens g₃ →
        (∀ d ∈ dispatch, g₃.MadeUnder d s₁.guards ∧ d ∉ W₁) → dispatch.isSome = handlers.isSome →
        s₂ = (if dispatch.isSome then s₁.inRegion none else s₁) →
        Keeps L.account ⟨s₂, s.guards, dispatch.toList ++ W₁, H, [], Opened⟩ ⟨s, s.guards, W, H, [], Opened⟩
          (mB + (mE + (mH + mL))) g₃ (protect dispatch) := by
      intro dispatch s₂ g₃ h₃ hd hsome hs₂
      have hguards : s₂.guards = s₁.guards := by
        rw [hs₂]
        split <;> rfl
      refine .followed keeps_newBlock fun start g₄ h₄ hs => ?_
      refine .andThen (keeps_jump (hguarding.admits (hguards ▸ hs.1))) ?_
      refine .andThen (keeps_enter (dispatch.toList ++ W₁) hs.1) ?_
      refine .followed keeps_newBlock fun first g₅ h₅ hf => ?_
      refine .andThen (keeps_jump hf.1.admits) ?_
      refine .andThen (keeps_enter (dispatch.toList ++ W₁) hf.1) ?_
      refine .plus (hbody s₂ _ H g₅) fun _ => ?_
      extract_lets proceed
      have h₃₅ := h₄.trans h₅
      have h₂₅ := h₃.trans h₃₅
      have hproceed : Keeps L.account ⟨s₁, s₁.guards, dispatch.toList ++ W₁, H, [], Opened⟩
          ⟨s, s.guards, W, H, [], Opened⟩ (mE + (mH + mL)) g₅ (proceed ⟨⟩) := by
        refine .plus (helse s₁ _ H g₅) fun _ => ?_
        refine .andThen (keeps_jump (hjoin.mono h₂₅.toExtends)) ?_
        have hend : Keeps L.account ⟨s₁, s₁.guards, W₁, H, [], Unknown⟩ ⟨s, s.guards, W, H, [], Opened⟩ mL g₅
            (conclude ⟨⟩) := (hconclude hguarding).weaken (h₂.trans h₂₅)
        cases dispatch with
        | none =>
          cases Option.isNone_iff_eq_none.1 (Option.isSome_eq_false_iff.1 hsome.symm)
          rw [hnone rfl, zero_add]
          exact hend
        | some d =>
          obtain ⟨h, rfl⟩ := Option.isSome_iff_exists.1 hsome.symm
          obtain ⟨hd, hnew⟩ := hd d rfl
          have hd := hd.mono h₃₅.toExtends
          have hend : Keeps L.account ⟨s₁, s₁.guards, W₁, d :: H, [], Unknown⟩ ⟨s, s.guards, W, H, [], Opened⟩ mL g₅
              (conclude ⟨⟩) := hend.revise fun _ _ hb _ => hb.dismiss
          refine .revise (.plus (hhandlers h rfl mem_cons_self hd (hjoin.mono h₂₅.toExtends)) fun _ => ?_)
            fun _ _ hb _ => hb.hub hnew
          split
          · refine .followed .get fun b g₆ h₆ hb => ?_
            obtain ⟨⟨_, hb⟩, rfl⟩ := hb
            obtain rfl : b.scene = s₁ := hb.scene_eq
            refine .andThen (keeps_addEdge mem_cons_self (hd.mono h₆.toExtends) hb.admits_exceptionTarget) ?_
            exact hend.weaken h₆
          · exact hend
      split
      next hsome =>
        rw [if_pos hsome] at hs₂
        subst hs₂
        exact .andThen (keeps_closeRegion fun l hl => (hloops₁ l hl).mono h₂₅) hproceed
      next hnone =>
        rw [if_neg hnone] at hs₂
        subst hs₂
        exact hproceed
    split
    next hsome =>
      rw [map_eq_pure_bind, bind_assoc]
      refine keeps_openRegion id fun d g₃ h₃ hd => ?_
      rw [pure_bind]
      exact hprotect (some d) h₃ (fun c hc => Option.some.inj hc ▸ hd) hsome.symm rfl
    next hsome =>
      rw [pure_bind]
      exact hprotect none (.refl _) (by simp) (by simpa using hsome) rfl
  split
  next hsome =>
    obtain ⟨l, rfl⟩ := Option.isSome_iff_exists.1 hsome
    refine keeps_openRegion (fun h => ⟨h, by simp⟩) fun entry g₂ h₂ hentry => ?_
    exact hguarded (.last l entry rfl hentry.2) h₂ hentry.1.admits_cons fun k hk => ((hloops k hk).mono h₂).cons _
  next hnone =>
    rw [pure_bind]
    exact hguarded (.plain (Option.not_isSome_iff_eq_none.1 hnone)) (.refl _) ha.1.admits hloops

/-! ## Bodies -/

theorem jobsOfHandlers_eq_zero {parts : List Node} (h : parts.any isHandler = false) :
    jobsOfHandlers parts = 0 := by
  induction parts with
  | nil => rw [jobsOfHandlers]
  | cons n rest ih =>
    obtain ⟨hn, hrest⟩ : isHandler n = false ∧ rest.any isHandler = false := by simpa using h
    obtain ⟨id, kind, span, parent, children⟩ := n
    rw [jobsOfHandlers, hn, ih hrest]
    rfl

theorem jobsOfFirst_eq_zero {wanted : Kind} {parts : List Node} (h : parts.any (·.kind == wanted) = false) :
    jobsOfFirst wanted parts = 0 := by
  induction parts with
  | nil => rw [jobsOfFirst]
  | cons n rest ih =>
    obtain ⟨hn, hrest⟩ : n.kind ≠ wanted ∧ rest.any (·.kind == wanted) = false := by simpa using h
    obtain ⟨id, kind, span, parent, children⟩ := n
    rw [jobsOfFirst, if_neg hn, ih hrest]

theorem Lowers.separately {act : Build Unit} (h : Lowers L.account m act) :
    Lowers L.account m (separate >>= fun _ => act) :=
  fun s W H g => .andThen (lowers_separate s W H g) (h s W H g)

theorem lowers_push_exec (h : stmt.operands = []) : Lowers L.account {.exec stmt} (push (.exec stmt)) := by
  intro s W H g
  have hexec := keeps_exec (L := L) (s := s) (W := W) (H := H) (g := g) h
  unfold execAfter lowerSequence at hexec
  exact hexec

mutual

theorem lowers_buildStmt : ∀ n : Node, Lowers L.account n.jobs (buildStmt n)
  | ⟨id, kind, span, parent, children⟩ => by
    unfold buildStmt
    extract_lets node
    refine .separately ?_
    split
    · split
      next test body =>
        simp only [jobs, jobsOfBlocks]
        exact lowers_buildIf test (lowers_buildBlock body) (fun _ _ _ _ => .pure fun _ _ => trivial)
      next test body orElse =>
        simp only [jobs, jobsOfBlocks, add_zero]
        exact lowers_buildIf test (lowers_buildBlock body) (lowers_buildBlock orElse)
      next => exact fun _ _ _ _ => .throw _
    · split
      next test body =>
        simp only [jobs, jobsOfBlocks]
        exact lowers_buildWhile node test (lowers_buildBlock body) nofun (fun _ => rfl)
      next test body orElse =>
        simp only [jobs, jobsOfBlocks, add_zero]
        have helse := lowers_buildBlock orElse
        exact lowers_buildWhile node test (lowers_buildBlock body) (fun _ ha => Option.some.inj ha ▸ helse) nofun
      next => exact fun _ _ _ _ => .throw _
    · split
      next target iterable body =>
        simp only [jobs, Node.jobsOfHead]
        exact lowers_buildFor node target iterable (lowers_buildBlock body) nofun (fun _ => rfl)
      next target iterable body orElse _ =>
        simp only [jobs, Node.jobsOfHead]
        have helse := lowers_buildBlock orElse
        exact lowers_buildFor node target iterable (lowers_buildBlock body)
          (fun _ ha => Option.some.inj ha ▸ helse) nofun
      next => exact fun _ _ _ _ => .throw _
    · split
      next body rest =>
        simp only [jobs]
        refine lowers_buildTry (lowers_buildBlock body) (lowers_buildFirst .block rest) ?_ ?_ ?_ ?_
        · intro h hh s W H g dispatch join hH hd hj
          split at hh
          · cases hh
            exact keeps_buildHandlers rest hH hd hj
          · cases hh
        · intro h
          split at h
          · cases h
          · exact jobsOfHandlers_eq_zero (Bool.not_eq_true _ ▸ ‹_›)
        · intro l hl
          split at hl
          · cases hl
            exact lowers_buildFirst .last rest
          · cases hl
        · intro h
          split at h
          · cases h
          · exact jobsOfFirst_eq_zero (Bool.not_eq_true _ ▸ ‹_›)
      next => exact fun _ _ _ _ => .throw _
    · unfold jobs
      exact lowers_buildItems children
    · split
      next test rest =>
        simp only [jobs]
        exact lowers_buildAssert test rest.head?
      next => exact fun _ _ _ _ => .throw _
    · unfold jobs
      exact lowers_returnFrom rfl
    · unfold jobs
      exact lowers_raiseFrom rfl
    · unfold jobs
      exact lowers_leaveLoop node true
    · unfold jobs
      exact lowers_leaveLoop node false
    · unfold jobs
      exact fun _ _ _ _ => keeps_exec rfl
    · unfold jobs
      exact fun _ _ _ _ => keeps_exec rfl
    · unfold jobs
      exact fun _ _ _ _ => keeps_exec rfl
    · unfold jobs
      exact fun _ _ _ _ => keeps_exec rfl
    · exact fun _ _ _ _ => .throw _
    · split
      · exact fun _ _ _ _ => .throw _
      · rw [jobs] <;> try assumption
        exact lowers_push_exec (by simp_all [Node.operands])
termination_by n => sizeOf n
decreasing_by all_goals (subst_vars; simp only [Node.mk.sizeOf_spec, List.cons.sizeOf_spec]; omega)

theorem lowers_buildBody : ∀ stmts : List Node, Lowers L.account (jobsAll stmts) (buildBody stmts)
  | [] => fun _ _ _ _ => by
    unfold buildBody jobsAll
    exact .pure fun _ _ => trivial
  | n :: rest => fun s W H g => by
    unfold buildBody jobsAll
    exact .plus (lowers_buildStmt n s W H g) fun _ => lowers_buildBody rest s W H g
termination_by stmts => sizeOf stmts

theorem lowers_buildBlock : ∀ n : Node, Lowers L.account (Node.jobsOfBlock n) (buildBlock n)
  | ⟨_, _, _, _, stmts⟩ => fun s W H g => by
    unfold buildBlock Node.jobsOfBlock
    exact lowers_buildBody stmts s W H g
termination_by n => sizeOf n

theorem lowers_buildFirst (wanted : Kind) : ∀ parts : List Node,
    Lowers L.account (jobsOfFirst wanted parts) (buildFirst wanted parts)
  | [] => fun _ _ _ _ => by
    unfold buildFirst jobsOfFirst
    exact .pure fun _ _ => trivial
  | ⟨_, kind, _, _, stmts⟩ :: rest => fun s W H g => by
    unfold buildFirst jobsOfFirst
    split
    · exact lowers_buildBody stmts s W H g
    · exact lowers_buildFirst wanted rest s W H g
termination_by parts => sizeOf parts

theorem keeps_buildHandlers {dispatch join : BlockId} {s : Scene} {W H : List BlockId} {g : FlowGraph} :
    ∀ parts : List Node, dispatch ∈ H → g.MadeUnder dispatch s.guards → g.Admits s.guards join →
      Keeps L.account ⟨s, s.guards, W, H, [], Unknown⟩ ⟨s, s.guards, W, H, [], Unknown⟩ (jobsOfHandlers parts) g
        (buildHandlers dispatch join parts)
  | [], _, _, _ => by
    unfold buildHandlers jobsOfHandlers
    exact .pure fun _ _ => trivial
  | ⟨id, kind, span, parent, children⟩ :: rest, hH, hd, hj => by
    unfold buildHandlers jobsOfHandlers
    extract_lets node
    split
    · exact .plus (keeps_buildHandler node hH hd hj (lowers_buildFinal children)) fun _ =>
        keeps_buildHandlers rest hH hd hj
    · rw [zero_add]
      exact keeps_buildHandlers rest hH hd hj
termination_by parts => sizeOf parts

theorem lowers_buildFinal : ∀ parts : List Node, Lowers L.account (jobsOfFinal parts) (buildFinal parts)
  | [] => fun _ _ _ _ => by
    unfold buildFinal jobsOfFinal
    exact .pure fun _ _ => trivial
  | [n] => fun s W H g => by
    unfold buildFinal jobsOfFinal
    exact lowers_buildBlock n s W H g
  | _ :: n :: rest => fun s W H g => by
    unfold buildFinal jobsOfFinal
    exact lowers_buildFinal (n :: rest) s W H g
termination_by parts => sizeOf parts

theorem lowers_buildItems : ∀ parts : List Node, Lowers L.account (Node.jobsOfItems parts) (buildItems parts)
  | [] => fun _ _ _ _ => by
    unfold buildItems Node.jobsOfItems
    exact .pure fun _ _ => trivial
  | ⟨id, kind, span, parent, children⟩ :: rest => fun s W H g => by
    unfold buildItems Node.jobsOfItems
    extract_lets node
    have hrest := lowers_buildItems rest s W H g
    cases kind with
    | withItem =>
      have hperform := (keeps_perform (L := L) (.enter node) rfl).plus fun _ => hrest
      rwa [Job.act, bind_assoc] at hperform
    | block => exact .plus (lowers_buildBody children s W H g) fun _ => hrest
    | _ => exact .plus (KeepsAt.throw _ : Keeps _ _ _ _ _ _) fun _ => hrest
termination_by parts => sizeOf parts

end

end Jobs

/-! ## Units -/

section Units

variable {L : Ledger} {W H : List BlockId}

def entryJobs (unit : UnitInfo) : Multiset Job :=
  if unit.kind == .function then ↑((unit.node.childOfKind? "Arguments").toList.map Job.parameters) else 0

def exitJobs (unit : UnitInfo) : Multiset Job := if unit.kind == .function then {.returnNone} else 0

theorem map_unit {M : Type} [AddMonoid M] {f : Multiset Job → M} (hzero : f 0 = 0)
    (hadd : ∀ jobs jobs', f (jobs + jobs') = f jobs + f jobs') (hparameters : ∀ n, f {.parameters n} = 0)
    (hreturn : f {.returnNone} = 0) (unit : UnitInfo) (jobs : Multiset Job) :
    f (entryJobs unit + (jobs + exitJobs unit)) = f jobs := by
  have hentry : f (entryJobs unit) = 0 := by
    unfold entryJobs
    split
    · cases unit.node.childOfKind? "Arguments" with
      | none => exact hzero
      | some arguments => exact hparameters arguments
    · exact hzero
  have hexit : f (exitJobs unit) = 0 := by
    unfold exitJobs
    split
    · exact hreturn
    · exact hzero
  rw [hadd, hadd, hentry, hexit, zero_add, add_zero]

theorem keeps_buildUnit (unit : UnitInfo) (body : List Node) :
    Keeps L.account ⟨⟨[], []⟩, [], W, H, [], Opened⟩ ⟨⟨[], []⟩, [], W, H, [], Unknown⟩
      (entryJobs unit + (jobsAll body + exitJobs unit)) g (buildUnit unit body) := by
  unfold buildUnit
  extract_lets leave finish
  have hleave : Keeps L.account ⟨⟨[], []⟩, [], W, H, [], Opened⟩ ⟨⟨[], []⟩, [], W, H, [], Unknown⟩ 0 g (leave ⟨⟩) := by
    refine .followed .get fun b g' _ hb => ?_
    obtain ⟨⟨_, hb⟩, rfl⟩ := hb
    exact (keeps_jump hb.exit.admits).imp fun _ _ _ _ => trivial
  have hfinish : Keeps L.account ⟨⟨[], []⟩, [], W, H, [], Opened⟩ ⟨⟨[], []⟩, [], W, H, [], Unknown⟩
      (jobsAll body + exitJobs unit) g (finish ⟨⟩) := by
    refine .plus (lowers_buildBody body ⟨[], []⟩ W H g) fun _ => ?_
    unfold exitJobs
    split
    · exact .closing (keeps_perform (s := ⟨[], []⟩) .returnNone rfl) hleave
    · exact hleave
  unfold entryJobs
  split
  · split
    next arguments h =>
      rw [h]
      exact .plus (keeps_perform (s := ⟨[], []⟩) (.parameters arguments) rfl) fun _ => hfinish
    next h =>
      have hnone : unit.node.childOfKind? "Arguments" = none := Option.eq_none_iff_forall_not_mem.2 h
      rw [hnone, Option.toList_none, map_nil, Multiset.coe_nil, zero_add]
      exact hfinish
  · rw [zero_add]
    exact hfinish

end Units
end Builder

namespace FlowGraph

variable {policy : UnsupportedPolicy} {unit : UnitInfo} {g : FlowGraph}

theorem exists_run_of_ofUnit (h : FlowGraph.ofUnit policy unit = .ok g) :
    ∃ body x b, unit.body = some body ∧ Node.checkAll policy body = .ok () ∧
      (Builder.buildUnit unit body).run {} = .ok (x, b) ∧ g = b.graph.finish := by
  unfold FlowGraph.ofUnit at h
  split at h
  next => cases h
  next body hbody =>
    obtain ⟨_, hcheck, h⟩ := exists_ok_of_bind_eq_ok h
    obtain ⟨⟨x, b⟩, hrun, h⟩ := exists_ok_of_bind_eq_ok h
    exact ⟨body, x, b, hbody, hcheck, hrun, (Except.ok.inj h).symm⟩

theorem exists_body_of_ofUnit (h : FlowGraph.ofUnit policy unit = .ok g) : ∃ body, unit.body = some body := by
  obtain ⟨body, -, -, hbody, -⟩ := exists_run_of_ofUnit h
  exact ⟨body, hbody⟩

theorem checkAll_of_ofUnit {body : List Node} (hbody : unit.body = some body)
    (h : FlowGraph.ofUnit policy unit = .ok g) : Node.checkAll policy body = .ok () := by
  obtain ⟨_, -, -, hbody', hcheck, -⟩ := exists_run_of_ofUnit h
  exact Option.some.inj (hbody'.symm.trans hbody) ▸ hcheck

theorem exists_at_of_ofUnit (L : Builder.Ledger) {body : List Node} (hbody : unit.body = some body)
    (h : FlowGraph.ofUnit policy unit = .ok g) :
    ∃ (b : Builder) (fails : List BlockId), b.At ⟨⟨[], []⟩, [], [], [], [], Builder.Unknown⟩ fails ∧
      L.account.Passes (Builder.entryJobs unit + (jobsAll body + Builder.exitJobs unit)) [] fails .initial b.graph ∧
      g = b.graph.finish := by
  obtain ⟨_, x, b, hbody', -, hrun, hg⟩ := exists_run_of_ofUnit h
  cases Option.some.inj (hbody'.symm.trans hbody)
  obtain ⟨fails, hb, hp, -⟩ := Builder.keeps_buildUnit unit _ [] {} x b .initial (.refl _) hrun
  exact ⟨b, fails, hb, hp, hg⟩

variable (h : FlowGraph.ofUnit policy unit = .ok g)
include h

theorem exists_extends_of_ofUnit :
    ∃ b : Builder, b.Sound [] ∧ FlowGraph.initial.Extends b.graph ∧ g = b.graph.finish := by
  obtain ⟨body, hbody⟩ := exists_body_of_ofUnit h
  have L : Builder.Ledger := ⟨fun _ _ _ => True, fun _ => trivial, fun _ _ => trivial, fun _ _ => trivial⟩
  obtain ⟨b, fails, hb, hp, rfl⟩ := exists_at_of_ofUnit L hbody h
  exact ⟨b, hb.toSound, hp.toExtends, rfl⟩

theorem exists_sound_of_ofUnit : ∃ b : Builder, b.Sound [] ∧ g = b.graph.finish := by
  obtain ⟨b, hb, -, hg⟩ := exists_extends_of_ofUnit h
  exact ⟨b, hb, hg⟩

theorem ofUnit_id_block (b : BlockId) : (g.block b).id = b := by
  obtain ⟨l, -, hext, rfl⟩ := exists_extends_of_ofUnit h
  exact (hext.trans l.graph.extends_finish).id_block b

theorem ofUnit_entry_lt : g.entry < g.size := by
  obtain ⟨l, -, hext, rfl⟩ := exists_extends_of_ofUnit h
  exact (hext.trans l.graph.extends_finish).entry_lt

theorem ofUnit_mirrored : g.Mirrored := by
  obtain ⟨b, hb, rfl⟩ := exists_sound_of_ofUnit h
  exact hb.mirrored.finish

end FlowGraph

theorem Preparation.prepared_of_unit? {p : Program} {id : UnitId} {u : PreparedUnit}
    (h : (Preparation.ofProgram p).unit? id = some u) :
    p.units[id]? = some u.info ∧ FlowGraph.ofUnit p.settings.unsupported u.info = .ok u.graph ∧
      u.flow = UnitFlow.ofUnit p u.graph u.info := by
  obtain ⟨x, hx, hu⟩ := Option.bind_eq_some_iff.1 h
  have hx : (p.units.toList.map fun info => (info, PreparedUnit.ofUnit p info))[id]? = some x := hx
  rw [getElem?_map, Array.getElem?_toList] at hx
  obtain ⟨info, hinfo, rfl⟩ := Option.map_eq_some_iff.1 hx
  cases hprep : PreparedUnit.ofUnit p info with
  | error e => simp [hprep, prepared?] at hu
  | ok v =>
    obtain rfl : v = u := by simpa [hprep, prepared?] using hu
    obtain ⟨g, hg, hv⟩ := exists_ok_of_bind_eq_ok hprep
    cases Except.ok.inj hv
    exact ⟨hinfo, hg, rfl⟩

theorem Preparation.mirrored_of_unit? {p : Program} {id : UnitId} {u : PreparedUnit}
    (h : (Preparation.ofProgram p).unit? id = some u) : u.graph.Mirrored :=
  FlowGraph.ofUnit_mirrored (Preparation.prepared_of_unit? h).2.1

end PointsTo
