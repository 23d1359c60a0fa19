import PointsTo.Proofs.Flow.Carried
import PointsTo.Proofs.Flow.Chart
import PointsTo.Proofs.Flow.Hoisting

/-! # Placing blocks on a chart

While a unit is lowered, a chart is drawn along with its graph. What surrounds the statements that are being
lowered says how far up the chart their blocks may stand, which loops are around them, and which temporaries hold
a value wherever they may go; everything that lowering has in hand lies beyond that. So each new block can be put
in front of it, and each edge that lowering adds is one that the chart allows. -/

namespace PointsTo

open List Chart

def Region.target : Region → BlockId
  | .handlers dispatch => dispatch
  | .last entry _ => entry

def Region.bare : Region → Region
  | .handlers dispatch => .handlers dispatch
  | .last entry _ => .last entry []

def Region.pending : Region → List (BlockId × Nat × EdgeKind)
  | .handlers _ => []
  | .last _ pending => pending

@[simp] theorem Region.target_bare (r : Region) : r.bare.target = r.target := by
  cases r <;> rfl

/-- Every jump noted with a region leaves it, and goes where it may. -/
def Region.Await (goal : BlockId × Nat × EdgeKind → Prop) : List Region → Prop
  | [] => True
  | r :: outer => (∀ j ∈ r.pending, j.2.1 ≤ outer.length ∧ goal j) ∧ Await goal outer

theorem Region.Await.imp {goal goal' : BlockId × Nat × EdgeKind → Prop} {rs : List Region}
    (h : Region.Await goal rs) (hg : ∀ j, j.2.1 < rs.length → goal j → goal' j) : Region.Await goal' rs := by
  induction rs with
  | nil => trivial
  | cons r rs ih =>
    refine ⟨fun j hj => ?_, ih h.2 fun j hj => hg j (Nat.lt_succ_of_lt hj)⟩
    obtain ⟨hle, hgoal⟩ := h.1 j hj
    exact ⟨hle, hg j (Nat.lt_succ_of_le hle) hgoal⟩

theorem Region.Await.deferTo {goal : BlockId × Nat × EdgeKind → Prop} {jump : BlockId × Nat × EdgeKind} {m : Nat}
    {rs rs' : List Region} {entry : BlockId} (h : Region.Await goal rs) (hj : goal jump)
    (hm : m = rs.length - jump.2.1) (hd : Builder.deferTo m jump rs = some (entry, rs')) :
    Region.Await goal rs' ∧ rs'.map Region.bare = rs.map Region.bare ∧ entry ∈ rs.map Region.target := by
  induction rs generalizing m rs' with
  | nil => simp [Builder.deferTo] at hd
  | cons r rs ih =>
    unfold Builder.deferTo at hd
    split at hd
    next => cases hd
    next pending hne =>
      obtain ⟨rfl, rfl⟩ := Prod.mk.inj (Option.some.inj hd)
      -- There is still a region to leave, so the goal is not inside this one.
      have hle : jump.2.1 ≤ rs.length := by
        have : m ≠ 0 := hne
        rw [length_cons] at hm
        omega
      refine ⟨⟨fun j hj' => ?_, h.2⟩, rfl, mem_cons_self⟩
      rcases mem_append.1 hj' with hj' | hj'
      · exact h.1 j hj'
      · exact mem_singleton.1 hj' ▸ ⟨hle, hj⟩
    next m hlast =>
      obtain ⟨⟨entry', rs''⟩, hdefer, heq⟩ := Option.map_eq_some_iff.1 hd
      obtain ⟨rfl, rfl⟩ := Prod.mk.inj heq
      have hm : m = rs.length - jump.2.1 := by
        rw [length_cons] at hm
        omega
      obtain ⟨hawait, hbare, hentry⟩ := ih h.2 hm hdefer
      refine ⟨⟨?_, hawait⟩, by simp [hbare], mem_cons_of_mem _ hentry⟩
      rw [← length_map (f := Region.bare), hbare, length_map]
      exact h.1

/-- What surrounds the statements that are being lowered: the two exits, the open loops and regions, how far up
the chart the statements may reach, and the temporaries that hold a value wherever they may go. -/
structure Site where
  exit : BlockId
  raiseExit : BlockId
  loops : List LoopFrame
  regions : List Region
  limit : ℚ
  base : List NodeId

namespace Site

def headers (s : Site) : List BlockId := s.loops.map (·.continueBlock)

/-- The blocks further up to which the statements may go on. -/
def aims (s : Site) : List BlockId :=
  s.exit :: s.raiseExit :: (s.regions.map Region.target ++ s.loops.map (·.breakBlock))

theorem mem_aims {s : Site} {c : BlockId} : c ∈ s.aims ↔ c = s.exit ∨ c = s.raiseExit ∨
    (∃ r ∈ s.regions, r.target = c) ∨ ∃ l ∈ s.loops, l.breakBlock = c := by
  simp [aims]

/-- A part of the site that does not reach as far and where more temporaries hold a value. -/
def within (s : Site) (limit : ℚ) (base : List NodeId) : Site := { s with limit, base }

structure Holds (s : Site) (p : Spot) : Prop where
  rank_lt : p.rank < s.limit
  headers_subset : s.headers ⊆ p.nest
  base_subset : s.base ⊆ p.known

/-- A block stands where everything in the site may go on to. -/
structure Beyond (s : Site) (q : Spot) : Prop where
  limit_le : s.limit ≤ q.rank
  nest_subset : q.nest ⊆ s.headers
  known_subset : q.known ⊆ s.base

/-- Whatever the statements may go on to stands beyond the site, or at the start of a loop around it. -/
structure Open (s : Site) (w : Chart) : Prop where
  aims : ∀ c ∈ s.aims, ∃ q, w.spots[c]? = some q ∧ s.Beyond q
  back : ∀ c ∈ s.headers, ∃ q, w.spots[c]? = some q ∧ q.nest ⊆ s.headers ∧ q.known ⊆ s.base

/-- A jump leaves the unit, or leads out of an open loop or back to its start. It stays in the regions around the
loop. -/
def Goal (s : Site) (j : BlockId × Nat × EdgeKind) : Prop :=
  j.1 = s.exit ∧ j.2.2 = .unconditional ∨ ∃ l ∈ s.loops, j.2.1 = l.regionDepth ∧
    (j.1 = l.breakBlock ∧ j.2.2 = .unconditional ∨ j.1 = l.continueBlock ∧ j.2.2 = .loopBack)

variable {s : Site} {w w' : Chart} {p q : Spot} {made : List NodeId} {kind : EdgeKind} {c : BlockId}

theorem Open.mono (h : s.Open w) (hw : w ≤ w') : s.Open w' where
  aims c hc := (h.aims c hc).imp fun _ hq => ⟨spots_mono hw hq.1, hq.2⟩
  back c hc := (h.back c hc).imp fun _ hq => ⟨spots_mono hw hq.1, hq.2⟩

theorem Open.within (h : s.Open w) {limit : ℚ} {base : List NodeId} (hl : limit ≤ s.limit)
    (hb : s.base ⊆ base) : (s.within limit base).Open w where
  aims c hc := by
    obtain ⟨q, hq, hle, hnest, hknown⟩ := h.aims c hc
    exact ⟨q, hq, hl.trans hle, hnest, List.Subset.trans hknown hb⟩
  back c hc := by
    obtain ⟨q, hq, hnest, hknown⟩ := h.back c hc
    exact ⟨q, hq, hnest, List.Subset.trans hknown hb⟩

theorem Holds.leads (hp : s.Holds p) (hq : s.Beyond q) (hk : kind ≠ .loopBack) : p.Leads made kind c q where
  forward _ := hp.rank_lt.trans_le hq.limit_le
  back h := absurd h hk
  nest _ hh := .inr (hp.headers_subset (hq.nest_subset hh))
  known _ hn := .inl (hp.base_subset (hq.known_subset hn))

theorem Holds.leads_back (hp : s.Holds p) (hc : c ∈ s.headers) (hn : q.nest ⊆ s.headers)
    (hk : q.known ⊆ s.base) : p.Leads made .loopBack c q where
  forward h := absurd rfl h
  back _ := hp.headers_subset hc
  nest _ hh := .inr (hp.headers_subset (hn hh))
  known _ hn := .inl (hp.base_subset (hk hn))

theorem Holds.leads_goal (hp : s.Holds p) (hs : s.Open w) {j : BlockId × Nat × EdgeKind} (hj : s.Goal j) :
    ∃ q, w.spots[j.1]? = some q ∧ p.Leads made j.2.2 j.1 q := by
  have haim : ∀ c ∈ s.aims, c = j.1 → j.2.2 = .unconditional → ∃ q, w.spots[j.1]? = some q ∧
      p.Leads made j.2.2 j.1 q := by
    rintro c hc rfl hk
    obtain ⟨q, hq, hbeyond⟩ := hs.aims j.1 hc
    exact ⟨q, hq, hp.leads hbeyond (by simp [hk])⟩
  rcases hj with ⟨hd, hk⟩ | ⟨l, hl, -, ⟨hd, hk⟩ | ⟨hd, hk⟩⟩
  · exact haim s.exit mem_cons_self hd.symm hk
  · exact haim l.breakBlock (mem_aims.2 (.inr (.inr (.inr ⟨l, hl, rfl⟩)))) hd.symm hk
  · have hc : l.continueBlock ∈ s.headers := List.mem_map_of_mem hl
    obtain ⟨q, hq, hnest, hknown⟩ := hs.back _ hc
    rw [hd, hk]
    exact ⟨q, hq, hp.leads_back hc hnest hknown⟩

end Site

/-- Where lowering stands: the site, a bound for the block under construction, the temporaries that hold a value
at its end, and the nodes that may still be hoisted. -/
structure Stage where
  site : Site
  bound : ℚ
  now : List NodeId
  todo : List NodeId

abbrev Site.stage (s : Site) (todo : List NodeId) : Stage := ⟨s, s.limit, s.base, todo⟩

/-- The block under construction may stand at a spot if its steps have made the given assignments. -/
structure Stage.At (s : Stage) (made : List NodeId) (p : Spot) : Prop extends s.site.Holds p where
  rank_lt_bound : p.rank < s.bound
  now_made : ∀ n ∈ s.now, n ∈ p.known ∨ n ∈ made

/-- The block under construction may go on to another one. -/
structure Stage.Onward (s : Stage) (c : BlockId) (q : Spot) : Prop where
  bound_le : s.bound ≤ q.rank
  nest_subset : ∀ h ∈ q.nest, h = c ∨ h ∈ s.site.headers
  known_subset : q.known ⊆ s.now

theorem Stage.At.leads {s : Stage} {made : List NodeId} {p q : Spot} {kind : EdgeKind} {c : BlockId}
    (hp : s.At made p) (hq : s.Onward c q) (hb : kind ≠ .loopBack) (hk : kind ≠ .exception) :
    p.Leads made kind c q where
  forward _ := hp.rank_lt_bound.trans_le hq.bound_le
  back h := absurd h hb
  nest h hh := (hq.nest_subset h hh).imp id fun hh => hp.headers_subset hh
  known n hn := (hp.now_made n (hq.known_subset hn)).imp id fun hn => ⟨hk, hn⟩

/-- The sets of nodes that may turn out to be the hoisted ones. -/
def FlowGraph.outlook (g : FlowGraph) (todo : List NodeId) : Set (NodeId → Bool) :=
  {hoisted | ∀ i, (g.isHoisted i = true → hoisted i = true) ∧
    (hoisted i = true → g.isHoisted i = true ∨ i ∈ todo)}

/-- The chart fits the graph so far, and what lowering has in hand is what the stage says. -/
structure Laid (s : Stage) (w : Chart) (b : Builder) : Prop where
  charted : b.graph.Charted w
  outlook_eq : w.outlook = b.graph.outlook s.todo
  fresh : ∀ i, s.todo.count i + (b.graph.isHoisted i).toNat ≤ 1
  exit_eq : b.graph.exit = s.site.exit
  raiseExit_eq : b.graph.raiseExit = s.site.raiseExit
  loops_eq : b.loops = s.site.loops
  regions_eq : b.regions.map Region.bare = s.site.regions
  isOpen : s.site.Open w
  await : Region.Await s.site.Goal b.regions
  base_subset : s.site.base ⊆ s.now
  here : ∃ p, w.spots[b.current]? = some p ∧ s.At (b.graph.made b.current) p

namespace FlowGraph

variable {g g' : FlowGraph} {w : Chart} {p : Spot}

theorem Joins.made_eq {q : BlockId → Edge → Prop} (h : g.Joins g' q) : g'.made = g.made := by
  funext b
  rw [made, h.steps_eq b, made]

theorem Allows.mono {w' : Chart} {b : BlockId} {e : Edge} (h : g.Allows w b e) (hw : w ≤ w') : g.Allows w' b e := by
  obtain ⟨p, q, hp, hq, hleads⟩ := h
  exact ⟨p, q, spots_mono hw hp, spots_mono hw hq, hleads⟩

theorem Charted.join (hg : g.Charted w) (h : g.Joins g' (g.Allows w)) : g'.Charted w where
  length_eq := hg.length_eq.trans h.size_eq.symm
  entry := h.entry_eq ▸ hg.entry
  depth hp := (h.depth_eq _).trans (hg.depth hp)
  edges he := by
    unfold Allows
    rw [h.made_eq]
    exact (h.edges he).elim hg.edges id
  steps hp hoisted hh := h.steps_eq _ ▸ hg.steps hp hoisted hh

theorem Charted.addBlock (hg : g.Charted w) (guards : List BlockId) :
    (g.addBlock p.nest.length guards).2.Charted ⟨w.spots ++ [p], w.outlook⟩ := by
  have hgrow : w ≤ ⟨w.spots ++ [p], w.outlook⟩ := ⟨prefix_append _ _, subset_rfl⟩
  have hnew : ∀ {b q}, (w.spots ++ [p])[b]? = some q → w.spots[b]? = some q ∧ b ≠ g.size ∨ b = g.size ∧ q = p := by
    intro b q hq
    rw [getElem?_append, hg.length_eq] at hq
    split at hq
    next hb => exact .inl ⟨hq, Nat.ne_of_lt hb⟩
    next hb =>
      obtain ⟨hlt, hq⟩ := List.getElem?_eq_some_iff.1 hq
      rw [length_singleton] at hlt
      exact .inr ⟨by omega, by simpa using hq.symm⟩
  have hsteps : ∀ b, ((g.addBlock p.nest.length guards).2.block b).steps = (g.block b).steps :=
    (Quiet.addBlock g _ guards).steps_eq
  refine ⟨by simp [hg.length_eq, size_addBlock], ?_, fun {b q} hq => ?_, fun {b e} he => ?_, fun {b q} hq h hh => ?_⟩
  · obtain ⟨r, hr⟩ := hg.entry
    exact ⟨r, spots_mono hgrow hr⟩
  · rw [block_addBlock]
    rcases hnew hq with ⟨hq, hb⟩ | ⟨rfl, rfl⟩
    · rw [if_neg hb]
      exact hg.depth hq
    · rw [if_pos rfl]
  · rw [block_addBlock] at he
    split at he
    · cases he
    · unfold Allows made
      rw [hsteps]
      exact (hg.edges he).mono hgrow
  · rw [hsteps]
    rcases hnew hq with ⟨hq, -⟩ | ⟨rfl, rfl⟩
    · exact hg.steps hq h hh
    · rw [block_of_size_le (Nat.le_refl _)]
      trivial

theorem successors_addStep (g : FlowGraph) (b c : BlockId) (s : Step) :
    ((g.addStep b s).block c).successors = (g.block c).successors := successors_modifyBlock g b c fun _ => rfl

theorem Charted.addStep (hg : g.Charted w) {b : BlockId} (hp : w.spots[b]? = some p) {s : Step}
    (hs : ∀ hoisted ∈ w.outlook, ∀ n ∈ s.reads hoisted, n ∈ p.known ∨ n ∈ g.made b) :
    (g.addStep b s).Charted w where
  length_eq := hg.length_eq.trans (size_modifyBlock ..).symm
  entry := hg.entry
  depth {c q} hq := by
    rw [FlowGraph.addStep, block_modifyBlock]
    split
    · exact hg.depth hq
    · exact hg.depth hq
  edges {c e} he := by
    rw [successors_addStep] at he
    obtain ⟨p', q', hp', hq', hleads⟩ := hg.edges he
    refine ⟨p', q', hp', hq', hleads.mono ?_⟩
    rw [made, made, steps_addStep, flatMap_append]
    exact subset_append_left _ _
  steps {c q} hq hoisted hh := by
    rw [steps_addStep]
    split
    next hc =>
      obtain ⟨rfl, -⟩ := hc
      cases Option.some.inj (hp.symm.trans hq)
      exact (hg.steps hq hoisted hh).append (hs hoisted hh)
    next => simpa using hg.steps hq hoisted hh

theorem Charted.foresee (hg : g.Charted w) {outlook : Set (NodeId → Bool)} (h : outlook ⊆ w.outlook) :
    g.Charted ⟨w.spots, outlook⟩ :=
  { hg with steps := fun hp hoisted hh => hg.steps hp hoisted (h hh) }

theorem Charted.hoist (hg : g.Charted w) (i : NodeId) : (g.hoist i).Charted w :=
  ⟨hg.length_eq, hg.entry, hg.depth, hg.edges, hg.steps⟩

theorem made_addStep {b : BlockId} (hb : b < g.size) (s : Step) :
    (g.addStep b s).made b = g.made b ++ s.assigns := by
  rw [made, steps_addStep, if_pos ⟨rfl, hb⟩, flatMap_append, made]
  simp

end FlowGraph

namespace Laid

variable {w : Chart} {s : Stage} {b : Builder}
variable (h : Laid s w b)
include h

theorem lt_size : b.current < b.graph.size := by
  obtain ⟨p, hp, -⟩ := h.here
  exact h.charted.length_eq ▸ (List.getElem?_eq_some_iff.1 hp).1

theorem join {g : FlowGraph} (hg : b.graph.Joins g (b.graph.Allows w)) : Laid s w { b with graph := g } :=
  { h with
    charted := h.charted.join hg
    outlook_eq := by
      rw [h.outlook_eq]
      simp only [FlowGraph.outlook, hg.isHoisted_eq]
    fresh := fun i => (hg.isHoisted_eq i).symm ▸ h.fresh i
    exit_eq := hg.exit_eq.trans h.exit_eq
    raiseExit_eq := hg.raiseExit_eq.trans h.raiseExit_eq
    here := hg.made_eq ▸ h.here }

theorem addBlock (p : Spot) (guards : List BlockId) :
    Laid s ⟨w.spots ++ [p], w.outlook⟩ { b with graph := (b.graph.addBlock p.nest.length guards).2 } := by
  have hgrow : w ≤ ⟨w.spots ++ [p], w.outlook⟩ := ⟨prefix_append _ _, subset_rfl⟩
  refine { h with charted := h.charted.addBlock guards, isOpen := h.isOpen.mono hgrow, here := ?_ }
  obtain ⟨q, hq, hat⟩ := h.here
  refine ⟨q, spots_mono hgrow hq, ?_⟩
  rw [FlowGraph.made, (FlowGraph.Quiet.addBlock ..).steps_eq]
  exact hat

theorem exceptionTarget_mem : b.exceptionTarget ∈ s.site.aims := by
  have htargets : b.regions.map Region.target = s.site.regions.map Region.target := by
    rw [← h.regions_eq, List.map_map]
    exact map_congr_left fun r _ => r.target_bare.symm
  rw [Site.aims, ← htargets, ← h.raiseExit_eq]
  unfold Builder.exceptionTarget
  split
  next hr => simp [hr, Region.target]
  next hr => simp [hr, Region.target]
  next => simp

theorem allows_raise {c : BlockId} {p : Spot} (hc : w.spots[c]? = some p)
    (hp : s.site.Holds p) (g : FlowGraph) : g.Allows w c ⟨c, b.exceptionTarget, .exception⟩ := by
  obtain ⟨q, hq, hbeyond⟩ := h.isOpen.aims _ h.exceptionTarget_mem
  exact ⟨p, q, hc, hq, hp.leads hbeyond nofun⟩

theorem isHoisted_mem : b.graph.isHoisted ∈ w.outlook := by
  rw [h.outlook_eq]
  exact fun i => ⟨id, .inl⟩

theorem forget {todo now : List NodeId} (ht : ∀ i, todo.count i ≤ s.todo.count i)
    (hb : s.site.base ⊆ now) (hn : now ⊆ s.now) : ∃ w', w ≤ w' ∧ Laid { s with now, todo } w' b ∧
      ∀ hoisted ∈ w'.outlook, ∀ i, todo.count i < s.todo.count i → hoisted i = false := by
  have hsub : b.graph.outlook todo ⊆ w.outlook := by
    rw [h.outlook_eq]
    refine fun hoisted hh i => ⟨(hh i).1, fun hi => ((hh i).2 hi).imp id fun hi => ?_⟩
    exact count_pos_iff.1 ((count_pos_iff.2 hi).trans_le (ht i))
  have hgrow : w ≤ ⟨w.spots, b.graph.outlook todo⟩ := ⟨prefix_rfl, hsub⟩
  refine ⟨_, hgrow, { h with
    charted := h.charted.foresee hsub
    outlook_eq := rfl
    fresh := fun i => (Nat.add_le_add_right (ht i) _).trans (h.fresh i)
    isOpen := h.isOpen.mono hgrow
    base_subset := hb
    here := ?_ }, fun hoisted hh i hi => ?_⟩
  · obtain ⟨p, hp, hat⟩ := h.here
    exact ⟨p, hp, { hat with now_made := fun n hmem => hat.now_made n (hn hmem) }⟩
  · have hfresh := h.fresh i
    rw [Bool.eq_false_iff]
    intro htrue
    rcases (hh i).2 htrue with hmem | hmem
    · rw [hmem, Bool.toNat_true] at hfresh
      omega
    · have hcount := count_pos_iff.2 hmem
      omega

theorem isHoisted_eq_false {i : NodeId} (hi : i ∈ s.todo) : b.graph.isHoisted i = false := by
  have hfresh := h.fresh i
  have hcount := count_pos_iff.2 hi
  cases hi : b.graph.isHoisted i with
  | false => rfl
  | true =>
    rw [hi, Bool.toNat_true] at hfresh
    omega

end Laid

namespace Builder

variable {α β : Type} {w : Chart} {s : Stage} {site : Site} {bound : ℚ} {now todo rest : List NodeId}
  {act : Build α} {next : Unit → Build β} {mid : α → Chart → Stage → Prop} {result : β → Chart → Stage → Prop}

/-! ## Rules -/

theorem Carries.opened
    (h : ∀ w', w ≤ w' → site.Open w' → site.base ⊆ now → Carries Laid w' ⟨site, bound, now, todo⟩ act mid) :
    Carries Laid w ⟨site, bound, now, todo⟩ act mid :=
  .start fun w₁ _ hw hb => h w₁ hw hb.isOpen hb.base_subset

theorem Carries.between (h : ∀ r, r < site.limit → Carries Laid w ⟨site, r, now, todo⟩ act mid) :
    Carries Laid w ⟨site, bound, now, todo⟩ act mid := by
  refine .revise fun w₁ b hw hb => ?_
  obtain ⟨p, hp, hat⟩ := hb.here
  obtain ⟨r, hpr, hr⟩ := exists_between hat.rank_lt
  exact ⟨w₁, ⟨site, r, now, todo⟩, le_rfl, { hb with here := ⟨p, hp, { hat with rank_lt_bound := hpr }⟩ },
    (h r hr).weaken hw⟩

theorem Carries.narrow {limit : ℚ} (hb : bound ≤ limit) (hl : limit ≤ site.limit)
    (h : Carries Laid w ⟨site.within limit site.base, bound, now, todo⟩ act mid) :
    Carries Laid w ⟨site, bound, now, todo⟩ act mid := by
  refine .revise fun w₁ b hw hlaid => ⟨w₁, ⟨site.within limit site.base, bound, now, todo⟩, le_rfl, ?_, h.weaken hw⟩
  obtain ⟨p, hp, hat⟩ := hlaid.here
  exact { hlaid with
    isOpen := hlaid.isOpen.within hl (.refl _)
    here := ⟨p, hp, { hat with rank_lt := hat.rank_lt_bound.trans_le hb }⟩ }

theorem Carries.forget (now' todo' : List NodeId) (ht : ∀ i, todo'.count i ≤ todo.count i)
    (hb : site.base ⊆ now') (hn : now' ⊆ now)
    (h : ∀ w', w ≤ w' → (∀ hoisted ∈ w'.outlook, ∀ i, todo'.count i < todo.count i → hoisted i = false) →
      Carries Laid w' ⟨site, bound, now', todo'⟩ act mid) : Carries Laid w ⟨site, bound, now, todo⟩ act mid := by
  refine .revise fun w₁ b hw hlaid => ?_
  obtain ⟨w', hw', hlaid', hfalse⟩ := hlaid.forget ht hb hn
  exact ⟨w', _, hw', hlaid', h w' (hw.trans hw') hfalse⟩

/-! ## Single actions -/

theorem carries_newBlockAt {d : Nat} {p : BlockId → Spot} (h : ∀ id, s.site.Holds (p id))
    (hd : ∀ id, (p id).nest.length = d) :
    Carries Laid w s (newBlockAt d) fun id w' s' => s' = s ∧ w'.spots[id]? = some (p id) := by
  intro w₁ b id b' _ hb hrun
  cases hrun
  cases hd b.graph.size
  have hnew := hb.addBlock (p b.graph.size) (b.regions.filterMap Region.guard?)
  have hspot : (w₁.spots ++ [p b.graph.size])[b.graph.size]? = some (p b.graph.size) := by
    rw [← hb.charted.length_eq, getElem?_concat_length]
  refine ⟨⟨w₁.spots ++ [p b.graph.size], w₁.outlook⟩, s, ⟨prefix_append _ _, subset_rfl⟩, ?_, rfl, hspot⟩
  split
  · exact hnew
  · exact hnew.join (.addEdge _ (hnew.allows_raise hspot (h _) _))

theorem carries_newBlock {r : ℚ} {known : List NodeId} (hr : r < site.limit) (hk : site.base ⊆ known) :
    Carries Laid w ⟨site, bound, now, todo⟩ newBlock fun id w' s' =>
      s' = ⟨site, bound, now, todo⟩ ∧ w'.spots[id]? = some ⟨r, site.headers, known⟩ := by
  refine Carries.get.giving fun b w' _ hb => ?_
  refine carries_newBlockAt (p := fun _ => ⟨r, site.headers, known⟩) (fun _ => ⟨hr, .refl _, hk⟩) fun _ => ?_
  rw [hb.loops_eq, Site.headers, length_map]

theorem carries_setCurrent {site' : Site} {bound' : ℚ} {now' : List NodeId} {id : BlockId} {p : Spot}
    (hid : w.spots[id]? = some p) (hopen : site'.Open w) (hbase : site'.base ⊆ now')
    (hat : Stage.At ⟨site', bound', now', todo⟩ [] p)
    (hsite : site.within site'.limit site'.base = site' := by rfl) :
    Carries Laid w ⟨site, bound, now, todo⟩ (setCurrent id) fun _ _ s' => s' = ⟨site', bound', now', todo⟩ := by
  refine .modify fun w₁ b hw hb => ⟨w₁, ⟨site', bound', now', todo⟩, le_rfl, ?_, rfl⟩
  refine { hb with
    exit_eq := hsite ▸ hb.exit_eq
    raiseExit_eq := hsite ▸ hb.raiseExit_eq
    loops_eq := hsite ▸ hb.loops_eq
    regions_eq := hsite ▸ hb.regions_eq
    isOpen := hopen.mono hw
    await := hsite ▸ hb.await
    base_subset := hbase
    here := ⟨p, spots_mono hw hid, { hat with now_made := fun n hn => ?_ }⟩ }
  exact .inl ((hat.now_made n hn).resolve_right not_mem_nil)

theorem carries_push (step : Step) (hs : ∀ hoisted ∈ w.outlook, step.reads hoisted ⊆ now) :
    Carries Laid w ⟨site, bound, now, todo⟩ (push step) fun _ _ s' =>
      s' = ⟨site, bound, step.assigns ++ now, todo⟩ := by
  intro w₁ b x b' hw hb hrun
  cases hrun
  obtain ⟨p, hp, hat⟩ := hb.here
  refine ⟨w₁, ⟨site, bound, step.assigns ++ now, todo⟩, le_rfl,
    { hb with charted := ?_, base_subset := ?_, here := ⟨p, hp, ?_⟩ }, rfl⟩
  · exact hb.charted.addStep hp fun hoisted hh n hn => hat.now_made n (hs hoisted (hw.2 hh) hn)
  · exact List.Subset.trans hb.base_subset (subset_append_right _ _)
  · refine { hat with now_made := fun n hn => ?_ }
    rw [FlowGraph.made_addStep hb.lt_size, mem_append]
    rcases mem_append.1 hn with hn | hn
    · exact .inr (.inr hn)
    · exact (hat.now_made n hn).imp id .inl

theorem carries_markHoisted (n : Node) :
    Carries Laid w ⟨site, bound, now, n.id :: rest⟩ (markHoisted n) fun _ w' s' =>
      s' = ⟨site, bound, now, rest⟩ ∧ ∀ hoisted ∈ w'.outlook, hoisted n.id = true := by
  intro w₁ b x b' _ hb hrun
  cases hrun
  have hsub : (b.graph.hoist n.id).outlook rest ⊆ w₁.outlook := by
    rw [hb.outlook_eq]
    intro hoisted hh i
    have hi := hh i
    rw [FlowGraph.isHoisted_hoist] at hi
    refine ⟨fun h => hi.1 (by simp [h]), fun h => ?_⟩
    rcases hi.2 h with h | h
    · rcases Bool.or_eq_true_iff.1 h with h | h
      · exact .inr (beq_iff_eq.1 h ▸ mem_cons_self)
      · exact .inl h
    · exact .inr (mem_cons_of_mem _ h)
  have hgrow : w₁ ≤ ⟨w₁.spots, (b.graph.hoist n.id).outlook rest⟩ := ⟨prefix_rfl, hsub⟩
  refine ⟨_, ⟨site, bound, now, rest⟩, hgrow, { hb with
    charted := (hb.charted.hoist n.id).foresee hsub
    outlook_eq := rfl
    fresh := fresh_hoist hb.fresh
    isOpen := hb.isOpen.mono hgrow
    here := hb.here.imp fun _ hp => ⟨hp.1, { hp.2 with }⟩ }, rfl, fun hoisted hh => (hh n.id).1 ?_⟩
  rw [FlowGraph.isHoisted_hoist, beq_self_eq_true, Bool.true_or]

theorem carries_hoist {n : Node} (hn : ∀ hoisted ∈ w.outlook, Node.heldAll hoisted n.children ⊆ now) :
    Carries Laid w ⟨site, bound, now, n.id :: rest⟩ (hoist n) fun _ w' s' =>
      s' = ⟨site, bound, n.id :: now, rest⟩ ∧ ∀ hoisted ∈ w'.outlook, hoisted n.id = true :=
  (carries_push (.eval n) hn).andThen (carries_markHoisted n)

theorem carries_modifyGraph {f : FlowGraph → FlowGraph}
    (h : ∀ w₁ b, w ≤ w₁ → Laid s w₁ b → b.graph.Joins (f b.graph) (b.graph.Allows w₁)) :
    Carries Laid w s (modifyGraph f) fun _ _ s' => s' = s :=
  .modify fun w₁ b hw hb => ⟨w₁, s, le_rfl, hb.join (h w₁ b hw hb), rfl⟩

theorem carries_setTerminator (c : BlockId) (t : Terminator) :
    Carries Laid w s (modifyGraph fun g => g.setTerminator c t) fun _ _ s' => s' = s :=
  carries_modifyGraph fun _ _ _ _ => .setTerminator _ c t _

theorem carries_addEdge {source target : BlockId} {kind : EdgeKind}
    (h : ∀ g : FlowGraph, g.Allows w source ⟨source, target, kind⟩) :
    Carries Laid w s (addEdge source target kind) fun _ _ s' => s' = s :=
  carries_modifyGraph fun _ _ hw _ => .addEdge _ ((h _).mono hw)

theorem carries_jumpBy {kind : EdgeKind} {c : BlockId} {q : Spot} (hc : w.spots[c]? = some q)
    (h : ∀ made p, s.At made p → p.Leads made kind c q) :
    Carries Laid w s (jumpBy kind c) fun _ _ s' => s' = s := by
  refine .withState fun w₁ b x b' hw hb hrun => ?_
  split at hrun
  · cases hrun
    obtain ⟨p, hp, hat⟩ := hb.here
    have hedge : b.graph.Allows w₁ b.current ⟨b.current, c, kind⟩ :=
      ⟨p, q, hp, spots_mono hw hc, h _ p hat⟩
    have hjoin := FlowGraph.Joins.setTerminator b.graph b.current (.goto c) (b.graph.Allows w₁)
    exact ⟨w₁, s, le_rfl, hb.join (hjoin.trans (.addEdge _ hedge)), rfl⟩
  · cases hrun
    exact ⟨w₁, s, le_rfl, hb, rfl⟩

theorem carries_jump {c : BlockId} {q : Spot} (hc : w.spots[c]? = some q) (hq : s.Onward c q) :
    Carries Laid w s (jump c) fun _ _ s' => s' = s :=
  carries_jumpBy hc fun _ _ hat => hat.leads hq nofun nofun

theorem carries_fork {t : Terminator} {c c' : BlockId} {q q' : Spot} (hc : w.spots[c]? = some q)
    (hq : s.Onward c q) (hc' : w.spots[c']? = some q') (hq' : s.Onward c' q') :
    Carries Laid w s (fork t c c') fun _ _ s' => s' = s := by
  refine .withState fun w₁ b x b' hw hb hrun => ?_
  obtain rfl : _ = b' := congrArg Prod.snd (Except.ok.inj hrun)
  obtain ⟨p, hp, hat⟩ := hb.here
  have hthen : b.graph.Allows w₁ b.current ⟨b.current, c, .whenTrue⟩ :=
    ⟨p, q, hp, spots_mono hw hc, hat.leads hq nofun nofun⟩
  have helse : b.graph.Allows w₁ b.current ⟨b.current, c', .whenFalse⟩ :=
    ⟨p, q', hp, spots_mono hw hc', hat.leads hq' nofun nofun⟩
  have hjoin := FlowGraph.Joins.setTerminator b.graph b.current t (b.graph.Allows w₁)
  exact ⟨w₁, s, le_rfl, hb.join ((hjoin.trans (.addEdge _ hthen)).trans (.addEdge _ helse)), rfl⟩

theorem carries_route {source : BlockId} {p : Spot} {j : BlockId × Nat × EdgeKind}
    (hs : w.spots[source]? = some p) (hp : s.site.Holds p) (hj : s.site.Goal j) :
    Carries Laid w s (route source j.1 j.2.1 j.2.2) fun _ _ s' => s' = s := by
  refine .withState fun w₁ b x b' hw hb hrun => ?_
  have hs := spots_mono hw hs
  split at hrun
  next entry rs hdefer =>
    cases hrun
    obtain ⟨hawait, hbare, hentry⟩ := hb.await.deferTo hj rfl hdefer
    -- The jump waits for a last part, whose entry is one of the aims.
    have haim : entry ∈ s.site.aims := by
      rw [Site.aims, ← hb.regions_eq, List.map_map]
      have hentry : entry ∈ b.regions.map (Region.target ∘ Region.bare) := by
        simpa [Function.comp_def] using hentry
      simp [hentry]
    obtain ⟨q, hq, hbeyond⟩ := hb.isOpen.aims entry haim
    have hedge : b.graph.Allows w₁ source ⟨source, entry, .unconditional⟩ :=
      ⟨p, q, hs, hq, hp.leads hbeyond nofun⟩
    have hlaid := hb.join (.addEdge b.graph hedge)
    exact ⟨w₁, s, le_rfl, { hlaid with regions_eq := hbare.trans hb.regions_eq, await := hawait }, rfl⟩
  next =>
    cases hrun
    obtain ⟨q, hq, hleads⟩ := hp.leads_goal hb.isOpen hj
    exact ⟨w₁, s, le_rfl, hb.join (.addEdge _ ⟨p, q, hs, hq, hleads⟩), rfl⟩

theorem carries_startDead :
    Carries Laid w ⟨site, bound, now, todo⟩ startDead fun _ _ s' => s' = site.stage todo := by
  refine .opened fun w' _ hopen _ => ?_
  -- Nothing leads to the block, so it may stand anywhere in front of the limit.
  have hlt : site.limit - 1 < site.limit := sub_one_lt _
  refine (carries_newBlock hlt (.refl site.base)).giving fun id w₁ hw₁ hid => ?_
  exact carries_setCurrent hid (hopen.mono hw₁) (.refl _) ⟨⟨hlt, .refl _, .refl _⟩, hlt, fun _ => .inl⟩

end Builder

end PointsTo
