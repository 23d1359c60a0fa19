import Mathlib.Algebra.Group.Nat.Hom
import Mathlib.Algebra.Group.Prod
import Mathlib.Tactic.Abel
import PointsTo.Preparation
import PointsTo.Proofs.Flow.Endings
import PointsTo.Proofs.Flow.FirstBranch
import PointsTo.Proofs.Flow.Inventory

/-! # Lowering under way

Every edge that lowering adds joins two blocks that exist: the block under construction, and a block whose
number was handed out before and is kept in a loop, in a region, or in the hands of the caller. All of them
are known by the guards they were made under, and these say where the block under construction may lead. So an
action is judged by a graph whose blocks are known when it starts; afterwards all of them still exist under the
same guards, together with those that it has made.

Only the block under construction is closed, and only once. The blocks that wait for being entered are open all the
while, so that terminators and edges agree wherever lowering has been, except where it closes a block that it has left
already. -/

namespace PointsTo

open List FlowGraph Region
open Node (idsAll ids_eq)

/-- The guards of what stands inside the outermost regions of a stack, as many as given. A region of handlers
guards nothing. -/
def outerGuards (stack : List (Option BlockId)) (depth : Nat) : List BlockId :=
  (stack.drop (stack.length - depth)).reduceOption

@[simp] theorem outerGuards_zero (stack : List (Option BlockId)) : outerGuards stack 0 = [] := by
  rw [outerGuards, Nat.sub_zero, drop_length]
  rfl

@[simp] theorem outerGuards_length (stack : List (Option BlockId)) :
    outerGuards stack stack.length = stack.reduceOption := by
  simp [outerGuards]

theorem outerGuards_cons {stack : List (Option BlockId)} {depth : Nat} (h : depth ≤ stack.length)
    (x : Option BlockId) : outerGuards (x :: stack) depth = outerGuards stack depth := by
  rw [outerGuards, length_cons, Nat.succ_sub h, drop_succ_cons, outerGuards]

/-- The blocks that a region refers to were made where the region was opened, in regions with the given guards,
or further out, where the jump that waits for the last part was bound for, without any decision of its own. -/
def Region.MadeIn (g : FlowGraph) (stack : List (Option BlockId)) : Region → Prop
  | .handlers dispatch => g.MadeUnder dispatch stack.reduceOption
  | .last entry pending => g.MadeUnder entry stack.reduceOption ∧
      ∀ j ∈ pending, j.2.1 ≤ stack.length ∧ g.MadeUnder j.1 (outerGuards stack j.2.1) ∧ j.2.2.isDecided = false

theorem Region.MadeIn.mono {g g' : FlowGraph} {stack : List (Option BlockId)} {r : Region}
    (h : r.MadeIn g stack) (hg : g.Widens g') : r.MadeIn g' stack := by
  cases r with
  | handlers dispatch => exact FlowGraph.MadeUnder.mono h hg.toExtends
  | last entry pending => exact ⟨h.1.mono hg.toExtends, fun j hj => (h.2 j hj).imp id (.imp (·.mono hg.toExtends) id)⟩

/-- Every region was opened inside those after it. -/
def Region.Nested (g : FlowGraph) : List Region → Prop
  | [] => True
  | r :: outer => r.MadeIn g (outer.map guard?) ∧ Nested g outer

theorem Region.Nested.mono {g g' : FlowGraph} {rs : List Region} (h : Region.Nested g rs)
    (hg : g.Widens g') : Region.Nested g' rs := by
  induction rs with
  | nil => trivial
  | cons r rs ih => exact ⟨h.1.mono hg, ih h.2⟩

/-- The two blocks of a loop were made where the loop was opened. -/
structure LoopFrame.MadeIn (g : FlowGraph) (stack : List (Option BlockId)) (l : LoopFrame) : Prop where
  depth_le : l.regionDepth ≤ stack.length
  continueBlock : g.MadeUnder l.continueBlock (outerGuards stack l.regionDepth)
  breakBlock : g.MadeUnder l.breakBlock (outerGuards stack l.regionDepth)

variable {g g' : FlowGraph} {stack : List (Option BlockId)}

theorem LoopFrame.MadeIn.mono {l : LoopFrame} (h : l.MadeIn g stack) (hg : g.Widens g') : l.MadeIn g' stack :=
  ⟨h.depth_le, h.continueBlock.mono hg.toExtends, h.breakBlock.mono hg.toExtends⟩

theorem LoopFrame.MadeIn.cons {l : LoopFrame} (h : l.MadeIn g stack) (x : Option BlockId) :
    l.MadeIn g (x :: stack) := by
  refine ⟨Nat.le_succ_of_le h.depth_le, ?_, ?_⟩
  · exact outerGuards_cons h.depth_le x ▸ h.continueBlock
  · exact outerGuards_cons h.depth_le x ▸ h.breakBlock

/-- What surrounds a statement: the last parts that guard the open regions, and the open loops, both innermost
first. -/
structure Scene where
  stack : List (Option BlockId)
  loops : List LoopFrame

def Scene.guards (s : Scene) : List BlockId := s.stack.reduceOption

def Scene.inLoop (s : Scene) (header exit : BlockId) : Scene :=
  { s with loops := ⟨header, exit, s.stack.length⟩ :: s.loops }

def Scene.inRegion (s : Scene) (guard : Option BlockId) : Scene := { s with stack := guard :: s.stack }

namespace Builder

def scene (b : Builder) : Scene := ⟨b.regions.map guard?, b.loops⟩

/-- The graph is mirrored and confined, everything that lowering has in hand refers to blocks made at the place
they stand for, and the block under construction was made under the given guards. -/
structure Sound (b : Builder) (here : List BlockId) : Prop where
  mirrored : b.graph.Mirrored
  confined : b.graph.Confined
  exit : b.graph.MadeUnder b.graph.exit []
  raiseExit : b.graph.MadeUnder b.graph.raiseExit []
  current : b.graph.MadeUnder b.current here
  loops : ∀ l ∈ b.loops, l.MadeIn b.graph b.scene.stack
  regions : Region.Nested b.graph b.regions

theorem Sound.initial : Sound {} [] where
  mirrored := FlowGraph.Mirrored.initial
  confined := FlowGraph.Confined.initial
  exit := ⟨by decide, rfl⟩
  raiseExit := ⟨by decide, rfl⟩
  current := ⟨by decide, rfl⟩
  loops := by simp
  regions := trivial

variable {b : Builder} {s s' : Scene} {here here' : List BlockId}

theorem Sound.withGraph (h : b.Sound here) (hg : b.graph.Advances g) : Sound { b with graph := g } here where
  mirrored := hg.mirrored
  confined := hg.confined
  exit := hg.exit_eq ▸ h.exit.mono hg.toExtends
  raiseExit := hg.raiseExit_eq ▸ h.raiseExit.mono hg.toExtends
  current := h.current.mono hg.toExtends
  loops l hl := (h.loops l hl).mono hg.toWidens
  regions := h.regions.mono hg.toWidens

theorem Sound.admits_exceptionTarget (h : b.Sound here) : b.graph.Admits b.scene.guards b.exceptionTarget := by
  have hregions := h.regions
  unfold exceptionTarget scene Scene.guards
  split
  next dispatch outer hr =>
    rw [hr] at hregions ⊢
    exact hregions.1.admits
  next entry pending outer hr =>
    rw [hr] at hregions ⊢
    exact hregions.1.1.admits_cons
  next hr =>
    rw [hr]
    exact h.raiseExit.admits

/-! ## Phases -/

structure Phase where
  scene : Scene
  /-- The guards of the block under construction. -/
  here : List BlockId
  /-- Open blocks that are still to be entered. -/
  waiting : List BlockId
  /-- Blocks that are left on no condition, and get further edges while others are under construction. -/
  hubs : List BlockId
  /-- Blocks that have been left, unless they are still under construction. -/
  past : List BlockId
  /-- What is known of how the block under construction ends. -/
  now : BlockId → Ending → Prop

def Opened (_ : BlockId) (x : Ending) : Prop := x.Open

def Unknown (_ : BlockId) (_ : Ending) : Prop := True

/-- A certain block is under construction, which is left on no condition. -/
structure Resting (source c : BlockId) (x : Ending) : Prop where
  eq : c = source
  plain : x.Plain

/-- What lowering has in hand is sound and stands at the phase. Terminators and edges agree but for the blocks on the
list, which are closed although they had been left. -/
structure At (b : Builder) (st : Phase) (fails : List BlockId) : Prop extends b.Sound st.here where
  scene_eq : b.scene = st.scene
  now : st.now b.current (b.graph.ending b.current)
  waiting : ∀ i ∈ st.waiting, i < b.graph.size ∧ i ≠ b.current ∧ (b.graph.ending i).Open
  hubs : ∀ i ∈ st.hubs, i < b.graph.size ∧ i ≠ b.current ∧ i ∉ st.waiting ∧ (b.graph.ending i).Plain
  past : ∀ o ∈ st.past, o = b.current ∨ (b.graph.ending o).Left
  agrees : ∀ i ∉ fails, (b.graph.ending i).Agrees
  failed : ∀ i ∈ fails, (b.graph.ending i).Failed
  nodup : fails.Nodup

theorem At.initial : At {} ⟨⟨[], []⟩, [], [], [], [], Opened⟩ [] where
  toSound := .initial
  scene_eq := rfl
  now := ⟨rfl, nofun⟩
  waiting := nofun
  hubs := nofun
  past := nofun
  agrees i _ := match i with
    | 0 | 1 | 2 | _ + 3 => Ending.Plain.agrees (Ending.Open.plain ⟨rfl, nofun⟩)
  failed := nofun
  nodup := .nil

section At

variable {W H P W' fails : List BlockId} {now now' : BlockId → Ending → Prop}
variable (h : b.At ⟨s, here, W, H, P, now⟩ fails)
include h

theorem At.touch (hg : b.graph.Advances g) {i : BlockId}
    (hother : ∀ j, j ≠ i → g.ending j = b.graph.ending j) (hW : i ∉ W) (hH : i ∈ H → (g.ending i).Plain)
    (hagrees : (g.ending i).Agrees) (hfails : i ∉ fails) (hnow : now' b.current (g.ending b.current)) :
    At { b with graph := g } ⟨s, here, W, H, P, now'⟩ fails where
  toSound := h.toSound.withGraph hg
  scene_eq := h.scene_eq
  now := hnow
  waiting j hj := by
    obtain ⟨hlt, hne, hopen⟩ := h.waiting j hj
    exact ⟨hlt.trans_le hg.size_le, hne, (hother j fun heq => hW (heq ▸ hj)) ▸ hopen⟩
  hubs j hj := by
    obtain ⟨hlt, hne, hw, hplain⟩ := h.hubs j hj
    refine ⟨hlt.trans_le hg.size_le, hne, hw, ?_⟩
    by_cases hi : j = i
    · exact hi ▸ hH (hi ▸ hj)
    · exact hother j hi ▸ hplain
  past o ho := (h.past o ho).imp id hg.toWidens.left
  agrees j hj := by
    by_cases hi : j = i
    · exact hi ▸ hagrees
    · exact hother j hi ▸ h.agrees j hj
  failed j hj := hother j (fun heq => hfails (heq ▸ hj)) ▸ h.failed j hj
  nodup := h.nodup

theorem At.advance (hplain : (b.graph.ending b.current).Plain)
    (hg : b.graph.Advances g) (hother : ∀ j, j ≠ b.current → g.ending j = b.graph.ending j)
    (hagrees : (g.ending b.current).Agrees) (hnow : now' b.current (g.ending b.current)) :
    At { b with graph := g } ⟨s, here, W, H, P, now'⟩ fails :=
  h.touch hg hother (fun hW => (h.waiting _ hW).2.1 rfl) (fun hH => absurd rfl (h.hubs _ hH).2.1) hagrees
    (fun hf => hplain.not_failed (h.failed _ hf)) hnow

theorem At.withGraph (hg : b.graph.Advances g)
    (hsame : ∀ j, g.ending j = b.graph.ending j) : At { b with graph := g } ⟨s, here, W, H, P, now⟩ fails where
  toSound := h.toSound.withGraph hg
  scene_eq := h.scene_eq
  now := (hsame _).symm ▸ h.now
  waiting j hj := (h.waiting j hj).imp (·.trans_le hg.size_le) (.imp id (hsame j ▸ ·))
  hubs j hj := (h.hubs j hj).imp (·.trans_le hg.size_le) (.imp id (.imp id (hsame j ▸ ·)))
  past o ho := (h.past o ho).imp id (hsame o ▸ ·)
  agrees j hj := hsame j ▸ h.agrees j hj
  failed j hj := hsame j ▸ h.failed j hj
  nodup := h.nodup

theorem At.enter {id : BlockId} (hid : id ∈ W)
    (hmade : b.graph.MadeUnder id here') (hW : ∀ i ∈ W', i ≠ id ∧ i ∈ W) {P' : List BlockId}
    (hP : ∀ o ∈ P', o = id ∨ (b.graph.ending o).Left) :
    At { b with current := id } ⟨s, here', W', H, P', Opened⟩ fails where
  toSound := { h.toSound with current := hmade }
  scene_eq := h.scene_eq
  now := (h.waiting id hid).2.2
  waiting i hi := ⟨(h.waiting i (hW i hi).2).1, (hW i hi).1, (h.waiting i (hW i hi).2).2.2⟩
  hubs i hi := by
    obtain ⟨hlt, -, hw, hplain⟩ := h.hubs i hi
    exact ⟨hlt, fun heq => hw (heq ▸ hid), fun hi' => hw (hW i hi').2, hplain⟩
  past := hP
  agrees := h.agrees
  failed := h.failed
  nodup := h.nodup

theorem At.relax (hnow : ∀ c x, now c x → now' c x) : b.At ⟨s, here, W, H, P, now'⟩ fails :=
  { h with now := hnow _ _ h.now }

end At

/-! ## Accounts -/

/-- An account of what lowering does to a graph beside new blocks and edges, and of the blocks that it closes although
they have been left. -/
structure Account (M : Type) [AddMonoid M] where
  rel : M → FlowGraph → FlowGraph → Prop
  failures : M →+ Nat
  quiet : ∀ {g g' : FlowGraph}, g.Quiet g' → rel 0 g g'
  trans : ∀ {m m' : M} {g g' g'' : FlowGraph}, rel m g g' → rel m' g' g'' → rel (m + m') g g''

section Rules

variable {α β M : Type} [AddMonoid M]

/-- The graph has grown to another one, and so has the list of failures. -/
structure Account.Passes (A : Account M) (m : M) (fails fails' : List BlockId) (g g' : FlowGraph) : Prop
    extends g.Widens g' where
  rel : A.rel m g g'
  failures : ∃ new, fails' = new ++ fails ∧ new.length = A.failures m

namespace Account.Passes

variable {A : Account M} {m m' : M} {fails fails' fails'' : List BlockId} {g g' g'' : FlowGraph}

theorem quiet (h : g.Widens g') (hq : g.Quiet g') : A.Passes 0 fails fails g g' :=
  ⟨h, A.quiet hq, [], rfl, A.failures.map_zero.symm⟩

theorem trans (h : A.Passes m fails fails' g g') (h' : A.Passes m' fails' fails'' g' g'') :
    A.Passes (m + m') fails fails'' g g'' := by
  obtain ⟨new, rfl, hnew⟩ := h.failures
  obtain ⟨new', rfl, hnew'⟩ := h'.failures
  refine ⟨h.toWidens.trans h'.toWidens, A.trans h.rel h'.rel, new' ++ new, by simp, ?_⟩
  rw [length_append, hnew, hnew', A.failures.map_add, Nat.add_comm]

end Account.Passes

/-- Started at one phase where the blocks of a graph are known, an action ends at another phase with an entry in the
account, and its result fits the graph it leaves behind. -/
def KeepsAt (A : Account M) (st : Phase) (st' : α → Phase) (m : M) (g : FlowGraph) (act : Build α)
    (result : α → FlowGraph → Prop) : Prop :=
  ∀ fails b x b', b.At st fails → g.Widens b.graph → act.run b = .ok (x, b') →
    ∃ fails', b'.At (st' x) fails' ∧ A.Passes m fails fails' b.graph b'.graph ∧ result x b'.graph

abbrev Keeps (A : Account M) (st st' : Phase) (m : M) (g : FlowGraph) (act : Build Unit) : Prop :=
  KeepsAt A st (fun _ => st') m g act fun _ _ => True

/-- An action that finds an open block made in its scene and leaves one behind, whatever waits. -/
abbrev Lowers (A : Account M) (m : M) (act : Build Unit) : Prop :=
  ∀ s W H g, Keeps A ⟨s, s.guards, W, H, [], Opened⟩ ⟨s, s.guards, W, H, [], Opened⟩ m g act

variable {A : Account M} {st st₁ : Phase} {st' : β → Phase} {mid : α → Phase} {m m' : M} {act : Build α}
  {next : α → Build β} {fits : α → FlowGraph → Prop} {result : β → FlowGraph → Prop}

namespace KeepsAt

variable (h : KeepsAt A st mid m g act fits)
include h

theorem weaken (hg : g.Widens g') : KeepsAt A st mid m g' act fits :=
  fun fails b x b' hb hg' hrun => h fails b x b' hb (hg.trans hg') hrun

theorem imp {fits' : α → FlowGraph → Prop}
    (hfits : ∀ x g', g.Widens g' → fits x g' → fits' x g') : KeepsAt A st mid m g act fits' := by
  intro fails b x b' hb hg hrun
  obtain ⟨fails', hb', hp, hx⟩ := h fails b x b' hb hg hrun
  exact ⟨fails', hb', hp, hfits x _ (hg.trans hp.toWidens) hx⟩

theorem account {M' : Type} [AddMonoid M'] {A' : Account M'} {m' : M'}
    (hrel : ∀ fails b x b', b.At st fails → act.run b = .ok (x, b') → A.rel m b.graph b'.graph →
      A'.rel m' b.graph b'.graph) (hfailures : A.failures m = A'.failures m') :
    KeepsAt A' st mid m' g act fits := by
  intro fails b x b' hb hg hrun
  obtain ⟨fails', hb', hp, hx⟩ := h fails b x b' hb hg hrun
  exact ⟨fails', hb', ⟨hp.toWidens, hrel fails b x b' hb hrun hp.rel, hfailures ▸ hp.failures⟩, hx⟩

omit h

theorem pure {x : α} (h : ∀ g', g.Widens g' → fits x g') : KeepsAt A st (fun _ => st) 0 g (pure x) fits := by
  intro fails b y b' hb hg hrun
  cases hrun
  exact ⟨fails, hb, .quiet (.refl _) (.refl _), h _ hg⟩

theorem bind (h : KeepsAt A st mid m g act fits)
    (h' : ∀ x g', g.Widens g' → fits x g' → KeepsAt A (mid x) st' m' g' (next x) result) :
    KeepsAt A st st' (m + m') g (act >>= next) result := by
  intro fails b y b'' hb hg hrun
  obtain ⟨x, b', hact, hnext⟩ := run_bind_eq_ok hrun
  obtain ⟨fails', hb', hp, hx⟩ := h fails b x b' hb hg hact
  obtain ⟨fails'', hb'', hp', hy⟩ := h' x _ (hg.trans hp.toWidens) hx fails' b' y b'' hb' (.refl _) hnext
  exact ⟨fails'', hb'', hp.trans hp', hy⟩

theorem followed (h : KeepsAt A st mid 0 g act fits)
    (h' : ∀ x g', g.Widens g' → fits x g' → KeepsAt A (mid x) st' m g' (next x) result) :
    KeepsAt A st st' m g (act >>= next) result :=
  zero_add m ▸ h.bind h'

theorem plus (h : KeepsAt A st (fun _ => st₁) m g act fits)
    (h' : ∀ x, KeepsAt A st₁ st' m' g (next x) result) : KeepsAt A st st' (m + m') g (act >>= next) result :=
  h.bind fun x _ hg _ => (h' x).weaken hg

theorem andThen {act : Build Unit} {next : Unit → Build β} {fits : Unit → FlowGraph → Prop}
    (h : KeepsAt A st (fun _ => st₁) 0 g act fits) (h' : KeepsAt A st₁ st' m g (next ()) result) :
    KeepsAt A st st' m g (act >>= next) result :=
  h.followed fun _ _ hg _ => h'.weaken hg

theorem lastly (h : KeepsAt A st mid m g act fits)
    (h' : ∀ x g', g.Widens g' → fits x g' → KeepsAt A (mid x) st' 0 g' (next x) result) :
    KeepsAt A st st' m g (act >>= next) result :=
  add_zero m ▸ h.bind h'

theorem closing {act : Build Unit} {next : Unit → Build β} {fits : Unit → FlowGraph → Prop}
    (h : KeepsAt A st (fun _ => st₁) m g act fits) (h' : KeepsAt A st₁ st' 0 g (next ()) result) :
    KeepsAt A st st' m g (act >>= next) result :=
  h.lastly fun _ _ hg _ => h'.weaken hg

theorem throw (e : Fault) : KeepsAt A st mid m g (throw e : Build α) fits := by
  intro fails b x b' _ _ hrun
  cases hrun

theorem get : KeepsAt A st (fun _ => st) 0 g (get : Build Builder)
    fun b g' => (∃ fails, b.At st fails) ∧ b.graph = g' := by
  intro fails b x b' hb hg hrun
  cases hrun
  exact ⟨fails, hb, .quiet (.refl _) (.refl _), ⟨fails, hb⟩, rfl⟩

theorem getHere : KeepsAt A st (fun b => { st with now := fun c x => c = b.current ∧ st.now c x }) 0 g
    (MonadState.get : Build Builder) fun b g' => (∃ fails, b.At st fails) ∧ b.graph = g' := by
  intro fails b x b' hb hg hrun
  cases hrun
  exact ⟨fails, { hb with now := ⟨rfl, hb.now⟩ }, .quiet (.refl _) (.refl _), ⟨fails, hb⟩, rfl⟩

theorem modify {f : Builder → Builder} (h : ∀ fails b, b.At st fails → g.Widens b.graph →
      (f b).At st₁ fails ∧ b.graph.Widens (f b).graph ∧ b.graph.Quiet (f b).graph) :
    Keeps A st st₁ 0 g (modify f) := by
  intro fails b x b' hb hg hrun
  cases hrun
  obtain ⟨hb', hg', hq⟩ := h fails b hb hg
  exact ⟨fails, hb', .quiet hg' hq, trivial⟩

theorem revise (h : KeepsAt A st₁ mid m g act fits)
    (hst : ∀ fails (b : Builder), b.At st fails → g.Widens b.graph → b.At st₁ fails) : KeepsAt A st mid m g act fits :=
  fun fails b x b' hb hg hrun => h fails b x b' (hst fails b hb hg) hg hrun

theorem forM {xs : List α} {f : α → Build Unit} (h : ∀ x ∈ xs, Keeps A st st 0 g (f x)) :
    Keeps A st st 0 g (xs.forM f) := by
  induction xs with
  | nil => exact .pure fun _ _ => trivial
  | cons x xs ih =>
    change Keeps A st st 0 g (f x >>= fun _ => xs.forM f)
    exact .andThen (h x (by simp)) (ih fun y hy => h y (by simp [hy]))

theorem withLoops (h : ∀ g', g.Widens g' → (∀ l ∈ st.scene.loops, l.MadeIn g' st.scene.stack) →
      KeepsAt A st mid m g' act fits) : KeepsAt A st mid m g act fits := by
  intro fails b x b' hb hg hrun
  have hloops := hb.loops
  have hl : b.loops = st.scene.loops := congrArg Scene.loops hb.scene_eq
  rw [hb.scene_eq, hl] at hloops
  exact h b.graph hg hloops fails b x b' hb (.refl _) hrun

end KeepsAt

end Rules

/-! ## Single actions -/

section Actions

variable {M : Type} [AddMonoid M] {A : Account M} {W H P : List BlockId} {now : BlockId → Ending → Prop}

theorem keeps_proceed (W' : List BlockId) {id : BlockId} (h : g.MadeUnder id here')
    (hP : ∀ o ∈ P, (g.ending o).Left) (hid : id ∈ W := by simp) (hW : ∀ i ∈ W', i ≠ id ∧ i ∈ W := by grind) :
    Keeps A ⟨s, here, W, H, P, now⟩ ⟨s, here', W', H, P, Opened⟩ 0 g (setCurrent id) :=
  .modify fun _ _ hb hg =>
    ⟨hb.enter hid (h.mono hg.toExtends) hW fun o ho => .inr (hg.left (hP o ho)), .refl _, .refl _⟩

theorem keeps_enter (W' : List BlockId) {id : BlockId} (h : g.MadeUnder id here') (hid : id ∈ W := by simp)
    (hW : ∀ i ∈ W', i ≠ id ∧ i ∈ W := by grind) :
    Keeps A ⟨s, here, W, H, [], now⟩ ⟨s, here', W', H, [], Opened⟩ 0 g (setCurrent id) :=
  keeps_proceed W' h nofun hid hW

theorem keeps_newBlockAt (d : Nat) :
    KeepsAt A ⟨s, here, W, H, P, now⟩ (fun id => ⟨s, here, id :: W, H, P, now⟩) 0 g (newBlockAt d)
      fun id g' => g'.MadeUnder id s.guards ∧ id ∉ W := by
  intro fails b id b' hb _ hrun
  obtain rfl : b.scene = s := hb.scene_eq
  have hguards : b.regions.filterMap guard? = b.scene.guards := by
    change _ = (b.regions.map guard?).filterMap fun x => x
    rw [filterMap_map]
    rfl
  have hnew := hb.confined.addBlock hb.mirrored d b.scene.guards
  have hmade := b.graph.madeUnder_addBlock d b.scene.guards
  have hsame := b.graph.ending_addBlock d b.scene.guards
  have hquiet := FlowGraph.Quiet.addBlock b.graph d b.scene.guards
  have htarget := hb.admits_exceptionTarget.mono hnew.toExtends
  set g₁ := (b.graph.addBlock d b.scene.guards).2
  have hedge := hnew.confined.addEdge hnew.mirrored hmade htarget .exception
  have hending := ending_addEdge hmade.lt_size b.exceptionTarget .exception
  have hopen : (g₁.ending b.graph.size).Open := hsame _ ▸ ending_of_size_le le_rfl
  -- Inside a region the new block may raise, but is as open as outside.
  obtain ⟨g₂, hg₂, hadv, hmade, hq, hother, hopen⟩ : ∃ g₂, (if b.regions.isEmpty then g₁
      else g₁.addEdge b.graph.size b.exceptionTarget .exception) = g₂ ∧ b.graph.Advances g₂ ∧
      g₂.MadeUnder b.graph.size b.scene.guards ∧ b.graph.Quiet g₂ ∧
      (∀ j, j ≠ b.graph.size → g₂.ending j = b.graph.ending j) ∧ (g₂.ending b.graph.size).Open := by
    refine ⟨_, rfl, ?_⟩
    split
    · exact ⟨hnew, hmade, hquiet, fun j _ => hsame j, hopen⟩
    · refine ⟨hnew.trans hedge, hmade.mono hedge.toExtends, hquiet.trans (.addEdge _ _ _ _), fun j hj => ?_, ?_⟩
      · rw [hending, if_neg hj, hsame]
      · rw [hending, if_pos rfl]
        exact hopen.join rfl
  have hrun : (.ok (b.graph.size, { b with graph := g₂ }) : Except Fault (BlockId × Builder)) = .ok (id, b') := by
    obtain ⟨_, _, hget, hrun⟩ := run_bind_eq_ok hrun
    cases hget
    rw [hguards] at hrun
    exact hg₂ ▸ hrun
  obtain ⟨rfl, rfl⟩ := Prod.mk.inj (Except.ok.inj hrun)
  have hW : b.graph.size ∉ W := fun hi => Nat.lt_irrefl _ (hb.waiting _ hi).1
  have hH : b.graph.size ∉ H := fun hi => Nat.lt_irrefl _ (hb.hubs _ hi).1
  have hcurrent : b.current ≠ b.graph.size := Nat.ne_of_lt hb.current.lt_size
  have hfails : b.graph.size ∉ fails := fun hf =>
    (ending_of_size_le le_rfl).plain.not_failed (hb.failed _ hf)
  have hb' := hb.touch hadv hother hW (fun hi => absurd hi hH) hopen.plain.agrees hfails
    ((hother _ hcurrent).symm ▸ hb.now)
  refine ⟨fails, { hb' with waiting := fun i hi => ?_, hubs := fun i hi => ?_ }, .quiet hadv.toWidens hq, hmade, hW⟩
  · rcases mem_cons.1 hi with rfl | hi
    · exact ⟨hmade.lt_size, hcurrent.symm, hopen⟩
    · exact hb'.waiting i hi
  · obtain ⟨hlt, hne, hw, hplain⟩ := hb'.hubs i hi
    refine ⟨hlt, hne, fun hi' => ?_, hplain⟩
    rcases mem_cons.1 hi' with rfl | hi'
    · exact hH hi
    · exact hw hi'

theorem keeps_newBlock : KeepsAt A ⟨s, here, W, H, P, now⟩ (fun id => ⟨s, here, id :: W, H, P, now⟩) 0 g newBlock
    fun id g' => g'.MadeUnder id s.guards ∧ id ∉ W :=
  .followed .get fun _ _ _ _ => keeps_newBlockAt _

variable {target : BlockId} {kind : EdgeKind}

theorem keeps_addEdge {hub : BlockId} {guards : List BlockId} (hhub : hub ∈ H)
    (hs : g.MadeUnder hub guards) (ht : g.Admits guards target) (hk : kind.isDecided = false := by decide) :
    Keeps A ⟨s, here, W, H, P, now⟩ ⟨s, here, W, H, P, now⟩ 0 g (addEdge hub target kind) := by
  refine .modify fun fails b hb hg => ?_
  obtain ⟨hlt, hne, hw, hplain⟩ := hb.hubs hub hhub
  have hadv := hb.confined.addEdge hb.mirrored (hs.mono hg.toExtends) (ht.mono hg.toExtends) kind
  have hending := ending_addEdge hlt target kind
  have hother : ∀ j, j ≠ hub → (b.graph.addEdge hub target kind).ending j = b.graph.ending j := fun j hj => by
    rw [hending, if_neg hj]
  have hjoin : ((b.graph.addEdge hub target kind).ending hub).Plain := by
    rw [hending, if_pos rfl]
    exact hplain.join hk
  refine ⟨hb.touch hadv hother hw (fun _ => hjoin) hjoin.agrees ?_ ?_, hadv.toWidens, .addEdge _ _ _ _⟩
  · exact fun hf => hplain.not_failed (hb.failed _ hf)
  · exact (hother _ hne.symm).symm ▸ hb.now

theorem At.closed {fails : List BlockId} (hb : b.At ⟨s, here, W, H, P, now⟩ fails) (t : Terminator)
    (ht : b.graph.Admits here target) (kind : EdgeKind) :
    let g := (b.graph.setTerminator b.current t).addEdge b.current target kind
    b.graph.Advances g ∧ b.graph.Quiet g ∧
      g.ending b.current = ((b.graph.ending b.current).close t).join ⟨b.current, target, kind⟩ ∧
      ∀ j, j ≠ b.current → g.ending j = b.graph.ending j := by
  have hterm := hb.confined.setTerminator hb.mirrored b.current t
  have hmade := hb.current.mono hterm.toExtends
  have hedge := hterm.confined.addEdge hterm.mirrored hmade (ht.mono hterm.toExtends) kind
  refine ⟨hterm.trans hedge, (FlowGraph.Quiet.setTerminator _ _ _).trans (.addEdge _ _ _ _), ?_, fun j hj => ?_⟩
  · rw [ending_addEdge hmade.lt_size, if_pos rfl, ending_setTerminator hb.current.lt_size,
      if_pos rfl]
  · rw [ending_addEdge hmade.lt_size, if_neg hj, ending_setTerminator hb.current.lt_size,
      if_neg hj]

theorem keeps_jumpBy (h : g.Admits here target)
    (hnow : ∀ c x, now c x → x.Plain := by exact fun _ _ => Ending.Open.plain)
    (hk : kind.isDecided = false ∧ kind ≠ .exception := by decide) :
    KeepsAt A ⟨s, here, W, H, P, now⟩ (fun _ => ⟨s, here, W, H, P, Unknown⟩) 0 g (jumpBy kind target)
      fun _ g' => (∀ c x, now c x → x.terminator = none) → ∀ o ∈ P, (g'.ending o).Left := by
  intro fails b x b' hb hg hrun
  change (if (b.graph.block b.current).terminator.isNone then _ else _ : Build Unit).run b = _ at hrun
  split at hrun
  next hnone =>
    obtain ⟨hadv, hquiet, hending, hother⟩ := hb.closed (.goto target) (h.mono hg.toExtends) kind
    have hplain := hnow _ _ hb.now
    have hjump := (hplain.close (.inr ⟨target, rfl⟩)).join (e := ⟨b.current, target, kind⟩) hk.1
    rw [← hending] at hjump
    cases hrun
    refine ⟨fails, hb.advance hplain hadv hother hjump.agrees trivial, .quiet hadv.toWidens hquiet, fun _ o ho => ?_⟩
    rcases hb.past o ho with rfl | ho
    · refine ⟨⟨b.current, target, kind⟩, ?_, hk.2⟩
      exact hending ▸ Ending.mem_edges_join.2 (.inr rfl)
    · exact hadv.toWidens.left ho
  next hsome =>
    cases hrun
    refine ⟨fails, hb.relax fun _ _ _ => trivial, .quiet (.refl _) (.refl _), fun hopen => absurd ?_ hsome⟩
    exact Option.isNone_iff_eq_none.2 (hopen _ _ hb.now)

theorem keeps_jump (h : g.Admits here target)
    (hnow : ∀ c x, now c x → x.Plain := by exact fun _ _ => Ending.Open.plain) :
    KeepsAt A ⟨s, here, W, H, P, now⟩ (fun _ => ⟨s, here, W, H, P, Unknown⟩) 0 g (jump target)
      fun _ g' => (∀ c x, now c x → x.terminator = none) → ∀ o ∈ P, (g'.ending o).Left :=
  keeps_jumpBy h hnow

theorem keeps_fork {t : Terminator} {thenBlock elseBlock : BlockId} (h : g.Admits here thenBlock)
    (h' : g.Admits here elseBlock)
    (ht : (∃ n, t = .branch n thenBlock elseBlock) ∨ ∃ n, t = .loop n thenBlock elseBlock := by simp) :
    KeepsAt A ⟨s, here, W, H, P, Opened⟩ (fun _ => ⟨s, here, W, H, P, Unknown⟩) 0 g (fork t thenBlock elseBlock)
      fun _ g' => ∀ o ∈ P, (g'.ending o).Left := by
  intro fails b x b' hb hg hrun
  obtain ⟨hadv, hquiet, hending, hother⟩ := hb.closed t (h.mono hg.toExtends) .whenTrue
  have hb' := congrArg Prod.snd (Except.ok.inj hrun)
  change { b with graph := FlowGraph.addEdge _ b.current elseBlock .whenFalse } = b' at hb'
  -- The graphs get names, or their fields are compared by unfolding all of them.
  generalize (b.graph.setTerminator b.current t).addEdge b.current thenBlock .whenTrue = g₁ at *
  have hopen : (b.graph.ending b.current).Open := hb.now
  have hmade := hb.current.mono hadv.toExtends
  have hadv' := hadv.confined.addEdge hadv.mirrored hmade ((h'.mono hg.toExtends).mono hadv.toExtends) .whenFalse
  have hending' := ending_addEdge hmade.lt_size elseBlock .whenFalse
  have hquiet' := hquiet.trans (.addEdge _ b.current elseBlock .whenFalse)
  generalize g₁.addEdge b.current elseBlock .whenFalse = g₂ at *
  have hboth := hadv.trans hadv'
  subst hb'
  refine ⟨fails, hb.advance hopen.plain hboth (fun j hj => ?_) ?_ trivial, .quiet hboth.toWidens hquiet',
    fun o ho => ?_⟩
  · rw [hending', if_neg hj, hother j hj]
  · rw [hending', if_pos rfl, hending]
    exact hopen.fork _ _ _ ht
  · rcases hb.past o ho with rfl | ho
    · refine ⟨⟨b.current, elseBlock, .whenFalse⟩, ?_, nofun⟩
      rw [hending', if_pos rfl]
      exact Ending.mem_edges_join.2 (.inr rfl)
    · exact hboth.toWidens.left ho

theorem deferTo_eq_some {jump : BlockId × Nat × EdgeKind} {m : Nat} {rs rs' : List Region} {entry : BlockId}
    (hm : jump.2.1 + m ≤ rs.length)
    (hj : g.MadeUnder jump.1 (outerGuards (rs.map guard?) jump.2.1)) (hk : jump.2.2.isDecided = false)
    (hrs : Region.Nested g rs) (h : deferTo m jump rs = some (entry, rs')) :
    g.Admits (rs.map guard?).reduceOption entry ∧ Region.Nested g rs' ∧
      rs'.map guard? = rs.map guard? := by
  induction rs generalizing m rs' with
  | nil => simp [deferTo] at h
  | cons r rs ih =>
    unfold deferTo at h
    split at h
    next => simp at h
    next entry' pending hne =>
      obtain ⟨rfl, rfl⟩ : entry' = entry ∧ .last entry' (pending ++ [jump]) :: rs = rs' := by
        simpa using h
      have hle : jump.2.1 ≤ rs.length := by
        have : m ≠ 0 := hne
        simp only [length_cons] at hm
        omega
      refine ⟨hrs.1.1.admits_cons, ⟨⟨hrs.1.1, fun j hj' => ?_⟩, hrs.2⟩, rfl⟩
      rcases mem_append.1 hj' with hj' | hj'
      · exact hrs.1.2 j hj'
      · obtain rfl := mem_singleton.1 hj'
        have hle' : j.2.1 ≤ (rs.map guard?).length := by simpa using hle
        exact ⟨hle', outerGuards_cons hle' _ ▸ hj, hk⟩
    next m hlast =>
      obtain ⟨⟨entry', rs''⟩, hdefer, heq⟩ := Option.map_eq_some_iff.1 h
      obtain ⟨rfl, rfl⟩ : entry' = entry ∧ r :: rs'' = rs' := by simpa using heq
      cases r with
      | last e p => exact absurd rfl (hlast e p)
      | handlers dispatch =>
        have hle : jump.2.1 + m ≤ rs.length := by
          simp only [length_cons] at hm
          omega
        have hle' : jump.2.1 ≤ (rs.map guard?).length := by
          rw [length_map]
          omega
        obtain ⟨hentry, hnested, hmap⟩ := ih hle (outerGuards_cons hle' _ ▸ hj) hrs.2 hdefer
        refine ⟨hentry, ⟨?_, hnested⟩, by simp [hmap]⟩
        rw [hmap]
        exact hrs.1

theorem outerGuards_of_deferTo_eq_none {jump : BlockId × Nat × EdgeKind} {m : Nat} {rs : List Region}
    {depth : Nat} (hm : depth + m = rs.length) (h : deferTo m jump rs = none) :
    outerGuards (rs.map guard?) depth = (rs.map guard?).reduceOption := by
  induction rs generalizing m with
  | nil => simp [outerGuards]
  | cons r rs ih =>
    unfold deferTo at h
    split at h
    next =>
      have hlen : depth = ((r :: rs).map guard?).length := by simpa using hm
      rw [hlen, outerGuards_length]
    next => simp at h
    next m hlast =>
      cases r with
      | last e p => exact absurd rfl (hlast e p)
      | handlers dispatch =>
        have hle : depth + m = rs.length := by
          simp only [length_cons] at hm
          omega
        have hle' : depth ≤ (rs.map guard?).length := by
          rw [length_map]
          omega
        exact (outerGuards_cons hle' _).trans (ih hle (Option.map_eq_none_iff.1 h))

theorem At.addEdge {fails : List BlockId} {source : BlockId}
    (hb : b.At ⟨s, here, W, H, P, Resting source⟩ fails) (ht : b.graph.Admits here target)
    (hk : kind.isDecided = false) : b.graph.Advances (b.graph.addEdge source target kind) ∧
      At { b with graph := b.graph.addEdge source target kind } ⟨s, here, W, H, P, Resting source⟩ fails := by
  obtain rfl : b.current = source := hb.now.eq
  have hadv := hb.confined.addEdge hb.mirrored hb.current ht kind
  have hending := ending_addEdge hb.current.lt_size target kind
  have hjoin : ((b.graph.addEdge b.current target kind).ending b.current).Plain := by
    rw [hending, if_pos rfl]
    exact hb.now.plain.join hk
  refine ⟨hadv, hb.advance hb.now.plain hadv (fun j hj => ?_) hjoin.agrees ⟨rfl, hjoin⟩⟩
  rw [hending, if_neg hj]

theorem keeps_route {source dest : BlockId} {limit : Nat} (hlimit : limit ≤ s.stack.length)
    (hd : g.MadeUnder dest (outerGuards s.stack limit)) (hk : kind.isDecided = false) :
    Keeps A ⟨s, s.guards, W, H, P, Resting source⟩ ⟨s, s.guards, W, H, P, Resting source⟩ 0 g
      (route source dest limit kind) := by
  intro fails b _ b' hb hg hrun
  obtain rfl : b.scene = s := hb.scene_eq
  have hd := hd.mono hg.toExtends
  have hlimit : limit ≤ b.regions.length := by simpa [scene] using hlimit
  obtain ⟨_, _, hget, hrun⟩ := run_bind_eq_ok hrun
  cases hget
  split at hrun
  next entry rs hdefer =>
    obtain ⟨hentry, hnested, hmap⟩ := deferTo_eq_some (by simp only; omega) hd hk hb.regions hdefer
    obtain ⟨hadv, hb'⟩ := hb.addEdge hentry (rfl : EdgeKind.unconditional.isDecided = false)
    have hscene : scene { b with regions := rs, graph := b.graph.addEdge source entry .unconditional } =
        b.scene := by
      rw [scene, hmap, scene]
    cases hrun
    refine ⟨fails, { hb' with loops := ?_, regions := hnested.mono hadv.toWidens, scene_eq := hscene },
      .quiet hadv.toWidens (.addEdge _ _ _ _), trivial⟩
    rw [hscene]
    exact hb'.loops
  next hdefer =>
    have hguards : outerGuards b.scene.stack limit = b.scene.guards :=
      outerGuards_of_deferTo_eq_none (by omega) hdefer
    have hdest : b.graph.MadeUnder dest b.scene.guards := hguards ▸ hd
    obtain ⟨hadv, hb'⟩ := hb.addEdge hdest.admits hk
    cases hrun
    exact ⟨fails, hb', .quiet hadv.toWidens (.addEdge _ _ _ _), trivial⟩

theorem keeps_startDead : Keeps A ⟨s, here, W, H, [], now⟩ ⟨s, s.guards, W, H, [], Opened⟩ 0 g startDead :=
  .followed keeps_newBlock fun _ _ _ hid => keeps_enter W hid.1

end Actions

/-! ## Expressions -/

/-- The roles that are called for and the numbers of tests that are taken in beside them. -/
abbrev Intake := Multiset (StepRole × NodeId) × Multiset NodeId

/-- The steps take in what is called for, and beside it tests. -/
def stock : Account Intake where
  rel m g g' := ∃ tests ≤ m.2,
    (↑g'.roles : Multiset (StepRole × NodeId)) = ↑g.roles + m.1 + tests.map (Prod.mk .test)
  failures := 0
  quiet h := ⟨0, le_rfl, by simp [h.roles]⟩
  trans := by
    rintro m m' g g' g'' ⟨tests, hle, h⟩ ⟨tests', hle', h'⟩
    refine ⟨tests + tests', add_le_add hle hle', ?_⟩
    rw [h', h, Multiset.map_add, Prod.fst_add]
    abel

def testsOf (ids : List NodeId) : Intake := (0, ↑ids)

section Expressions

variable {α : Type} {W H P : List BlockId} {now : BlockId → Ending → Prop}

theorem KeepsAt.stock_mono {st : Phase} {mid : α → Phase} {m m' : Intake} {act : Build α}
    {fits : α → FlowGraph → Prop} (h : KeepsAt stock st mid m g act fits) (hm : m.1 = m'.1)
    (hids : ∀ i, m.2.count i ≤ m'.2.count i) : KeepsAt stock st mid m' g act fits := by
  refine h.account (fun _ b _ b' _ _ hrel => ?_) rfl
  obtain ⟨tests, hle, hroles⟩ := hrel
  exact ⟨tests, hle.trans (Multiset.le_iff_count.2 hids), hm ▸ hroles⟩

theorem keeps_push (t : Step) :
    Keeps stock ⟨s, here, W, H, P, now⟩ ⟨s, here, W, H, P, now⟩ (↑t.role?.toList, 0) g (push t) := by
  intro fails b x b' hb _ hrun
  have hadv := hb.confined.addStep hb.mirrored b.current t
  have hroles := roles_addStep hb.current.lt_size t
  cases hrun
  refine ⟨fails, hb.withGraph hadv (b.graph.ending_addStep _ _), ⟨hadv.toWidens, ⟨0, le_rfl, ?_⟩, [], rfl, rfl⟩,
    trivial⟩
  rw [Multiset.map_zero, add_zero]
  exact hroles

theorem keeps_test (n : Node) :
    Keeps stock ⟨s, here, W, H, P, now⟩ ⟨s, here, W, H, P, now⟩ (testsOf [n.id]) g (push (.test n)) := by
  refine (keeps_push (.test n)).account (fun _ b _ b' _ _ hrel => ?_) rfl
  obtain ⟨tests, hle, hroles⟩ := hrel
  obtain rfl : tests = 0 := Multiset.le_zero.1 hle
  refine ⟨{n.id}, le_rfl, ?_⟩
  rw [hroles]
  simp [Step.role?, testsOf]

theorem keeps_markHoisted (n : Node) :
    Keeps stock ⟨s, here, W, H, P, now⟩ ⟨s, here, W, H, P, now⟩ 0 g (markHoisted n) := by
  intro fails b x b' hb _ hrun
  have hgrows : b.graph.Grows { b.graph with hoisted := b.graph.hoisted.insert n.id } :=
    ⟨⟨Nat.le_refl _, rfl, rfl, rfl, fun _ => rfl, fun _ => rfl⟩, hb.mirrored.congr (fun _ => rfl) fun _ => rfl⟩
  have hadv := hgrows.advances hb.confined fun _ => rfl
  have hrel : stock.rel 0 b.graph b.graph := stock.quiet (.refl b.graph)
  cases hrun
  exact ⟨fails, hb.withGraph hadv fun _ => rfl, ⟨hadv.toWidens, hrel, [], rfl, rfl⟩, trivial⟩

theorem keeps_hoist (n : Node) : Keeps stock ⟨s, here, W, H, P, now⟩ ⟨s, here, W, H, P, now⟩ 0 g (hoist n) :=
  .andThen (keeps_push (.eval n)) (keeps_markHoisted n)

theorem keeps_hoistOnce (n : Node) :
    Keeps stock ⟨s, here, W, H, P, now⟩ ⟨s, here, W, H, P, now⟩ 0 g (hoistOnce n) := by
  refine .followed .get fun b g' _ _ => ?_
  split
  · exact keeps_hoist n
  · exact .pure fun _ _ => trivial

mutual

theorem keeps_lowerExpr : ∀ (n : Node) {s : Scene} {W H P : List BlockId} {g : FlowGraph},
    KeepsAt stock ⟨s, s.guards, W, H, P, Opened⟩ (fun _ => ⟨s, s.guards, W, H, P, Opened⟩)
      (testsOf (idsAll n.children)) g (lowerExpr n)
      fun _ g' => n.needsExpansion = true → ∀ o ∈ P, (g'.ending o).Left
  | ⟨id, kind, span, parent, children⟩, s, W, H, P, g => by
    by_cases hn : Node.needsExpansion ⟨id, kind, span, parent, children⟩ = true
    case neg =>
      rw [lowerExpr_of_not_needsExpansion (by simpa using hn)]
      exact KeepsAt.stock_mono (.pure fun _ _ h => absurd h hn) rfl fun i => Nat.zero_le _
    unfold lowerExpr
    extract_lets node
    rw [if_pos hn]
    have hleft : ∀ {g₁ : FlowGraph}, (∀ o ∈ P, (g₁.ending o).Left) →
        KeepsAt stock ⟨s, s.guards, W, H, P, Opened⟩ (fun _ => ⟨s, s.guards, W, H, P, Opened⟩) 0 g₁
          (markHoisted node) fun _ g' => node.needsExpansion = true → ∀ o ∈ P, (g'.ending o).Left :=
      fun hl => (keeps_markHoisted node).imp fun _ _ hg _ _ o ho => hg.left (hl o ho)
    split
    next hx =>
      split
      next _ op =>
        refine .followed keeps_newBlock fun merge g₁ _ hm => ?_
        refine .lastly (keeps_lowerOperands node op children hm.1 mem_cons_self) fun _ g₂ h₂ hl => ?_
        have hl := hl (Node.children_ne_nil_of_isExpandable hx)
        exact .andThen (keeps_proceed W (hm.1.mono h₂.toExtends) hl) (hleft hl)
      next =>
        split
        next _ test body orElse =>
          refine .stock_mono (?_ : KeepsAt stock _ _ (testsOf (idsAll test.children) + (testsOf [test.id] +
            (testsOf (idsAll body.children) + testsOf (idsAll orElse.children)))) _ _ _) rfl fun i => ?_
          · refine .plus (keeps_lowerExpr test) fun _ => ?_
            refine .plus (keeps_test test) fun _ => ?_
            refine .followed keeps_newBlock fun thenBlock g₁ _ ht => ?_
            refine .followed keeps_newBlock fun elseBlock g₂ h₂ he => ?_
            refine .followed keeps_newBlock fun merge g₃ h₃ hm => ?_
            have hthen := (ht.1.mono h₂.toExtends).mono h₃.toExtends
            have helse := he.1.mono h₃.toExtends
            refine .followed (keeps_fork hthen.admits helse.admits) fun _ g₄ h₄ hl => ?_
            have hmerge := hm.1.mono h₄.toExtends
            refine .andThen (keeps_proceed (elseBlock :: merge :: W) (hthen.mono h₄.toExtends) hl) ?_
            refine .plus (keeps_lowerExpr body) fun _ => ?_
            refine .andThen (keeps_hoistOnce body) ?_
            refine .andThen (keeps_push (.bind node body)) ?_
            refine .andThen (keeps_jump hmerge.admits) ?_
            refine .andThen (keeps_proceed (merge :: W) (helse.mono h₄.toExtends) hl) ?_
            refine .closing (keeps_lowerExpr orElse) ?_
            refine .andThen (keeps_hoistOnce orElse) ?_
            refine .andThen (keeps_push (.bind node orElse)) ?_
            refine .andThen (keeps_jump hmerge.admits) ?_
            exact .andThen (keeps_proceed W hmerge hl) (hleft hl)
          · simp [testsOf, ids_eq, count_cons]
            omega
        next => exact .throw _
    next hx =>
      refine (keeps_lowerSequence [] children).imp fun _ g' _ hl _ => hl ?_
      unfold Node.needsExpansion at hn
      simp only [node] at hx
      simpa [hx] using (Bool.and_eq_true_iff.1 hn).2
termination_by n => sizeOf n
decreasing_by all_goals (subst_vars; simp only [Node.mk.sizeOf_spec, List.cons.sizeOf_spec]; omega)

theorem keeps_lowerOperands (node : Node) (op : LogicalOp) {merge : BlockId} {s : Scene} {W H P : List BlockId} :
    ∀ (values : List Node) {g : FlowGraph}, g.MadeUnder merge s.guards → merge ∈ W →
      KeepsAt stock ⟨s, s.guards, W, H, P, Opened⟩ (fun _ => ⟨s, s.guards, W, H, P, Unknown⟩)
        (testsOf (idsAll values)) g (lowerOperands node op merge values)
        fun _ g' => values ≠ [] → ∀ o ∈ P, (g'.ending o).Left
  | [], g, _, _ => by
    unfold lowerOperands
    intro fails b x b' hb _ hrun
    cases hrun
    exact ⟨fails, hb.relax fun _ _ _ => trivial, .quiet (.refl _) (.refl _), fun h => absurd rfl h⟩
  | value :: values, g, hm, hW => by
    unfold lowerOperands
    refine .stock_mono (?_ : KeepsAt stock _ _ (testsOf (idsAll value.children) + testsOf (idsAll values))
      _ _ _) rfl fun i => by simp [testsOf, ids_eq, count_cons]
    refine .plus (keeps_lowerExpr value) fun _ => ?_
    refine .andThen (keeps_hoistOnce value) ?_
    refine .andThen (keeps_push (.bind node value)) ?_
    split
    · refine ((keeps_jump hm.admits).imp fun _ _ _ hl _ => ?_).stock_mono rfl fun i => Nat.zero_le _
      exact hl fun _ _ h => h.terminator
    · refine .followed keeps_newBlock fun next g₁ h₁ hnext => ?_
      have hm := hm.mono h₁.toExtends
      have hrest : ∀ {g₂ : FlowGraph}, g₁.Widens g₂ → (∀ o ∈ P, (g₂.ending o).Left) →
          KeepsAt stock ⟨s, s.guards, next :: W, H, P, Unknown⟩ (fun _ => ⟨s, s.guards, W, H, P, Unknown⟩)
            (testsOf (idsAll values)) g₂ (setCurrent next >>= fun _ => lowerOperands node op merge values)
            fun _ g' => value :: values ≠ [] → ∀ o ∈ P, (g'.ending o).Left := by
        intro g₂ h₂ hl
        refine .andThen (keeps_proceed W (hnext.1.mono h₂.toExtends) hl) ?_
        refine (keeps_lowerOperands node op values (hm.mono h₂.toExtends) hW).imp fun _ g' hg _ _ o ho => ?_
        exact hg.left (hl o ho)
      split
      · exact .followed (keeps_fork hnext.1.admits hm.admits) fun _ g₂ h₂ hl => hrest h₂ hl
      · exact .followed (keeps_fork hm.admits hnext.1.admits) fun _ g₂ h₂ hl => hrest h₂ hl
termination_by values => sizeOf values

theorem keeps_lowerSequence : ∀ (waiting ns : List Node) {s : Scene} {W H P : List BlockId} {g : FlowGraph},
    KeepsAt stock ⟨s, s.guards, W, H, P, Opened⟩ (fun _ => ⟨s, s.guards, W, H, P, Opened⟩)
      (testsOf (idsAll ns)) g (lowerSequence waiting ns)
      fun _ g' => Node.anyExpansion ns = true → ∀ o ∈ P, (g'.ending o).Left
  | waiting, [], s, W, H, P, g => by
    unfold lowerSequence
    exact .pure fun _ _ h => by simp [Node.anyExpansion] at h
  | waiting, n :: ns, s, W, H, P, g => by
    unfold lowerSequence
    split
    next hn =>
      refine .andThen (.forM fun m _ => keeps_hoist m) ?_
      refine .stock_mono (?_ : KeepsAt stock _ _ (testsOf (idsAll n.children) + testsOf (idsAll ns))
        _ _ _) rfl fun i => by simp [testsOf, ids_eq, count_cons]
      refine .bind (keeps_lowerExpr n) fun _ g₁ _ hl => ?_
      refine .followed .get fun b g₂ h₂ _ => ?_
      refine (keeps_lowerSequence _ ns).imp fun _ g' hg _ _ o ho => ?_
      exact (h₂.trans hg).left (hl hn o ho)
    next hn =>
      refine ((keeps_lowerSequence (waiting ++ [n]) ns).imp fun _ g' _ hl h => hl ?_).stock_mono rfl fun i => ?_
      · simpa [Node.anyExpansion, hn] using h
      · simp [testsOf]
termination_by _ ns => sizeOf ns

end

end Expressions

end Builder
end PointsTo
