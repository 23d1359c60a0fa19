import PointsTo.Proofs.Solver.Equations
import Mathlib.Order.Bounds.Basic

/-! # Least solutions

The blocks that have facts or wait spread from the entry along the edges, so a converged solve has facts
for exactly the blocks in reach. As long as transfers are monotone on the inputs that occur, no fact ever
exceeds a solution of the equations. Without exception edges a converged solve satisfies the equations
itself and is therefore the least solution, in every worklist order, also when it goes on from what an
earlier solve found before its budget was spent. -/

namespace PointsTo

open Std (ExtTreeMap)
open List Option

namespace Solver

variable {F : Type} {s : Solver} {a : Analysis F} {g : FlowGraph}

def Touched (p : Progress F) (b : BlockId) : Prop := b ∈ p.worklist.waiting ∨ b ∈ p.outFacts

/-- How far a solve has spread: every successor of a block with facts is touched, and what is touched
can be reached and has something coming in. -/
structure Spread (g : FlowGraph) (p : Progress F) : Prop where
  entry : Touched p g.entry
  closed : ∀ {b c}, b ∈ p.outFacts → c ∈ g.successors b → Touched p c
  reachable : ∀ {b}, Touched p b → g.Reachable b
  fed : ∀ {b}, Touched p b → b = g.entry ∨ ∃ e ∈ (g.block b).predecessors, e.source ∈ p.outFacts

theorem Spread.start : Spread g (s.startFrom (F := F) g ∅ ∅ [g.entry]) where
  entry := by simp [Touched]
  closed h := by simp [startFrom] at h
  reachable {b} h := by
    have hb : b = g.entry := by simpa [Touched, startFrom, Worklist.empty] using h
    exact hb ▸ Relation.ReflTransGen.refl
  fed h := .inl (by simpa [Touched, startFrom, Worklist.empty] using h)

/-- A family of facts for exactly the blocks in reach that satisfies the equations everywhere. -/
structure IsSolution (a : Analysis F) (g : FlowGraph) (inFacts outFacts : ExtTreeMap BlockId F) :
    Prop where
  mem_in : ∀ b, b ∈ inFacts ↔ g.Reachable b
  mem_out : ∀ b, b ∈ outFacts ↔ g.Reachable b
  balanced : ∀ b, g.Reachable b → Balanced a g inFacts outFacts b

theorem mem_seeds {outFacts : ExtTreeMap BlockId F} {c : BlockId} :
    c ∈ seeds g outFacts ↔ c = g.entry ∨ c ∈ outFacts ∨ ∃ b ∈ outFacts, c ∈ g.successors b := by
  simp only [seeds, mem_eraseDups, mem_mergeSort, mem_cons, mem_flatMap,
    ExtTreeMap.mem_keys]
  constructor
  · rintro (h | ⟨b, hb, rfl | hc⟩)
    · exact .inl h
    · exact .inr (.inl hb)
    · exact .inr (.inr ⟨b, hb, hc⟩)
  · rintro (h | h | ⟨b, hb, hc⟩)
    · exact .inl h
    · exact .inr ⟨c, h, .inl rfl⟩
    · exact .inr ⟨b, hb, .inr hc⟩

theorem Spread.resume (hg : g.Mirrored) {q : Progress F} (hq : Spread g q) :
    Spread g (s.startFrom g q.inFacts q.outFacts (seeds g q.outFacts)) := by
  have htouched : ∀ {c}, Touched (s.startFrom g q.inFacts q.outFacts (seeds g q.outFacts)) c ↔
      c = g.entry ∨ c ∈ q.outFacts ∨ ∃ b ∈ q.outFacts, c ∈ g.successors b := by
    intro c
    rw [Touched, mem_waiting_startFrom, mem_seeds]
    exact or_iff_left_of_imp fun hc => .inr (.inl hc)
  constructor
  case entry => exact htouched.2 (.inl rfl)
  case closed =>
    intro b c hb hc
    exact htouched.2 (.inr (.inr ⟨b, hb, hc⟩))
  case reachable =>
    intro c hc
    rcases htouched.1 hc with rfl | hc | ⟨b, hb, hc⟩
    · exact Relation.ReflTransGen.refl
    · exact hq.reachable (.inr hc)
    · exact (hq.reachable (.inr hb)).tail hc
  case fed =>
    intro c hc
    rcases htouched.1 hc with hc | hc | ⟨b, hb, hc⟩
    · exact .inl hc
    · exact hq.fed (.inr hc)
    · obtain ⟨e, he, rfl⟩ := hg.exists_predecessor hc
      exact .inr ⟨e, he, hb⟩

theorem Consistent.resume {vs : List (Visit F)} {q : Progress F} (hq : Consistent a g vs q) :
    Consistent a g [] (s.startFrom g q.inFacts q.outFacts (seeds g q.outFacts)) where
  applied := hq.applied
  domain := hq.domain
  joined {b} _ hb hwait := by
    obtain ⟨output, houtput, -⟩ := hq.applied hb
    have hmem : b ∈ q.outFacts := ExtTreeMap.mem_iff_isSome_getElem?.2 (by simp [houtput])
    exact absurd (by simpa [mem_seeds] using .inr (.inl hmem)) hwait

theorem Spread.mem_outFacts {p : Progress F} (hp : Spread g p) (hw : p.worklist.waiting = []) (b : BlockId) :
    b ∈ p.outFacts ↔ g.Reachable b := by
  have hout : ∀ {c}, Touched p c → c ∈ p.outFacts := by
    rintro c (hc | hc)
    · simp [hw] at hc
    · exact hc
  refine ⟨fun hb => hp.reachable (.inr hb), fun hb => ?_⟩
  -- Along the path from the entry every block has facts, since those of its predecessor made it wait.
  induction hb with
  | refl => exact hout hp.entry
  | tail _ hc ih => exact hout (hp.closed ih hc)

/-- Something comes into every block that has facts or waits. -/
theorem Spread.inputs_ne_nil {p : Progress F} (hp : Spread g p) {b : BlockId} (hb : Touched p b) :
    inputs a g p.inFacts p.outFacts b ≠ [] := by
  rcases hp.fed hb with hb | ⟨e, he, hs⟩
  · exact ne_nil_of_mem (mem_inputs.2 (.inl ⟨hb, rfl⟩))
  · obtain ⟨x, hx⟩ := isSome_iff_exists.1 (ExtTreeMap.mem_iff_isSome_getElem?.1 hs)
    exact ne_nil_of_mem (mem_inputs.2 (.inr ⟨e, he, .inl hx⟩))

section Visits

variable [DecidableEq F] {p q : Progress F} {b : BlockId} {rest : List BlockId}

theorem Spread.visit (hg : g.Mirrored) (hw : p.worklist.waiting = b :: rest)
    (hv : Solver.visit a g p b rest = some q) (hp : Spread g p) : Spread g q := by
  obtain ⟨output, -, -, hout, hrest, hwait, hnew⟩ := visit_eq_some hv
  have hb : Touched p b := .inl (by simp [hw])
  have hmem : ∀ {c}, c ∈ q.outFacts ↔ c = b ∨ c ∈ p.outFacts := by
    intro c
    rw [hout, ExtTreeMap.mem_insert, Std.LawfulEqOrd.compare_eq_iff_eq, eq_comm]
  have hkeep : ∀ {c}, Touched p c → Touched q c := by
    rintro c (hc | hc)
    · rw [hw] at hc
      rcases mem_cons.1 hc with rfl | hc
      · exact .inr (hmem.2 (.inl rfl))
      · exact .inl (hrest c hc)
    · exact .inr (hmem.2 (.inr hc))
  have hback : ∀ {c}, Touched q c → Touched p c ∨ c ∈ g.successors b := by
    rintro c (hc | hc)
    · rcases hwait c hc with hc | hc
      · exact .inl (.inl (by simp [hw, hc]))
      · exact .inr hc
    · rcases hmem.1 hc with rfl | hc
      · exact .inl hb
      · exact .inl (.inr hc)
  constructor
  case entry => exact hkeep hp.entry
  case closed =>
    intro c d hc hd
    rcases hmem.1 hc with rfl | hc
    · rcases hnew with hold | hsucc
      · exact hkeep (hp.closed (ExtTreeMap.mem_iff_isSome_getElem?.2 (by simp [hold])) hd)
      · exact .inl (hsucc d hd)
    · exact hkeep (hp.closed hc hd)
  case reachable =>
    intro c hc
    rcases hback hc with hc | hc
    · exact hp.reachable hc
    · exact (hp.reachable hb).tail hc
  case fed =>
    intro c hc
    rcases hback hc with hc | hc
    · rcases hp.fed hc with hc | ⟨e, he, hs⟩
      · exact .inl hc
      · exact .inr ⟨e, he, hmem.2 (.inr hs)⟩
    · obtain ⟨e, he, rfl⟩ := hg.exists_predecessor hc
      exact .inr ⟨e, he, hmem.2 (.inl rfl)⟩

end Visits

/-- Where a solve stands, whatever its analysis: it is consistent and has spread from the entry. -/
structure Regular (a : Analysis F) (g : FlowGraph) (vs : List (Visit F)) (p : Progress F) : Prop where
  consistent : Consistent a g vs p
  spread : Spread g p

namespace Regular

variable {vs : List (Visit F)} {p q : Progress F}

theorem start : Regular a g [] (s.startFrom g ∅ ∅ [g.entry]) := ⟨Consistent.start s, Spread.start⟩

theorem resume (hg : g.Mirrored) (hq : Regular a g vs q) :
    Regular a g [] (s.startFrom g q.inFacts q.outFacts (seeds g q.outFacts)) :=
  ⟨hq.consistent.resume, hq.spread.resume hg⟩

theorem visit [DecidableEq F] (hg : g.Mirrored) {b : BlockId} {rest : List BlockId}
    (hw : p.worklist.waiting = b :: rest) (hv : Solver.visit a g p b rest = some q)
    (hp : Regular a g vs p) : Regular a g (vs ++ [⟨b, p⟩]) q :=
  ⟨hp.consistent.visit hg hw hv, hp.spread.visit hg hw hv⟩

theorem mem_inFacts (hw : p.worklist.waiting = []) (hp : Regular a g vs p) (b : BlockId) :
    b ∈ p.inFacts ↔ g.Reachable b := by
  rw [← hp.spread.mem_outFacts hw b]
  refine ⟨fun hb => ?_, hp.consistent.domain⟩
  obtain ⟨x, hx⟩ := isSome_iff_exists.1 (ExtTreeMap.mem_iff_isSome_getElem?.1 hb)
  obtain ⟨y, hy, -⟩ := hp.consistent.applied hx
  exact ExtTreeMap.mem_iff_isSome_getElem?.2 (by simp [hy])

/-- Once nothing waits, the facts are a solution if they satisfy the equations where there are any. -/
theorem isSolution (hw : p.worklist.waiting = []) (hp : Regular a g vs p)
    (hb : ∀ b ∈ p.inFacts, Balanced a g p.inFacts p.outFacts b) : IsSolution a g p.inFacts p.outFacts :=
  ⟨hp.mem_inFacts hw, hp.spread.mem_outFacts hw, fun b hreach => hb b ((hp.mem_inFacts hw b).2 hreach)⟩

theorem balanced (hexc : ∀ b, ∀ e ∈ (g.block b).predecessors, e.kind ≠ .exception)
    (hw : p.worklist.waiting = []) (hp : Regular a g vs p) :
    ∀ b ∈ p.inFacts, Balanced a g p.inFacts p.outFacts b := by
  intro b hb
  obtain ⟨x, hx⟩ := isSome_iff_exists.1 (ExtTreeMap.mem_iff_isSome_getElem?.1 hb)
  obtain ⟨y, hy, ht⟩ := hp.consistent.applied hx
  have hjoined : x = a.join (inputs a g p.inFacts p.outFacts b) := by
    rw [hp.consistent.joined hx (by simp [hw])]
    exact congrArg a.join (inputs_congr (fun _ _ => rfl) fun e he hk => absurd hk (hexc b e he))
  exact .of_join hx hy ht hjoined

end Regular

theorem reachable_of_solve [DecidableEq F] (hg : g.Mirrored) {r : Solution F} (h : s.solve a g = some r)
    {b : BlockId} {input : F} (hb : r.inFacts[b]? = some input) :
    g.Reachable b ∧ (a.transfer (g.block b) input).isSome := by
  obtain ⟨q, hq, hin, -, -⟩ := solve_induction Regular.start
    (fun _ _ _ _ _ hw hv (hp : Regular a g _ _) => hp.visit hg hw hv) h
  rw [hin] at hb
  obtain ⟨output, hout, ht⟩ := hq.consistent.applied hb
  refine ⟨hq.spread.reachable (.inr ?_), by rw [ht]; rfl⟩
  exact ExtTreeMap.mem_iff_isSome_getElem?.2 (by rw [hout]; rfl)

section Order

variable [PartialOrder F]

/-- Wherever one family has a fact, another one has a fact that is not smaller. -/
def Below (m n : ExtTreeMap BlockId F) : Prop :=
  ∀ (b : BlockId) (x : F), m[b]? = some x → ∃ y, n[b]? = some y ∧ x ≤ y

theorem Below.antisymm {m n : ExtTreeMap BlockId F} (h : Below m n) (h' : Below n m) : m = n := by
  have hle : ∀ {m n : ExtTreeMap BlockId F}, Below m n → Below n m →
      ∀ (b : BlockId) (x : F), m[b]? = some x → n[b]? = some x := by
    intro m n h h' b x hx
    obtain ⟨y, hy, hxy⟩ := h b x hx
    obtain ⟨z, hz, hyz⟩ := h' b y hy
    have hzx : z = x := some.inj (hz.symm.trans hx)
    rw [hy, le_antisymm hxy (hzx ▸ hyz)]
  apply ExtTreeMap.ext_getElem?
  intro b
  apply Option.ext
  intro x
  exact ⟨hle h h' b x, hle h' h b x⟩

theorem Below.insert {m n : ExtTreeMap BlockId F} {b : BlockId} {x y : F} (h : Below m n)
    (hy : n[b]? = some y) (hxy : x ≤ y) : Below (m.insert b x) n := by
  intro c z hz
  rw [ExtTreeMap.getElem?_insert] at hz
  split at hz
  next hc =>
    cases Std.LawfulEqOrd.eq_of_compare hc
    cases hz
    exact ⟨y, hy, hxy⟩
  next => exact h c z hz

theorem Below.self_insert {m : ExtTreeMap BlockId F} {b : BlockId} {x : F} (h : ∀ y, m[b]? = some y → y ≤ x) :
    Below m (m.insert b x) := by
  intro c y hy
  by_cases hc : b = c
  · subst hc
    exact ⟨x, by simp, h y hy⟩
  · exact ⟨y, by simp [ExtTreeMap.getElem?_insert, hc, hy], le_refl y⟩

theorem foldl_le_iff {op : F → F → F} (hop : ∀ {x y u}, op x y ≤ u ↔ x ≤ u ∧ y ≤ u) {fs : List F} {f u : F} :
    fs.foldl op f ≤ u ↔ f ≤ u ∧ ∀ x ∈ fs, x ≤ u := by
  induction fs generalizing f with
  | nil => simp
  | cons x fs ih => simp [ih, hop, and_assoc]

/-- The join of a list that is not empty is its least upper bound. -/
def JoinIsLUB (a : Analysis F) : Prop := ∀ fs, fs ≠ [] → IsLUB {f | f ∈ fs} (a.join fs)

/-- A larger input of a block gives no smaller output. -/
def TransferMono (a : Analysis F) : Prop :=
  ∀ {b x y x' y'}, x ≤ y → a.transfer b x = some x' → a.transfer b y = some y' → x' ≤ y'

/-- The facts found so far exceed those of a family nowhere. -/
structure Under (i o : ExtTreeMap BlockId F) (p : Progress F) : Prop where
  inFacts : Below p.inFacts i
  outFacts : Below p.outFacts o

/-- A visit whose output can only exceed the output in a family if its input exceeds the input there. -/
def Climbs (a : Analysis F) (g : FlowGraph) (i : ExtTreeMap BlockId F) (v : Visit F) : Prop :=
  ∀ input ∈ i[v.block]?, inputOf a g v ≤ input → ∀ x ∈ a.transfer (g.block v.block) (inputOf a g v),
    ∀ y ∈ a.transfer (g.block v.block) input, x ≤ y

theorem TransferMono.climbs (h : TransferMono a) (i : ExtTreeMap BlockId F) (v : Visit F) :
    Climbs a g i v := fun _ _ hle _ hx _ hy => h hle hx hy

variable {vs : List (Visit F)} {p q : Progress F} {i o : ExtTreeMap BlockId F} {b : BlockId}

theorem Under.join_inputs_le (hjoin : JoinIsLUB a) (hs : Spread g p) (hp : Under i o p)
    (hb : Touched p b) : a.join (inputs a g p.inFacts p.outFacts b) ≤ a.join (inputs a g i o b) := by
  have hmem : ∀ {x}, x ∈ inputs a g p.inFacts p.outFacts b → ∃ y ∈ inputs a g i o b, x ≤ y := by
    intro x hx
    rcases mem_inputs.1 hx with hx | ⟨e, he, hx | ⟨hk, hx⟩⟩
    · exact ⟨x, mem_inputs.2 (.inl hx), le_refl x⟩
    · obtain ⟨y, hy, hxy⟩ := hp.outFacts _ _ hx
      exact ⟨y, mem_inputs.2 (.inr ⟨e, he, .inl hy⟩), hxy⟩
    · obtain ⟨y, hy, hxy⟩ := hp.inFacts _ _ hx
      exact ⟨y, mem_inputs.2 (.inr ⟨e, he, .inr ⟨hk, hy⟩⟩), hxy⟩
  have hne := hs.inputs_ne_nil (a := a) hb
  obtain ⟨x, hx⟩ := exists_mem_of_ne_nil _ hne
  obtain ⟨y, hy, -⟩ := hmem hx
  apply (hjoin _ hne).2
  intro z hz
  obtain ⟨w, hw, hzw⟩ := hmem hz
  exact hzw.trans ((hjoin _ (ne_nil_of_mem hy)).1 hw)

/-- Everything that a run from sound facts keeps: it is consistent, it has spread from the entry, and it
is under every solution. -/
structure Grounded (a : Analysis F) (g : FlowGraph) (vs : List (Visit F)) (p : Progress F) : Prop
    extends Regular a g vs p where
  under : ∀ i o, IsSolution a g i o → Under i o p

theorem Grounded.start : Grounded a g [] (s.startFrom g ∅ ∅ [g.entry]) where
  toRegular := Regular.start
  under _ _ _ := ⟨by simp [Below, startFrom], by simp [Below, startFrom]⟩

theorem Grounded.resume (hg : g.Mirrored) (hq : Grounded a g vs q) :
    Grounded a g [] (s.startFrom g q.inFacts q.outFacts (seeds g q.outFacts)) where
  toRegular := hq.toRegular.resume hg
  under i o h := ⟨(hq.under i o h).inFacts, (hq.under i o h).outFacts⟩

variable [DecidableEq F] {rest : List BlockId}

theorem Under.visit (hjoin : JoinIsLUB a) (hsol : IsSolution a g i o) (hs : Spread g p)
    (hw : p.worklist.waiting = b :: rest) (hv : Solver.visit a g p b rest = some q)
    (hclimb : Climbs a g i ⟨b, p⟩) (hp : Under i o p) : Under i o q := by
  have hb : Touched p b := .inl (by simp [hw])
  obtain ⟨hbin, y, hbout, hty⟩ := hsol.balanced b (hs.reachable hb)
  have hle : inputOf a g ⟨b, p⟩ ≤ a.join (inputs a g i o b) := hp.join_inputs_le hjoin hs hb
  obtain ⟨x, htx, hin, hout, -, -, -⟩ := visit_eq_some hv
  constructor
  · rw [hin]
    exact hp.inFacts.insert hbin hle
  · rw [hout]
    exact hp.outFacts.insert hbout (hclimb _ hbin hle _ htx _ hty)

theorem Grounded.visit (hg : g.Mirrored) (hjoin : JoinIsLUB a) (hmono : TransferMono a)
    (hw : p.worklist.waiting = b :: rest) (hv : Solver.visit a g p b rest = some q)
    (hp : Grounded a g vs p) : Grounded a g (vs ++ [⟨b, p⟩]) q where
  toRegular := hp.toRegular.visit hg hw hv
  under i o h := (hp.under i o h).visit hjoin h hp.spread hw hv (hmono.climbs i _)

theorem solve_below (hg : g.Mirrored) (hjoin : JoinIsLUB a) (hsol : IsSolution a g i o) {r : Solution F}
    (h : s.solve a g = some r) (hclimb : ∀ v ∈ s.solveVisits a g, Climbs a g i v) :
    Below r.inFacts i ∧ Below r.outFacts o := by
  have hstart : Spread g (s.startFrom (F := F) g ∅ ∅ [g.entry]) ∧
      ((∀ v ∈ ([] : List (Visit F)), Climbs a g i v) → Under i o (s.startFrom g ∅ ∅ [g.entry])) :=
    ⟨Spread.start, fun _ => ⟨by simp [Below, startFrom], by simp [Below, startFrom]⟩⟩
  have hstep : ∀ vs p b rest q, p.worklist.waiting = b :: rest → Solver.visit a g p b rest = some q →
      Spread g p ∧ ((∀ v ∈ vs, Climbs a g i v) → Under i o p) →
      Spread g q ∧ ((∀ v ∈ vs ++ [⟨b, p⟩], Climbs a g i v) → Under i o q) := by
    rintro vs p b rest q hw hv ⟨hs, hunder⟩
    refine ⟨hs.visit hg hw hv, fun hall => ?_⟩
    exact (hunder fun v hv => hall v (by simp [hv])).visit hjoin hsol hs hw hv (hall _ (by simp))
  obtain ⟨q, ⟨-, hunder⟩, hin, hout, -⟩ := solve_induction hstart hstep h
  rw [hin, hout]
  exact ⟨(hunder hclimb).inFacts, (hunder hclimb).outFacts⟩

/-- Two converged solves find the same facts if the facts of both satisfy the equations and the visits of
each climb to the facts of the other. -/
theorem solve_eq_of_balanced (hg : g.Mirrored) (hjoin : JoinIsLUB a) {s' : Solver} {r r' : Solution F}
    (h : s.solve a g = some r) (h' : s'.solve a g = some r') (hc : r.status = .converged)
    (hc' : r'.status = .converged) (hclimb : ∀ v ∈ s.solveVisits a g, Climbs a g r'.inFacts v)
    (hclimb' : ∀ v ∈ s'.solveVisits a g, Climbs a g r.inFacts v)
    (hb : ∀ b ∈ r.inFacts, Balanced a g r.inFacts r.outFacts b)
    (hb' : ∀ b ∈ r'.inFacts, Balanced a g r'.inFacts r'.outFacts b) :
    r.inFacts = r'.inFacts ∧ r.outFacts = r'.outFacts := by
  have hsolution : ∀ {s : Solver} {r : Solution F}, s.solve a g = some r → r.status = .converged →
      (∀ b ∈ r.inFacts, Balanced a g r.inFacts r.outFacts b) → IsSolution a g r.inFacts r.outFacts := by
    intro s r h hc hb
    obtain ⟨q, hq, hin, hout, hdone⟩ := solve_induction Regular.start
      (fun _ _ _ _ _ hw hv (hp : Regular a g _ _) => hp.visit hg hw hv) h
    rw [hin, hout] at hb ⊢
    exact hq.isSolution (hdone hc) hb
  have hbelow := solve_below hg hjoin (hsolution h' hc' hb') h hclimb
  have hbelow' := solve_below hg hjoin (hsolution h hc hb) h' hclimb'
  exact ⟨hbelow.1.antisymm hbelow'.1, hbelow.2.antisymm hbelow'.2⟩

/-- What a solve returns once it has converged, be it from scratch or from what an earlier solve had
found when it ended. -/
inductive Completed (a : Analysis F) (g : FlowGraph) (r : Solution F) : Prop
  | fresh (s : Solver) (h : s.solve a g = some r) (hc : r.status = .converged)
  | resumed (s s' : Solver) (earlier : Solution F) (h : s.solve a g = some earlier)
      (h' : s'.resume a g earlier = some r) (hc : r.status = .converged)

theorem Completed.exists_grounded (hg : g.Mirrored) (hjoin : JoinIsLUB a) (hmono : TransferMono a)
    {r : Solution F} (hr : Completed a g r) :
    ∃ vs q, Grounded a g vs q ∧ r.inFacts = q.inFacts ∧ r.outFacts = q.outFacts ∧
      q.worklist.waiting = [] := by
  have hstep : ∀ vs p b rest q, p.worklist.waiting = b :: rest → Solver.visit a g p b rest = some q →
      Grounded a g vs p → Grounded a g (vs ++ [⟨b, p⟩]) q :=
    fun _ _ _ _ _ hw hv hp => hp.visit hg hjoin hmono hw hv
  cases hr with
  | fresh s h hc =>
    obtain ⟨q, hq, hin, hout, hdone⟩ := solve_induction Grounded.start hstep h
    exact ⟨_, q, hq, hin, hout, hdone hc⟩
  | resumed s s' earlier h h' hc =>
    obtain ⟨q₀, hq₀, hin₀, hout₀, -⟩ := solve_induction Grounded.start hstep h
    have hstart : Grounded a g [] (s'.startFrom g earlier.inFacts earlier.outFacts
        (seeds g earlier.outFacts)) := by
      rw [hin₀, hout₀]
      exact hq₀.resume hg
    obtain ⟨q, hq, hin, hout, hdone⟩ := run_induction hstep h' hstart
    exact ⟨_, q, hq, hin, hout, hdone hc⟩

/-- Without exception edges, and with least upper bounds as joins and monotone transfers, whatever a
converged solve returns is the least solution of the equations over the blocks in reach, in every
worklist order and from whatever an earlier solve left; so all of them return the same. -/
theorem completed_eq_least_solution (hg : g.Mirrored)
    (hexc : ∀ b, ∀ e ∈ (g.block b).predecessors, e.kind ≠ .exception) (hjoin : JoinIsLUB a)
    (hmono : TransferMono a) {r : Solution F} (hr : Completed a g r) : IsSolution a g r.inFacts r.outFacts ∧
      (∀ i o, IsSolution a g i o → Below r.inFacts i ∧ Below r.outFacts o) ∧
      ∀ r', Completed a g r' → r'.inFacts = r.inFacts ∧ r'.outFacts = r.outFacts := by
  have hleast : ∀ {r}, Completed a g r → IsSolution a g r.inFacts r.outFacts ∧
      ∀ i o, IsSolution a g i o → Below r.inFacts i ∧ Below r.outFacts o := by
    intro r hr
    obtain ⟨vs, q, hq, hin, hout, hw⟩ := hr.exists_grounded hg hjoin hmono
    rw [hin, hout]
    refine ⟨hq.toRegular.isSolution hw (hq.toRegular.balanced hexc hw), fun i o h => ?_⟩
    exact ⟨(hq.under i o h).inFacts, (hq.under i o h).outFacts⟩
  obtain ⟨hsol, hbelow⟩ := hleast hr
  refine ⟨hsol, hbelow, fun r' hr' => ?_⟩
  obtain ⟨hsol', hbelow'⟩ := hleast hr'
  have h := hbelow _ _ hsol'
  have h' := hbelow' _ _ hsol
  exact ⟨h'.1.antisymm h.1, h'.2.antisymm h.2⟩

end Order

end Solver

namespace Analysis

theorem counter_joinIsLUB (cap : Nat) : Solver.JoinIsLUB (counter cap) := by
  intro fs _
  rw [isLUB_iff_le_iff]
  intro u
  simp [counter, Solver.foldl_le_iff Nat.max_le, mem_upperBounds]

theorem counter_transferMono (cap : Nat) : Solver.TransferMono (counter cap) := by
  intro b x y x' y' hxy hx hy
  cases hx
  cases hy
  omega

end Analysis

/-- A loop inside a loop: block 4 goes on to 5 and back to 3, and 5 goes back to 4. -/
def FlowGraph.twoLoops : FlowGraph :=
  let g := (((initial.addBlock 1).2.addBlock 2).2.addBlock 2).2
  let g := ((g.addEdge 0 3 .unconditional).addEdge 3 4 .whenTrue).addEdge 3 1 .whenFalse
  ((g.addEdge 4 5 .whenTrue).addEdge 4 3 .loopBack).addEdge 5 4 .loopBack

theorem FlowGraph.Mirrored.twoLoops : FlowGraph.twoLoops.Mirrored := by
  have h := ((Mirrored.initial.addBlock 1).mirrored.addBlock 2).mirrored.addBlock 2
  have h := h.mirrored.addEdge (by decide : 0 < _) (by decide : 3 < _) .unconditional
  have h := h.mirrored.addEdge (by decide : 3 < _) (by decide : 4 < _) .whenTrue
  have h := h.mirrored.addEdge (by decide : 3 < _) (by decide : 1 < _) .whenFalse
  have h := h.mirrored.addEdge (by decide : 4 < _) (by decide : 5 < _) .whenTrue
  have h := h.mirrored.addEdge (by decide : 4 < _) (by decide : 3 < _) .loopBack
  exact (h.mirrored.addEdge (by decide : 5 < _) (by decide : 4 < _) .loopBack).mirrored

theorem FlowGraph.twoLoops_no_exception (b : BlockId) :
    ∀ e ∈ (twoLoops.block b).predecessors, e.kind ≠ .exception := by
  by_cases hb : b < 6
  · have h : ∀ b < 6, ∀ e ∈ (twoLoops.block b).predecessors, e.kind ≠ .exception := by decide
    exact h b hb
  · have hsize : twoLoops.size ≤ b := Nat.le_of_not_lt hb
    simp [block_of_size_le hsize]

/-- On two loops, counting to three in one order from scratch gives the least solution, and so does going
on in another order after a single visit. -/
theorem Solver.counter_completed_on_twoLoops : ∃ earlier r r',
      ({ order := .lifo, maxIterations := 1 } : Solver).solve (.counter 3) .twoLoops = some earlier ∧
      earlier.status = .unconverged ∧
      ({ order := .reversePostorder, maxIterations := 100 } : Solver).resume (.counter 3) .twoLoops earlier = some r' ∧
      ({ order := .fifo, maxIterations := 100 } : Solver).solve (.counter 3) .twoLoops = some r ∧
      IsSolution (.counter 3) .twoLoops r.inFacts r.outFacts ∧ r.outFacts[5]? = some 3 ∧
      r'.inFacts = r.inFacts ∧ r'.outFacts = r.outFacts := by
  have hearlier : (({ order := .lifo, maxIterations := 1 } : Solver).solve (.counter 3) .twoLoops).map
      (fun r => (r.status, r.outFacts.keys)) = some (.unconverged, [0]) := by decide +kernel
  have hr : (({ order := .fifo, maxIterations := 100 } : Solver).solve (.counter 3) .twoLoops).map
      (fun r => (r.status, r.outFacts[5]?)) = some (.converged, some 3) := by decide +kernel
  have hr' : ((({ order := .lifo, maxIterations := 1 } : Solver).solve (.counter 3) .twoLoops).bind fun r =>
      ({ order := .reversePostorder, maxIterations := 100 } : Solver).runFrom (.counter 3) .twoLoops r.inFacts
        r.outFacts [0, 3]).map (·.status) = some .converged := by decide +kernel
  obtain ⟨earlier, hearlier, hlimit⟩ := map_eq_some_iff.1 hearlier
  obtain ⟨hlimit, hkeys⟩ := Prod.mk.inj hlimit
  have hseeds : seeds .twoLoops earlier.outFacts = [0, 3] := by
    rw [seeds, hkeys]
    change ([0, 0, 3].mergeSort).eraseDups = [0, 3]
    rw [mergeSort_of_pairwise (by decide)]
    decide
  obtain ⟨r, hr, hc⟩ := map_eq_some_iff.1 hr
  obtain ⟨r', hr', hc'⟩ := map_eq_some_iff.1 hr'
  have hresume : ({ order := .reversePostorder, maxIterations := 100 } : Solver).resume (.counter 3) .twoLoops earlier =
      some r' := by
    rw [resume, hseeds]
    rwa [hearlier] at hr'
  obtain ⟨hc, h5⟩ := Prod.mk.inj hc
  obtain ⟨hsol, -, hsame⟩ := completed_eq_least_solution FlowGraph.Mirrored.twoLoops
    FlowGraph.twoLoops_no_exception (Analysis.counter_joinIsLUB 3) (Analysis.counter_transferMono 3)
    (.fresh _ hr hc)
  exact ⟨earlier, r, r', hearlier, hlimit, hresume, hr, hsol, h5,
    hsame r' (.resumed _ _ earlier hearlier hresume hc')⟩

end PointsTo
