import PointsTo.Proofs.Flow.Placement

/-! # Expressions on a chart

Follows the lowering of expressions with the chart. An expression that has been lowered finds what it needs in
temporaries that hold a value, on whichever way the evaluation of its operands has come there. -/

namespace PointsTo

open List Chart

namespace Node

variable {w w' : Chart} {now now' : List NodeId} {n : Node}

/-- What is hoisted at or below the nodes holds a value. -/
def Held (w : Chart) (now : List NodeId) (ns : List Node) : Prop :=
  ∀ hoisted ∈ w.outlook, heldAll hoisted ns ⊆ now

/-- An expression can be evaluated. If it has become branches, it has its value already. -/
def Prepared (w : Chart) (now : List NodeId) (n : Node) : Prop :=
  if n.isExpandable then n.id ∈ now ∧ ∀ hoisted ∈ w.outlook, hoisted n.id = true else Held w now n.children

theorem isExpandable_eq_false (h : n.needsExpansion = false) : n.isExpandable = false :=
  Bool.eq_false_iff.2 fun hx => by simp [needsExpansion_of_isExpandable hx] at h

theorem heldAll_singleton (hoisted : NodeId → Bool) (n : Node) : heldAll hoisted [n] = n.held hoisted := by
  simp [heldAll]

variable {ns : List Node}

theorem Held.mono (h : Held w now ns) (hw : w ≤ w') (hn : now ⊆ now') : Held w' now' ns :=
  fun hoisted hh => List.Subset.trans (h hoisted (hw.2 hh)) hn

theorem Held.append {ms : List Node} (hm : Held w now ms) (hn : Held w now ns) : Held w now (ms ++ ns) := by
  intro hoisted hh i hi
  obtain ⟨n, hmem, hi⟩ := mem_heldAll.1 hi
  rcases mem_append.1 hmem with hmem | hmem
  · exact hm hoisted hh (mem_heldAll.2 ⟨n, hmem, hi⟩)
  · exact hn hoisted hh (mem_heldAll.2 ⟨n, hmem, hi⟩)

theorem held_of_forall (h : ∀ n ∈ ns, Held w now [n]) : Held w now ns := by
  intro hoisted hh i hi
  obtain ⟨n, hn, hi⟩ := mem_heldAll.1 hi
  exact h n hn hoisted hh (by rwa [heldAll_singleton])

theorem Held.subset {ms : List Node} (h : Held w now ns) (hs : ms ⊆ ns) : Held w now ms := by
  intro hoisted hh i hi
  obtain ⟨n, hmem, hi⟩ := mem_heldAll.1 hi
  exact h hoisted hh (mem_heldAll.2 ⟨n, hs hmem, hi⟩)

theorem held_of_not_hoisted (h : ∀ hoisted ∈ w.outlook, ∀ i ∈ idsAll ns, hoisted i = false) : Held w now ns := by
  intro hoisted hh i hi
  obtain ⟨hi, htrue⟩ := mem_idsAll_of_mem_heldAll hi
  rw [h hoisted hh i hi] at htrue
  cases htrue

theorem Prepared.mono (h : n.Prepared w now) (hw : w ≤ w') (hn : now ⊆ now') : n.Prepared w' now' := by
  unfold Prepared at h ⊢
  split
  next hx =>
    rw [if_pos hx] at h
    exact ⟨hn h.1, fun hoisted hh => h.2 hoisted (hw.2 hh)⟩
  next hx =>
    rw [if_neg hx] at h
    exact h.mono hw hn

theorem Prepared.held (h : n.Prepared w now)
    (hn : n.isExpandable = false → n.id ∈ now ∨ ∀ hoisted ∈ w.outlook, hoisted n.id = false) : Held w now [n] := by
  intro hoisted hh i hi
  rw [heldAll_singleton] at hi
  unfold Prepared at h
  split at h
  next hx =>
    rcases mem_held hi with ⟨rfl, -⟩ | ⟨-, hexp⟩
    · exact h.1
    · rw [hexp (h.2 hoisted hh)] at hx
      cases hx
  next hx =>
    rcases mem_held hi with ⟨rfl, htrue⟩ | ⟨hi, -⟩
    · refine (hn (by simpa using hx)).resolve_right fun hfalse => ?_
      rw [hfalse hoisted hh] at htrue
      cases htrue
    · exact h hoisted hh hi

end Node

open Node (left Held idsAll)

theorem Stage.Onward.spot {site : Site} {bound r : ℚ} {now todo known : List NodeId} {c : BlockId}
    (hr : bound ≤ r) (hk : known ⊆ now) : Stage.Onward ⟨site, bound, now, todo⟩ c ⟨r, site.headers, known⟩ :=
  ⟨hr, fun _ => .inr, hk⟩

theorem Stage.At.spot {site : Site} {bound r : ℚ} {now todo known made : List NodeId} (hr : r < site.limit)
    (hb : r < bound) (hk : site.base ⊆ known) (hn : now ⊆ known) :
    Stage.At ⟨site, bound, now, todo⟩ made ⟨r, site.headers, known⟩ :=
  ⟨⟨hr, .refl _, hk⟩, hb, fun _ hmem => .inl (hn hmem)⟩

theorem Laid.isHoisted_eq_isExpandable {site : Site} {bound : ℚ} {now rest : List NodeId} {w : Chart}
    {b : Builder} {n : Node} (hb : Laid ⟨site, bound, now, n.left ++ rest⟩ w b) (hn : n.Prepared w now) :
    b.graph.isHoisted n.id = n.isExpandable := by
  unfold Node.Prepared at hn
  split at hn
  next hx => rw [hn.2 _ hb.isHoisted_mem, hx]
  next hx =>
    rw [Bool.not_eq_true] at hx
    rw [hx]
    exact hb.isHoisted_eq_false (by simp [left, hx])

namespace Builder

variable {β : Type} {w : Chart} {site : Site} {bound : ℚ} {now rest : List NodeId} {n : Node}
  {next : Unit → Build β} {result : β → Chart → Stage → Prop}

/-! ## Expressions -/

/-- Lowering goes on in the same site, and temporaries that hold a value keep it. -/
def Extended (site : Site) (now todo : List NodeId) (fits : Chart → List NodeId → Prop) (_ : Unit) (w : Chart)
    (s : Stage) : Prop :=
  ∃ now', s = ⟨site, site.limit, now', todo⟩ ∧ now ⊆ now' ∧ fits w now'

theorem carries_hoistOnce (hn : n.Prepared w now) :
    Carries Laid w ⟨site, site.limit, now, n.left ++ rest⟩ (hoistOnce n)
      (Extended site now rest fun _ now' => n.id ∈ now') := by
  refine Carries.get.giving fun b w' hw hb => ?_
  have hn := hn.mono hw (.refl _)
  rw [hb.isHoisted_eq_isExpandable hn]
  unfold Node.Prepared at hn
  split at hn
  next hx =>
    rw [left, hx]
    exact .pure fun _ _ => ⟨now, rfl, .refl _, hn.1⟩
  next hx =>
    rw [Bool.not_eq_true] at hx
    rw [left, hx]
    refine (carries_hoist hn).imp fun _ w₁ s' _ hs => ?_
    exact ⟨n.id :: now, hs.1, subset_cons_self _ _, mem_cons_self⟩

theorem Carries.settle (h : Carries Laid w ⟨site, site.limit, now, n.ids ++ rest⟩ (lowerExpr n)
      (Extended site now (n.left ++ rest) fun w' now' => n.Prepared w' now'))
    (h' : ∀ w' now', w ≤ w' → now ⊆ now' → n.id ∈ now' →
      Carries Laid w' ⟨site, site.limit, now', rest⟩ (next ()) result) :
    Carries Laid w ⟨site, site.limit, now, n.ids ++ rest⟩ (lowerExpr n >>= fun _ => hoistOnce n >>= next)
      result := by
  refine h.bind fun _ w₁ s₁ hw₁ hs₁ => ?_
  obtain ⟨now₁, rfl, hnow₁, hn⟩ := hs₁
  refine (carries_hoistOnce hn).bind fun _ w₂ s₂ hw₂ hs₂ => ?_
  obtain ⟨now₂, rfl, hnow₂, hid⟩ := hs₂
  exact h' w₂ now₂ (hw₁.trans hw₂) (List.Subset.trans hnow₁ hnow₂) hid

theorem Carries.test (h : Carries Laid w ⟨site, site.limit, now, n.ids ++ rest⟩ (lowerExpr n)
      (Extended site now (n.left ++ rest) fun w' now' => n.Prepared w' now'))
    (h' : ∀ w', w ≤ w' → Carries Laid w' ⟨site, site.limit, now, rest⟩ (next ()) result) :
    Carries Laid w ⟨site, site.limit, now, n.ids ++ rest⟩ (lowerExpr n >>= fun _ => push (.test n) >>= next)
      result := by
  refine .opened fun w₀ hw₀ _ hbase => ?_
  refine (h.weaken hw₀).bind fun _ w₁ s₁ hw₁ hs₁ => ?_
  obtain ⟨now₁, rfl, hnow₁, hn⟩ := hs₁
  refine .forget now₁ rest (fun i => by simp) (List.Subset.trans hbase hnow₁) (.refl _) fun w₂ hw₂ hfalse => ?_
  have hheld : Held w₂ now₁ [n] := by
    refine (hn.mono hw₂ (.refl _)).held fun hx => .inr fun hoisted hh => hfalse hoisted hh n.id ?_
    simp [left, hx]
  refine (carries_push (.test n) fun hoisted hh => ?_).andThen ?_
  · have hread := hheld hoisted hh
    rw [Node.heldAll_singleton] at hread
    exact hread
  · refine .forget now rest (fun _ => Nat.le_refl _) hbase hnow₁ fun w₃ hw₃ _ => ?_
    exact h' w₃ (((hw₀.trans hw₁).trans hw₂).trans hw₃)

theorem carries_hoistAll {waiting : List Node} {now : List NodeId} {w : Chart}
    (h : ∀ m ∈ waiting, Held w now m.children) :
    Carries Laid w ⟨site, site.limit, now, waiting.map (·.id) ++ rest⟩ (waiting.forM hoist)
      (Extended site now rest fun w' now' => Held w' now' waiting) := by
  induction waiting generalizing w now with
  | nil => exact .pure fun _ _ => ⟨now, rfl, .refl _, fun _ _ => nil_subset _⟩
  | cons m waiting ih =>
    change Carries Laid w _ (hoist m >>= fun _ => waiting.forM hoist) _
    refine (carries_hoist (h m (by simp))).giving fun _ w₁ hw₁ _ => ?_
    have hmore : now ⊆ m.id :: now := subset_cons_self _ _
    refine (ih fun k hk => (h k (by simp [hk])).mono hw₁ hmore).imp fun _ w₂ s₂ hw₂ hs₂ => ?_
    obtain ⟨now₂, rfl, hnow₂, hwaiting⟩ := hs₂
    refine ⟨now₂, rfl, List.Subset.trans hmore hnow₂, ?_⟩
    have hm : Held w₂ now₂ [m] := by
      intro hoisted hh i hi
      rw [Node.heldAll_singleton] at hi
      rcases Node.mem_held hi with ⟨rfl, -⟩ | ⟨hi, -⟩
      · exact hnow₂ mem_cons_self
      · exact hnow₂ (hmore (h _ (by simp) hoisted ((hw₁.trans hw₂).2 hh) hi))
    exact hm.append hwaiting

theorem Carries.leave {todo : List NodeId} (todo' : List NodeId) {act : Build Unit}
    {mid : Unit → Chart → Stage → Prop} (hn : n.isExpandable = false)
    (ht : ∀ i, (idsAll n.children).count i + todo'.count i ≤ todo.count i)
    (h : ∀ w', w ≤ w' → n.Prepared w' now → Carries Laid w' ⟨site, bound, now, todo'⟩ act mid) :
    Carries Laid w ⟨site, bound, now, todo⟩ act mid := by
  refine .opened fun w₀ hw₀ _ hbase => ?_
  refine .forget now todo' (fun i => ?_) hbase (.refl _) fun w₁ hw₁ hfalse => h w₁ (hw₀.trans hw₁) ?_
  · exact (Nat.le_add_left _ _).trans (ht i)
  · unfold Node.Prepared
    rw [hn]
    refine Node.held_of_not_hoisted fun hoisted hh i hi => hfalse hoisted hh i ?_
    have hcount := count_pos_iff.2 hi
    have := ht i
    omega

mutual

theorem carries_lowerExpr : ∀ (n : Node) (w : Chart) (site : Site) (now rest : List NodeId),
    Carries Laid w ⟨site, site.limit, now, n.ids ++ rest⟩ (lowerExpr n)
      (Extended site now (n.left ++ rest) fun w' now' => n.Prepared w' now')
  | ⟨id, kind, span, parent, children⟩, w, site, now, rest => by
    by_cases hneeds : Node.needsExpansion ⟨id, kind, span, parent, children⟩ = true
    case neg =>
      have hneeds : Node.needsExpansion ⟨id, kind, span, parent, children⟩ = false := by simpa using hneeds
      have hx := Node.isExpandable_eq_false hneeds
      rw [lowerExpr_of_not_needsExpansion hneeds]
      refine .leave (id :: rest) hx (fun i => ?_) fun w' _ hn => .pure fun w'' hw'' => ?_
      · simp [count_cons]
        omega
      · rw [left, hx]
        exact ⟨now, rfl, .refl _, hn.mono hw'' (.refl _)⟩
    unfold lowerExpr
    extract_lets node
    rw [if_pos hneeds]
    refine .opened fun w₀ hw₀ hopen hbase => ?_
    split
    next hx =>
      -- Branches meet at a block where the temporary of the whole expression holds a value.
      have hknown : now ⊆ id :: now := subset_cons_self _ _
      have hbase' : site.base ⊆ id :: now := List.Subset.trans hbase hknown
      have hmeet : ∀ {w : Chart} {site' : Site} {bound : ℚ} {now' : List NodeId} {merge : BlockId} {r : ℚ},
          site.Open w → r < site.limit → w.spots[merge]? = some ⟨r, site.headers, id :: now⟩ →
          site'.within site.limit site.base = site →
          Carries Laid w ⟨site', bound, now', id :: rest⟩ (setCurrent merge >>= fun _ => markHoisted node)
            (Extended site now (node.left ++ rest) fun w' now' => node.Prepared w' now') := by
        intro w site' bound now' merge r hopen hr hm hsite
        have hat : Stage.At ⟨site, site.limit, id :: now, id :: rest⟩ [] ⟨r, site.headers, id :: now⟩ :=
          .spot hr hr hbase' (.refl _)
        refine (carries_setCurrent hm hopen hbase' hat hsite).andThen ?_
        refine (carries_markHoisted node).imp fun _ w' s' _ hs => ?_
        have hx : node.isExpandable = true := hx
        simp only [left, Node.Prepared, hx, if_true]
        exact ⟨id :: now, hs.1, hknown, mem_cons_self, hs.2⟩
      split
      next _ op =>
        refine .forget now (idsAll children ++ id :: rest) (fun i => ?_) hbase (.refl _) fun w₁ hw₁ _ => ?_
        · simp [count_cons]
          omega
        refine .between fun r hr => ?_
        refine (carries_newBlock hr hbase').giving fun merge w₂ hw₂ hm => ?_
        refine .narrow le_rfl hr.le ?_
        refine (carries_lowerOperands node op children w₂ _ now _ hm (.refl _)).bind fun _ w₃ s₃ hw₃ hs₃ => ?_
        obtain ⟨now₃, rfl, -, -⟩ := hs₃
        exact hmeet (hopen.mono ((hw₁.trans hw₂).trans hw₃)) hr (spots_mono hw₃ hm) rfl
      next =>
        split
        next _ test body orElse =>
          refine .forget now (test.ids ++ (body.ids ++ (orElse.ids ++ id :: rest))) (fun i => ?_) hbase (.refl _)
            fun w₁ hw₁ _ => ?_
          · simp [count_cons]
            omega
          refine (carries_lowerExpr test w₁ site now _).test fun w₂ hw₂ => ?_
          refine .between fun r₀ hr₀ => ?_
          obtain ⟨r₁, hlt, hr₁⟩ := exists_between hr₀
          refine (carries_newBlock hr₀ hbase).giving fun thenBlock w₃ hw₃ hthen => ?_
          refine (carries_newBlock hr₀ hbase).giving fun elseBlock w₄ hw₄ helse => ?_
          refine (carries_newBlock hr₁ hbase').giving fun merge w₅ hw₅ hm => ?_
          have hthen := spots_mono (hw₄.trans hw₅) hthen
          have helse := spots_mono hw₅ helse
          have hopen := hopen.mono ((((hw₁.trans hw₂).trans hw₃).trans hw₄).trans hw₅)
          have hinner : (site.within r₁ site.base).Open w₅ := hopen.within hr₁.le (.refl _)
          -- A branch ends with its value in the temporary of the whole expression.
          have hbranch : ∀ {w : Chart} {now' todo : List NodeId} {value : Node} {next : Unit → Build Unit}
              {result : Unit → Chart → Stage → Prop}, w₅ ≤ w → now ⊆ now' → value.id ∈ now' →
              Carries Laid w ⟨site.within r₁ site.base, r₁, id :: now', todo⟩ (next ()) result →
              Carries Laid w ⟨site.within r₁ site.base, r₁, now', todo⟩
                (push (.bind node value) >>= fun _ => jump merge >>= next) result := by
            intro w now' todo value next result hw hnow hid hnext
            refine .andThen (carries_push (.bind node value) fun _ _ => by simpa [Step.reads] using hid) ?_
            refine .andThen (carries_jump (spots_mono hw hm) (.spot le_rfl ?_)) hnext
            exact cons_subset_cons id hnow
          refine .andThen (carries_fork hthen (.spot le_rfl (.refl _)) helse
            (.spot le_rfl (.refl _))) ?_
          refine .andThen (carries_setCurrent hthen hinner hbase (.spot hlt hlt hbase (.refl _))) ?_
          refine (carries_lowerExpr body w₅ _ now _).settle fun w₆ now₆ hw₆ hnow₆ hid₆ => ?_
          refine hbranch hw₆ hnow₆ hid₆ ?_
          refine .andThen (carries_setCurrent (spots_mono hw₆ helse) (hinner.mono hw₆) hbase
            (.spot hlt hlt hbase (.refl _))) ?_
          refine (carries_lowerExpr orElse w₆ _ now _).settle fun w₇ now₇ hw₇ hnow₇ hid₇ => ?_
          have hw := hw₆.trans hw₇
          refine hbranch hw hnow₇ hid₇ ?_
          exact hmeet (hopen.mono hw) hr₁ (spots_mono hw hm) rfl
        next => exact .throw _
    next hx =>
      have hx : node.isExpandable = false := by simpa using hx
      refine .forget now (idsAll children ++ id :: rest) (fun i => ?_) hbase (.refl _) fun w₁ hw₁ _ => ?_
      · simp [count_cons]
        omega
      refine (carries_lowerSequence [] children w₁ site now (id :: rest) nofun).imp fun _ w₂ s₂ _ hs => ?_
      obtain ⟨now₂, rfl, hnow₂, hheld⟩ := hs
      refine ⟨now₂, ?_, hnow₂, ?_⟩
      · simp only [left]
        rw [hx]
        rfl
      · unfold Node.Prepared
        rw [hx]
        exact hheld
termination_by n => sizeOf n
decreasing_by all_goals (subst_vars; simp only [Node.mk.sizeOf_spec, List.cons.sizeOf_spec]; omega)

theorem carries_lowerOperands (node : Node) (op : LogicalOp) {merge : BlockId} {known : List NodeId} :
    ∀ (values : List Node) (w : Chart) (site : Site) (now rest : List NodeId),
      w.spots[merge]? = some ⟨site.limit, site.headers, node.id :: known⟩ → known ⊆ now →
      Carries Laid w ⟨site, site.limit, now, idsAll values ++ rest⟩ (lowerOperands node op merge values)
        (Extended site now rest fun _ _ => True)
  | [], w, site, now, rest, _, _ => by
    unfold lowerOperands
    exact .pure fun _ _ => ⟨now, rfl, .refl _, trivial⟩
  | value :: values, w, site, now, rest, hm, hknown => by
    unfold lowerOperands
    rw [Node.idsAll_cons, append_assoc]
    refine (carries_lowerExpr value w site now _).settle fun w₁ now₁ hw₁ hnow₁ hid => ?_
    refine .andThen (carries_push (.bind node value) fun _ _ => by simpa [Step.reads] using hid) ?_
    refine .opened fun w₂ hw₂ hopen hbase => ?_
    have hm := spots_mono (hw₁.trans hw₂) hm
    have hnow : now ⊆ node.id :: now₁ := subset_cons_of_subset _ hnow₁
    have hmerge : node.id :: known ⊆ node.id :: now₁ :=
      cons_subset_cons _ (List.Subset.trans hknown hnow₁)
    split
    next hempty =>
      cases List.isEmpty_iff.1 hempty
      refine (carries_jump hm (.spot le_rfl hmerge)).imp fun _ w₃ s₃ _ hs => ?_
      exact ⟨node.id :: now₁, hs, hnow, trivial⟩
    next =>
      refine .between fun r hr => ?_
      refine (carries_newBlock hr hbase).giving fun next w₃ hw₃ hnext => ?_
      have hm := spots_mono hw₃ hm
      have hrest : Carries Laid w₃ ⟨site, r, node.id :: now₁, idsAll values ++ rest⟩
          (setCurrent next >>= fun _ => lowerOperands node op merge values)
          (Extended site now rest fun _ _ => True) := by
        refine .andThen (carries_setCurrent hnext (hopen.mono hw₃) hbase (.spot hr hr hbase (.refl _))) ?_
        refine (carries_lowerOperands node op values w₃ site _ rest hm (List.Subset.trans hknown hnow)).imp
          fun _ w₄ s₄ _ hs => ?_
        obtain ⟨now₄, rfl, hnow₄, -⟩ := hs
        exact ⟨now₄, rfl, List.Subset.trans hnow hnow₄, trivial⟩
      split
      · exact .andThen (carries_fork hnext (.spot le_rfl (.refl _)) hm (.spot hr.le hmerge)) hrest
      · exact .andThen (carries_fork hm (.spot hr.le hmerge) hnext (.spot le_rfl (.refl _))) hrest
termination_by values => sizeOf values

theorem carries_lowerSequence : ∀ (waiting ns : List Node) (w : Chart) (site : Site) (now rest : List NodeId),
    (∀ m ∈ waiting, m.isExpandable = false ∧ m.Prepared w now) →
      Carries Laid w ⟨site, site.limit, now, waiting.map (·.id) ++ (idsAll ns ++ rest)⟩
        (lowerSequence waiting ns)
        (Extended site now rest fun w' now' => Held w' now' (waiting ++ ns))
  | waiting, [], w, site, now, rest, hwaiting => by
    unfold lowerSequence
    refine .opened fun w₀ hw₀ _ hbase => ?_
    refine .forget now rest (fun i => by simp) hbase (.refl _) fun w₁ hw₁ hfalse => ?_
    refine .pure fun w₂ hw₂ => ⟨now, rfl, .refl _, Node.held_of_forall fun m hm => ?_⟩
    rw [append_nil] at hm
    refine ((hwaiting m hm).2.mono ((hw₀.trans hw₁).trans hw₂) (.refl _)).held fun _ => .inr fun hoisted hh => ?_
    refine hfalse hoisted (hw₂.2 hh) m.id ?_
    have hcount := count_pos_iff.2 (List.mem_map_of_mem (f := (·.id)) hm)
    simp only [Node.idsAll_nil, nil_append, count_append]
    omega
  | waiting, n :: ns, w, site, now, rest, hwaiting => by
    unfold lowerSequence
    rw [Node.idsAll_cons, append_assoc]
    split
    next hneeds =>
      have hchildren : ∀ m ∈ waiting, Held w now m.children := by
        intro m hm
        obtain ⟨hx, hprep⟩ := hwaiting m hm
        unfold Node.Prepared at hprep
        rwa [hx] at hprep
      refine (carries_hoistAll hchildren).bind fun _ w₁ s₁ _ hs₁ => ?_
      obtain ⟨now₁, rfl, hnow₁, hheld⟩ := hs₁
      refine (carries_lowerExpr n w₁ site now₁ _).bind fun _ w₂ s₂ hw₂ hs₂ => ?_
      obtain ⟨now₂, rfl, hnow₂, hprep⟩ := hs₂
      refine Carries.get.giving fun b w₃ hw₃ hb => ?_
      have hprep := hprep.mono hw₃ (.refl _)
      have hheld := hheld.mono (hw₂.trans hw₃) hnow₂
      have hnow := List.Subset.trans hnow₁ hnow₂
      rw [hb.isHoisted_eq_isExpandable hprep]
      cases hx : n.isExpandable with
      | true =>
        rw [left, hx]
        refine (carries_lowerSequence [] ns w₃ site now₂ rest nofun).imp fun _ w₄ s₄ hw₄ hs₄ => ?_
        obtain ⟨now₄, rfl, hnow₄, hns⟩ := hs₄
        have hn : Held w₄ now₄ [n] := (hprep.mono hw₄ hnow₄).held fun hx' => by simp [hx] at hx'
        exact ⟨now₄, rfl, List.Subset.trans hnow hnow₄, (hheld.mono hw₄ hnow₄).append (hn.append hns)⟩
      | false =>
        rw [left, hx]
        have hn : ∀ m ∈ [n], m.isExpandable = false ∧ m.Prepared w₃ now₂ := fun m hm =>
          mem_singleton.1 hm ▸ ⟨hx, hprep⟩
        refine (carries_lowerSequence [n] ns w₃ site now₂ rest hn).imp fun _ w₄ s₄ hw₄ hs₄ => ?_
        obtain ⟨now₄, rfl, hnow₄, hns⟩ := hs₄
        exact ⟨now₄, rfl, List.Subset.trans hnow hnow₄, (hheld.mono hw₄ hnow₄).append hns⟩
    next hneeds =>
      have hx := Node.isExpandable_eq_false (by simpa using hneeds)
      refine .leave ((waiting ++ [n]).map (·.id) ++ (idsAll ns ++ rest)) hx (fun i => ?_) fun w₁ hw₁ hn => ?_
      · simp [Node.ids_eq, count_cons]
        omega
      · have hwaiting : ∀ m ∈ waiting ++ [n], m.isExpandable = false ∧ m.Prepared w₁ now := by
          intro m hm
          rcases mem_append.1 hm with hm | hm
          · exact ⟨(hwaiting m hm).1, (hwaiting m hm).2.mono hw₁ (.refl _)⟩
          · exact mem_singleton.1 hm ▸ ⟨hx, hn⟩
        have h := carries_lowerSequence (waiting ++ [n]) ns w₁ site now rest hwaiting
        rwa [append_assoc] at h
termination_by _ ns => sizeOf ns

end

end Builder

end PointsTo
