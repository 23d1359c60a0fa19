import PointsTo.Proofs.Flow.Handlers

/-! # Guarded blocks of a unit

Lowering the statements of a unit leaves a register in which every guarded block, wherever it stands in the body of
the unit, is protected by its handlers and closed by its last part. -/

namespace PointsTo

open List (append_assoc count_cons forall_mem_cons mem_cons mem_cons_self nil_subset)
open Builder (isHandler)

namespace Node

mutual

/-- The numbers of a statement and of what is in it, without guarded blocks and what is in those. -/
def unguarded : Node → List NodeId
  | ⟨id, kind, _, _, children⟩ => if kind = .tryBlock then [] else id :: unguardedAll children

def unguardedAll : List Node → List NodeId
  | [] => []
  | n :: rest => unguarded n ++ unguardedAll rest

end

/-- The bodies that a statement is lowered with. -/
def bodies (n : Node) : List (List Node) :=
  match n.kind, n.children with
  | .ifElse, [_, body] | .whileLoop, [_, body] | .forLoop, [_, _, body] => [body.children]
  | .ifElse, [_, body, orElse] | .whileLoop, [_, body, orElse] | .forLoop, _ :: _ :: body :: orElse :: _ =>
    [body.children, orElse.children]
  | .tryBlock, body :: rest => body.children :: (rest.find? (·.kind == .block)).toList.map (·.children) ++
    ((rest.filter isHandler).filterMap (·.children.getLast?)).map (·.children) ++
    (rest.find? (·.kind == .last)).toList.map (·.children)
  | .withBlock, items => (items.filter (·.kind == .block)).map (·.children)
  | _, _ => []

/-- A statement is one of some statements, or stands in a body of one of them. -/
inductive Inside (t : Node) : List Node → Prop
  | here {stmts : List Node} (h : t ∈ stmts) : Inside t stmts
  | deeper {stmts body : List Node} {n : Node} (hn : n ∈ stmts) (hbody : body ∈ n.bodies)
      (h : Inside t body) : Inside t stmts

theorem inside_cons {t n : Node} {stmts : List Node} :
    t.Inside (n :: stmts) ↔ (t = n ∨ ∃ body ∈ n.bodies, t.Inside body) ∨ t.Inside stmts := by
  constructor
  · rintro (h | ⟨hn, hbody, h⟩)
    · exact (mem_cons.1 h).imp .inl .here
    · rcases mem_cons.1 hn with rfl | hn
      · exact .inl (.inr ⟨_, hbody, h⟩)
      · exact .inr (.deeper hn hbody h)
  · rintro ((rfl | ⟨body, hbody, h⟩) | h | ⟨hn, hbody, h⟩)
    · exact .here mem_cons_self
    · exact .deeper mem_cons_self hbody h
    · exact .here (List.mem_cons_of_mem _ h)
    · exact .deeper (List.mem_cons_of_mem _ hn) hbody h

theorem not_inside_nil {t : Node} : ¬t.Inside [] := by
  rintro (h | ⟨hn, -, -⟩)
  · cases h
  · cases hn

theorem unguardedAll_cons_subset {n : Node} {ns : List Node} {ids ids' : List NodeId} (h : n.unguarded ⊆ ids)
    (h' : unguardedAll ns ⊆ ids') : unguardedAll (n :: ns) ⊆ ids ++ ids' := by
  unfold unguardedAll
  exact List.append_subset.2 ⟨List.subset_append_of_subset_left _ h, List.subset_append_of_subset_right _ h'⟩

mutual

theorem unguarded_subset : ∀ n : Node, n.unguarded ⊆ n.ids
  | ⟨id, kind, _, _, children⟩ => by
    unfold unguarded
    rw [ids_eq]
    split
    · exact nil_subset _
    · exact List.cons_subset_cons _ (unguardedAll_subset children)

theorem unguardedAll_subset : ∀ ns : List Node, unguardedAll ns ⊆ idsAll ns
  | [] => nil_subset _
  | n :: rest => by
    rw [idsAll_cons]
    exact unguardedAll_cons_subset (unguarded_subset n) (unguardedAll_subset rest)

end

theorem unguarded_subset_cons (n : Node) : n.unguarded ⊆ n.id :: unguardedAll n.children := by
  obtain ⟨id, kind, span, parent, children⟩ := n
  unfold unguarded
  split
  · exact nil_subset _
  · exact .refl _

theorem unguardedAll_singleton (n : Node) : unguardedAll [n] ⊆ n.id :: unguardedAll n.children :=
  List.append_subset.2 ⟨n.unguarded_subset_cons, nil_subset _⟩

theorem unguardedAll_branch {test body : Node} {rest : List Node} {ids : List NodeId}
    (h : unguardedAll rest ⊆ ids) :
    unguardedAll (test :: body :: rest) ⊆ test.ids ++ ((body.id :: unguardedAll body.children) ++ ids) :=
  unguardedAll_cons_subset test.unguarded_subset (unguardedAll_cons_subset body.unguarded_subset_cons h)

end Node

open Node (idsAll unguardedAll bodies)

namespace Register

variable {w w' : Register} {n : Node} {stmts : List Node}

/-- If the statement is a guarded block, then its body is protected by the handlers, if it has any, and all of it but
the last part is closed by the last part, if it has one. -/
def Guarded (w : Register) (t : Node) : Prop :=
  t.kind = .tryBlock → ∀ body rest, t.children = body :: rest →
    (rest.any isHandler = true → ∃ dispatch seam, w.Protects (unguardedAll body.children)
      (idsAll (rest.filter (·.kind == .block)))
      (idsAll (rest.filter isHandler) ++ idsAll (rest.filter (·.kind == .last)))
      (rest.filter isHandler) dispatch seam) ∧
    (rest.any (·.kind == .last) = true → ∃ entry, w.Closes
      (body.ids ++ (idsAll (rest.filter (·.kind == .block)) ++ idsAll (rest.filter isHandler)))
      (idsAll (rest.filter (·.kind == .last))) (rest.filter isHandler) entry)

def Guards (w : Register) (stmts : List Node) : Prop := ∀ t, t.Inside stmts → w.Guarded t

def GuardsIn (w : Register) (n : Node) : Prop := w.Guarded n ∧ ∀ body ∈ n.bodies, w.Guards body

theorem Guarded.mono (h : w.Guarded n) (hw : w ≤ w') : w'.Guarded n := fun hk body rest hc =>
  (h hk body rest hc).imp (fun h hany => (h hany).imp fun _ h => h.imp fun _ h => h.mono hw)
    fun h hany => (h hany).imp fun _ h => h.mono hw

theorem Guards.mono (h : w.Guards stmts) (hw : w ≤ w') : w'.Guards stmts := fun t ht => (h t ht).mono hw

theorem GuardsIn.mono (h : w.GuardsIn n) (hw : w ≤ w') : w'.GuardsIn n :=
  ⟨h.1.mono hw, fun body hbody => (h.2 body hbody).mono hw⟩

theorem monotone_guards (n : Option Node) : Monotone fun w : Register => ∀ b ∈ n, w.Guards b.children :=
  fun _ _ hw h b hb => (h b hb).mono hw

theorem guards_nil : w.Guards [] := fun _ ht => (Node.not_inside_nil ht).elim

theorem guards_cons : w.Guards (n :: stmts) ↔ w.GuardsIn n ∧ w.Guards stmts := by
  constructor
  · intro h
    refine ⟨⟨h n (Node.inside_cons.2 (.inl (.inl rfl))), fun body hbody t ht => ?_⟩, fun t ht => ?_⟩
    · exact h t (Node.inside_cons.2 (.inl (.inr ⟨body, hbody, ht⟩)))
    · exact h t (Node.inside_cons.2 (.inr ht))
  · rintro ⟨⟨hn, hbodies⟩, hstmts⟩ t ht
    rcases Node.inside_cons.1 ht with (rfl | ⟨body, hbody, ht⟩) | ht
    · exact hn
    · exact hbodies body hbody t ht
    · exact hstmts t ht

end Register

namespace Builder

variable {ids ids' bare bare' : List NodeId} {goal goal' : Register → Prop} {act act' : Build Unit} {node : Node}

/-! ## Statements -/

theorem notes_throw (e : Fault) (hmono : Monotone goal) : Notes ids bare goal (throw e) :=
  ⟨hmono, fun _ _ _ _ => .throw e⟩

variable (h : Notes ids bare goal act)
include h

theorem Notes.andThen (h' : Notes ids' bare' goal' act') :
    Notes (ids ++ ids') (bare ++ bare') (fun w => goal w ∧ goal' w) (act >>= fun _ => act') where
  mono _ _ hw hg := ⟨h.mono hw hg.1, h'.mono hw hg.2⟩
  carries w x rest hp := by
    rw [append_assoc]
    refine h.giving le_rfl hp fun w₁ hw₁ hlowered hgoal => ?_
    refine (h'.carries w₁ x rest (hp.mono hw₁)).imp fun _ w₂ s hw₂ ⟨hs, hlowered', hgoal'⟩ => ?_
    exact ⟨hs, (hlowered.mono hw₂).append (hlowered'.of_le hw₁), h.mono hw₂ hgoal, hgoal'⟩

theorem Notes.separated : Notes ids bare goal (separate >>= fun _ => act) where
  mono := h.mono
  carries w x rest hp := .andThen notes_separate (h.carries w x rest hp)

theorem Notes.reach (hmono : Monotone goal') (hgoal : ∀ w, goal w → goal' w) : Notes ids bare goal' act where
  mono := hmono
  carries w x rest hp := (h.carries w x rest hp).imp fun _ w' _ _ hs => ⟨hs.1, hs.2.1, hgoal w' hs.2.2⟩

theorem Notes.stmt (hids : ∀ i, ids.count i ≤ node.ids.count i)
    (hbare : ∀ i ∈ node.unguarded, i ∈ bare ∨ ids.count i < node.ids.count i)
    (hgoal : ∀ w, goal w → w.GuardsIn node) : Notes node.ids node.unguarded (·.GuardsIn node) act :=
  (h.drop hids hbare).reach (fun _ _ hw h => h.mono hw) hgoal

omit h

theorem notes_simple (hkind : node.kind ≠ .tryBlock) (hbodies : node.bodies = [])
    (h : ∀ w (s : Standing), w.Valid s.place → w.Puts s.place node.ids → Carries Kept w s act fun _ _ s' => s' = s) :
    Notes node.ids node.unguarded (·.GuardsIn node) act := by
  have hsubset : ∀ i ∈ node.unguarded, i ∈ node.ids ∨ node.ids.count i < node.ids.count i := fun i hi =>
    .inl (node.unguarded_subset hi)
  exact (notes_of_keeps node.ids h).stmt (fun _ => le_rfl) hsubset fun w _ =>
    ⟨fun hk => (hkind hk).elim, by simp [hbodies]⟩

theorem Notes.compound (h : Notes ids bare goal act) (hids : ∀ i, ids.count i ≤ (idsAll node.children).count i)
    (hbare : ∀ i ∈ unguardedAll node.children, i ∈ bare ∨ ids.count i < (idsAll node.children).count i)
    (hgoal : ∀ w, goal w → w.GuardsIn node) : Notes node.ids node.unguarded (·.GuardsIn node) act := by
  refine h.stmt (fun i => (hids i).trans ?_) (fun i hi => ?_) hgoal
  · rw [Node.ids_eq]
    exact (List.sublist_cons_self _ _).count_le _
  · rw [Node.ids_eq, count_cons]
    rcases mem_cons.1 (node.unguarded_subset_cons hi) with rfl | hi
    · have := hids node.id
      simp only [beq_self_eq_true, if_true]
      omega
    · refine (hbare i hi).imp_right fun hlt => ?_
      omega

theorem second_subset {children : List Node} : children[1]?.toList ⊆ children := fun _ hn =>
  List.mem_of_getElem? (Option.mem_toList.1 hn)

theorem NotesHandlers.cons {dispatch join : BlockId} {h : Node} {hs : List Node} {goal' : Node → Register → Prop}
    (hfirst : NotesHandlers dispatch join ids [h] (goal' h) act)
    (hrest : NotesHandlers dispatch join ids' hs (fun w => ∀ n ∈ hs, goal' n w) act') :
    NotesHandlers dispatch join (ids ++ ids') (h :: hs) (fun w => ∀ n ∈ h :: hs, goal' n w)
      (act >>= fun _ => act') where
  mono w w' hw hg := forall_mem_cons.2 ⟨hfirst.mono hw (forall_mem_cons.1 hg).1,
    hrest.mono hw (forall_mem_cons.1 hg).2⟩
  carries w regions seam rest hd hj := by
    rw [append_assoc]
    refine (hfirst.carries w regions seam _ hd hj).giving fun _ w₁ hw₁ ⟨hlowered, hgoal, hstart⟩ => ?_
    refine (hrest.carries w₁ regions seam rest (hd.mono hw₁) (hj.mono hw₁)).imp
      fun _ w₂ s hw₂ ⟨hs, hlowered', hgoal', hstarts⟩ => ⟨hs, ?_, ?_, ?_⟩
    · exact (hlowered.mono hw₂).append (hlowered'.of_le hw₁)
    · exact forall_mem_cons.2 ⟨hfirst.mono hw₂ hgoal, hgoal'⟩
    · obtain ⟨c, o, hc, ho⟩ := hstart h mem_cons_self
      exact forall_mem_cons.2 ⟨⟨c, o, Register.origins_mono hw₂ hc, ho⟩, hstarts⟩

mutual

theorem notes_buildStmt : ∀ node : Node, Notes node.ids node.unguarded (·.GuardsIn node) (buildStmt node)
  | ⟨id, kind, span, parent, children⟩ => by
    unfold buildStmt
    extract_lets node
    refine .separated ?_
    have hthrow : ∀ e : Fault, Notes node.ids node.unguarded (·.GuardsIn node) (throw e) := fun e =>
      notes_throw e fun _ _ hw h => h.mono hw
    split
    · split
      next test body =>
        refine (notes_buildIf test (notes_buildBlock body) (notes_pure [])).compound
          (fun i => by simp) (fun i hi => .inl (Node.unguardedAll_branch (.refl _) hi)) fun w hw => ⟨nofun, ?_⟩
        simpa [node, bodies] using hw
      next test body orElse =>
        refine (notes_buildIf test (notes_buildBlock body) (notes_buildBlock orElse)).compound
          (fun i => by simp) (fun i hi => .inl (Node.unguardedAll_branch orElse.unguardedAll_singleton hi)) fun w hw =>
            ⟨nofun, ?_⟩
        simpa [node, bodies] using hw
      next => exact hthrow _
    · split
      next test body =>
        refine (notes_buildWhile node test (notes_buildBlock body) (notes_pure [])).compound
          (fun i => by simp) (fun i hi => .inl (Node.unguardedAll_branch (.refl _) hi)) fun w hw => ⟨nofun, ?_⟩
        simpa [node, bodies] using hw
      next test body orElse =>
        refine (notes_buildWhile node test (notes_buildBlock body) (notes_buildBlock orElse)).compound
          (fun i => by simp) (fun i hi => .inl (Node.unguardedAll_branch orElse.unguardedAll_singleton hi)) fun w hw =>
            ⟨nofun, ?_⟩
        simpa [node, bodies] using hw
      next => exact hthrow _
    · split
      next target iterable body =>
        refine (notes_buildFor node target iterable (notes_buildBlock body) (notes_pure [])).compound
          (fun i => by simp) (fun i hi => .inl ?_) fun w hw => ⟨nofun, ?_⟩
        · rw [append_assoc]
          exact Node.unguardedAll_cons_subset target.unguarded_subset (Node.unguardedAll_branch (.refl _)) hi
        · simpa [node, bodies] using hw
      next target iterable body orElse more =>
        refine (notes_buildFor node target iterable (notes_buildBlock body) (notes_buildBlock orElse)).compound
          (fun i => by simp) (fun i hi => ?_) fun w hw => ⟨nofun, ?_⟩
        · have hparts : unguardedAll (target :: iterable :: body :: orElse :: more) ⊆
              target.ids ++ (iterable.ids ++ ((body.id :: unguardedAll body.children) ++
                ((orElse.id :: unguardedAll orElse.children) ++ idsAll more))) :=
            Node.unguardedAll_cons_subset target.unguarded_subset (Node.unguardedAll_branch
              (Node.unguardedAll_cons_subset orElse.unguarded_subset_cons (Node.unguardedAll_subset more)))
          -- What stands behind the alternative is not lowered at all, and may be given any place.
          have hi := hparts hi
          simp only [← append_assoc] at hi ⊢
          refine (List.mem_append.1 hi).imp_right fun hmore => ?_
          have := List.count_pos_iff.2 hmore
          simp only [Node.idsAll_cons, List.count_append]
          omega
        · simpa [node, bodies] using hw
      next => exact hthrow _
    · split
      next body rest =>
        have hhandlers : ∀ h ∈ if rest.any isHandler then
            some fun dispatch join => buildHandlers dispatch join rest else none,
            ∀ dispatch join, NotesHandlers dispatch join (idsAll (rest.filter isHandler)) (rest.filter isHandler)
              (fun w => ∀ h ∈ rest.filter isHandler, ∀ n ∈ h.children.getLast?, w.Guards n.children)
              (h dispatch join) := by
          intro h hh dispatch join
          cases Option.some.inj (Option.ite_none_right_eq_some.1 hh).2
          exact notes_buildHandlers dispatch join rest
        have hlast : ∀ l ∈ if rest.any (·.kind == .last) then some (buildFirst .last rest) else none,
            Notes (idsAll (rest.filter (·.kind == .last))) []
              (fun w => ∀ n ∈ rest.find? (·.kind == .last), w.Guards n.children) l := by
          intro l hl
          cases Option.some.inj (Option.ite_none_right_eq_some.1 hl).2
          exact notes_buildFirst .last rest
        -- None of its numbers has to be lowered where the guarded block itself is.
        refine (notes_buildTry (notes_buildBlock body) (notes_buildFirst .block rest) hhandlers ?_ hlast ?_).stmt
          (fun i => ?_) ?_ fun w hw => ⟨fun _ body' rest' hchildren => ?_, ?_⟩
        · intro hnone
          have hempty : rest.filter isHandler = [] := by simpa using hnone
          simp [hempty]
        · intro hnone
          have hempty : rest.filter (·.kind == .last) = [] := by simpa using hnone
          simp [← List.head?_filter, hempty]
        · have hparts := count_parts_le rest i
          simp only [Node.ids_eq, Node.idsAll_cons, List.count_append, count_cons]
          omega
        · nofun
        · obtain ⟨rfl, rfl⟩ := List.cons.inj hchildren
          refine ⟨fun hany => ?_, fun hany => hw.2.2 (by simpa using hany)⟩
          obtain ⟨dispatch, seam, h⟩ := hw.2.1 (by simpa using hany)
          have hbody := h.puts_body.imp fun _ h => h.subset (List.subset_cons_self _ _)
          exact ⟨dispatch, seam, { h with puts_body := hbody }⟩
        · obtain ⟨⟨hbody, helse, hhandlers⟩, hlast⟩ := hw.1
          refine List.forall_mem_append.2 ⟨List.forall_mem_append.2 ⟨forall_mem_cons.2 ⟨hbody, ?_⟩, ?_⟩, ?_⟩
          · exact List.forall_mem_map.2 fun n hn => helse n (Option.mem_toList.1 hn)
          · refine List.forall_mem_map.2 fun n hn => ?_
            obtain ⟨h, hh, hn⟩ := List.mem_filterMap.1 hn
            exact hhandlers h hh n hn
          · exact List.forall_mem_map.2 fun n hn => hlast n (Option.mem_toList.1 hn)
      next => exact hthrow _
    · refine (notes_buildItems children).compound (fun _ => le_rfl) (fun i hi => .inl hi) fun w hw => ⟨nofun, ?_⟩
      refine List.forall_mem_map.2 fun n hn => ?_
      obtain ⟨hn, hk⟩ := List.mem_filter.1 hn
      exact hw n hn (eq_of_beq hk)
    · split
      next test rest =>
        refine notes_simple nofun rfl fun w s hp hput =>
          notes_buildAssert hp (hput.subset (Node.ids_subset_of_mem mem_cons_self)) fun m hm => hput.subset ?_
        exact Node.ids_subset_of_mem (List.mem_cons_of_mem _ (List.mem_of_head? hm))
      next => exact hthrow _
    · exact notes_simple nofun rfl fun w s _ hput => notes_returnFrom hput
    · exact notes_simple nofun rfl fun w s hp hput => notes_raiseFrom hp hput
    · exact notes_simple nofun rfl fun w s _ _ => notes_leaveLoop node true
    · exact notes_simple nofun rfl fun w s _ _ => notes_leaveLoop node false
    · refine notes_simple nofun rfl fun w s _ hput => notes_execAfter (List.append_subset.2 ⟨?_, ?_⟩) hput
      · exact fun n hn => List.mem_of_getLast? (Option.mem_toList.1 hn)
      · exact List.dropLast_subset _
    · exact notes_simple nofun rfl fun w s _ hput => notes_execAfter second_subset hput
    · exact notes_simple nofun rfl fun w s _ hput => notes_execAfter second_subset hput
    · exact notes_simple nofun rfl fun w s _ hput => notes_execAfter (.refl _) hput
    · exact hthrow _
    · split
      · exact hthrow _
      · refine notes_simple ?_ ?_ fun w s _ hput => notes_push fun i hi =>
          Option.some.inj hi ▸ hput _ node.id_mem_ids
        · assumption
        · unfold bodies
          split <;> simp_all [node]
termination_by node => sizeOf node
decreasing_by all_goals (subst_vars; simp only [Node.mk.sizeOf_spec, List.cons.sizeOf_spec]; omega)

theorem notes_buildBody : ∀ stmts : List Node,
    Notes (idsAll stmts) (unguardedAll stmts) (·.Guards stmts) (buildBody stmts)
  | [] => by
    unfold buildBody
    exact (notes_pure []).reach (fun _ _ hw h => h.mono hw) fun _ _ => Register.guards_nil
  | node :: rest => by
    unfold buildBody
    rw [Node.idsAll_cons]
    unfold unguardedAll
    refine ((notes_buildStmt node).andThen (notes_buildBody rest)).reach (fun _ _ hw h => h.mono hw) fun _ h => ?_
    exact Register.guards_cons.2 h
termination_by stmts => sizeOf stmts

theorem notes_buildBlock : ∀ node : Node,
    Notes node.ids (node.id :: unguardedAll node.children) (·.Guards node.children) (buildBlock node)
  | ⟨_, _, _, _, stmts⟩ => by
    unfold buildBlock
    refine (notes_buildBody stmts).drop (fun i => by simp [count_cons]) fun i hi => ?_
    rcases mem_cons.1 hi with rfl | hi
    · exact .inr (by simp)
    · exact .inl hi
termination_by node => sizeOf node

theorem notes_buildFirst (wanted : Kind) : ∀ children : List Node,
    Notes (idsAll (children.filter (·.kind == wanted))) []
      (fun w => ∀ n ∈ children.find? (·.kind == wanted), w.Guards n.children) (buildFirst wanted children)
  | [] => by
    unfold buildFirst
    exact (notes_pure []).reach (Register.monotone_guards _) fun _ _ => by simp
  | ⟨_, kind, _, _, stmts⟩ :: rest => by
    unfold buildFirst
    split
    next h =>
      refine ((notes_buildBody stmts).drop (fun i => by simp [h, count_cons]; omega) (by nofun)).reach
        (Register.monotone_guards _) fun w hw n hn => ?_
      rw [List.find?_cons_of_pos (by simp [h])] at hn
      exact Option.some.inj hn ▸ hw
    next h => simpa [h] using notes_buildFirst wanted rest
termination_by children => sizeOf children

theorem notes_buildHandlers (dispatch join : BlockId) : ∀ children : List Node,
    NotesHandlers dispatch join (idsAll (children.filter isHandler)) (children.filter isHandler)
      (fun w => ∀ h ∈ children.filter isHandler, ∀ n ∈ h.children.getLast?, w.Guards n.children)
      (buildHandlers dispatch join children)
  | [] => by
    unfold buildHandlers
    exact ⟨fun _ _ hw h n hn m hm => (h n hn m hm).mono hw, fun w regions seam rest _ _ =>
      .pure fun _ _ => ⟨rfl, ⟨nofun, nofun⟩, nofun, nofun⟩⟩
  | ⟨id, kind, span, parent, children⟩ :: rest => by
    unfold buildHandlers
    extract_lets node
    split
    next h =>
      rw [List.filter_cons, if_pos h, Node.idsAll_cons]
      exact (notes_buildHandler node (notes_buildFinal children)).cons (notes_buildHandlers dispatch join rest)
    next h => simpa [node, h] using notes_buildHandlers dispatch join rest
termination_by children => sizeOf children

theorem notes_buildFinal : ∀ children : List Node,
    Notes (idsAll children.getLast?.toList) [] (fun w => ∀ n ∈ children.getLast?, w.Guards n.children)
      (buildFinal children)
  | [] => by
    unfold buildFinal
    exact (notes_pure []).reach (Register.monotone_guards _) fun _ _ => by simp
  | [node] => by
    unfold buildFinal
    exact ((notes_buildBlock node).drop (fun i => by simp) (by nofun)).reach (Register.monotone_guards _)
      fun w hw n hn => Option.some.inj hn ▸ hw
  | _ :: node :: rest => by
    unfold buildFinal
    rw [List.getLast?_cons_cons]
    exact notes_buildFinal (node :: rest)
termination_by children => sizeOf children

theorem notes_buildItems : ∀ children : List Node, Notes (idsAll children) (unguardedAll children)
      (fun w => ∀ n ∈ children, n.kind = .block → w.Guards n.children) (buildItems children)
  | [] => by
    unfold buildItems
    exact (notes_pure []).reach (fun _ _ hw h n hn hk => (h n hn hk).mono hw) fun _ _ => by simp
  | ⟨id, kind, span, parent, children⟩ :: rest => by
    unfold buildItems
    extract_lets node
    rw [Node.idsAll_cons]
    unfold unguardedAll
    have hmono : Monotone fun w : Register => kind = .block → w.Guards children := fun _ _ hw h hk => (h hk).mono hw
    have hitem : ∀ {act : Build Unit}, Notes node.ids node.unguarded (fun w => kind = .block → w.Guards children) act →
        Notes (node.ids ++ idsAll rest) (node.unguarded ++ unguardedAll rest)
          (fun w => ∀ n ∈ node :: rest, n.kind = .block → w.Guards n.children) (act >>= fun _ => buildItems rest) :=
      fun h => (h.andThen (notes_buildItems rest)).reach (fun _ _ hw h n hn hk => (h n hn hk).mono hw) fun w hw =>
        forall_mem_cons.2 hw
    split
    · rw [← bind_assoc]
      refine hitem (((notes_of_keeps node.ids fun w s _ hput => ?_).drop (fun _ => le_rfl) fun i hi => ?_).reach
        hmono ?_)
      · refine .andThen (notes_lowerSequence [] _ w s nofun (hput.subset fun i hi => ?_)) ?_
        · obtain ⟨n, hn, hi⟩ := Node.mem_idsAll.1 hi
          exact Node.ids_subset_of_mem (List.mem_of_head? (Option.mem_toList.1 hn)) hi
        · exact notes_push fun i hi => Option.some.inj hi ▸ hput _ node.id_mem_ids
      · exact .inl (node.unguarded_subset hi)
      · exact fun _ _ => nofun
    · refine hitem (((notes_buildBody children).drop (fun i => by simp [node, count_cons]) fun i hi => ?_).reach
        hmono fun w hw _ => hw)
      rcases mem_cons.1 (node.unguarded_subset_cons hi) with rfl | hi
      · exact .inr (by simp [node])
      · exact .inl hi
    · exact hitem (notes_throw _ hmono)
termination_by children => sizeOf children

end

/-! ## Units -/

theorem notes_buildUnit (unit : UnitInfo) (body : List Node) :
    Notes (idsAll body) (unguardedAll body) (·.Guards body) (buildUnit unit body) where
  mono _ _ hw h := h.mono hw
  carries w x rest hp := by
    unfold buildUnit
    extract_lets finish start
    have hfinish : ∀ w', w.Lowered x w' (idsAll body) (unguardedAll body) → w'.Guards body →
        Carries Kept w' ⟨x, rest⟩ (finish ⟨⟩) fun _ w'' s => s = ⟨x, rest⟩ ∧
          w.Lowered x w'' (idsAll body) (unguardedAll body) ∧ w''.Guards body := by
      intro w' hlowered hguards
      refine Carries.get.giving fun b w₁ hw₁ hb => ?_
      refine (notes_jump (hb.free _ mem_cons_self)).imp fun _ w₂ s hw₂ hs => ?_
      exact ⟨hs, hlowered.mono (hw₁.trans hw₂), hguards.mono (hw₁.trans hw₂)⟩
    have hstart : Carries Kept w ⟨x, idsAll body ++ rest⟩ (start ⟨⟩) fun _ w' s => s = ⟨x, rest⟩ ∧
        w.Lowered x w' (idsAll body) (unguardedAll body) ∧ w'.Guards body := by
      refine (notes_buildBody body).giving le_rfl hp fun w₁ hw₁ hlowered hguards => ?_
      split
      · exact .andThen (notes_push nofun) (hfinish w₁ hlowered hguards)
      · exact hfinish w₁ hlowered hguards
    split
    · split
      · exact .andThen (notes_push nofun) hstart
      · exact hstart
    · exact hstart

end Builder

def Register.initial : Register := ⟨List.replicate 3 ⟨[], none⟩, fun _ => none⟩

theorem Kept.initial {todo : List NodeId} (h : todo.Nodup) : Kept ⟨⟨[], none⟩, todo⟩ Register.initial {} where
  noted := by
    have hempty : ∀ c, (FlowGraph.initial.block c).successors = [] ∧ (FlowGraph.initial.block c).steps = [] := by
      rintro (_ | _ | _ | _) <;> exact ⟨rfl, rfl⟩
    have horigin : ∀ {c : BlockId} {o : Origin}, Register.initial.origins[c]? = some o → o = ⟨[], none⟩ := fun ho =>
      List.eq_of_mem_replicate (List.mem_of_getElem? ho)
    refine ⟨rfl, fun {c d} hd => ?_, fun {c o} ho => ?_, fun {c o d} _ hd => ?_, fun ho hd => ?_,
      fun ho hh => ?_, fun {c s i} hs _ => ?_⟩
    · rw [FlowGraph.successors, (hempty c).1] at hd
      cases hd
    · rw [horigin ho]
      rcases c with _ | _ | _ | _ <;> rfl
    · obtain ⟨e, he, -⟩ := hd
      rw [(hempty c).1] at he
      cases he
    · rw [horigin ho] at hd
      cases hd
    · rw [horigin ho] at hh
      cases hh
    · rw [(hempty c).2] at hs
      cases hs
  raiseExit_eq := rfl
  regions_eq := rfl
  free := forall_mem_cons.2 ⟨⟨[], rfl⟩, forall_mem_cons.2 ⟨⟨[], rfl⟩, List.forall_mem_nil _⟩⟩
  loops := List.forall_mem_nil _
  await := trivial
  here := .inl ⟨_, rfl, rfl⟩
  fresh i := List.nodup_iff_count_le_one.1 h i

theorem FlowGraph.exists_noted_of_ofUnit {policy : UnsupportedPolicy} {unit : UnitInfo} {g : FlowGraph}
    (h : FlowGraph.ofUnit policy unit = .ok g) (hbody : ∀ body ∈ unit.body, (idsAll body).Nodup) :
    ∃ w : Register, g.Noted w ∧ g.raiseExit = initial.raiseExit ∧ ∀ body ∈ unit.body, w.Guards body := by
  obtain ⟨body, x, b, hb, -, hrun, rfl⟩ := exists_run_of_ofUnit h
  have hinit : Kept ⟨⟨[], none⟩, idsAll body ++ []⟩ Register.initial {} :=
    .initial (by simpa using hbody body hb)
  obtain ⟨w, _, -, hkept, rfl, -, hguards⟩ :=
    (Builder.notes_buildUnit unit body).carries _ _ [] (Register.valid_none _ _) _ _ _ _ le_rfl hinit hrun
  refine ⟨w, hkept.noted.join (.finish b.graph _), hkept.raiseExit_eq, fun body' hbody' => ?_⟩
  exact Option.some.inj (hb.symm.trans hbody') ▸ hguards

def Step.handler? : Step → Option NodeId
  | .handle n => some n.id
  | _ => none

namespace FlowGraph

variable {g : FlowGraph} {w : Register} {b : BlockId}

/-- The block holds a step of one of the nodes with the given numbers. -/
def HoldsStepOf (g : FlowGraph) (b : BlockId) (ids : List NodeId) : Prop :=
  ∃ s ∈ (g.block b).steps, ∃ i ∈ ids, s.owner? = some i

instance (g : FlowGraph) (b : BlockId) (ids : List NodeId) : Decidable (g.HoldsStepOf b ids) :=
  inferInstanceAs (Decidable (∃ s ∈ (g.block b).steps, ∃ i ∈ ids, s.owner? = some i))

/-- The block starts a handler, and only the dispatch leads to it. -/
def StartsHandler (g : FlowGraph) (dispatch b : BlockId) (handler : NodeId) : Prop :=
  (g.block b).steps.head?.bind Step.handler? = some handler ∧
    (⟨dispatch, b, .unconditional⟩ : Edge) ∈ (g.block dispatch).successors ∧ ∀ a, b ∈ g.successors a → a = dispatch

theorem successors_of_size_le {a : BlockId} (h : g.size ≤ a) : g.successors a = [] := by
  rw [successors, block_of_size_le h]
  rfl

instance (g : FlowGraph) (dispatch b : BlockId) (handler : NodeId) : Decidable (g.StartsHandler dispatch b handler) :=
  decidable_of_iff ((g.block b).steps.head?.bind Step.handler? = some handler ∧
    (⟨dispatch, b, .unconditional⟩ : Edge) ∈ (g.block dispatch).successors ∧
      ∀ a < g.size, b ∈ g.successors a → a = dispatch) <| by
    refine and_congr_right fun _ => and_congr_right fun _ => ⟨fun h a ha => ?_, fun h a _ => h a⟩
    by_cases hlt : a < g.size
    · exact h a hlt ha
    · rw [successors_of_size_le (Nat.not_lt.1 hlt)] at ha
      cases ha

theorem Noted.startsHandler (hg : g.Noted w) {o : Origin} {dispatch : BlockId} {n : Node}
    (ho : w.origins[b]? = some o) (hhandler : o.handler = some (dispatch, n)) : g.StartsHandler dispatch b n.id := by
  obtain ⟨hedge, hhead, honly⟩ := hg.handlers ho hhandler
  exact ⟨by rw [hhead]; rfl, hedge, honly⟩

theorem Noted.mem_guards_iff (hg : g.Noted w) {o : Origin} {f : BlockId} (ho : w.origins[b]? = some o) :
    f ∈ (g.block b).guards ↔ ∃ pending, .last f pending ∈ o.regions := by
  rw [hg.guards ho, List.mem_filterMap]
  refine ⟨fun ⟨r, hr, hf⟩ => ?_, fun ⟨pending, hr⟩ => ⟨_, hr, rfl⟩⟩
  cases r with
  | handlers _ => cases hf
  | last entry pending => exact ⟨pending, Option.some.inj hf ▸ hr⟩

end FlowGraph

end PointsTo
