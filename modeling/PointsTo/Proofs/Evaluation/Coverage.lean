import PointsTo.Evaluation.Callee
import PointsTo.Evaluation.Hint
import PointsTo.Proofs.Value.Language

/-! # Languages of programs

A language covers what a tree declares if it has the numbers and spans of all nodes that are evaluated, the words these
nodes bear, and whatever the tables of the tree refer to. What is read of a state in such a language is in it too, and
so is what operators, hints and builtins make by themselves. -/

namespace PointsTo

open List Option TypeSet

/-- The words that evaluation puts into tags by itself. -/
def Builtin.ownWords : List String :=
  exceptions ++ ["NotImplemented", "generator", "slice", "file", "object", "bytearray", "range", "enumerate", "zip",
    "map", "filter", "iterator", "reversed", "int", "float", "complex", "bool", "str", "bytes", "type",
    "dict_items", "dict_keys", "dict_values", "dict_copy"]

/-- The words that a node puts into tags and locations: attributes, parameters, and what is imported out of
modules. -/
def Node.words (n : Node) : List String :=
  match n.kind with
  | .attribute attr => [attr]
  | .param name _ _ => [name]
  | .alias name _ => [name]
  | .importFrom module => n.children.filterMap fun item => match item.kind with
    | .alias name _ => some (module ++ "." ++ name)
    | _ => none
  | _ => []

/-- A language covers declarations and the nodes that may be evaluated. -/
structure Declarations.Covered (p : Declarations) (L : Language) (known : Set Node) : Prop where
  ownWord : ∀ {w}, w ∈ Builtin.ownWords → w ∈ L.words
  part : ∀ {n}, n ≤ 255 → n ∈ L.parts
  receiver : ∀ {t : TypeTag}, t.isMethod = false → t ∈ L.receivers
  child : ∀ {n c}, n ∈ known → c ∈ n.children → c ∈ known
  id : ∀ {n}, n ∈ known → n.id ∈ L.numbers
  span : ∀ {n}, n ∈ known → n.span ∈ L.spans
  word : ∀ {n w}, n ∈ known → w ∈ n.words → w ∈ L.words
  node : ∀ d, p.tree.node d ∈ known
  scopeOf : ∀ d, p.table.scopeOf d ∈ L.numbers
  location : ∀ {d l}, p.table.get? d = some (.location l) → l.In L
  builtin : ∀ {d name}, p.table.get? d = some (.builtin name) → name ∈ L.words
  moduleNamed : ∀ {name s}, p.scopes.moduleNamed? name = some s → s ∈ L.numbers ∧ name ∈ L.words
  imported : ∀ {item name}, item ∈ known → p.importedModule? item = some name → name ∈ L.words
  definition : ∀ {s name d}, d ∈ p.scopes.definitions s name → d ∈ L.numbers
  opened : ∀ {d s}, p.scopes.scopeOf? d = some s → s ∈ L.numbers
  unitScope : ∀ u, (p.unit u).scope ∈ L.numbers
  classScope : ∀ c, (p.cls c).scope ∈ L.numbers
  instanceSite : ∀ c, (p.cls c).instanceSite.In L
  classId : ∀ {c}, c ∈ p.classes → c.id ∈ L.numbers
  classOf : ∀ {d c}, p.classOf? d = some c → c ∈ L.numbers

/-- A language covers everything that stays fixed while a block of a unit runs. -/
structure Frame.Covered (f : Frame) (L : Language) (known : Set Node) : Prop extends
    f.program.Covered L known where
  env : f.env.In L
  unitNode : f.unit.node.id ∈ L.numbers
  ownScope : f.unit.scope ∈ L.numbers
  methodOf : ∀ {c}, f.unit.methodOf = some c → c ∈ L.numbers

/-! ## What frames provide -/

namespace Frame.Covered

variable {L : Language} {known : Set Node} {f : Frame} (hf : f.Covered L known) {s : AbstractState}
include hf

theorem value (hs : s.In L) (l : Location) : (f.value s l).In L := by
  have hshared := hf.env.stored l
  unfold Frame.value
  cases l with
  | universal => trivial
  | temp node => exact in_getD (fun v hv => (hs _ v hv).2) hshared
  | var scope name =>
    dsimp only
    split
    · split
      · exact (hs.read _).join hshared
      · exact hs.read _
    · exact (hf.env.read _).join (hs.stored _)
  | _ => exact (hs.stored _).join hshared

theorem elementsIn (hs : s.In L) {v : TypeSet} (hv : v.In L) : (f.elementsIn s v).In L := by
  refine hv.flatMap fun t _ => ?_
  split
  · split
    · trivial
    · exact hf.value hs _
  · exact in_scalar _
  · exact in_scalar _
  · exact in_bottom

theorem alloc (node : NodeId) (kind : ObjKind) (hkind : kind.In L) {part : Nat} (hpart : part ≤ 255) :
    (f.alloc node kind part).In L :=
  ⟨⟨hf.span (hf.node node), hf.scopeOf node, nofun, hf.part hpart⟩, hkind⟩

theorem inst {cls : ClassId} (hcls : cls ∈ L.numbers) : (f.inst cls).In L := ⟨hf.instanceSite cls, hcls⟩

theorem generatorOf (definition : NodeId) {scope : ScopeId} (hscope : scope ∈ L.numbers) :
    (f.generatorOf definition scope).In L :=
  ⟨⟨hf.span (hf.node definition), hscope, nofun, hf.part (Nat.zero_le _)⟩, hf.ownWord (by decide)⟩

theorem collector {span : Span} (hspan : span ∈ L.spans) {scope : ScopeId} (hscope : scope ∈ L.numbers)
    (kind : ObjKind) (hkind : kind.In L) : HeapRef.In L ⟨{ span, scope }, kind⟩ :=
  ⟨⟨hspan, hscope, nofun, hf.part (Nat.zero_le _)⟩, hkind⟩

theorem location? {d : NodeId} {l : Location} (h : f.program.table.location? d = some l) : l.In L := by
  obtain ⟨r, hr, hl⟩ := bind_eq_some_iff.1 h
  cases r with
  | location l' => exact some.inj hl ▸ hf.location hr
  | builtin name => cases hl
  | unresolved name =>
    cases hl
    trivial

theorem global {module attr : String} {l : Location} (hattr : attr ∈ L.words)
    (h : f.program.moduleMember? module attr = some (.global l)) : l.In L := by
  simp only [Names.moduleMember?] at h
  split at h
  next scope hscope =>
    have hvar : (Location.var scope attr).In L := ⟨(hf.moduleNamed hscope).1, hattr⟩
    split at h
    · cases h
      exact hvar
    · split at h
      · cases h
      · cases h
        exact hvar
  next =>
    split at h
    · cases h
    · cases h

theorem submodule {module attr name : String}
    (h : f.program.moduleMember? module attr = some (.submodule name)) : name ∈ L.words := by
  simp only [Names.moduleMember?] at h
  have hdotted : ∀ {dotted}, (f.program.scopes.moduleNamed? dotted).isSome = true → dotted ∈ L.words := by
    intro dotted hsome
    obtain ⟨s, hs⟩ := isSome_iff_exists.1 hsome
    exact (hf.moduleNamed hs).2
  split at h
  · split at h
    · cases h
    · split at h
      next hsome =>
        cases h
        exact hdotted hsome
      next => cases h
  · split at h
    next hsome =>
      cases h
      exact hdotted hsome
    next => cases h

theorem methodsIn {cls : ClassId} {name : String} {d : NodeId} (hd : d ∈ f.methodsIn cls name) : d ∈ L.numbers :=
  hf.definition (mem_filter.1 hd).1

theorem childOfKind? {n c : Node} {word : String} (hn : n ∈ known) (h : n.childOfKind? word = some c) : c ∈ known :=
  hf.child hn (mem_of_find?_eq_some h)

end Frame.Covered

/-! ## Calls of functions -/

def CallArgs.In (L : Language) (a : CallArgs) : Prop := ∀ v ∈ a.values, v.In L

namespace CallArgs.In

variable {L : Language} {a : CallArgs} {v : TypeSet}

theorem positional (h : a.In L) (hv : v ∈ a.positional) : v.In L := h v (by simp [values, hv])

theorem keyword (h : a.In L) (hv : v ∈ a.keywords.map (·.2)) : v.In L :=
  h v (mem_append_left _ (mem_append_right _ hv))

theorem keyword? (h : a.In L) (name : String) : ((a.keyword? name).getD .bottom).In L := by
  refine in_getD (fun v hv => ?_) in_bottom
  obtain ⟨k, hk, rfl⟩ := map_eq_some_iff.1 hv
  exact h.keyword (List.mem_map_of_mem (mem_of_find?_eq_some hk))

theorem spread (h : a.In L) : (a.spread.getD .bottom).In L :=
  in_getD (fun v hv => h v (by simp [values, hv])) in_bottom

theorem first? (h : a.In L) : (a.first?.getD .bottom).In L := by
  refine in_getD (fun v hv => ?_) in_bottom
  rcases or_eq_some_iff.1 hv with hv | ⟨-, hv⟩
  · exact h.positional (mem_of_mem_head? hv)
  · exact h v (by simp [values, hv])

theorem ofPositional {vs : List TypeSet} (h : ∀ v ∈ vs, v.In L) : CallArgs.In L { positional := vs } := by
  simpa [CallArgs.In, values] using h

theorem addPositional (h : a.In L) (hv : v.In L) : (a.addPositional v).In L := by
  intro w hw
  simp only [CallArgs.addPositional, values, append_assoc, mem_append, mem_singleton] at hw
  rcases hw with hw | rfl | hw | hw
  · exact h.positional hw
  · exact hv
  · exact h.keyword hw
  · exact h w (by simp [values, mem_append, hw])

theorem addKeyword (h : a.In L) {name : String} (hv : v.In L) :
    CallArgs.In L { a with keywords := a.keywords ++ [(name, v)] } := by
  intro w hw
  simp only [values, map_append, map_cons, map_nil, append_assoc, mem_append,
    mem_singleton] at hw
  rcases hw with hw | hw | rfl | hw
  · exact h.positional hw
  · exact h.keyword hw
  · exact hv
  · exact h w (by simp [values, mem_append, hw])

theorem addSpread (h : a.In L) (hv : v.In L) : (a.addSpread v).In L := by
  intro w hw
  simp only [CallArgs.addSpread, values, append_assoc, mem_append, toList_some,
    mem_singleton] at hw
  rcases hw with hw | hw | rfl
  · exact h.positional hw
  · exact h.keyword hw
  · exact h.spread.join hv

end CallArgs.In

theorem CallArgs.in_empty {L : Language} : CallArgs.In L {} := fun v hv => by simp [values] at hv

/-- Parameters bound so far: the values still to be placed are in a language, and the parameters for those left over are
ready to take them. -/
structure Binding.In (L : Language) (ready : Span → String → Prop) (b : Binding) : Prop where
  queue : ∀ v ∈ b.queue, v.In L
  rest : ∀ span name, b.rest = some (span, name) → ready span name
  keywords : ∀ span name, b.keywords = some (span, name) → ready span name

section Copies

variable {L : Language} {known : Set Node} {f : Frame} {call : NodeId} (hcall : call ∈ L.numbers)
include hcall

theorem Frame.in_cloneTag (scope : ScopeId) {t : TypeTag} (ht : t.In L) : (f.cloneTag call scope t).In L := by
  cases t with
  | object r =>
    simp only [cloneTag]
    split
    · exact ⟨ht.site.inContext hcall, ht.kind⟩
    · exact ht
  | _ => exact ht

end Copies

theorem Frame.Covered.slotsAt {L : Language} {known : Set Node} {f : Frame} (hf : f.Covered L known)
    {s : AbstractState} (hs : s.In L) {site : AllocSite} :
    ∀ e ∈ f.slotsAt s site, e.1.site? = some site ∧ e.1.In L ∧ e.2.In L := by
  intro e he
  obtain ⟨hentry, hsite⟩ := mem_filter.1 he
  refine ⟨beq_iff_eq.1 hsite, ?_⟩
  rcases mem_append.1 hentry with hentry | hentry
  · exact hs.of_mem_toList hentry
  · exact hf.env.of_mem_toList hentry

/-! ## Hints -/

inductive Hint.In (L : Language) : Hint → Prop
  | named (name : String) : Hint.In L (.named name)
  | optional {inner : Hint} : inner.In L → Hint.In L (.optional inner)
  | union {options : List Hint} : (∀ h ∈ options, h.In L) → Hint.In L (.union options)
  | bare {kind : ObjKind} : kind.In L → Hint.In L (.bare kind)
  | container {kind : ObjKind} {keys contents : List Hint} : kind.In L →
    Hint.In L (.container kind keys contents)

namespace Hint

variable {L : Language}

theorem in_containerNamed? {name : String} {kind : ObjKind} (h : containerNamed? name = some kind) : kind.In L := by
  unfold containerNamed? at h
  split at h
  · exact some.inj h ▸ trivial
  · split at h
    · exact some.inj h ▸ trivial
    · split at h
      · exact some.inj h ▸ trivial
      · split at h
        · exact some.inj h ▸ trivial
        · cases h

theorem in_ofContainer {kind : ObjKind} (hkind : kind.In L) (read : List Char → Hint) (args : List (List Char)) :
    (ofContainer read kind args).In L := by
  unfold ofContainer
  split
  · exact .bare hkind
  · split
    · exact .container hkind
    · exact .container hkind

theorem in_ofApplication {read : List Char → Hint} (hread : ∀ cs, (read cs).In L) (name : String)
    (args : List (List Char)) : (ofApplication read name args).In L := by
  unfold ofApplication
  split
  · refine .optional ?_
    cases args with
    | nil => exact .named _
    | cons arg args => exact hread arg
  · split
    · refine .union fun h hh => ?_
      obtain ⟨cs, -, rfl⟩ := List.mem_map.1 hh
      exact hread cs
    · split
      next kind hkind => exact in_ofContainer (in_containerNamed? hkind) read args
      next => exact .named _

theorem in_read (n : Nat) (cs : List Char) : (read n cs).In L := by
  induction n generalizing cs with
  | zero => exact .named _
  | succ n ih =>
    unfold read
    extract_lets cs
    split
    · refine .union fun h hh => ?_
      obtain ⟨cs', -, rfl⟩ := List.mem_map.1 hh
      exact ih cs'
    · split
      · exact in_ofApplication ih _ _
      · exact in_ofApplication ih _ _

theorem in_ofString (text : String) : (ofString text).In L := in_read _ _

end Hint

namespace Frame.Covered

variable {L : Language} {known : Set Node} {f : Frame}

theorem namedValue (hf : f.Covered L known) (name : String) : (f.namedValue name).In L := by
  unfold Frame.namedValue
  split
  next v hv =>
    unfold ofScalarName? at hv
    split at hv
    all_goals first
      | obtain rfl := some.inj hv
        simp [TypeTag.In]
      | cases hv
  next =>
    split
    next c hc =>
      have hmem : c ∈ f.program.classes := Array.mem_toList_iff.1 (mem_of_find?_eq_some hc)
      exact in_single.2 (hf.inst (hf.classId hmem))
    next => trivial

mutual

theorem hintInside (hf : f.Covered L known) : ∀ hint : Hint, (f.hintInside hint).In L
  | .named name => by
    rw [Frame.hintInside]
    exact hf.namedValue name
  | .optional inner => by
    rw [Frame.hintInside]
    exact (hintInside hf inner).join (in_scalar _)
  | .union options => by
    rw [Frame.hintInside]
    exact hintsInside hf options
  | .bare kind => by
    rw [Frame.hintInside]
    trivial
  | .container kind keys contents => by
    rw [Frame.hintInside]
    trivial

theorem hintsInside (hf : f.Covered L known) : ∀ hints : List Hint, (f.hintsInside hints).In L
  | [] => by
    rw [Frame.hintsInside]
    exact in_bottom
  | hint :: rest => by
    rw [Frame.hintsInside]
    exact (hintInside hf hint).join (hintsInside hf rest)

end

end Frame.Covered

/-! ## Operators -/

def Outcome.In (L : Language) : Outcome → Prop
  | .tags v => v.In L
  | .concat kind => kind.In L
  | .repeated r => r.In L
  | .method _ _ | .raises => True

namespace TypeTag

variable {L : Language}

theorem in_ofNumericRank (n : Nat) : (ofNumericRank n).In L := by
  unfold ofNumericRank
  split <;> trivial

theorem in_numericOutcome (op : BinaryOp) (l r : TypeTag) (rank : Nat) : (numericOutcome op l r rank).In L := by
  have hrank : ∀ n, (Outcome.single (ofNumericRank n)).In L := fun n =>
    in_single.2 (in_ofNumericRank n)
  have hint : ∀ c : Bool, (if c then Outcome.single .int else .raises).In L := fun c => by
    cases c
    · trivial
    · exact in_scalar _
  have hbits : (if rank == 0 then Outcome.single .bool
      else if l.isIntegral && r.isIntegral then .single .int else .raises).In L := by
    split
    · exact in_scalar _
    · exact hint _
  have hfloor : (if rank < 3 then Outcome.single (ofNumericRank (max rank 1)) else .raises).In L := by
    split
    · exact hrank _
    · trivial
  cases op with
  | add | sub | mul | div => exact hrank _
  | floorDiv | mod => exact hfloor
  | pow =>
    simp only [numericOutcome]
    split
    · simp [Outcome.In, TypeTag.In]
    · simp [Outcome.In, TypeTag.In, in_ofNumericRank]
  | bitAnd | bitOr | bitXor => exact hbits
  | lShift | rShift => exact hint _
  | matMul => trivial

theorem in_containerOutcome (op : BinaryOp) (l r : ObjKind) : (containerOutcome op l r).In L := by
  unfold containerOutcome
  split <;> trivial

theorem in_repetition {many count : TypeTag} (hmany : many.In L) {o : Outcome}
    (h : repetition many count = some o) : o.In L := by
  unfold repetition at h
  split at h
  · cases h
  · split at h
    · exact some.inj h ▸ in_scalar _
    · exact some.inj h ▸ in_scalar _
    · exact some.inj h ▸ hmany
    · exact some.inj h ▸ hmany
    · cases h

variable {l r : TypeTag} (hl : l.In L) (hr : r.In L)
include hl hr

theorem in_plainOutcome (op : BinaryOp) : (plainOutcome op l r).In L := by
  unfold plainOutcome
  split
  · exact in_containerOutcome op _ _
  · exact in_scalar _
  · exact in_scalar _
  · exact in_scalar _
  · exact in_scalar _
  · cases h : (repetition l r).or (repetition r l) with
    | none => trivial
    | some o =>
      rcases or_eq_some_iff.1 h with h | ⟨-, h⟩
      · exact in_repetition hl h
      · exact in_repetition hr h
  · trivial

theorem in_binary (op : BinaryOp) : (TypeTag.binary op l r).In L := by
  unfold TypeTag.binary
  split
  · trivial
  · trivial
  · split
    · exact in_numericOutcome op _ _ _
    · exact in_plainOutcome hl hr op

omit hl hr

theorem in_unary (op : UnaryOp) (t : TypeTag) : (TypeTag.unary op t).In L := by
  unfold TypeTag.unary
  split
  · exact in_scalar _
  · split
    · trivial
    · split
      · exact in_scalar _
      · trivial
    · exact in_single.2 (in_ofNumericRank _)
    · trivial

end TypeTag

theorem Frame.Covered.attributeIn? {L : Language} {known : Set Node} {f : Frame} (hf : f.Covered L known)
    {s : AbstractState} (hs : s.In L) {attr : String} (hattr : attr ∈ L.words) {receiver : Option TypeTag}
    (hreceiver : ∀ t ∈ receiver, t ∈ L.receivers ∧ t.In L) {cls : ClassId} {v : TypeSet}
    (h : f.attributeIn? s attr receiver cls = some v) : v.In L := by
  simp only [Frame.attributeIn?] at h
  split at h
  · cases h
  · cases h
    refine TypeSet.In.join ?_ (((hf.value hs _).without _).flatMap fun t ht => ?_)
    · split
      next r =>
        split
        · exact in_bottom
        · obtain ⟨hflat, hr⟩ := hreceiver r rfl
          exact in_single.2 ⟨hflat, hr, hattr⟩
      next =>
        refine in_ofList.2 fun t ht => ?_
        obtain ⟨d, hd, rfl⟩ := List.mem_map.1 ht
        exact hf.methodsIn hd
    · split
      · split
        · exact in_bottom
        · exact in_single.2 ht
      · exact in_single.2 ht

/-! ## Builtins -/

def BuiltinCall.In (L : Language) : BuiltinCall → Prop
  | .returns v => v.In L
  | .collect kind => kind.In L
  | .inst name => name ∈ L.words
  | _ => True

def ScalarMethod.In (L : Language) : ScalarMethod → Prop
  | .returns v | .listOf v | .tupleOf v => v.In L

section Tables

variable {L : Language}
variable {name : String} {m : ScalarMethod}

theorem Builtin.in_call? (hwords : ∀ {w}, w ∈ ownWords → w ∈ L.words) {c : BuiltinCall}
    (h : call? name = some c) : c.In L := by
  unfold call? at h
  split at h
  any_goals obtain rfl := some.inj h
  any_goals trivial
  any_goals simp only [BuiltinCall.In]
  any_goals with_reducible exact in_scalar _
  · simp [TypeTag.In]
  any_goals exact hwords (by decide)
  · split at h
    next hname =>
      cases h
      exact hwords (mem_append_left _ (contains_iff_mem.1 hname))
    next => cases h

theorem Builtin.in_constant? (hwords : ∀ {w}, w ∈ ownWords → w ∈ L.words) {v : TypeSet}
    (h : constant? name = some v) : v.In L := by
  unfold constant? at h
  split at h
  any_goals obtain rfl := some.inj h
  any_goals with_reducible exact in_scalar _
  · exact in_single.2 (hwords (by decide))
  · cases h

theorem ScalarMethod.in_ofText? {s : Scalar} (h : ofText? (.scalar s) name = some m) : m.In L := by
  unfold ofText? at h
  split at h
  any_goals
    cases h
    exact in_scalar _
  · cases h

theorem ScalarMethod.in_ofStr? (h : ofStr? name = some m) : m.In L := by
  unfold ofStr? at h
  split at h
  any_goals
    cases h
    exact in_scalar _
  · exact in_ofText? h

theorem ScalarMethod.in_lookup? {receiver : TypeTag} (h : lookup? receiver name = some m) : m.In L := by
  have hscalar : ∀ {s : Scalar}, (some (.returns (.single (.scalar s))) : Option ScalarMethod) = some m →
      m.In L := fun h => some.inj h ▸ in_scalar _
  have hintegral : ofIntegral? name = some m → m.In L := by
    intro h
    unfold ofIntegral? at h
    split at h
    · exact hscalar h
    · exact hscalar h
    · exact hscalar h
    · cases h
  unfold lookup? at h
  split at h
  · exact in_ofStr? h
  · unfold ofBytes? at h
    split at h
    · exact hscalar h
    · exact hscalar h
    · exact in_ofText? h
  · split at h
    · exact hscalar h
    · exact hintegral h
  · exact hintegral h
  · unfold ofFloat? at h
    split at h
    · exact hscalar h
    · exact hscalar h
    · exact hscalar h
    · cases h
  · split at h
    · exact hscalar h
    · cases h
  · cases h

theorem Eval.in_typeOf (hwords : ∀ {w}, w ∈ Builtin.ownWords → w ∈ L.words) {t : TypeTag} (ht : t.In L) :
    (typeOf t).In L := by
  unfold typeOf
  split
  · exact ht.kind
  all_goals exact hwords (by decide)

end Tables

/-! ## Everything is covered -/

theorem Frame.covered_all (f : Frame) : f.Covered .all .univ where
  ownWord _ := trivial
  part _ := trivial
  receiver _ := trivial
  child _ _ := trivial
  id _ := trivial
  span _ := trivial
  word _ _ := trivial
  node _ := trivial
  scopeOf _ := trivial
  location {_ l} _ := l.in_all
  builtin _ := trivial
  moduleNamed _ := ⟨trivial, trivial⟩
  imported _ _ := trivial
  definition _ := trivial
  opened _ := trivial
  unitScope _ := trivial
  classScope _ := trivial
  instanceSite _ := AllocSite.in_all _
  classId _ := trivial
  classOf _ := trivial
  env := f.env.in_all
  unitNode := trivial
  ownScope := trivial
  methodOf _ := trivial

end PointsTo
