import PointsTo.Evaluation.Machine

/-! # Calls of functions

A call writes its arguments into the parameters of the callee and takes what the callee has returned
so far. When objects are told apart by call, what the callee allocates is copied for each call.
Iteration is a call too, where the value is an instance with methods of its own. -/

namespace PointsTo

structure CallArgs where
  positional : List TypeSet := []
  keywords : List (String × TypeSet) := []
  /-- Values whose position is unknown. -/
  spread : Option TypeSet := none

namespace CallArgs

instance : Inhabited CallArgs := ⟨{}⟩

def values (a : CallArgs) : List TypeSet := a.positional ++ a.keywords.map (·.2) ++ a.spread.toList

/-- The first argument, or one that may be the first. -/
def first? (a : CallArgs) : Option TypeSet := a.positional.head?.or a.spread

def keyword? (a : CallArgs) (name : String) : Option TypeSet :=
  (a.keywords.find? (·.1 == name)).map (·.2)

def addPositional (a : CallArgs) (v : TypeSet) : CallArgs := { a with positional := a.positional ++ [v] }

def addSpread (a : CallArgs) (v : TypeSet) : CallArgs :=
  { a with spread := some ((a.spread.getD .bottom).join v) }

end CallArgs

structure Binding where
  queue : List TypeSet
  consumed : List String := []
  /-- Span and name of the parameter for the positional values left over. -/
  rest : Option (Span × String) := none
  /-- Span and name of the parameter for the keywords left over. -/
  keywords : Option (Span × String) := none

namespace Frame

variable (f : Frame)

def methodsIn (cls : ClassId) (name : String) : List NodeId :=
  (f.program.scopes.definitions (f.program.cls cls).scope name).filter fun d =>
    (f.program.tree.kind d).isFunctionDef

/-- The definitions of a method in the first class that has one, in lookup order. -/
def methodDefs (cls : ClassId) (name : String) : List NodeId :=
  (((f.program.mro cls).map fun c => f.methodsIn c name).find? fun ds => !ds.isEmpty).getD []

/-- Whether an object is copied for each call of a function with the given scope. -/
def isLocal (scope : ScopeId) (r : HeapRef) : Bool :=
  r.site.context.isNone && (TypeTag.object r).instanceOf?.isNone &&
    f.program.scopes.isWithin r.site.scope scope

def cloneTag (call : NodeId) (scope : ScopeId) : TypeTag → TypeTag
  | .object r => .object (if f.isLocal scope r then ⟨r.site.inContext call, r.kind⟩ else r)
  | t => t

def cloneSet (call : NodeId) (scope : ScopeId) (v : TypeSet) : TypeSet :=
  v.flatMap fun t => .single (f.cloneTag call scope t)

def localSites (scope : ScopeId) (v : TypeSet) : List AllocSite :=
  (v.objects.filter (f.isLocal scope)).map (·.site)

/-- All entries that can be read: those of the state, then those published. -/
def entries (s : AbstractState) : List (Location × TypeSet) := s.toList ++ f.env.toList

def slotsAt (s : AbstractState) (site : AllocSite) : List (Location × TypeSet) :=
  (f.entries s).filter fun e => e.1.site? == some site

/-- Enough for any copy: each object is copied inside those whose slots lead to it. -/
def copyDepth (s : AbstractState) : Nat := (f.entries s).length + 1

end Frame

namespace Eval

variable (f : Frame)

section Copies

variable (call : NodeId) (scope : ScopeId) (copy : TypeSet → List AllocSite → Eval (TypeSet × List AllocSite))

/-- Fills slots of a copy, one after the other, with copies of what the original holds. -/
def copySlots (site : AllocSite) : List (Location × TypeSet) → List AllocSite → Eval (List AllocSite)
  | [], cloned => pure cloned
  | (l, stored) :: slots, cloned => do
    let (stored, cloned) ← copy stored cloned
    writeSlot f (l.rebased site) stored
    copySlots site slots cloned

/-- Copies the slots of a local object, unless the object is copied already or is being copied. -/
def copyObject (cloned : List AllocSite) : TypeTag → Eval (List AllocSite)
  | .object r => do
    if f.isLocal scope r && !cloned.contains r.site then
      copySlots f copy (r.site.inContext call) (f.slotsAt (← get).state r.site) (r.site :: cloned)
    else return cloned
  | _ => return cloned

def copyTags : List TypeTag → TypeSet → List AllocSite → Eval (TypeSet × List AllocSite)
  | [], copied, cloned => return (copied, cloned)
  | t :: ts, copied, cloned => do
    let cloned ← copyObject f call scope copy cloned t
    copyTags ts (copied.insert (f.cloneTag call scope t)) cloned

end Copies

/-- Copies a value for a call, with the local objects in it and in their slots. `cloned` has the sites of those that are
copied already or are being copied. -/
def rebase (call : NodeId) (scope : ScopeId) : Nat → TypeSet → List AllocSite → Eval (TypeSet × List AllocSite)
  | 0, v, cloned => return (v, cloned)
  | depth + 1, v, cloned =>
    if v.isTop then return (.top, cloned)
    else copyTags f call scope (rebase call scope depth) v.toList .bottom cloned

/-- Copies a returned value for a call, where objects are told apart by call. -/
def contextualize (call : NodeId) (scope : ScopeId) (v : TypeSet) : Eval TypeSet := do
  if f.granularity = .perCall then
    return (← rebase f call scope (f.copyDepth (← get).state) v []).1
  else return v

section Binding

variable (scope : ScopeId) (args : CallArgs) (inline : Bool)

/-- The value of a positional parameter that is given none. -/
def defaultValue (param : Node) (v : TypeSet) : Eval TypeSet :=
  match param.children with
  | d :: _ => if inline && v.isBottom then readSlot f (.temp d.id) else pure v
  | [] => pure v

/-- Binds the parameters in order. Those after the one for the rest take keywords only. -/
def bindParams : List Node → Binding → Eval Binding
  | [], b => pure b
  | param :: params, b =>
    match param.kind with
    | .param name _ .positional => do
      let given := args.keyword? name
      let (v, queue) := if b.rest.isNone then (b.queue.headD .bottom, b.queue.tail) else (.bottom, b.queue)
      let v := (v.join (given.getD .bottom)).join (args.spread.getD .bottom)
      writeSlot f (.var scope name) (← defaultValue f inline param v)
      bindParams params { b with
        queue
        consumed := if given.isSome then name :: b.consumed else b.consumed }
    | .param name _ .varArgs => bindParams params { b with rest := some (param.span, name) }
    | .param name _ .kwArgs => bindParams params { b with keywords := some (param.span, name) }
    | _ => bindParams params b

def bindRest (b : Binding) : Eval Unit :=
  match b.rest with
  | some (span, name) => do
    let tuple : HeapRef := ⟨{ span, scope }, .tuple⟩
    writeSlot f tuple.elements ((TypeSet.joinAll b.queue).join (args.spread.getD .bottom))
    writeSlot f (.var scope name) (.single (.object tuple))
  | none => pure ()

def bindKeywords (b : Binding) : Eval Unit :=
  match b.keywords with
  | some (span, name) => do
    let dict : HeapRef := ⟨{ span, scope }, .dict⟩
    let left := (args.keywords.filter fun k => !b.consumed.contains k.1).map (·.2)
    writeSlot f dict.keys (.single .str)
    writeSlot f dict.elements ((TypeSet.joinAll left).join (args.spread.getD .bottom))
    writeSlot f (.var scope name) (.single (.object dict))
  | none => pure ()

/-- Writes arguments into the parameters of a callee. Every parameter gets an entry, so the callee can
tell that it has a caller. The body of an inlined callee reads its defaults from here. -/
def bindArguments (arguments : Node) (receiver : Option TypeTag) : Eval Unit := do
  let b ← bindParams f scope args inline arguments.children
    { queue := (receiver.map TypeSet.single).toList ++ args.positional }
  bindRest f scope args b
  bindKeywords f scope args b

end Binding

def callFunction (call definition : NodeId) (receiver : Option TypeTag) (args : CallArgs) : Eval TypeSet :=
  match f.program.unitOf? definition with
  | none => pure .top
  | some id => do
    let callee := f.program.unit id
    if f.facts.failed.contains id then giveUp call (.failedCallee callee.name)
    else
      match (f.program.tree.node definition).childOfKind? "Arguments" with
      | some arguments => bindArguments f callee.scope args false arguments receiver
      | none => pure ()
      let v ← if callee.isGenerator then
          pure (.single (.object (f.generatorOf definition callee.scope)))
        else readSlot f (.ret definition)
      contextualize f call callee.scope v

/-- A call of a method on an instance; nothing if no class defines it. -/
def callSpecial? (node : NodeId) (cls : ClassId) (receiver : TypeTag) (method : String)
    (args : CallArgs) : Eval (Option TypeSet) :=
  match f.methodDefs cls method with
  | [] => pure none
  | defs => do return some (← joinEach (fun d => callFunction f node d (some receiver) args) defs)

/-- The same, where a method that nobody defines gives nothing. -/
def callSpecial (node : NodeId) (cls : ClassId) (receiver : TypeTag) (method : String)
    (args : CallArgs) : Eval TypeSet :=
  return (← callSpecial? f node cls receiver method args).getD .bottom

def nextOf (node : NodeId) (iterator : TypeTag) : Eval TypeSet :=
  match iterator.instanceOf? with
  | some cls => callSpecial f node cls iterator "__next__" {}
  | none => elements f (.single iterator)

/-- Iterates over each tag. An iterator that may be anything ends the search. -/
def iterateTags (node : NodeId) : TypeSet → List TypeTag → Eval TypeSet
  | found, [] => pure found
  | found, t :: rest =>
    match t.instanceOf? with
    | none => do iterateTags node (found.join (← elements f (.single t))) rest
    | some cls => do
      match ← callSpecial? f node cls t "__iter__" {} with
      | none => iterateTags node found rest
      | some iterator =>
        if iterator.isTop then return .top
        else iterateTags node (found.join (← joinEach (nextOf f node) iterator.toList)) rest

def iterate (node : NodeId) (v : TypeSet) : Eval TypeSet :=
  if v.isTop then pure .top else iterateTags f node .bottom v.toList

end Eval
end PointsTo
