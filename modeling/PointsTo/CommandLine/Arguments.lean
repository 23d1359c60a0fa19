import PointsTo.Settings

/-! # Command-line arguments

A command is a word followed by switches and inputs in any order. A switch has a long name, perhaps a
letter, and may take a value; letters may stand together behind one dash. No switch that sets something
may be given twice, and after a double dash everything is an input. -/

namespace PointsTo.CommandLine

inductive Format where
  | human | json
deriving DecidableEq, Inhabited, Repr

namespace Format

def ofWord? : String → Option Format
  | "human" => some .human
  | "json" => some .json
  | _ => none

end Format

structure AnalyzeRequest where
  inputs : List String := []
  config : Option String := none
  format : Option Format := none
  /-- Takes the place of the order in the settings. -/
  order : Option WorklistOrder := none
  perCall : Bool := false
  sequential : Bool := false
  expressions : Bool := false
  strict : Bool := false
deriving DecidableEq, Inhabited, Repr

structure GraphRequest where
  inputs : List String := []
  unit : Option String := none
deriving DecidableEq, Inhabited, Repr

inductive Command where
  | analyze (request : AnalyzeRequest)
  | graphs (request : GraphRequest)
  | settings
  | version
  | help
deriving DecidableEq, Inhabited, Repr

/-- What a switch does. A switch that refuses its use makes the arguments invalid. -/
inductive Switch (σ : Type) where
  | plain (set : σ → Option σ)
  | valued (set : String → σ → Option σ)
  /-- Ends the reading of arguments with a command. -/
  | instead (command : Command)

structure Grammar (σ : Type) where
  long? : String → Option (Switch σ)
  letter? : Char → Option (Switch σ)
  input : String → σ → Option σ

inductive Reading (σ : Type) where
  | done (value : σ)
  | instead (command : Command)
  | refused

namespace Reading

variable {σ τ : Type}

def ofOption : Option σ → Reading σ
  | some s => .done s
  | none => .refused

def andThen (r : Reading σ) (next : σ → Reading τ) : Reading τ :=
  match r with
  | .done s => next s
  | .instead c => .instead c
  | .refused => .refused

def command? (r : Reading σ) (make : σ → Option Command) : Option Command :=
  match r with
  | .done s => make s
  | .instead c => some c
  | .refused => none

end Reading

namespace Grammar

variable {σ : Type} (g : Grammar σ)

/-- Whether an argument is a switch; a single dash is an input. -/
def isSwitch (arg : String) : Bool :=
  match arg.toList with
  | '-' :: _ :: _ => true
  | _ => false

/-- Reads the letters behind one dash. The last one may leave its value to the next argument. -/
def readLetters (s : σ) : List Char → Reading (σ × Option (String → σ → Option σ))
  | [] => .done (s, none)
  | c :: rest =>
    match g.letter? c with
    | some (.plain set) => match set s with
      | some s => readLetters s rest
      | none => .refused
    | some (.valued set) => match rest with
      | [] => .done (s, some set)
      | '=' :: value => (Reading.ofOption (set (String.ofList value) s)).andThen fun s => .done (s, none)
      | value => (Reading.ofOption (set (String.ofList value) s)).andThen fun s => .done (s, none)
    | some (.instead command) => .instead command
    | none => .refused

/-- Reads a long name with the value that may stand behind an equals sign. -/
def readLong (s : σ) (text : List Char) : Reading (σ × Option (String → σ → Option σ)) :=
  let name := String.ofList (text.takeWhile (· != '='))
  match g.long? name, text.dropWhile (· != '=') with
  | some (.plain set), [] => (Reading.ofOption (set s)).andThen fun s => .done (s, none)
  | some (.valued set), [] => .done (s, some set)
  | some (.valued set), _ :: value =>
    (Reading.ofOption (set (String.ofList value) s)).andThen fun s => .done (s, none)
  | some (.instead command), [] => .instead command
  | _, _ => .refused

def readSwitch (s : σ) (arg : String) : Reading (σ × Option (String → σ → Option σ)) :=
  match arg.toList with
  | '-' :: '-' :: name => g.readLong s name
  | '-' :: letters => g.readLetters s letters
  | _ => .refused

def read (s : σ) : List String → Reading σ
  | [] => .done s
  | arg :: rest =>
    if arg = "--" then .ofOption (rest.foldlM (fun s input => g.input input s) s)
    else if isSwitch arg then
      match g.readSwitch s arg, rest with
      | .done (s, none), rest => read s rest
      | .done (s, some set), value :: rest =>
        if isSwitch value then .refused
        else match set value s with
          | some s => read s rest
          | none => .refused
      | .done (_, some _), [] => .refused
      | .instead command, _ => .instead command
      | .refused, _ => .refused
    else match g.input arg s with
      | some s => read s rest
      | none => .refused

end Grammar

section Switches

variable {σ : Type}

/-- A switch that every command has: more log messages, as often as one likes, or help. -/
def common? : String → Option (Switch σ)
  | "verbose" => some (.plain some)
  | "help" => some (.instead .help)
  | _ => none

def commonLetter? : Char → Option (Switch σ)
  | 'v' => common? "verbose"
  | 'h' => common? "help"
  | _ => none

def once (isSet : σ → Bool) (set : σ → σ) : Switch σ := .plain fun s => if isSet s then none else some (set s)

def onceWith {α : Type} (get : σ → Option α) (read : String → Option α) (set : α → σ → σ) : Switch σ :=
  .valued fun text s => if (get s).isSome then none else (read text).map fun a => set a s

def path? (text : String) : Option String := if text.isEmpty then none else some text

end Switches

def orderOfWord? : String → Option WorklistOrder
  | "rpo" => some .reversePostorder
  | "fifo" => some .fifo
  | "lifo" => some .lifo
  | _ => none

namespace AnalyzeRequest

def long? : String → Option (Switch AnalyzeRequest)
  | "config" => some (onceWith (·.config) path? fun path r => { r with config := some path })
  | "format" => some (onceWith (·.format) Format.ofWord? fun f r => { r with format := some f })
  | "order" => some (onceWith (·.order) orderOfWord? fun o r => { r with order := some o })
  | "per-call" => some (once (·.perCall) fun r => { r with perCall := true })
  | "sequential" => some (once (·.sequential) fun r => { r with sequential := true })
  | "expressions" => some (once (·.expressions) fun r => { r with expressions := true })
  | "strict" => some (once (·.strict) fun r => { r with strict := true })
  | name => common? name

def letter? : Char → Option (Switch AnalyzeRequest)
  | 'c' => long? "config"
  | 'f' => long? "format"
  | c => commonLetter? c

def grammar : Grammar AnalyzeRequest :=
  ⟨long?, letter?, fun text r => (path? text).map fun path => { r with inputs := r.inputs ++ [path] }⟩

def command? (r : AnalyzeRequest) : Option Command := if r.inputs.isEmpty then none else some (.analyze r)

def override (r : AnalyzeRequest) (s : Settings) : Settings :=
  { s with
    order := r.order.getD s.order
    granularity := if r.perCall then .perCall else s.granularity
    parallel := s.parallel && !r.sequential }

end AnalyzeRequest

namespace GraphRequest

def long? : String → Option (Switch GraphRequest)
  | "unit" => some (onceWith (·.unit) some fun unit r => { r with unit := some unit })
  | name => common? name

def letter? : Char → Option (Switch GraphRequest)
  | 'u' => long? "unit"
  | c => commonLetter? c

def grammar : Grammar GraphRequest :=
  ⟨long?, letter?, fun text r => (path? text).map fun path => { r with inputs := r.inputs ++ [path] }⟩

def command? (r : GraphRequest) : Option Command := if r.inputs.isEmpty then none else some (.graphs r)

end GraphRequest

def bareGrammar : Grammar Unit := ⟨common?, commonLetter?, fun _ _ => none⟩

def frontGrammar : Grammar Unit where
  long? name := if name = "version" then some (.instead .version) else common? name
  letter? c := if c = 'V' then some (.instead .version) else commonLetter? c
  input _ _ := none

def commandWords : List String := ["analyze", "cfg", "config", "help"]

def helpOn? : List String → Option Command
  | [] => some .help
  | [word] => if commandWords.contains word then some .help else none
  | _ => none

def commandOf? : List String → Option Command
  | "analyze" :: args => (AnalyzeRequest.grammar.read {} args).command? AnalyzeRequest.command?
  | "cfg" :: args => (GraphRequest.grammar.read {} args).command? GraphRequest.command?
  | "config" :: args => (bareGrammar.read () args).command? fun _ => some .settings
  | "help" :: words => helpOn? words
  | _ => none

/-- Reads a command line; nothing if it is invalid. -/
def parse? (args : List String) : Option Command :=
  let front := args.takeWhile Grammar.isSwitch
  (frontGrammar.read () front).command? fun _ =>
    if front.contains "--" then none else commandOf? (args.drop front.length)

end PointsTo.CommandLine
