import Buildbox.Text.Split

/-! The arguments of the command: options, then a task with arguments of its own. -/

namespace Buildbox.CommandLine

inductive TaskName where
  | run
  | transpile
  | warm
  | inspect
  deriving DecidableEq, Repr, Inhabited

inductive Topic where
  | command
  | task (name : TaskName)
  | help
  deriving DecidableEq, Repr, Inhabited

structure Options where
  verbose : Bool := false
  config : Option String := none
  assets : Option String := none
  cacheDir : Option String := none
  json : Bool := false
  deriving DecidableEq, Repr, Inhabited

inductive Task where
  | run (dir : String)
  | transpile (file : String)
  | warm
  | inspect (archive : String) (only : Option String)
  deriving DecidableEq, Repr, Inhabited

inductive Request where
  | perform (options : Options) (task : Task)
  | help (topic : Topic)
  | version
  deriving DecidableEq, Repr, Inhabited

namespace TaskName

def all : List TaskName := [run, transpile, warm, inspect]

def text : TaskName → String
  | run => "run"
  | transpile => "transpile"
  | warm => "warm"
  | inspect => "inspect"

def ofText? (s : String) : Option TaskName :=
  all.find? (·.text = s)

end TaskName

inductive Purpose where
  | flag
  | value (name : String)
  | path (name : String)
  | help
  | version
  deriving DecidableEq, Repr, Inhabited

structure OptionForm where
  long : String
  short : Option Char
  purpose : Purpose
  deriving DecidableEq, Repr, Inhabited

def OptionForm.shown (o : OptionForm) : String :=
  match o.purpose with
  | .value name | .path name => "--" ++ o.long ++ " <" ++ name ++ ">"
  | _ => "--" ++ o.long

def helpForm : OptionForm := ⟨"help", some 'h', .help⟩

namespace Topic

def options : Topic → List OptionForm
  | command =>
    [⟨"verbose", some 'v', .flag⟩, ⟨"config", some 'c', .path "CONFIG"⟩,
      ⟨"assets", none, .value "ASSETS"⟩, ⟨"cache-dir", none, .path "CACHE_DIR"⟩,
      ⟨"json", none, .flag⟩, helpForm, ⟨"version", some 'V', .version⟩]
  | task .inspect => [⟨"prefix", none, .value "PREFIX"⟩, helpForm]
  | task _ => [helpForm]
  | help => []

def operand? : Topic → Option (String × Bool)
  | task .run => some ("DIR", true)
  | task .transpile => some ("FILE", true)
  | task .inspect => some ("ARCHIVE", false)
  | _ => none

end Topic

inductive Pending where
  | option (o : OptionForm) (value : Option String)
  | operand (arg : String)
  deriving DecidableEq, Repr, Inhabited

structure Reading where
  given : List (String × String) := []
  operand : Option String := none
  pending : Option Pending := none
  deriving DecidableEq, Repr, Inhabited

inductive UsageFault where
  | unknownOption (name : String) (topic : Topic) (before : Reading) (later : List String)
  | unknownLetter (letter : Char) (topic : Topic)
  | surplus (arg : String) (topic : Topic)
  | unknownTask (word : String) (marked : Bool)
  | unknownTopic (word : String) (topic : Topic)
  | missingValue (option : String)
  | unwantedValue (value : String) (option : OptionForm) (topic : Topic) (before : Reading)
  | repeated (option : String) (topic : Topic)
  | missingArgument (topic : Topic) (before : Reading)
  | noTask
  | silence
  deriving DecidableEq, Repr, Inhabited

namespace Reading

def value? (r : Reading) (long : String) : Option String :=
  (r.given.find? (·.1 = long)).map (·.2)

def has (r : Reading) (long : String) : Bool :=
  (r.value? long).isSome

def waiting? (r : Reading) : Option OptionForm :=
  match r.pending with
  | some (.option o none) => some o
  | _ => none

def hasOperand (r : Reading) : Bool :=
  match r.pending with
  | some (.operand _) => true
  | _ => r.operand.isSome

def note (r : Reading) (topic : Topic) (o : OptionForm) (value : String) :
    Except UsageFault Reading :=
  if r.has o.long then .error (.repeated o.shown topic)
  else match o.purpose with
    | .path _ =>
      if value = "" then .error (.missingValue o.shown)
      else .ok { r with given := r.given ++ [(o.long, value)] }
    | _ => .ok { r with given := r.given ++ [(o.long, value)] }

def settle (r : Reading) (topic : Topic) : Except UsageFault Reading :=
  let settled := { r with pending := none }
  match r.pending with
  | none => .ok r
  | some (.option o none) => .error (.missingValue o.shown)
  | some (.option o (some value)) => settled.note topic o value
  | some (.operand arg) =>
    match topic.operand? with
    | some (name, true) =>
      if arg = "" then .error (.missingValue ("<" ++ name ++ ">"))
      else .ok { settled with operand := some arg }
    | _ => .ok { settled with operand := some arg }

def takeOperand (r : Reading) (topic : Topic) (marked : Bool) (arg : String) :
    Except UsageFault Reading := do
  if topic = .command then throw (.unknownTask arg marked)
  else if topic.operand?.isNone || r.hasOperand then throw (.surplus arg topic)
  else return { ← r.settle topic with pending := some (.operand arg) }

end Reading

inductive Ending where
  | complete
  | help
  | version
  | word (name : String) (rest : List String)
  deriving DecidableEq, Repr, Inhabited

inductive Progress where
  | noted (r : Reading)
  | ended (e : Ending)

def readOption (topic : Topic) (r : Reading) (o : OptionForm) (attached : Option String) :
    Except UsageFault Progress := do
  match o.purpose, attached with
  | .value _, some value | .path _, some value =>
    return .noted (← (← r.settle topic).note topic o value)
  | .value _, none | .path _, none =>
    return .noted { ← r.settle topic with pending := some (.option o none) }
  | _, some value => throw (.unwantedValue value o topic r)
  | .help, none =>
    discard <| r.settle topic
    return .ended .help
  | .version, none =>
    discard <| r.settle topic
    return .ended .version
  | .flag, none => return .noted (← (← r.settle topic).note topic o "")

def readLong (topic : Topic) (r : Reading) (text : List Char) (later : List String) :
    Except UsageFault Progress :=
  let name := String.ofList (text.takeWhile (· ≠ '='))
  let attached := match text.dropWhile (· ≠ '=') with
    | [] => none
    | _ :: value => some (String.ofList value)
  match topic.options.find? (·.long = name) with
  | some o => readOption topic r o attached
  | none => .error (.unknownOption name topic r later)

def readShort (topic : Topic) (r : Reading) : List Char → Except UsageFault Progress
  | [] => .ok (.noted r)
  | c :: rest =>
    match topic.options.find? (·.short = some c) with
    | none => .error (.unknownLetter c topic)
    | some o =>
      match o.purpose, rest with
      | .value _, _ :: _ | .path _, _ :: _ =>
        let value := match rest with
          | '=' :: value => value
          | value => value
        readOption topic r o (some (String.ofList value))
      | _, _ => do
        match ← readOption topic r o none with
        | .noted r => readShort topic r rest
        | p => return p

def endsOptions (topic : Topic) (arg : String) : Bool :=
  topic = .command && (arg = "help" || (TaskName.ofText? arg).isSome)

def readOperands (topic : Topic) (r : Reading) : List String → Except UsageFault Reading
  | [] => r.settle topic
  | arg :: rest => do readOperands topic (← r.takeOperand topic true arg) rest

def readPlain (topic : Topic) (r : Reading) (arg : String) : Except UsageFault Reading :=
  match r.waiting? with
  | some o => .ok { r with pending := some (.option o (some arg)) }
  | none => r.takeOperand topic false arg

def readArguments (topic : Topic) (r : Reading) : List String → Except UsageFault (Reading × Ending)
  | [] => do return (← r.settle topic, .complete)
  | arg :: rest => do
    if r.waiting?.isNone && endsOptions topic arg then return (r, .word arg rest)
    let progress ← match arg.toList with
      | ['-', '-'] => return (← readOperands topic r rest, .complete)
      | '-' :: '-' :: text => readLong topic r text rest
      | '-' :: c :: text => readShort topic r (c :: text)
      | _ => .noted <$> readPlain topic r arg
    match progress with
    | .noted r => readArguments topic r rest
    | .ended e => return (r, e)

def Reading.options (r : Reading) : Options where
  verbose := r.has "verbose"
  config := r.value? "config"
  assets := r.value? "assets"
  cacheDir := r.value? "cache-dir"
  json := r.has "json"

def Reading.task (r : Reading) (name : TaskName) : Except UsageFault Task :=
  match name, r.operand with
  | .run, some dir => .ok (.run dir)
  | .transpile, some file => .ok (.transpile file)
  | .warm, _ => .ok .warm
  | .inspect, some archive => .ok (.inspect archive (r.value? "prefix"))
  | name, none => .error (.missingArgument (.task name) r)

def helpTopic : List String → Except UsageFault Topic
  | [] => .ok .command
  | ["help"] => .ok .help
  | "help" :: other :: _ => .error (.unknownTopic other .help)
  | name :: rest =>
    match TaskName.ofText? name, rest with
    | some task, [] => .ok (.task task)
    | some task, other :: _ => .error (.unknownTopic other (.task task))
    | none, _ => .error (.unknownTopic name .command)

def parseTask (r : Reading) (name : TaskName) (args : List String) :
    Except UsageFault Request := do
  match ← readArguments (.task name) {} args with
  | (_, .help) => return .help (.task name)
  | (t, _) =>
    -- A fault of the task is told before one of what came before its name.
    let task ← t.task name
    return .perform (← r.settle .command).options task

def parse (args : List String) : Except UsageFault Request := do
  match ← readArguments .command {} args with
  | (_, .help) => return .help .command
  | (_, .version) => return .version
  | (r, .complete) => throw (if r.given.isEmpty then .silence else .noTask)
  | (r, .word name rest) =>
    match TaskName.ofText? name with
    | some task => parseTask r task rest
    | none => return .help (← helpTopic rest)

end Buildbox.CommandLine
