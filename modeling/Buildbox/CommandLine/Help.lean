import Buildbox.CommandLine.Arguments
import Buildbox.CommandLine.Likeness

/-! What the command says about itself, and about arguments it cannot use. -/

namespace Buildbox.CommandLine

def commandName : String := "zx-playground"

def versionText : String := commandName ++ " 0.1.0\n"

namespace Topic

def about : Topic → String
  | command => "Sandboxed ZX/Zig playground pipeline"
  | task .run => "Transpile, compile and run a project directory"
  | task .transpile => "Transpile a single .zx file and print the result"
  | task .warm => "Download and decode every toolchain asset"
  | task .inspect => "List the files of a toolchain archive"
  | help => "Print this message or the help of the given subcommand(s)"

def typed : Topic → String
  | command => commandName
  | task name => commandName ++ " " ++ name.text
  | help => commandName ++ " help"

def operands (t : Topic) : String :=
  match t, t.operand? with
  | command, _ => " <COMMAND>"
  | help, _ => " [COMMAND]..."
  | _, some (name, _) => " <" ++ name ++ ">"
  | _, none => ""

def usage (t : Topic) : String :=
  let options := if t = .command ∨ t = task .inspect then " [OPTIONS]" else ""
  "Usage: " ++ t.typed ++ options ++ t.operands

def usageWith (t : Topic) (options : List OptionForm) : String :=
  "Usage: " ++ t.typed ++ String.join (options.map fun o => " " ++ o.shown) ++ t.operands

def sections : Topic → List (String × List (String × String))
  | command =>
    [("Commands", TaskName.all.map (fun n => (n.text, about (task n))) ++ [("help", about help)]),
     ("Options",
      [("-v, --verbose", "Enable verbose output"),
       ("-c, --config <CONFIG>", "TOML configuration file"),
       ("    --assets <ASSETS>", "Asset base: a directory or an http(s) URL"),
       ("    --cache-dir <CACHE_DIR>", "Persistent download cache directory"),
       ("    --json", "Print events as JSON lines"),
       ("-h, --help", "Print help"),
       ("-V, --version", "Print version")])]
  | task .run =>
    [("Arguments", [("<DIR>", "Project directory")]), ("Options", [("-h, --help", "Print help")])]
  | task .transpile =>
    [("Arguments", [("<FILE>", "The file to transpile")]),
     ("Options", [("-h, --help", "Print help")])]
  | task .warm => [("Options", [("-h, --help", "Print help")])]
  | task .inspect =>
    [("Arguments", [("<ARCHIVE>", "Archive path relative to the asset base")]),
     ("Options",
      [("    --prefix <PREFIX>", "Only include entries under this prefix, stripped"),
       ("-h, --help", "Print help")])]
  | help => [("Arguments", [("[COMMAND]...", "Print help for the subcommand(s)")])]

end Topic

def padTo (width : Nat) (text : String) : String :=
  text ++ String.ofList (List.replicate (width - text.length) ' ')

def sectionText (title : String) (items : List (String × String)) : String :=
  let width := (items.map (·.1.length)).foldl max 0
  "\n" ++ title ++ ":\n" ++
    String.join (items.map fun (term, meaning) =>
      "  " ++ padTo width term ++ "  " ++ meaning ++ "\n")

def helpText (t : Topic) : String :=
  t.about ++ "\n\n" ++ t.usage ++ "\n" ++
    String.join (t.sections.map fun (title, items) => sectionText title items)

namespace Reading

def forms (r : Reading) (topic : Topic) : List OptionForm :=
  r.given.filterMap fun (long, _) => topic.options.find? (·.long = long)

def formsWith (r : Reading) (topic : Topic) (o : OptionForm) : List OptionForm :=
  if o ∈ r.forms topic then r.forms topic else r.forms topic ++ [o]

def withPending (r : Reading) : Reading :=
  match r.pending with
  | some (.option o (some value)) =>
    { r with given := if r.has o.long then r.given else r.given ++ [(o.long, value)] }
  | some (.operand arg) => { r with operand := some arg }
  | _ => r

end Reading

namespace Topic

def taskWords : List String :=
  TaskName.all.map TaskName.text ++ ["help"]

def longNames (t : Topic) : List String :=
  t.options.map OptionForm.long

def optionElsewhere? (name : String) (later : List String) : Option (String × String) :=
  later.findSome? fun word => do
    let task ← TaskName.ofText? word
    let option ← (likeWords (longNames (.task task)) name).getLast?
    some (word, option)

end Topic

namespace UsageFault

def hint : String := "For more information, try '--help'."

def tip (text : String) : String := "  tip: " ++ text

def passTip (topic : Topic) (arg : String) : List String :=
  if topic.operand?.isSome then
    [tip ("to pass '" ++ arg ++ "' as a value, use '-- " ++ arg ++ "'")]
  else []

def similarTip : List String → List String
  | [] => []
  | [word] => [tip ("a similar subcommand exists: '" ++ word ++ "'")]
  | words =>
    [tip ("some similar subcommands exist: " ++
      ", ".intercalate (words.map fun word => "'" ++ word ++ "'"))]

def paragraphs (texts : List String) : List String :=
  ("\n\n".intercalate texts).splitOn "\n"

def report (message : String) (tips : List String) (usage : String) : List String :=
  paragraphs (["error: " ++ message] ++ tips ++ [usage, hint])

def reportOption (name : String) (topic : Topic) (before : Reading) (later : List String) :
    List String :=
  let arg := "--" ++ name
  let report := report ("unexpected argument '" ++ arg ++ "' found")
  let before := before.withPending
  let given := before.forms topic
  let usage :=
    if given.isEmpty && before.operand.isNone then topic.usage else topic.usageWith given
  let meant := topic.options.find? fun o => some o.long = (likeWords topic.longNames name).getLast?
  match meant, topic with
  | some o, _ =>
    report [tip ("a similar argument exists: '--" ++ o.long ++ "'")]
      (topic.usageWith (before.formsWith topic o))
  | none, .command =>
    match Topic.optionElsewhere? name later with
    | some (word, option) => report [tip ("'" ++ word ++ " --" ++ option ++ "' exists")] usage
    | none => report [] usage
  | none, topic => report (passTip topic arg) usage

def lines : UsageFault → List String
  | unknownOption name topic before later => reportOption name topic before later
  | unknownLetter letter topic =>
    let arg := String.ofList ['-', letter]
    report ("unexpected argument '" ++ arg ++ "' found") (passTip topic arg) topic.usage
  | surplus arg topic => report ("unexpected argument '" ++ arg ++ "' found") [] topic.usage
  | unknownTask word marked =>
    let usage := Topic.command.usage
    if marked && Topic.taskWords.contains word then
      report ("unexpected argument '" ++ word ++ "' found")
        [tip ("subcommand '" ++ word ++ "' exists; to use it, remove the '--' before it")] usage
    else
      report ("unrecognized subcommand '" ++ word ++ "'")
        (similarTip (likeWords Topic.taskWords word)) usage
  | unknownTopic word topic =>
    let message := "unrecognized subcommand '" ++ word ++ "'"
    if topic = .help then paragraphs ["error: " ++ message, topic.usage]
    else report message [] topic.usage
  | missingValue option =>
    paragraphs ["error: a value is required for '" ++ option ++ "' but none was supplied", hint]
  | unwantedValue value option topic before =>
    report ("unexpected value '" ++ value ++ "' for '" ++ option.shown ++
      "' found; no more were expected") []
      (topic.usageWith (before.formsWith topic option))
  | repeated option topic =>
    report ("the argument '" ++ option ++ "' cannot be used multiple times") [] topic.usage
  | missingArgument topic before =>
    report ("the following required arguments were not provided:\n " ++ topic.operands) []
      (topic.usageWith (before.forms topic))
  | noTask =>
    report ("'" ++ commandName ++ "' requires a subcommand but one was not provided\n" ++
      "  [subcommands: " ++ ", ".intercalate Topic.taskWords ++ "]") [] Topic.command.usage
  | silence => ((helpText .command).splitOn "\n").dropLast

end UsageFault

end Buildbox.CommandLine
