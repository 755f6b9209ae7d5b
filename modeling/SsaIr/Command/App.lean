import SsaIr.Command.Actions

/-!
# The command line

The flags and commands of the tool, and how a command line is carried out: first the flags of the
tool, then the settings, then the command with its own flags. Read `App.run` first.
-/

namespace SsaIr

namespace App

def name : String := "calir"

def version : String := "0.1.0"

/-! ## Flags -/

def helpFlag : Flag := ⟨["help", "h"], .switch, "show help"⟩

def versionFlag : Flag := ⟨["version", "v"], .switch, "print the version"⟩

def settingsFlag : Flag := ⟨["config"], .text, "TOML configuration file"⟩

def verbosityFlag : Flag :=
  ⟨["verbosity"], .integer,
    "Logging verbosity: 0=silent, 1=error, 2=warn, 3=info, 4=debug, 5=detail"⟩

def plainFlag : Flag := ⟨["nocolor"], .switch, "Disable colored terminal output"⟩

def inPlaceFlag : Flag :=
  ⟨["w"], .switch, "Write the result back to the source file instead of stdout"⟩

def stackLimitFlag : Flag :=
  ⟨["stack-limit"], .integer, "Alloca budget of a single call in bytes"⟩

def maxDepthFlag : Flag := ⟨["max-depth"], .integer, "Maximum guest call depth"⟩

def promoteFlag : Flag :=
  ⟨["mem2reg"], .switch, "Promote stack slots to registers before running"⟩

def flags : List Flag := [settingsFlag, verbosityFlag, plainFlag, helpFlag, versionFlag]

/-! ## Commands -/

inductive Verb where
  | format
  | verify
  | promote
  | run
  | count
  | listFlow
  | showSettings
  | help
deriving DecidableEq, Repr, Inhabited

/-- A command: its names, the arguments it takes, and its own flags. -/
structure Command where
  verb : Verb
  names : List String
  usage : String
  summary : String
  flags : List Flag := []
deriving DecidableEq, Repr, Inhabited

def commands : List Command :=
  [⟨.format, ["fmt"], "<file>...", "Parse modules and print them in canonical form",
      [inPlaceFlag]⟩,
    ⟨.verify, ["verify"], "<file>...", "Check modules for well-formedness", []⟩,
    ⟨.promote, ["mem2reg"], "<file>", "Promote stack slots to SSA registers", [inPlaceFlag]⟩,
    ⟨.run, ["run"], "<file> <function> [<arg>...]", "Interpret a function",
      [promoteFlag, stackLimitFlag, maxDepthFlag]⟩,
    ⟨.count, ["stats"], "<file>...", "Summarize the functions of modules", []⟩,
    ⟨.listFlow, ["dump-cfg"], "<file> [<function>]", "Print control flow and dominator tables",
      []⟩,
    ⟨.showSettings, ["dumpconfig"], "[<output>]", "Show configuration values",
      [stackLimitFlag, maxDepthFlag]⟩,
    ⟨.help, ["help", "h"], "[command]", "Shows a list of commands or help for one command", []⟩]

def command? (name : String) : Option Command := commands.find? fun c => c.names.contains name

def helpLine (names : List String) (summary : String) : String :=
  "   " ++ ", ".intercalate names ++ "  " ++ summary ++ "\n"

def helpText : String :=
  s!"USAGE:\n   {name} [global options] command [command options] [arguments...]\n\nCOMMANDS:\n"
    ++ String.join (commands.map fun c => helpLine c.names c.summary) ++ "\nGLOBAL OPTIONS:\n"
    ++ String.join (flags.map fun f => helpLine (f.names.map ("--" ++ ·)) f.help)

variable {m : Type → Type} [Monad m] [FileAccess m]

/-- The settings: the defaults, changed by the file that is named, changed by flags. -/
def settings (tool own : Flags) : Tool m Settings := do
  let path := tool.textOf settingsFlag
  let base : Settings := {}
  let s ←
    if path = "" then pure base
    else
      match base.read (← Tool.load path) with
      | .ok s => pure s
      | .error p => throw (.settings path p)
  let s : Settings :=
    { s with
      verbosity := (tool.integer? verbosityFlag).getD s.verbosity
      stackLimit := (own.integer? stackLimitFlag).getD s.stackLimit
      maxDepth := (own.integer? maxDepthFlag).getD s.maxDepth }
  if s.stackLimit ≤ 0 || s.maxDepth ≤ 0 then throw (.limits s.stackLimit s.maxDepth)
  return s

def helpOn (topic : String) : Tool m Unit := do
  if topic = "" || (command? topic).isSome then Tool.showHelp else throw (.noTopic topic)

def perform (c : Command) (tool own : Flags) : Tool m Unit := do
  let args := own.args
  let need (n : Nat) : Tool m Unit := Tool.need (c.names.headD "") c.usage n args
  match c.verb with
  | .format =>
    need 1
    Tool.formatFiles (own.isOn inPlaceFlag) args
  | .verify =>
    need 1
    Tool.verifyFiles args
  | .promote =>
    need 1
    Tool.promoteFile (own.isOn inPlaceFlag) (args.headD "")
  | .run =>
    need 2
    let s ← settings tool own
    Tool.runFunction s (own.isOn promoteFlag) (args.headD "") (args.getD 1 "") (args.drop 2)
  | .count =>
    need 1
    Tool.countFiles args
  | .listFlow =>
    need 1
    Tool.listFlow (args.headD "") (args.getD 1 "")
  | .showSettings =>
    let s ← settings tool own
    match args with
    | [] => Tool.say s.text
    | path :: _ => Tool.save path s.text
  | .help =>
    match args with
    | [] => Tool.showHelp
    | topic :: _ => helpOn topic

def run (args : List String) : Tool m Unit := do
  let (tool, problem) := Flags.read flags args
  if let some e := problem then
    Tool.showHelp
    throw (.flags e)
  if tool.isOn helpFlag then Tool.showHelp
  else if tool.isOn versionFlag then Tool.say s!"{name} version {version}\n"
  else
    try
      let _ ← settings tool {}
    catch e =>
      Tool.showHelp
      throw e
    match tool.args with
    | [] => Tool.showHelp
    | word :: rest =>
      match command? word with
      | none => helpOn word
      | some c =>
        let (own, problem) := Flags.readAnywhere (c.flags ++ [helpFlag]) rest
        if let some e := problem then
          Tool.showHelp
          throw (.flags e)
        if own.isOn helpFlag then Tool.showHelp else perform c tool own

end App

end SsaIr
