import AtomLogic.Conversation
import AtomLogic.Settings

/-! The command line. A run is a tree of requests to its surroundings: reading a file or
the input, writing a file, talking to the user. It can be carried out in earnest, or on
files in memory. -/

namespace AtomLogic

structure Options where
  input : Option String := none
  output : Option String := none
  settings : Option String := none
  showAtoms : Bool := false
  conversation : Bool := false
deriving DecidableEq, Inhabited, Repr

inductive Command where
  | help
  | version
  | run (options : Options)
deriving DecidableEq, Inhabited, Repr

inductive UsageError where
  | missingOutput
  | missingSettings
  | unknownOption (argument : String)
  | severalInputs
  | missingInput
deriving DecidableEq, Inhabited, Repr

def UsageError.message : UsageError → String
  | missingOutput => "Missing output file after -o"
  | missingSettings => "Missing config file after -c"
  | unknownOption argument => s!"Unknown option: {argument}"
  | severalInputs => "Multiple input files specified"
  | missingInput => "Missing input file"

/-- Reads arguments from left to right. The first that is wrong, or that asks for help or
the version, decides. -/
def Command.ofArguments : List String → Options → Except UsageError Command
  | [], options => .ok (.run options)
  | "-h" :: _, _ => .ok .help
  | "--help" :: _, _ => .ok .help
  | "-v" :: _, _ => .ok .version
  | "--version" :: _, _ => .ok .version
  | "-o" :: path :: rest, options => ofArguments rest { options with output := some path }
  | "--output" :: path :: rest, options => ofArguments rest { options with output := some path }
  | "-o" :: [], _ => .error .missingOutput
  | "--output" :: [], _ => .error .missingOutput
  | "-c" :: path :: rest, options => ofArguments rest { options with settings := some path }
  | "--config" :: path :: rest, options => ofArguments rest { options with settings := some path }
  | "-c" :: [], _ => .error .missingSettings
  | "--config" :: [], _ => .error .missingSettings
  | "--sexpr" :: rest, options => ofArguments rest { options with showAtoms := true }
  | "--repl" :: rest, options => ofArguments rest { options with conversation := true }
  | argument :: rest, options =>
    if argument.front? = some '-' ∧ argument ≠ "-" then .error (.unknownOption argument)
    else if options.input.isSome then .error .severalInputs
    else ofArguments rest { options with input := some argument }

def version : String := "0.1.0"

def usage : String := "\n".intercalate [
  s!"AtomSpace v{version}",
  "",
  "USAGE:",
  "    atomspace [OPTIONS] <INPUT>",
  "",
  "OPTIONS:",
  "    -h, --help            Print this help message",
  "    -v, --version         Print version information",
  "    -o, --output <FILE>   Write output to FILE (default: stdout)",
  "    -c, --config <FILE>   Read settings from a TOML file",
  "    --sexpr               Print parsed atoms instead of evaluating",
  "    --repl                Start interactive REPL",
  "",
  "ARGUMENTS:",
  "    <INPUT>               Input file (use '-' for stdin)",
  "",
  "INPUT FORMAT:",
  "    (Human Socrates)                    added to the space",
  "    !(Mortal $x)                        evaluated; prints [results]",
  "",
  "EXAMPLES:",
  "    atomspace facts.metta",
  "    atomspace --repl -c atomspace.toml",
  "    cat facts.metta | atomspace -",
  ""]

structure Outcome where
  output : Output
  failed : Bool
deriving DecidableEq, Inhabited, Repr

/-- A run of the program, up to its next request. -/
inductive Run where
  | stop (outcome : Outcome)
  | readFile (path : String) (next : Except FileFault ByteArray → Run)
  | readInput (next : ByteArray → Run)
  | writeFile (path text : String) (next : Except FileFault Unit → Run)
  | converse (conversation : Conversation)

namespace Run

def fail (message : String) : Run := .stop ⟨.failure message,true⟩

def failUsage (error : UsageError) : Run :=
  .stop ⟨.failure error.message ++ { err := "\n" ++ usage },true⟩

def readFiles (next : List (String × Except FileFault ByteArray) → Run) : List String → Run
  | [] => next []
  | path :: paths => .readFile path fun content =>
    readFiles (fun others => next ((path,content) :: others)) paths

def deliver (options : Options) (lines : List String) : Run :=
  match options.output with
  | none => .stop ⟨.lines lines,false⟩
  | some path => .writeFile path (Output.lines lines).out fun
    | .ok _ => .stop ⟨{},false⟩
    | .error fault => fail s!"Failed to create output file '{path}': {fault.message}"

def runProgram (options : Options) (session : Session) (world : World) (text : String) : Run :=
  if options.showAtoms then
    match Text.parseAtoms text with
    | .error e => fail s!"Parse error: {e.message}"
    | .ok atoms => deliver options (atoms.map Atom.text)
  else
    match session.runText text world with
    | none => fail tooDeepMessage
    | some (.error e,_) => fail s!"Parse error: {e.message}"
    | some (.ok lines,_) => deliver options lines

def afterPrelude (options : Options) (session : Session) (world : World) : Run :=
  if options.conversation then .converse { session := session, world := world }
  else
    match options.input with
    | none => failUsage .missingInput
    | some "-" => .readInput fun bytes =>
      match decodeText bytes with
      | .error fault => fail s!"Failed to read from stdin: {fault.message}"
      | .ok text => runProgram options session world text
    | some path => .readFile path fun content =>
      match decodeContent content with
      | .error fault =>
        if fault.isNowhere then fail s!"Input file not found: {path}"
        else fail s!"Failed to read file '{path}': {fault.message}"
      | .ok text => runProgram options session world text

def withSettings (options : Options) (settings : Settings) : Run :=
  let session : Session := { interpreter := {}, maxResults := settings.maxResults }
  settings.preludePaths |> readFiles fun files =>
    match session.loadPrelude files {} with
    | none => fail tooDeepMessage
    | some (.error e,_) => fail e.message
    | some (.ok _,world) => afterPrelude options session world

def ofArguments (arguments : List String) : Run :=
  match Command.ofArguments arguments {} with
  | .error e => failUsage e
  | .ok .help => .stop ⟨{ err := usage },false⟩
  | .ok .version => .stop ⟨.lines [s!"AtomSpace {version}"],false⟩
  | .ok (.run options) =>
    match options.settings with
    | none => withSettings options {}
    | some path => .readFile path fun content =>
      match Settings.load path content with
      | .error e => fail e.message
      | .ok settings => withSettings options settings

/-- Carries out a run on files in memory, with some bytes as the input. -/
def perform (tree : FileTree) (input : ByteArray) : Run → Outcome × FileTree
  | .stop outcome => (outcome,tree)
  | .readFile path next => perform tree input (next (tree.read path))
  | .readInput next => perform tree input (next input)
  | .writeFile path text next =>
    match tree.write path text.toUTF8 with
    | .ok tree => perform tree input (next (.ok ()))
    | .error fault => perform tree input (next (.error fault))
  | .converse conversation =>
    let (output,failed) := conversation.hearAll {} (Conversation.linesOf input.toList [])
    (⟨output,failed⟩,tree)

end Run
end AtomLogic
