/-
  The program as a whole.

  `serve`, the default, answers requests from the input until it ends; `check`
  analyses a file in one go and prints a line for each diagnostic.  A program
  ends with a status, the text of its output and that of its error.
-/
import PhraseServer.Session
import PhraseServer.Settings

namespace PhraseServer

/-! ## Help -/

/-- The text of a page of help. -/
def HelpPage.text : HelpPage → String
  | program => String.intercalate "\n"
    ["Incremental phrase analysis over line-delimited JSON",
      "",
      "Usage: strata [OPTIONS] [COMMAND]",
      "",
      "Commands:",
      "  serve  Answer requests on stdin until it closes",
      "  check  Analyse a file and report its diagnostics",
      "  help   Print this message or the help of the given subcommand(s)",
      "",
      "Options:",
      "      --source-path <DIR>  Add a source directory (repeatable)",
      "      --build-path <DIR>   Add a build directory (repeatable)",
      "      --extension <EXT>    Module file extension tried by `which` (repeatable, replaces the defaults)",
      "      --config <FILE>      TOML file with `source_path`, `build_path` and `extensions`",
      "      --module <NAME>      Known external module accepted by `open` (repeatable, replaces the defaults)",
      "  -v, --verbose...         Verbose logging (-v debug, -vv trace)",
      "  -h, --help               Print help",
      "  -V, --version            Print version",
      ""]
  | serve => String.intercalate "\n"
    ["Answer requests on stdin until it closes",
      "",
      "Usage: strata serve",
      "",
      "Options:",
      "  -h, --help  Print help",
      ""]
  | check => String.intercalate "\n"
    ["Analyse a file and report its diagnostics",
      "",
      "Usage: strata check <FILE>",
      "",
      "Arguments:",
      "  <FILE>  File to analyse",
      "",
      "Options:",
      "  -h, --help  Print help",
      ""]
  | help => String.intercalate "\n"
    ["Print this message or the help of the given subcommand(s)",
      "",
      "Usage: strata help [COMMAND]...",
      "",
      "Arguments:",
      "  [COMMAND]...  Print help for the subcommand(s)",
      ""]

/-- The version of the program. -/
def versionText : String := "strata 0.1.0\n"

/-! ## Exits -/

/-- How the program ends. -/
structure Exit where
  status : Nat := 0
  output : String := ""
  error : Option String := none
deriving DecidableEq, Repr

namespace Exit

/-- The text of an error and its causes. -/
def errorText (context : String) : (causes : List String) → String
  | [] => "Error: " ++ context
  | [cause] => "Error: " ++ context ++ "\n\nCaused by:\n    " ++ cause
  | causes =>
    let lines := causes.mapIdx fun i cause => "    " ++ toString i ++ ": " ++ cause
    "Error: " ++ context ++ "\n\nCaused by:\n" ++ String.intercalate "\n" lines

/-- The end after an error. -/
def failed (context : String) (causes : List String) : Exit :=
  { status := 1, error := some (errorText context causes) }

/-- The end after a command line that is not run. -/
def ofUsage : UsageError → Exit
  | .help page => { output := page.text }
  | .version => { output := versionText }
  | _ => { status := 2, error := some "Error: usage" }

end Exit

/-! ## Checking a file -/

/-- The line printed for a diagnostic of a file. -/
def diagnosticLine (file : Path) (d : Diagnostic) : String :=
  file.lossy ++ ":" ++ toString d.start.line ++ ":" ++ toString d.start.col ++ ": "
    ++ d.problem.message ++ "\n"

/-- Checks a file with a given text.  The status tells whether there are
    diagnostics; an error of the analysis is printed for its stage and for
    itself. -/
def checkText (known : List String) (file : Path) (text : Except OsError String) : Exit :=
  match text with
  | .error e => .failed ("cannot read " ++ file.lossy) [e.message]
  | .ok text =>
    let run := (phraseLanguage known).extend {} text
    match run.outcome with
    | .error e => .failed ("cannot analyse " ++ file.lossy) [toString e, toString e.cause]
    | .ok () =>
      let found : List Diagnostic := Session.diagnostics run.state
      { status := if found.isEmpty then 0 else 1
        output := String.join (found.map (diagnosticLine file)) }

/-! ## Serving -/

/-- Serves an input with given settings from a working directory. -/
def serveInput {η : Type} (explain : List Char → String) (settings : Settings) (host : Host η)
    (os : η) (cwd : Path) (sink : Sink) (input : List UInt8) :
    Loop.Result (η × Session Token Outline Chunk Env) :=
  Loop.run explain (Session.call (phraseLanguage settings.modules) host) sink
    ⟨(os, Session.start settings.search cwd), 0⟩ input

/-- Runs the program in a world, whose working directory is `cwd`. -/
def runProgram (explain : List Char → String) (home : Option Path) (world : World) (cwd : Path)
    (args : List String) (input : List UInt8) : Exit :=
  match CommandLine.parse args with
  | .error e => .ofUsage e
  | .ok line =>
    let read := fun p => textOfBytes (world.readBytes p)
    match Settings.load home cwd read ConfigFile.parse line with
    | .error e => .failed e.message []
    | .ok settings =>
      match line.command.getD .serve with
      | .serve =>
        let result :=
          serveInput explain settings (World.host home) world cwd Sink.reliable input
        { output := result.output }
      | .check file => checkText settings.modules file (read file)

end PhraseServer
