/-
  Command lines.

  Options stand before the subcommand, as `--name value` or `--name=value`; a
  value that begins with a dash needs the second form.  An option is checked when
  the next one begins, or at the end; until then an argument that has no place
  at all is the first thing reported.

  `CommandLine.parse` reads the arguments behind the program's name.
-/
import PhraseServer.Path

namespace PhraseServer

/-! ## What a command line says -/

/-- What the program is to do. -/
inductive Command where
  /-- Answer requests. -/
  | serve
  /-- Analyse one file. -/
  | check (file : Path)
deriving DecidableEq, Repr

/-- The arguments of the program. -/
structure CommandLine where
  source : List Path := []
  build : List Path := []
  extensions : List String := []
  modules : List String := []
  config : Option Path := none
  verbose : Nat := 0
  command : Option Command := none
deriving DecidableEq, Repr

/-- The pages of help. -/
inductive HelpPage where
  | program
  | serve
  | check
  | help
deriving DecidableEq, Repr

/-- Why a command line is not run. -/
inductive UsageError where
  | help (page : HelpPage)
  | version
  /-- An unknown option, an option behind the subcommand, a surplus argument. -/
  | unknownArgument
  /-- A word that is no subcommand. -/
  | invalidSubcommand
  | missingArgument
  /-- An option without its value, or an empty path. -/
  | invalidValue
  /-- A flag with a value. -/
  | tooManyValues
  /-- An option given twice that may be given once. -/
  | argumentConflict
deriving DecidableEq, Repr

/-! ## Shapes of arguments -/

/-- The shape of an argument. -/
inductive Argument where
  /-- `--` -/
  | escape
  /-- `--name` or `--name=value` -/
  | long (name : String) (value : Option String)
  /-- A dash and letters. -/
  | short (letters : List Char)
  /-- Anything else, a lone dash included. -/
  | plain
deriving DecidableEq, Repr

/-- The shape of an argument as it is written. -/
def Argument.ofString (arg : String) : Argument :=
  match arg.toList with
  | ['-', '-'] => .escape
  | '-' :: '-' :: rest =>
    match rest.dropWhile (· ≠ '=') with
    | [] => .long (String.ofList rest) none
    | _ :: value => .long (String.ofList (rest.takeWhile (· ≠ '='))) (some (String.ofList value))
  | ['-'] => .plain
  | '-' :: letters => .short letters
  | _ => .plain

/-- The options that take a value. -/
inductive OptionName where
  | sourcePath
  | buildPath
  | extension
  | config
  | module_
deriving DecidableEq, Repr

/-- The option with a given name. -/
def OptionName.ofString? (name : String) : Option OptionName :=
  [("source-path", sourcePath), ("build-path", buildPath), ("extension", extension),
    ("config", config), ("module", module_)].lookup name

/-- The flags, which take no value. -/
inductive Flag where
  | verbose
  | help
  | version
deriving DecidableEq, Repr

/-- The flag with a given long name. -/
def Flag.ofString? (name : String) : Option Flag :=
  [("verbose", verbose), ("help", help), ("version", version)].lookup name

/-- The flag with a given letter. -/
def Flag.ofChar? (c : Char) : Option Flag :=
  [('v', verbose), ('h', help), ('V', version)].lookup c

/-! ## Options -/

/-- The largest count of `-v`. -/
def maxVerbose : Nat := 255

/-- A command line under way: what it says so far, and the last option with its
    value, if that was not checked yet. -/
structure Progress where
  line : CommandLine := {}
  pending : Option (OptionName × Option String) := none
deriving DecidableEq, Repr

/-- Adds the value of an option to a command line. -/
def CommandLine.assign (line : CommandLine) (name : OptionName) (value : String) :
    Except UsageError CommandLine :=
  match name with
  | .extension => .ok { line with extensions := line.extensions ++ [value] }
  | .module_ => .ok { line with modules := line.modules ++ [value] }
  | .sourcePath =>
    if value = "" then .error .invalidValue
    else .ok { line with source := line.source ++ [.ofText value] }
  | .buildPath =>
    if value = "" then .error .invalidValue
    else .ok { line with build := line.build ++ [.ofText value] }
  | .config =>
    if line.config.isSome then .error .argumentConflict
    else if value = "" then .error .invalidValue
    else .ok { line with config := some (.ofText value) }

namespace Progress

/-- Checks the pending option. -/
def settle (p : Progress) : Except UsageError CommandLine :=
  match p.pending with
  | none => .ok p.line
  | some (_, none) => .error .invalidValue
  | some (name, some value) => p.line.assign name value

/-- Whether the next plain argument is a value. -/
def awaitsValue (p : Progress) : Bool :=
  match p.pending with
  | some (_, none) => true
  | _ => false

/-- Gives the pending option its value. -/
def giveValue (p : Progress) (value : String) : Progress :=
  { p with pending := p.pending.map fun (name, _) => (name, some value) }

/-- Obeys a flag. -/
def flag (p : Progress) (f : Flag) : Except UsageError Progress :=
  match p.settle with
  | .error e => .error e
  | .ok line =>
    match f with
    | .verbose => .ok { line := { line with verbose := min (line.verbose + 1) maxVerbose } }
    | .help => .error (.help .program)
    | .version => .error .version

/-- Obeys the letters of a short argument in turn. -/
def letters (p : Progress) : List Char → Except UsageError Progress
  | [] => .ok p
  | c :: cs =>
    match Flag.ofChar? c with
    | none => .error .unknownArgument
    | some f =>
      match p.flag f with
      | .error e => .error e
      | .ok p => p.letters cs

/-- Obeys a long argument. -/
def long (p : Progress) (name : String) (value : Option String) : Except UsageError Progress :=
  match OptionName.ofString? name with
  | some option =>
    match p.settle with
    | .error e => .error e
    | .ok line =>
      match value with
      | none => .ok { line, pending := some (option, none) }
      | some value => (line.assign option value).map fun line => { line }
  | none =>
    match Flag.ofString? name with
    | none => .error .unknownArgument
    | some f => if value.isSome then .error .tooManyValues else p.flag f

end Progress

/-! ## Subcommands -/

/-- The words that stand for subcommands. -/
def subcommands : List (String × HelpPage) :=
  [("serve", .serve), ("check", .check), ("help", .help)]

/-- What comes of an option behind a subcommand: only `help` is known there, and
    a fault in what was read before comes first. -/
def subcommandOption (page : HelpPage) (fault : Option UsageError) : Argument → UsageError
  | .long name value =>
    if name ≠ "help" then .unknownArgument
    else if value.isSome then .tooManyValues
    else fault.getD (.help page)
  | .short ('h' :: _) => fault.getD (.help page)
  | _ => .unknownArgument

/-- Reads the arguments of `serve`: it takes none. -/
def parseServe : List String → Except UsageError Command
  | [] => .ok .serve
  | arg :: args =>
    match Argument.ofString arg with
    | .escape => if args.isEmpty then .ok .serve else .error .unknownArgument
    | shape => .error (subcommandOption .serve none shape)

/-- What is wrong with the file that `check` is to analyse. -/
def fileFault? (file : Option String) : Option UsageError :=
  if file = some "" then some .invalidValue else none

/-- Reads the arguments of `check`: one file.  Behind `--` every argument is
    plain. -/
def parseCheck (file : Option String) (escaped : Bool) : List String → Except UsageError Command
  | [] =>
    match file with
    | none => .error .missingArgument
    | some f => if f = "" then .error .invalidValue else .ok (.check (.ofText f))
  | arg :: args =>
    match if escaped then .plain else Argument.ofString arg with
    | .escape => parseCheck file true args
    | .plain => if file.isSome then .error .unknownArgument else parseCheck (some arg) escaped args
    | shape => .error (subcommandOption .check (fileFault? file) shape)

/-- Reads the arguments of `help`: at most one subcommand. -/
def parseHelp : List String → UsageError
  | [] => .help .program
  | [name] =>
    match subcommands.lookup name with
    | some page => .help page
    | none => .invalidSubcommand
  | _ => .invalidSubcommand

/-- Reads a subcommand with its arguments, if the word names one. -/
def parseSubcommand? (word : String) (args : List String) : Option (Except UsageError Command) :=
  match subcommands.lookup word with
  | some .serve => some (parseServe args)
  | some .check => some (parseCheck none false args)
  | some .help => some (.error (parseHelp args))
  | _ => none

/-! ## The whole line -/

/-- Reads what stands behind `--`, where no argument has a place. -/
def parseEscaped (p : Progress) : List String → Except UsageError CommandLine
  | [] => p.settle
  | arg :: _ =>
    if (subcommands.lookup arg).isSome then .error .unknownArgument else .error .invalidSubcommand

/-- Reads arguments from where a command line stands. -/
def Progress.parse (p : Progress) : List String → Except UsageError CommandLine
  | [] => p.settle
  | arg :: args =>
    match if p.awaitsValue then none else parseSubcommand? arg args with
    | some command =>
      command.bind fun c => p.settle.map fun line => { line with command := some c }
    | none =>
      match Argument.ofString arg with
      | .escape => parseEscaped p args
      | .long name value => (p.long name value).bind fun p => p.parse args
      | .short letters => (p.letters letters).bind fun p => p.parse args
      | .plain =>
        if p.awaitsValue then (p.giveValue arg).parse args else .error .invalidSubcommand

/-- Reads the arguments behind the program's name. -/
def CommandLine.parse (args : List String) : Except UsageError CommandLine :=
  Progress.parse {} args

end PhraseServer
