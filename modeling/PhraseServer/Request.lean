/-
  Requests.

  A request is an array `[command, argument, …]` headed by the name of one of
  ten commands.  `Request.decode` reads a value as a request or tells which of
  three ways it fails; `Request.encode` writes a request in its shortest form.
-/
import PhraseServer.Wire

namespace PhraseServer

open Wire (toJson)

/-! ## The grammar -/

/-- The two lists of directories. -/
inductive PathKind where
  | source
  | build
deriving DecidableEq, Repr

/-- What a client does to a list of directories. -/
inductive PathCommand where
  | list
  | add (dir : String)
  | remove (dir : String)
  | reset
deriving DecidableEq, Repr

/-- What a client may look at. -/
inductive DumpKind where
  | tokens
  | outlines
  | chunks
  | env
  | sizes
deriving DecidableEq, Repr

/-- What a client may ask. -/
inductive Request where
  /-- Append a fragment. -/
  | tell (text : String)
  /-- Where does the next fragment begin? -/
  | line
  /-- Go back to a target. -/
  | seek (target : SeekTarget)
  /-- Forget the buffer. -/
  | reset
  /-- Where is a module? -/
  | which (module_ : String)
  /-- Look at or change a list of directories. -/
  | path (kind : PathKind) (command : PathCommand)
  /-- Change the working directory. -/
  | cd (path : String)
  /-- Look at a log. -/
  | dump (kind : DumpKind)
  /-- List all diagnostics. -/
  | errors
deriving DecidableEq, Repr

/-- Why a value is no request. -/
inductive RequestError where
  /-- It is no array headed by a string. -/
  | malformed
  /-- There is no command of that name. -/
  | unknownCommand (name : String)
  /-- The command takes other arguments. -/
  | invalidArguments
deriving DecidableEq, Repr

/-- The text of an error. -/
def RequestError.message : RequestError → String
  | malformed => "malformed request"
  | unknownCommand name => "unknown command: " ++ name
  | invalidArguments => "invalid arguments"

/-! ## Decoding -/

/-- Reads a target: an unsigned `offset` decides, whatever else there is;
    otherwise both `line` and `col` are needed. -/
def SeekTarget.ofJson? (v : Json) : Option SeekTarget :=
  match (v.get? "offset").bind Json.asUnsigned? with
  | some n => some (.offset n)
  | none =>
    match (v.get? "line").bind Json.asUnsigned?, (v.get? "col").bind Json.asUnsigned? with
    | some line, some col => some (.lineCol line col)
    | _, _ => none

/-- The name of a part of the state. -/
def DumpKind.name : DumpKind → String
  | tokens => "tokens"
  | outlines => "outlines"
  | chunks => "chunks"
  | env => "env"
  | sizes => "sizes"

/-- The part of the state with a name. -/
def DumpKind.ofString? (name : String) : Option DumpKind :=
  [tokens, outlines, chunks, env, sizes].find? (·.name = name)

/-- Reads what to do to a list of directories. -/
def PathCommand.decode? : List Json → Option PathCommand
  | [.str command] =>
    if command = "list" then some .list else if command = "reset" then some .reset else none
  | [.str command, .str dir] =>
    if command = "add" then some (.add dir)
    else if command = "remove" then some (.remove dir)
    else none
  | _ => none

/-- A command without arguments. -/
def noArguments (r : Request) : List Json → Option Request
  | [] => some r
  | _ => none

/-- A command with one string as argument. -/
def oneString (f : String → Option Request) : List Json → Option Request
  | [.str s] => f s
  | _ => none

/-- The commands and how each reads its arguments. -/
def commands : List (String × (List Json → Option Request)) :=
  [("tell", oneString fun text => some (.tell text)),
    ("line", noArguments .line),
    ("seek", fun
      | [target] => (SeekTarget.ofJson? target).map .seek
      | _ => none),
    ("reset", noArguments .reset),
    ("which", oneString fun m => some (.which m)),
    ("source_path", fun args => (PathCommand.decode? args).map (.path .source)),
    ("build_path", fun args => (PathCommand.decode? args).map (.path .build)),
    ("cd", oneString fun path => some (.cd path)),
    ("dump", oneString fun kind => (DumpKind.ofString? kind).map .dump),
    ("errors", noArguments .errors)]

namespace Request

/-- Reads a value as a request. -/
def decode : Json → Except RequestError Request
  | .arr (.str name :: args) =>
    match commands.lookup name with
    | none => .error (.unknownCommand name)
    | some read =>
      match read args with
      | some r => .ok r
      | none => .error .invalidArguments
  | _ => .error .malformed

/-- Whether a request may change the analysis. -/
def mutates : Request → Bool
  | tell _ | seek _ | reset => true
  | _ => false

/-! ## Encoding -/

/-- The name of a request's command. -/
def command : Request → String
  | tell _ => "tell"
  | line => "line"
  | seek _ => "seek"
  | reset => "reset"
  | which _ => "which"
  | path .source _ => "source_path"
  | path .build _ => "build_path"
  | cd _ => "cd"
  | dump _ => "dump"
  | errors => "errors"

/-- The arguments of a request. -/
def arguments : Request → List Json
  | tell s | which s | cd s => [.str s]
  | seek target => [toJson target]
  | path _ .list => [.str "list"]
  | path _ (.add dir) => [.str "add", .str dir]
  | path _ (.remove dir) => [.str "remove", .str dir]
  | path _ .reset => [.str "reset"]
  | dump kind => [.str kind.name]
  | line | reset | errors => []

/-- The shortest value that decodes to a request. -/
def encode (r : Request) : Json := .arr (.str r.command :: r.arguments)

end Request

end PhraseServer
