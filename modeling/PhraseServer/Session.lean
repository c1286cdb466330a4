/-
  Sessions.

  A session holds the analysis of one client, its search for modules and its
  working directory.  `Session.handle` serves a request: it either fails and
  changes nothing, or gives the changed session with a value.  `Session.call`
  serves a JSON value: a failing stage of the analysis becomes an exception, any
  other error a failure.
-/
import PhraseServer.FileSystem
import PhraseServer.Loop
import PhraseServer.Pipeline
import PhraseServer.Search

namespace PhraseServer

open Wire (toJson)

/-! ## Errors -/

/-- Why a request cannot be served. -/
inductive CommandError (ε : Type) where
  | request (error : RequestError)
  | moduleNotFound (name : String)
  | os (error : OsError)
  /-- The answer has no JSON form. -/
  | encoding (reason : String)
  | stage (error : StageError ε)
deriving DecidableEq, Repr

/-- The text for a module that is not found. -/
def notFoundMessage (name : String) : String := "module " ++ name ++ " not found"

/-- The reply to a request that cannot be served. -/
def CommandError.reply {ε : Type} [ToString ε] : CommandError ε → Reply
  | request e => .failure e.message
  | moduleNotFound name => .failure (notFoundMessage name)
  | os e => .failure e.message
  | encoding reason => .failure ("cannot encode result: " ++ reason)
  | stage e => .exception (toString e)

/-! ## Sessions -/

/-- The state of one client. -/
structure Session (τ ω κ ρ : Type) where
  analysis : State τ ω κ ρ := {}
  search : Search
  /-- The search at the start, for `reset`. -/
  startup : Search
  dir : Path

namespace Session

variable {τ ω κ ρ δ ε η : Type}

/-- A session at its start. -/
def start (search : Search) (dir : Path) : Session τ ω κ ρ := { search, startup := search, dir }

/-- Serves a command on a list of directories. -/
def pathCommand (home : Option Path) (s : Session τ ω κ ρ) (kind : PathKind) :
    PathCommand → Session τ ω κ ρ × Json
  | .list => (s, toJson ((s.search.dirs kind).map (·.lossy)))
  | .add dir =>
    let dirs := addDir (s.search.dirs kind) (Path.resolveDir home s.dir dir)
    ({ s with search := s.search.setDirs kind dirs }, .bool true)
  | .remove dir =>
    let dirs := removeDir (s.search.dirs kind) (Path.resolveDir home s.dir dir)
    ({ s with search := s.search.setDirs kind dirs }, .bool true)
  | .reset => ({ s with search := s.search.setDirs kind (s.startup.dirs kind) }, .bool true)

section
variable [Encode τ] [Encode ω] [Encode κ] [Encode ρ]

/-- A part of the analysis as a value. -/
def dump (s : State τ ω κ ρ) : DumpKind → Except String Json
  | .tokens => encodeAll s.tokens.committed
  | .outlines => encodeAll s.outlines.committed
  | .chunks => encodeAll (s.chunks.committed.map (·.chunk))
  | .env => encodeOption s.currentEnv
  | .sizes =>
    .ok (.object [("position", toJson s.position), ("tokens", toJson s.tokens.cursor),
      ("outlines", toJson s.outlines.cursor), ("chunks", toJson s.chunks.cursor),
      ("environments", toJson s.envs.cursor)])

end

/-- The diagnostics of all chunks, in order. -/
def diagnostics [Diagnose ρ δ] (s : State τ ω κ ρ) : List δ :=
  s.envs.committed.flatMap fun e => Diagnose.diagnostics e.env

variable [Spanned τ] [Spanned ω] [Spanned κ] [DecidableEq κ]

/-- Runs an operation of the analysis; its state counts only on success. -/
def commit {α : Type} (s : Session τ ω κ ρ) (run : Run τ ω κ ρ ε α) :
    Except (CommandError ε) (Session τ ω κ ρ × α) :=
  match run.outcome with
  | .ok a => .ok ({ s with analysis := run.state }, a)
  | .error e => .error (.stage e)

/-- An answer that changes nothing. -/
def shown (os : η) (s : Session τ ω κ ρ) (answer : Except String Json) :
    Except (CommandError ε) ((η × Session τ ω κ ρ) × Json) :=
  match answer with
  | .ok v => .ok ((os, s), v)
  | .error reason => .error (.encoding reason)

variable [Encode τ] [Encode ω] [Encode κ] [Encode ρ] [Diagnose ρ δ] [Encode δ]

/-- Serves a request on a host. -/
def handle (L : Language τ ω κ ρ ε) (host : Host η) (os : η) (s : Session τ ω κ ρ) :
    Request → Except (CommandError ε) ((η × Session τ ω κ ρ) × Json)
  | .tell text => (s.commit (L.extend s.analysis text)).map fun (s, ()) => ((os, s), .bool true)
  | .line => .ok ((os, s), toJson s.analysis.position)
  | .seek target =>
    (s.commit (L.rewind s.analysis target)).map fun (s, recovered) => ((os, s), toJson recovered)
  | .reset => .ok ((os, { s with analysis := {} }), .bool true)
  | .which name =>
    match s.search.which (host.isFile os) name with
    | some path => .ok ((os, s), .str path.lossy)
    | none => .error (.moduleNotFound name)
  | .path kind command =>
    let (s, v) := s.pathCommand host.home kind command
    .ok ((os, s), v)
  | .cd path =>
    let dir := Path.resolveDir host.home s.dir path
    match host.enter os dir with
    | .ok os => .ok ((os, { s with dir }), .bool true)
    | .error e => .error (.os e)
  | .dump kind => s.shown os (dump s.analysis kind)
  | .errors => s.shown os (encodeAll (diagnostics s.analysis))

/-- Serves a JSON value on a host. -/
def call [ToString ε] (L : Language τ ω κ ρ ε) (host : Host η) :
    Service (η × Session τ ω κ ρ) := fun (os, s) v =>
  match Request.decode v with
  | .error e => ((os, s), (CommandError.request e : CommandError ε).reply)
  | .ok request =>
    match s.handle L host os request with
    | .ok (next, v) => (next, .value v)
    | .error e => ((os, s), e.reply)

end Session

end PhraseServer
