/-
  Surveys of a file system.

  A request looks at few places of the file system, and a session tells which
  (`Session.questions`).  A survey holds the answers for them, collected before
  the request is served; its host answers from them alone.
-/
import PhraseServer.Session

namespace PhraseServer

/-- What a request asks the operating system. -/
structure Questions where
  /-- Do these paths lead to files? -/
  files : List Path := []
  /-- Can this directory be entered? -/
  dir : Option Path := none
deriving DecidableEq, Repr

/-- The answers to the questions of a request. -/
structure Survey where
  /-- The paths that lead to files. -/
  files : List Path := []
  /-- Why the directory cannot be entered. -/
  refusal : Option OsError := none
deriving DecidableEq, Repr

/-- What a session asks the operating system to serve a line. -/
def Session.questions {τ ω κ ρ : Type} (home : Option Path) (s : Session τ ω κ ρ)
    (line : List UInt8) : Questions :=
  match Inbound.ofBytes line with
  | .request v =>
    match Request.decode v with
    | .ok (.which name) => { files := s.search.candidates name }
    | .ok (.cd path) => { dir := some (Path.resolveDir home s.dir path) }
    | _ => {}
  | _ => {}

/-- The host that answers from a survey. -/
def Survey.host (home : Option Path) : Host Survey where
  home := home
  isFile survey p := survey.files.contains p
  enter survey _ :=
    match survey.refusal with
    | some e => .error e
    | none => .ok survey

end PhraseServer
