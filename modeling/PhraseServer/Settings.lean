/-
  Settings at the start.

  The directories of the configuration file come first, seen from the directory
  of the file, then those of the command line, seen from the working directory;
  no directory is listed twice.  Extensions and modules of the command line
  replace those of the file, which replace the defaults.
-/
import PhraseServer.CommandLine
import PhraseServer.ConfigFile
import PhraseServer.FileSystem
import PhraseServer.Scope
import PhraseServer.Search

namespace PhraseServer

/-- The settings of a session. -/
structure Settings where
  search : Search := {}
  modules : List String := defaultModules
deriving DecidableEq, Repr

/-- Why there are no settings. -/
inductive ConfigError where
  /-- The configuration file cannot be read. -/
  | io (path : Path) (error : OsError)
  /-- The configuration file has no sense. -/
  | invalid (path : Path)
deriving DecidableEq, Repr

/-- The text of an error. -/
def ConfigError.message : ConfigError → String
  | io path error => "I/O error reading " ++ path.lossy ++ ": " ++ error.message
  | invalid _ => "invalid configuration"

/-- The lists of a command line. -/
def CommandLine.layer (line : CommandLine) : Layer :=
  ⟨line.source.map (·.lossy), line.build.map (·.lossy), line.extensions, line.modules⟩

namespace Settings

/-- Puts a layer on top of settings; its directories are seen from `base`. -/
def apply (home : Option Path) (base : Path) (s : Settings) (layer : Layer) : Settings where
  search := s.search.merge
    { source := layer.source.map (Path.resolveDir home base)
      build := layer.build.map (Path.resolveDir home base)
      extensions := layer.extensions }
  modules := if layer.modules.isEmpty then s.modules else layer.modules

/-- The directory from which the lists of a configuration file are seen. -/
def baseOf (home : Option Path) (cwd : Path) (file : Path) : Path :=
  match file.parent? with
  | none => cwd
  | some dir => Path.resolveDir home cwd dir.lossy

/-- The settings of a configuration file, if there is one, and a command line. -/
def ofLayers (home : Option Path) (cwd : Path) (file : Option (Path × Layer)) (flags : Layer) :
    Settings :=
  let s : Settings :=
    match file with
    | none => {}
    | some (path, layer) => apply home (baseOf home cwd path) {} layer
  s.apply home cwd flags

/-- Reads a configuration file with a given text. -/
def readFile (parse : String → Option Layer) (path : Path) (text : Except OsError String) :
    Except ConfigError (Path × Layer) :=
  match text with
  | .error e => .error (.io path e)
  | .ok text =>
    match parse text with
    | none => .error (.invalid path)
    | some layer => .ok (path, layer)

/-- The settings of a command line; `read` gives the text of a file and `parse` the
    lists of a configuration. -/
def load (home : Option Path) (cwd : Path) (read : Path → Except OsError String)
    (parse : String → Option Layer) (line : CommandLine) : Except ConfigError Settings :=
  match line.config with
  | none => .ok (ofLayers home cwd none line.layer)
  | some path =>
    (readFile parse path (read path)).map fun file => ofLayers home cwd (some file) line.layer

end Settings

end PhraseServer
