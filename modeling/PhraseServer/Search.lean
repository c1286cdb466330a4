/-
  The search for modules.

  A module is looked for in the source directories, then in the build
  directories; in a directory under each extension in turn, and under an
  extension first with a small first letter, then as it is written.
-/
import PhraseServer.Path
import PhraseServer.Request
import PhraseServer.Text.Lowercase

namespace PhraseServer

/-- Where modules are looked for. -/
structure Search where
  source : List Path := []
  build : List Path := []
  /-- Extensions without their dot. -/
  extensions : List String := ["ml", "mli"]
deriving DecidableEq, Repr

/-- Appends a directory, unless it is listed. -/
def addDir (dirs : List Path) (dir : Path) : List Path :=
  if dirs.any (·.same dir) then dirs else dirs ++ [dir]

/-- Drops a directory from a list. -/
def removeDir (dirs : List Path) (dir : Path) : List Path := dirs.filter (!·.same dir)

namespace Search

/-- A list of directories. -/
def dirs (s : Search) : PathKind → List Path
  | .source => s.source
  | .build => s.build

/-- Replaces a list of directories. -/
def setDirs (s : Search) (kind : PathKind) (dirs : List Path) : Search :=
  match kind with
  | .source => { s with source := dirs }
  | .build => { s with build := dirs }

/-- Appends the directories of another search that are not listed yet; its
    extensions replace, if there are any. -/
def merge (s other : Search) : Search where
  source := other.source.foldl addDir s.source
  build := other.build.foldl addDir s.build
  extensions := if other.extensions.isEmpty then s.extensions else other.extensions

/-! ## Lookup -/

/-- Whether a module's name can stand in a path as one component. -/
def isPlainName (name : String) : Bool :=
  name ≠ "" && name ≠ "." && name ≠ ".." && !name.toList.contains '/'

/-- The names of the files that can hold a module. -/
def fileNames (name : String) : List String :=
  let small := uncapitalise name
  if small = name then [small] else [small, name]

/-- The files that can hold a module, in the order of the search. -/
def candidates (s : Search) (name : String) : List Path :=
  (s.source ++ s.build).flatMap fun dir =>
    s.extensions.flatMap fun ext =>
      (fileNames name).map fun n => dir.join (.ofText (n ++ "." ++ ext))

/-- The first file that can hold a module. -/
def which (isFile : Path → Bool) (s : Search) (name : String) : Option Path :=
  if isPlainName name then (s.candidates name).find? isFile else none

end Search

end PhraseServer
