/-
  File systems.

  A file system is a tree of directories and files, given by its entries.  A
  path is looked up piece by piece: every piece but the last must be a
  directory, `..` is the directory above, and a slash at the end asks for a
  directory.  A lookup fails with the error of the operating system.

  A `Host` is what a session sees of the operating system, over states `η`.
  `World` is a file system with a working directory, and `World.host` its host.
-/
import PhraseServer.Path

namespace PhraseServer

/-! ## Errors -/

/-- Why a file or directory cannot be used. -/
inductive OsError where
  | notFound
  | notDirectory
  | isDirectory
  | nameTooLong
  | nulByte
  | notUtf8
  /-- Any other error, with the text of the system. -/
  | other (text : String)
deriving DecidableEq, Repr

/-- The text of an error. -/
def OsError.message : OsError → String
  | notFound => "No such file or directory (os error 2)"
  | notDirectory => "Not a directory (os error 20)"
  | isDirectory => "Is a directory (os error 21)"
  | nameTooLong => "File name too long (os error 36)"
  | nulByte => "file name contained an unexpected NUL byte"
  | notUtf8 => "stream did not contain valid UTF-8"
  | other text => text

/-! ## Hosts -/

/-- What a session sees of the operating system. -/
structure Host (η : Type) where
  /-- The home directory of the user. -/
  home : Option Path
  /-- Whether a path leads to a file. -/
  isFile : η → Path → Bool
  /-- Makes a directory the working directory. -/
  enter : η → Path → Except OsError η

/-! ## Trees -/

/-- A place in a tree: the names up to the root, its own first. -/
abbrev Location := List (List UInt8)

/-- What stands at a place. -/
inductive Entry where
  | dir
  | file (content : List UInt8)
deriving DecidableEq, Repr

/-- A tree of directories and files; the root is always there. -/
structure FileSystem where
  entries : List (Location × Entry) := []
deriving DecidableEq, Repr

namespace FileSystem

/-- What stands at a place. -/
def entry? (fs : FileSystem) : Location → Option Entry
  | [] => some .dir
  | place => fs.entries.lookup place

/-- Makes a directory and those above it, where nothing stands yet. -/
def addDir (fs : FileSystem) : Location → FileSystem
  | [] => fs
  | name :: above =>
    let fs := fs.addDir above
    match fs.entry? (name :: above) with
    | some _ => fs
    | none => ⟨(name :: above, .dir) :: fs.entries⟩

/-- Makes a file, and the directories above it. -/
def addFile (fs : FileSystem) (place : Location) (content : List UInt8) : FileSystem :=
  ⟨(place, .file content) :: (fs.addDir place.tail).entries⟩

/-- The longest name of an entry, in bytes. -/
def maxName : Nat := 255

/-- The length that no path reaches, in bytes. -/
def pathLimit : Nat := 4096

/-- Follows the pieces of a path from a place. -/
def follow (fs : FileSystem) (place : Location) : List (List UInt8) → Except OsError Location
  | [] => .ok place
  | piece :: pieces =>
    match fs.entry? place with
    | none => .error .notFound
    | some (.file _) => .error .notDirectory
    | some .dir =>
      if piece = [dot] then fs.follow place pieces
      else if piece = [dot, dot] then fs.follow place.tail pieces
      else if maxName < piece.length then .error .nameTooLong
      else if (fs.entry? (piece :: place)).isSome then fs.follow (piece :: place) pieces
      else .error .notFound

/-- The nonempty pieces of a path. -/
def pieces (p : Path) : List (List UInt8) := (splitSlashes p.bytes).filter (!·.isEmpty)

/-- The place of a path seen from a directory, and what stands there. -/
def find (fs : FileSystem) (cwd : Location) (p : Path) : Except OsError (Location × Entry) :=
  if p.bytes.contains 0 then .error .nulByte
  else if p.bytes = [] then .error .notFound
  else if pathLimit ≤ p.bytes.length then .error .nameTooLong
  else
    match fs.follow (if p.isAbsolute then [] else cwd) (pieces p) with
    | .error e => .error e
    | .ok place =>
      match fs.entry? place with
      | none => .error .notFound
      | some (.file content) =>
        if p.bytes.getLast? = some slash then .error .notDirectory
        else .ok (place, .file content)
      | some .dir => .ok (place, .dir)

end FileSystem

/-! ## Worlds -/

/-- A file system with a working directory. -/
structure World where
  files : FileSystem := {}
  cwd : Location := []
deriving DecidableEq, Repr

namespace World

/-- Whether a path leads to a file. -/
def isFile (w : World) (p : Path) : Bool :=
  match w.files.find w.cwd p with
  | .ok (_, .file _) => true
  | _ => false

/-- Makes a directory the working directory. -/
def enter (w : World) (p : Path) : Except OsError World :=
  match w.files.find w.cwd p with
  | .ok (place, .dir) => .ok { w with cwd := place }
  | .ok (_, .file _) => .error .notDirectory
  | .error e => .error e

/-- The bytes of a file. -/
def readBytes (w : World) (p : Path) : Except OsError (List UInt8) :=
  match w.files.find w.cwd p with
  | .ok (_, .file content) => .ok content
  | .ok (_, .dir) => .error .isDirectory
  | .error e => .error e

/-- The host of a world whose user has a given home directory. -/
def host (home : Option Path) : Host World := ⟨home, World.isFile, World.enter⟩

end World

/-- Reads the bytes of a file as text. -/
def textOfBytes (bytes : Except OsError (List UInt8)) : Except OsError String :=
  match bytes with
  | .error e => .error e
  | .ok bytes =>
    match decodeUtf8 bytes with
    | .ok cs => .ok (String.ofList cs)
    | .error _ => .error .notUtf8

end PhraseServer
