/-
  Paths.

  A path is kept as it is spelled, in bytes; only a path from a text is certain
  to be UTF-8, and `lossy` is what a client is shown of one.  Its components
  ignore repeated and trailing slashes and every `.` but a leading one; two paths
  are the same when their components are.

  `normalise` walks the components over a stack of names: a name is pushed, `..`
  pops one, stays at the root, and is kept at the head of a relative path.
  `resolveDir` expands a leading `~`, goes from a working directory and
  normalises.
-/
import PhraseServer.Text.Utf8

namespace PhraseServer

/-- The byte of a slash. -/
def slash : UInt8 := 0x2f

/-- The byte of a dot. -/
def dot : UInt8 := 0x2e

/-- A path as it is spelled. -/
structure Path where
  bytes : List UInt8
deriving DecidableEq, Repr

/-- A step of a path. -/
inductive Component where
  /-- The slash at the head of an absolute path. -/
  | root
  /-- A `.` at the head of a relative path. -/
  | here
  /-- A `..`. -/
  | up
  | name (name : List UInt8)
deriving DecidableEq, Repr

/-- Cuts bytes at slashes, empty pieces included. -/
def splitSlashes : List UInt8 → List (List UInt8)
  | [] => [[]]
  | b :: bs =>
    if b = slash then [] :: splitSlashes bs
    else
      match splitSlashes bs with
      | [] => [[b]]
      | piece :: pieces => (b :: piece) :: pieces

/-- Puts slashes between pieces. -/
def joinSlashes (pieces : List (List UInt8)) : List UInt8 := List.intercalate [slash] pieces

/-- The component of a piece between slashes; nothing and `.` are none. -/
def Component.ofPiece? (piece : List UInt8) : Option Component :=
  if piece = [] || piece = [dot] then none
  else if piece = [dot, dot] then some .up
  else some (.name piece)

namespace Path

/-! ## Texts -/

/-- The path that a text spells. -/
def ofText (text : String) : Path := ⟨encodeUtf8 text⟩

/-- What is shown of a path. -/
def lossy (p : Path) : String := String.ofList (decodeLossy p.bytes)

/-! ## Components -/

/-- Whether a path begins at the root. -/
def isAbsolute (p : Path) : Bool := p.bytes.head? = some slash

/-- The components of a path. -/
def components (p : Path) : List Component :=
  let pieces := splitSlashes p.bytes
  let head :=
    if p.isAbsolute then [Component.root]
    else if pieces.head? = some [dot] then [.here]
    else []
  head ++ pieces.filterMap Component.ofPiece?

/-- Whether two spellings have the same components. -/
def same (p q : Path) : Bool := p.components = q.components

/-! ## Joining -/

/-- `q` seen from `p`: an absolute path replaces, any other is appended behind
    one slash, unless `p` is empty or ends with one. -/
def join (p q : Path) : Path :=
  if q.isAbsolute then q
  else if p.bytes = [] || p.bytes.getLast? = some slash then ⟨p.bytes ++ q.bytes⟩
  else ⟨p.bytes ++ slash :: q.bytes⟩

/-- Drops slashes and `.` pieces at the end of a body, given backwards. -/
def trimBack : List UInt8 → List UInt8
  | [] => []
  | b :: bs =>
    if b = slash then trimBack bs
    else if b = dot then
      match bs with
      | [] => []
      | c :: rest => if c = slash then trimBack rest else b :: c :: rest
    else b :: bs

/-- A spelling cut behind the slash of an absolute path or a leading `.`. -/
def splitHead : List UInt8 → List UInt8 × List UInt8
  | [] => ([], [])
  | b :: bs =>
    if b = slash then ([slash], bs)
    else if b = dot && (bs = [] || bs.head? = some slash) then ([dot], bs)
    else ([], b :: bs)

/-- The spelling without its last component; neither the root nor the empty path
    has a parent. -/
def parent? (p : Path) : Option Path :=
  let (head, body) := splitHead p.bytes
  match trimBack body.reverse with
  | [] => if head = [dot] then some ⟨[]⟩ else none
  | back => some ⟨head ++ (trimBack (back.dropWhile (· ≠ slash))).reverse⟩

end Path

/-! ## Walking -/

/-- Where a walk stands: behind the root or behind `ups` steps up from its start,
    then on a stack of names, the last one first. -/
structure Walk where
  rooted : Bool := false
  ups : Nat := 0
  names : List (List UInt8) := []
deriving DecidableEq, Repr

namespace Walk

/-- One step of a walk. -/
def step (w : Walk) : Component → Walk
  | .root => { rooted := true }
  | .here => w
  | .name n => { w with names := n :: w.names }
  | .up =>
    match w.names with
    | _ :: names => { w with names }
    | [] => if w.rooted then w else { w with ups := w.ups + 1 }

/-- The path to where a walk stands. -/
def path (w : Walk) : Path :=
  if w.rooted then ⟨slash :: joinSlashes w.names.reverse⟩
  else
    match List.replicate w.ups [dot, dot] ++ w.names.reverse with
    | [] => ⟨[dot]⟩
    | pieces => ⟨joinSlashes pieces⟩

end Walk

namespace Path

/-- The walk along a path. -/
def walk (p : Path) : Walk := p.components.foldl Walk.step {}

/-- The path without `.`, and with `..` only at the head of a relative path. -/
def normalise (p : Path) : Path := p.walk.path

/-- Replaces a leading `~` by the home directory, if there is one. -/
def expandHome (home : Option Path) (input : String) : Path :=
  match home with
  | none => ofText input
  | some home =>
    match input.toList with
    | ['~'] => home
    | '~' :: '/' :: rest => home.join (ofText (String.ofList rest))
    | _ => ofText input

/-- The directory that a client means by `input` in the directory `cwd`. -/
def resolveDir (home : Option Path) (cwd : Path) (input : String) : Path :=
  let p := expandHome home input
  (if p.isAbsolute then p else cwd.join p).normalise

end Path

end PhraseServer
