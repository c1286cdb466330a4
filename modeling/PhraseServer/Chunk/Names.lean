/-
  The names in a declaration.

  A `let` or `type` declaration binds a name behind its keyword and behind each
  `and` of its own: one outside every block and not between an inner `let` and
  its `in`.  In a type declaration the parameters before the name are passed
  over.  An `open` names a path of modules.

  All functions here read significant tokens, the ones behind the keyword.
-/
import PhraseServer.Token

namespace PhraseServer

/-! ## Bodies of declarations -/

/-- Where in a declaration a token stands: the number of open blocks, and of
    inner `let`s that wait for their `in`. -/
structure Body where
  depth : Nat := 0
  inner : Nat := 0
deriving DecidableEq, Repr

namespace Body

/-- The place behind a token. -/
def feed (b : Body) (t : Token) : Body :=
  if t.opensBlock then { b with depth := b.depth + 1 }
  else if t.closesBlock then { b with depth := b.depth - 1 }
  else if b.depth = 0 && t.isKeyword .let_ then { b with inner := b.inner + 1 }
  else if b.depth = 0 && t.isKeyword .in_ then { b with inner := b.inner - 1 }
  else b

/-- Whether a token is an `and` of the declaration itself. -/
def joins (b : Body) (t : Token) : Bool := b.depth = 0 && b.inner = 0 && t.isKeyword .and_

end Body

/-! ## Values -/

/-- The names bound by a `let`.  While `expecting`, the next token is the bound
    one, `rec` passed over; a pattern that is not a name binds none. -/
def letNamesFrom (b : Body) (expecting : Bool) : List Token → List String
  | [] => []
  | t :: ts =>
    if expecting && t.isKeyword .rec_ then letNamesFrom b true ts
    else
      let names := letNamesFrom (b.feed t) (b.joins t) ts
      if expecting && t.kind = .ident then t.text :: names else names

/-- The names bound by a `let`, from the tokens behind it. -/
def letNames (ts : List Token) : List String := letNamesFrom {} true ts

/-! ## Types -/

/-- What a type declaration waits for. -/
inductive TypeHead where
  /-- The type's name, parameters passed over. -/
  | name
  /-- The name of a quoted parameter. -/
  | parameter
  /-- Nothing: inside the definition. -/
  | none
deriving DecidableEq, Repr

/-- The names bound by a `type`.  A quote passes over the token behind it, and
    so does a block; the first other token is the type's name. -/
def typeNamesFrom (b : Body) (head : TypeHead) : List Token → List String
  | [] => []
  | t :: ts =>
    match head with
    | .none => typeNamesFrom (b.feed t) (if b.joins t then .name else .none) ts
    | .parameter =>
      if t.isSymbol "'" then typeNamesFrom b .parameter ts else typeNamesFrom b .name ts
    | .name =>
      if t.isSymbol "'" then typeNamesFrom b .parameter ts
      else if b.depth = 0 && !t.opensBlock then
        let names := typeNamesFrom (b.feed t) (if b.joins t then .name else .none) ts
        if t.kind = .ident then t.text :: names else names
      else typeNamesFrom (b.feed t) .name ts

/-- The names bound by a `type`, from the tokens behind it. -/
def typeNames (ts : List Token) : List String := typeNamesFrom {} .name ts

/-! ## Module paths -/

/-- A path of modules, such as `A.B.C`. -/
structure ModulePath where
  root : String
  more : List String
deriving DecidableEq, Repr

namespace ModulePath

/-- The path with dots between its names. -/
def text (p : ModulePath) : String := String.intercalate "." (p.root :: p.more)

/-- The names that follow a name, each behind a dot. -/
def dotted : List Token → List String
  | dot :: name :: ts =>
    if dot.isSymbol "." && name.kind = .upperIdent then name.text :: dotted ts else []
  | _ => []

/-- The path behind an `open`: any number of `!`, then the longest run of
    capitalised names with dots between them. -/
def ofTokens? (ts : List Token) : Option ModulePath :=
  match ts.dropWhile (·.isSymbol "!") with
  | t :: ts => if t.kind = .upperIdent then some ⟨t.text, dotted ts⟩ else none
  | [] => none

end ModulePath

end PhraseServer
