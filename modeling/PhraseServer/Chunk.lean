/-
  Chunks: one stretch of the buffer for each phrase.

  `chunk` joins outlines into chunks: an outline that starts a phrase begins a
  chunk, unless only trivia stand before it.  The kind of a chunk comes from its
  first significant token; a declaration has the names it binds.
-/
import PhraseServer.Outline
import PhraseServer.Chunk.Names

namespace PhraseServer

/-- What a chunk declares. -/
inductive ChunkKind where
  | let_ (names : List String) (recursive : Bool)
  | type (names : List String)
  | module_ (name : Option String)
  | open_ (path : Option ModulePath)
  | expression
  /-- Only trivia. -/
  | blank
deriving DecidableEq, Repr

/-- A phrase of the buffer with its text and span. -/
structure Chunk where
  kind : ChunkKind
  text : String
  start : Position
  stop : Position
deriving DecidableEq, Repr

namespace Chunk

instance : Spanned Chunk := ⟨Chunk.start, Chunk.stop⟩

end Chunk

/-- The kind of a phrase with given significant tokens. -/
def ChunkKind.ofTokens : List Token → ChunkKind
  | [] => .blank
  | t :: ts =>
    match t.kind with
    | .keyword .let_ => .let_ (letNames ts) ((ts.head?.map (·.isKeyword .rec_)).getD false)
    | .keyword .type => .type (typeNames ts)
    | .keyword .module_ => .module_ ((ts.find? (·.kind = .upperIdent)).map (·.text))
    | .keyword .open_ => .open_ (ModulePath.ofTokens? ts)
    | _ => .expression

/-- The chunk with given tokens. -/
def Chunk.ofTokens (first : Token) (more : List Token) : Chunk where
  kind := .ofTokens ((first :: more).filter (!·.isTrivia))
  text := String.join ((first :: more).map (·.text))
  start := first.start
  stop := (more.getLast?.getD first).stop

/-- Joins outlines behind a chunk under way, whose tokens so far are `first` and
    `more`. -/
def chunkFrom (first : Token) (more : List Token) : List Outline → List Chunk
  | [] => [.ofTokens first more]
  | o :: os =>
    if o.opensPhrase && (first :: more).any (!·.isTrivia) then
      .ofTokens first more :: chunkFrom o.first o.more os
    else chunkFrom first (more ++ o.tokens) os

/-- Joins outlines into chunks. -/
def chunk : List Outline → List Chunk
  | [] => []
  | o :: os => chunkFrom o.first o.more os

end PhraseServer
