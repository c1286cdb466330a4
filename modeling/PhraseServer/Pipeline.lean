/-
  Incremental analysis.

  The state of an analysis has four logs in step: tokens, outlines, chunks and
  environments, one for each chunk.  `extend` appends a fragment, `rewind` goes
  back to the last recoverable outline that a target admits.  Both end with the
  same resynchronisation: chunks are computed anew and the logs keep what agrees
  with them, so that only the chunks behind the first change are typed.

  What identifies a chunk in its log is its *lineage*: itself and all chunks
  before it.  An environment is reused exactly for the lineage it was made for.

  A failing stage ends an operation where it stands; a `Run` holds the state that
  is left, the outcome and the work done.
-/
import PhraseServer.Language
import PhraseServer.Log

namespace PhraseServer

/-! ## Stages and their errors -/

/-- The stages of an analysis. -/
inductive Stage where
  | lexer
  | outliner
  | chunker
  | typer
deriving DecidableEq, Repr

/-- The name of a stage. -/
def Stage.name : Stage → String
  | lexer => "lexer"
  | outliner => "outliner"
  | chunker => "chunker"
  | typer => "typer"

/-- An error with the stage that raised it. -/
structure StageError (ε : Type) where
  stage : Stage
  cause : ε
deriving DecidableEq, Repr

/-- A stage adds nothing to the text of its error. -/
instance {ε : Type} [ToString ε] : ToString (StageError ε) := ⟨fun e => toString e.cause⟩

/-! ## Entries of the logs -/

/-- Where an entry ends and what it is: entries are ordered by their ends, the
    tag only tells apart entries with one end. -/
structure Mark (α : Type) where
  offset : Nat
  tag : α
deriving DecidableEq, Repr

instance {α : Type} : LT (Mark α) := ⟨fun a b => a.offset < b.offset⟩

instance {α : Type} : DecidableLT (Mark α) := fun a b =>
  inferInstanceAs (Decidable (a.offset < b.offset))

/-- A chunk and all chunks before it, the last one first. -/
abbrev Lineage (κ : Type) := List κ

/-- A chunk with its lineage. -/
structure ChunkEntry (κ : Type) where
  chunk : κ
  lineage : Lineage κ
deriving DecidableEq, Repr

/-- An environment with the end and the lineage of the chunk it stands behind. -/
structure EnvEntry (κ ρ : Type) where
  env : ρ
  stop : Position
  lineage : Lineage κ
deriving DecidableEq, Repr

section
variable {κ ρ : Type}

/-- The mark of a chunk. -/
def ChunkEntry.mark [Spanned κ] (e : ChunkEntry κ) : Mark (Lineage κ) :=
  ⟨(Spanned.stop e.chunk).offset, e.lineage⟩

/-- The mark of an environment. -/
def EnvEntry.mark (e : EnvEntry κ ρ) : Mark (Lineage κ) := ⟨e.stop.offset, e.lineage⟩

/-- Chunks with their lineages, behind the chunks of `parent`. -/
def chained (parent : Lineage κ) : List κ → List (ChunkEntry κ)
  | [] => []
  | c :: cs => ⟨c, c :: parent⟩ :: chained (c :: parent) cs

end

/-! ## States -/

/-- The state of an analysis. -/
structure State (τ ω κ ρ : Type) where
  /-- Where the next fragment begins. -/
  position : Position := .origin
  tokens : Log τ := {}
  outlines : Log ω := {}
  chunks : Log (ChunkEntry κ) := {}
  envs : Log (EnvEntry κ ρ) := {}
deriving DecidableEq, Repr

/-- The environment behind the last chunk. -/
def State.currentEnv {τ ω κ ρ : Type} (s : State τ ω κ ρ) : Option ρ := s.envs.last?.map (·.env)

/-- What an operation leaves: the state, also after a failure, the outcome, and
    how often a chunk was typed and an outline asked whether it is recoverable. -/
structure Run (τ ω κ ρ ε α : Type) where
  state : State τ ω κ ρ
  outcome : Except (StageError ε) α
  typed : Nat := 0
  asked : Nat := 0

namespace Language

variable {τ ω κ ρ ε : Type} [Spanned τ] [Spanned ω] [Spanned κ] [DecidableEq κ]

/-! ## Resynchronisation -/

/-- Recomputes the chunks of the committed outlines and keeps the entries that
    agree.  A failing chunker changes nothing. -/
def rechunk (L : Language τ ω κ ρ ε) (s : State τ ω κ ρ) :
    Except (StageError ε) (State τ ω κ ρ) :=
  match L.chunk s.outlines.committed with
  | .error e => .error ⟨.chunker, e⟩
  | .ok chunks =>
    let fresh := Log.ofList (chained [] chunks)
    let shared := s.chunks.sync fresh ChunkEntry.mark ChunkEntry.mark
    .ok { s with
      chunks := (s.chunks.truncate shared).appendAll (fresh.committed.drop shared) }

/-- Types chunks behind an environment and appends their entries, up to the
    first failure; also counts the chunks that were typed. -/
def typeAll (L : Language τ ω κ ρ ε) (env : ρ) (log : Log (EnvEntry κ ρ)) :
    List (ChunkEntry κ) → Log (EnvEntry κ ρ) × Except (StageError ε) Unit × Nat
  | [] => (log, .ok (), 0)
  | e :: es =>
    match L.typeChunk env e.chunk with
    | .error cause => (log, .error ⟨.typer, cause⟩, 1)
    | .ok env =>
      let (log, outcome, typed) :=
        typeAll L env (log.append ⟨env, Spanned.stop e.chunk, e.lineage⟩) es
      (log, outcome, typed + 1)

/-- Keeps the environments that agree with the chunks and types the others. -/
def retype (L : Language τ ω κ ρ ε) (s : State τ ω κ ρ) : Run τ ω κ ρ ε Unit :=
  let reused := min (s.envs.sync s.chunks EnvEntry.mark ChunkEntry.mark) s.chunks.cursor
  let kept := s.envs.truncate reused
  let env := (kept.last?.map (·.env)).getD L.initialEnv
  let (envs, outcome, typed) := L.typeAll env kept (s.chunks.committed.drop reused)
  { state := { s with envs }, outcome, typed }

/-- Brings chunks and environments in step with the outlines. -/
def resync (L : Language τ ω κ ρ ε) (s : State τ ω κ ρ) : Run τ ω κ ρ ε Unit :=
  match L.rechunk s with
  | .error e => { state := s, outcome := .error e }
  | .ok s => L.retype s

/-! ## Operations -/

/-- Appends a fragment.  A text that cannot be cut into tokens and outlines
    changes nothing, and neither does an empty one. -/
def extend (L : Language τ ω κ ρ ε) (s : State τ ω κ ρ) (text : String) :
    Run τ ω κ ρ ε Unit :=
  if text = "" then { state := s, outcome := .ok () }
  else
    match L.lex s.position text with
    | .error e => { state := s, outcome := .error ⟨.lexer, e⟩ }
    | .ok tokens =>
      match L.outline s.outlines.last? tokens with
      | .error e => { state := s, outcome := .error ⟨.outliner, e⟩ }
      | .ok outlines =>
        L.resync { s with
          tokens := s.tokens.appendAll tokens
          outlines := s.outlines.appendAll outlines
          position := s.position.advance text }

/-- Whether a rewind to `target` stops behind an outline. -/
def stopsAt (L : Language τ ω κ ρ ε) (target : SeekTarget) (o : ω) : Bool :=
  target.admits (Spanned.stop o) && L.recoverable o

/-- Goes back to the last recoverable outline that the target admits, or to the
    start, and tells where that is.  The position moves last: a failure leaves it. -/
def rewind (L : Language τ ω κ ρ ε) (s : State τ ω κ ρ) (target : SeekTarget) :
    Run τ ω κ ρ ε Position :=
  let passes := fun o => !L.stopsAt target o
  let outlines := (s.outlines.rewindWhile passes).settle
  let recovered := (outlines.last?.map Spanned.stop).getD .origin
  let shared :=
    s.tokens.sync outlines (fun t => (Spanned.stop t).offset) (fun o => (Spanned.stop o).offset)
  let asked := (s.outlines.probed passes).countP fun o => target.admits (Spanned.stop o)
  let run := L.resync { s with outlines, tokens := s.tokens.truncate shared }
  match run.outcome with
  | .error e => { state := run.state, outcome := .error e, typed := run.typed, asked }
  | .ok () =>
    { state := { run.state with position := recovered }
      outcome := .ok recovered
      typed := run.typed
      asked }

end Language

end PhraseServer
