/-
  Languages: the stages that an analysis runs.

  A language cuts text into tokens, tokens into outlines and outlines into
  chunks, and types chunks one behind the other; each stage may fail.  Some
  outlines are *recoverable*: an analysis can go on behind them.

  `phraseLanguage` is the language of this library.  `mapError`,
  `withRecoverable` and `guarded` change the errors of a language, where it
  recovers, and what it accepts.
-/
import PhraseServer.Scope
import PhraseServer.Token.Lexer

namespace PhraseServer

/-- The stages of an analysis, over tokens `τ`, outlines `ω`, chunks `κ`,
    environments `ρ` and errors `ε`. -/
structure Language (τ ω κ ρ ε : Type) where
  /-- The tokens of a text that begins at a position. -/
  lex : Position → String → Except ε (List τ)
  /-- The outlines of tokens behind an earlier outline. -/
  outline : Option ω → List τ → Except ε (List ω)
  /-- Whether the analysis can go on behind an outline. -/
  recoverable : ω → Bool := fun _ => true
  /-- The chunks of a whole list of outlines. -/
  chunk : List ω → Except ε (List κ)
  /-- The environment of an empty buffer. -/
  initialEnv : ρ
  /-- The environment behind a chunk. -/
  typeChunk : ρ → κ → Except ε ρ

namespace Language

variable {τ ω κ ρ ε ε' : Type}

/-- The same language with other errors. -/
def mapError (L : Language τ ω κ ρ ε) (f : ε → ε') : Language τ ω κ ρ ε' where
  lex p text := (L.lex p text).mapError f
  outline o ts := (L.outline o ts).mapError f
  recoverable := L.recoverable
  chunk os := (L.chunk os).mapError f
  initialEnv := L.initialEnv
  typeChunk env c := (L.typeChunk env c).mapError f

/-- The same language with other places to recover. -/
def withRecoverable (L : Language τ ω κ ρ ε) (p : ω → Bool) : Language τ ω κ ρ ε :=
  { L with recoverable := p }

/-- What a language refuses before its stages run. -/
structure Guard (τ ω κ ρ ε : Type) where
  outline : Option ω → List τ → Option ε := fun _ _ => none
  chunk : List ω → Option ε := fun _ => none
  typeChunk : ρ → κ → Option ε := fun _ _ => none

/-- The outcome of a stage behind a guard. -/
def Guard.check {α : Type} (refusal : Option ε) (stage : Except ε α) : Except ε α :=
  match refusal with
  | some e => .error e
  | none => stage

/-- The same language behind a guard. -/
def guarded (L : Language τ ω κ ρ ε) (g : Guard τ ω κ ρ ε) : Language τ ω κ ρ ε :=
  { L with
    outline := fun o ts => Guard.check (g.outline o ts) (L.outline o ts)
    chunk := fun os => Guard.check (g.chunk os) (L.chunk os)
    typeChunk := fun env c => Guard.check (g.typeChunk env c) (L.typeChunk env c) }

end Language

/-- The phrase language with a list of known modules.  Only its lexer can fail. -/
def phraseLanguage (known : List String) : Language Token Outline Chunk Env LexError where
  lex := lex
  outline o ts := .ok (outline o ts)
  chunk os := .ok (chunk os)
  initialEnv := {}
  typeChunk env c := .ok (typeChunk known env c)

end PhraseServer
