/-
  Scopes.

  An environment holds the bindings made so far, innermost first, and what the
  last chunk was found to lack.  `typeChunk` adds the names that a chunk
  declares; opening a module that is neither known nor bound, or declaring
  without a name, is reported for that chunk alone.
-/
import PhraseServer.Chunk

namespace PhraseServer

/-! ## Bindings -/

/-- Names of values, types and modules do not meet. -/
inductive Namespace where
  | value
  | type
  | module_
deriving DecidableEq, Repr

/-- A name with the start of the chunk that declares it. -/
structure Binding where
  name : String
  space : Namespace
  place : Position
deriving DecidableEq, Repr

namespace Binding

/-- Whether a binding answers to a name. -/
def answers (b : Binding) (name : String) (space : Namespace) : Bool :=
  b.space = space && b.name = name

/-- Whether one binding hides the other. -/
def sameName (b c : Binding) : Bool := b.answers c.name c.space

end Binding

/-! ## Diagnostics -/

/-- What a chunk can lack. -/
inductive Problem where
  | unboundModule (root : String)
  | missingPath
  | missingName
deriving DecidableEq, Repr

/-- The text of a problem. -/
def Problem.message : Problem → String
  | unboundModule root => "unbound module " ++ root
  | missingPath => "expected a module path"
  | missingName => "expected a module name"

/-- A problem with the span of its chunk. -/
structure Diagnostic where
  problem : Problem
  start : Position
  stop : Position
deriving DecidableEq, Repr

/-! ## Environments -/

/-- The bindings in scope, innermost first, and the diagnostics of the last
    chunk. -/
structure Env where
  bindings : List Binding := []
  diagnostics : List Diagnostic := []
deriving DecidableEq, Repr

/-- The bindings that no earlier one of the list hides. -/
def unshadowed : List Binding → List Binding
  | [] => []
  | b :: bs => b :: (unshadowed bs).filter (!b.sameName ·)

namespace Env

/-- The bindings that are not hidden, innermost first. -/
def visible (env : Env) : List Binding := unshadowed env.bindings

/-- The innermost binding of a name. -/
def lookup (env : Env) (name : String) (space : Namespace) : Option Binding :=
  env.bindings.find? (·.answers name space)

end Env

/-! ## Typing -/

/-- The bindings that a chunk declares, in order. -/
def Chunk.declared (c : Chunk) : List Binding :=
  match c.kind with
  | .let_ names _ => names.map fun name => ⟨name, .value, c.start⟩
  | .type names => names.map fun name => ⟨name, .type, c.start⟩
  | .module_ (some name) => [⟨name, .module_, c.start⟩]
  | _ => []

/-- What a chunk lacks in an environment, with a list of known modules. -/
def Chunk.problem? (known : List String) (env : Env) (c : Chunk) : Option Problem :=
  match c.kind with
  | .module_ none => some .missingName
  | .open_ none => some .missingPath
  | .open_ (some path) =>
    if known.contains path.root || (env.lookup path.root .module_).isSome then none
    else some (.unboundModule path.root)
  | _ => none

/-- The environment behind a chunk. -/
def typeChunk (known : List String) (env : Env) (c : Chunk) : Env where
  bindings := c.declared.reverse ++ env.bindings
  diagnostics := (c.problem? known env).toList.map fun p => ⟨p, c.start, c.stop⟩

/-- The modules that are known without a declaration. -/
def defaultModules : List String :=
  ["Stdlib", "List", "Array", "String", "Printf", "Hashtbl", "Option", "Result"]

end PhraseServer
