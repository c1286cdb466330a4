/-
  How values appear on the wire.

  `Wire` gives the JSON form of the values in replies: positions, tokens,
  outlines, chunks, environments (their visible bindings) and diagnostics.

  The values of another language may have no such form: `Encode` gives the form or
  a reason why there is none.
-/
import PhraseServer.Json
import PhraseServer.Scope

namespace PhraseServer

/-- Values with a JSON form. -/
class Wire (α : Type) where
  /-- The JSON form of a value. -/
  toJson : α → Json

open Wire (toJson)

/-- Environments that carry diagnostics of type `δ`. -/
class Diagnose (ρ : Type) (δ : outParam Type) where
  /-- What was reported for the last chunk of an environment. -/
  diagnostics : ρ → List δ

instance : Diagnose Env Diagnostic := ⟨Env.diagnostics⟩

/-! ## General forms -/

instance : Wire Bool := ⟨Json.bool⟩

instance : Wire Nat := ⟨Json.nat⟩

instance : Wire String := ⟨Json.str⟩

instance {α : Type} [Wire α] : Wire (List α) := ⟨fun xs => .arr (xs.map toJson)⟩

instance {α : Type} [Wire α] : Wire (Option α) := ⟨fun x => (x.map toJson).getD .null⟩

/-! ## Forms that may be missing -/

/-- Values with a JSON form, or a reason why they have none. -/
class Encode (α : Type) where
  /-- The JSON form of a value. -/
  encode : α → Except String Json

instance {α : Type} [Wire α] : Encode α := ⟨fun a => .ok (toJson a)⟩

/-- A list in JSON form, if each of its items has one. -/
def encodeAll {α : Type} [Encode α] (as : List α) : Except String Json :=
  (as.mapM Encode.encode).map .arr

/-- A value in JSON form, or `null`. -/
def encodeOption {α : Type} [Encode α] : Option α → Except String Json
  | none => .ok .null
  | some a => Encode.encode a

@[simp] theorem encodeAll_wire {α : Type} [Wire α] (as : List α) :
    encodeAll as = .ok (toJson as) := by
  have h : as.mapM (fun a => (.ok (toJson a) : Except String Json)) = .ok (as.map toJson) :=
    List.mapM_pure ..
  rw [encodeAll]
  exact congrArg (Except.map Json.arr) h

/-! ## Positions and targets -/

instance : Wire Position where
  toJson p := .object [("line", toJson p.line), ("col", toJson p.col), ("offset", toJson p.offset)]

instance : Wire SeekTarget where
  toJson
    | .offset n => .object [("offset", toJson n)]
    | .lineCol line col => .object [("line", toJson line), ("col", toJson col)]

/-! ## Tokens and outlines -/

instance : Wire Keyword := ⟨fun k => .str k.spelling⟩

instance : Wire TokenKind where
  toJson
    | .whitespace => .str "whitespace"
    | .ident => .str "ident"
    | .upperIdent => .str "u_ident"
    | .int => .str "int"
    | .str => .str "str"
    | .keyword word => .object [("keyword", toJson word)]
    | .symbol => .str "symbol"

instance : Wire Token where
  toJson t :=
    .object [("kind", toJson t.kind), ("text", toJson t.text), ("start", toJson t.start),
      ("end", toJson t.stop)]

instance : Wire Outline where
  toJson o := .object [("tokens", toJson o.tokens), ("opens_phrase", toJson o.opensPhrase)]

/-! ## Chunks -/

instance : Wire ModulePath := ⟨fun p => .str p.text⟩

instance : Wire ChunkKind where
  toJson
    | .let_ names recursive =>
      .object [("let", .object [("names", toJson names), ("recursive", toJson recursive)])]
    | .type names => .object [("type", .object [("names", toJson names)])]
    | .module_ name => .object [("module", .object [("name", toJson name)])]
    | .open_ path => .object [("open", .object [("path", toJson path)])]
    | .expression => .str "expression"
    | .blank => .str "blank"

instance : Wire Chunk where
  toJson c :=
    .object [("kind", toJson c.kind), ("text", toJson c.text), ("start", toJson c.start),
      ("end", toJson c.stop)]

/-! ## Environments -/

instance : Wire Namespace where
  toJson
    | .value => .str "value"
    | .type => .str "type"
    | .module_ => .str "module"

instance : Wire Binding where
  toJson b :=
    .object [("name", toJson b.name), ("namespace", toJson b.space),
      ("defined_at", toJson b.place)]

instance : Wire Env := ⟨fun env => toJson env.visible⟩

instance : Wire Diagnostic where
  toJson d :=
    .object [("message", toJson d.problem.message), ("start", toJson d.start),
      ("end", toJson d.stop)]

end PhraseServer
