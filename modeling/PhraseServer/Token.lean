/-
  Tokens of the phrase language.

  A token has a kind, its text and the span it covers.  Whitespace is a token
  too (*trivia*), so the tokens of a fragment tile it.  Brackets and
  `struct`/`sig`/`begin` open a block, their partners close it; a *terminal*
  token can end an expression.
-/
import PhraseServer.Position

namespace PhraseServer

/-! ## Keywords -/

/-- Reserved words. -/
inductive Keyword where
  | let_ | rec_ | and_ | in_ | type | module_ | open_ | fun_ | if_ | then_ | else_ | match_
  | with_ | struct | sig | begin_ | end_
deriving DecidableEq, Repr

namespace Keyword

/-- Every reserved word. -/
def all : List Keyword :=
  [.let_, .rec_, .and_, .in_, .type, .module_, .open_, .fun_, .if_, .then_, .else_, .match_,
    .with_, .struct, .sig, .begin_, .end_]

/-- How a reserved word is written. -/
def spelling : Keyword → String
  | let_ => "let"
  | rec_ => "rec"
  | and_ => "and"
  | in_ => "in"
  | type => "type"
  | module_ => "module"
  | open_ => "open"
  | fun_ => "fun"
  | if_ => "if"
  | then_ => "then"
  | else_ => "else"
  | match_ => "match"
  | with_ => "with"
  | struct => "struct"
  | sig => "sig"
  | begin_ => "begin"
  | end_ => "end"

/-- The reserved word with a given spelling. -/
def ofString? (word : String) : Option Keyword := all.find? (·.spelling = word)

/-- Whether the word begins a top-level declaration. -/
def opensPhrase : Keyword → Bool
  | let_ | type | module_ | open_ => true
  | _ => false

theorem ofString?_spelling (k : Keyword) : ofString? k.spelling = some k := by
  cases k <;> decide

theorem spelling_of_ofString? {word : String} {k : Keyword} (h : ofString? word = some k) :
    k.spelling = word := by
  simpa using List.find?_some h

end Keyword

/-! ## Tokens -/

/-- The class of a token. -/
inductive TokenKind where
  | whitespace
  /-- A word that begins with a small letter or an underscore. -/
  | ident
  /-- A word that begins with a capital letter. -/
  | upperIdent
  | int
  | str
  | keyword (word : Keyword)
  /-- Brackets, commas, semicolons and operators. -/
  | symbol
deriving DecidableEq, Repr

/-- A lexeme with its class and span. -/
structure Token where
  kind : TokenKind
  text : String
  start : Position
  stop : Position
deriving DecidableEq, Repr

namespace Token

instance : Spanned Token := ⟨Token.start, Token.stop⟩

/-- Whitespace carries no meaning. -/
def isTrivia (t : Token) : Bool := t.kind = .whitespace

/-- Whether the token is a given reserved word. -/
def isKeyword (t : Token) (word : Keyword) : Bool := t.kind = .keyword word

/-- Whether the token is a given symbol. -/
def isSymbol (t : Token) (symbol : String) : Bool := t.kind = .symbol && t.text = symbol

/-- Whether the token opens a block. -/
def opensBlock (t : Token) : Bool :=
  match t.kind with
  | .keyword .struct | .keyword .sig | .keyword .begin_ => true
  | .symbol => t.text = "(" || t.text = "[" || t.text = "\x7b"
  | _ => false

/-- Whether the token closes a block. -/
def closesBlock (t : Token) : Bool :=
  match t.kind with
  | .keyword .end_ => true
  | .symbol => t.text = ")" || t.text = "]" || t.text = "\x7d"
  | _ => false

/-- Whether the token can end an expression. -/
def isTerminal (t : Token) : Bool :=
  match t.kind with
  | .ident | .upperIdent | .int | .str => true
  | _ => t.closesBlock

theorem isSymbol_iff {t : Token} {symbol : String} :
    t.isSymbol symbol ↔ t.kind = .symbol ∧ t.text = symbol := by
  simp [isSymbol]

end Token

end PhraseServer
