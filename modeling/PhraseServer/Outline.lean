/-
  Outlines: runs of tokens cut where phrases start.

  A significant token starts a phrase when no block is open before it and it is
  the first significant token, follows `;;`, or is `let`, `type`, `module` or
  `open` behind a token that can end an expression (`Nesting.startsPhrase`).
  `outline` cuts tokens at phrase starts.  Its first item continues the phrase
  left open by the item before: the open blocks and the last significant token
  are carried from item to item (`Nesting`).
-/
import PhraseServer.Token

namespace PhraseServer

/-! ## What is carried over tokens -/

/-- The last significant token, as far as it decides where phrases start. -/
inductive Last where
  /-- There is none, or it was `;;` outside every block. -/
  | start
  /-- It can end an expression. -/
  | terminal
  /-- Any other token. -/
  | operator
deriving DecidableEq, Repr

/-- The number of open blocks and the last significant token. -/
structure Nesting where
  depth : Nat := 0
  last : Last := .start
deriving DecidableEq, Repr

namespace Nesting

/-- Whether a token starts a phrase. -/
def startsPhrase (n : Nesting) (t : Token) : Bool :=
  if t.isTrivia || 0 < n.depth then false
  else
    match n.last with
    | .start => true
    | .terminal =>
      match t.kind with
      | .keyword word => word.opensPhrase
      | _ => false
    | .operator => false

/-- The open blocks behind a token; a closer without partner is ignored. -/
def depthAfter (n : Nesting) (t : Token) : Nat :=
  if t.opensBlock then n.depth + 1 else if t.closesBlock then n.depth - 1 else n.depth

/-- What is carried behind a token; trivia change nothing. -/
def feed (n : Nesting) (t : Token) : Nesting :=
  if t.isTrivia then n
  else
    let depth := n.depthAfter t
    let last :=
      if depth = 0 && t.isSymbol ";;" then Last.start
      else if t.isTerminal then .terminal
      else .operator
    ⟨depth, last⟩

end Nesting

/-! ## Outlines -/

/-- A nonempty run of tokens. -/
structure Outline where
  first : Token
  more : List Token
  /-- Whether the first token starts a phrase. -/
  opensPhrase : Bool
  /-- What is carried behind the last token. -/
  after : Nesting
deriving DecidableEq, Repr

namespace Outline

/-- The tokens of an outline. -/
def tokens (o : Outline) : List Token := o.first :: o.more

/-- The last token of an outline. -/
def final (o : Outline) : Token := o.more.getLast?.getD o.first

instance : Spanned Outline := ⟨fun o => o.first.start, fun o => o.final.stop⟩

/-- Whether there are only trivia. -/
def isTrivia (o : Outline) : Bool := o.tokens.all Token.isTrivia

end Outline

/-- Cuts tokens behind an outline under way: `first` and `more` are its tokens so
    far, `opens` tells whether it starts a phrase, `n` is carried behind it. -/
def outlineFrom (n : Nesting) (opens : Bool) (first : Token) (more : List Token) :
    List Token → List Outline
  | [] => [⟨first, more, opens, n⟩]
  | t :: ts =>
    if n.startsPhrase t then ⟨first, more, opens, n⟩ :: outlineFrom (n.feed t) true t [] ts
    else outlineFrom (n.feed t) opens first (more ++ [t]) ts

/-- Cuts tokens at phrase starts, behind an earlier outline. -/
def outline (previous : Option Outline) : List Token → List Outline
  | [] => []
  | t :: ts =>
    let n : Nesting := (previous.map (·.after)).getD {}
    outlineFrom (n.feed t) (n.startsPhrase t) t [] ts

/-- Outlining loses no token. -/
theorem flatMap_tokens_outlineFrom (n : Nesting) (opens : Bool) (first : Token)
    (more ts : List Token) :
    (outlineFrom n opens first more ts).flatMap Outline.tokens = first :: more ++ ts := by
  induction ts generalizing n opens first more with
  | nil => simp [outlineFrom, Outline.tokens]
  | cons t ts ih =>
    simp only [outlineFrom]
    split <;> simp [ih, Outline.tokens]

@[simp] theorem flatMap_tokens_outline (previous : Option Outline) (ts : List Token) :
    (outline previous ts).flatMap Outline.tokens = ts := by
  cases ts with
  | nil => rfl
  | cons t ts => simp [outline, flatMap_tokens_outlineFrom]

end PhraseServer
