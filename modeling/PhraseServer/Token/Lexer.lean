/-
  The lexer.

  The first character of a text fixes the class of its first token
  (`Lexeme.ofChar?`), and the class fixes how far the token reaches
  (`Lexeme.reach`): runs of whitespace, word, digit and operator characters are
  taken whole, a string ends at its first unescaped quote, a semicolon may be
  doubled, brackets and commas stand alone.  `lex` cuts a text into tokens, or
  names the first place where no token begins or a string does not end.

  * `Lexeme.reach_append`: cutting loses no character.
-/
import PhraseServer.Token
import PhraseServer.Text.Quoted

namespace PhraseServer

/-! ## Character classes -/

/-- Blanks between words: space, tab, line feed, form feed, carriage return. -/
def isBlank (c : Char) : Bool :=
  c = ' ' || c = '\t' || c = '\n' || c = '\x0c' || c = '\r'

/-- Characters inside a word: ASCII letters and digits, underscore, prime. -/
def isWordChar (c : Char) : Bool := c.isAlphanum || c = '_' || c = '\''

/-- Characters inside a number. -/
def isDigitChar (c : Char) : Bool := c.isDigit || c = '_'

/-- Characters of operators. -/
def isOperatorChar (c : Char) : Bool := "!$%&*+-./:<=>?@^|~#'".toList.contains c

/-- Symbols of one character. -/
def isDelimiter (c : Char) : Bool := "()[]\x7b\x7d,".toList.contains c

/-! ## Lexemes -/

/-- The shape of a token, fixed by its first character. -/
inductive Lexeme where
  | blank
  | word
  | capitalised
  | number
  | quoted
  | semicolon
  | delimiter
  | operator
deriving DecidableEq, Repr

/-- Reads to the closing quote, itself included; a backslash escapes the
    character behind it. -/
def closeQuote : List Char → Option (List Char × List Char)
  | [] => none
  | '\\' :: c :: rest => (closeQuote rest).map fun (s, r) => ('\\' :: c :: s, r)
  | '\\' :: [] => none
  | c :: rest =>
    if c = '"' then some ([c], rest) else (closeQuote rest).map fun (s, r) => (c :: s, r)

namespace Lexeme

/-- The shape of the tokens that begin with `c`. -/
def ofChar? (c : Char) : Option Lexeme :=
  if isBlank c then some .blank
  else if c.isLower || c = '_' then some .word
  else if c.isUpper then some .capitalised
  else if c.isDigit then some .number
  else if c = '"' then some .quoted
  else if c = ';' then some .semicolon
  else if isDelimiter c then some .delimiter
  else if isOperatorChar c then some .operator
  else none

/-- How far a token reaches behind its first character: the characters that
    belong to it and the rest.  Only an unterminated string has no reach. -/
def reach (shape : Lexeme) (cs : List Char) : Option (List Char × List Char) :=
  match shape with
  | blank => some (cs.takeWhile isBlank, cs.dropWhile isBlank)
  | word | capitalised => some (cs.takeWhile isWordChar, cs.dropWhile isWordChar)
  | number => some (cs.takeWhile isDigitChar, cs.dropWhile isDigitChar)
  | quoted => closeQuote cs
  | semicolon =>
    match cs with
    | ';' :: rest => some ([';'], rest)
    | _ => some ([], cs)
  | delimiter => some ([], cs)
  | operator => some (cs.takeWhile isOperatorChar, cs.dropWhile isOperatorChar)

/-- The kind of a token; only small words can be reserved. -/
def kind (shape : Lexeme) (text : String) : TokenKind :=
  match shape with
  | blank => .whitespace
  | word => ((Keyword.ofString? text).map .keyword).getD .ident
  | capitalised => .upperIdent
  | number => .int
  | quoted => .str
  | semicolon | delimiter | operator => .symbol

end Lexeme

theorem closeQuote_append {cs s r : List Char} (h : closeQuote cs = some (s, r)) :
    s ++ r = cs := by
  fun_induction closeQuote cs generalizing s r with
  | case1 => simp at h
  | case2 c rest ih =>
    obtain ⟨⟨u, v⟩, huv, hsr⟩ := Option.map_eq_some_iff.1 h
    simp only [Prod.mk.injEq] at hsr
    obtain ⟨rfl, rfl⟩ := hsr
    simp [ih huv]
  | case3 => simp at h
  | case4 rest => simp at h; obtain ⟨rfl, rfl⟩ := h; rfl
  | case5 c rest _ _ _ ih =>
    obtain ⟨⟨u, v⟩, huv, hsr⟩ := Option.map_eq_some_iff.1 h
    simp only [Prod.mk.injEq] at hsr
    obtain ⟨rfl, rfl⟩ := hsr
    simp [ih huv]

namespace Lexeme

/-- Cutting a token off loses no character. -/
theorem reach_append {shape : Lexeme} {cs s r : List Char}
    (h : shape.reach cs = some (s, r)) : s ++ r = cs := by
  cases shape with
  | quoted => exact closeQuote_append h
  | semicolon =>
    simp only [reach] at h
    split at h <;> (obtain ⟨rfl, rfl⟩ := Prod.mk.inj (Option.some.inj h); rfl)
  | _ =>
    obtain ⟨rfl, rfl⟩ := Prod.mk.inj (Option.some.inj h)
    simp

theorem length_le_of_reach {shape : Lexeme} {cs s r : List Char}
    (h : shape.reach cs = some (s, r)) : r.length ≤ cs.length := by
  have := congrArg List.length (reach_append h)
  simp at this
  omega

end Lexeme

/-! ## Lexing -/

/-- Why a text has no tokens. -/
inductive LexError where
  /-- No token begins with this character. -/
  | illegalChar (c : Char) (place : Position)
  /-- The string that begins here has no closing quote. -/
  | unterminatedString (place : Position)
deriving DecidableEq, Repr

namespace LexError

/-- Where the text goes wrong. -/
def place : LexError → Position
  | illegalChar _ p | unterminatedString p => p

/-- The text of an error. -/
def message : LexError → String
  | illegalChar c p =>
    "illegal character " ++ quotedChar c ++ " at line " ++ toString p.line ++ ", column "
      ++ toString p.col
  | unterminatedString p =>
    "unterminated string literal starting at line " ++ toString p.line ++ ", column "
      ++ toString p.col

instance : ToString LexError := ⟨message⟩

end LexError

/-- Cuts characters into tokens, the first of which begins at `start`. -/
def lexChars (start : Position) (cs : List Char) : Except LexError (List Token) :=
  match cs with
  | [] => .ok []
  | c :: rest =>
    match Lexeme.ofChar? c with
    | none => .error (.illegalChar c start)
    | some shape =>
      match _h : shape.reach rest with
      | none => .error (.unterminatedString start)
      | some (more, rest') =>
        let text := String.ofList (c :: more)
        let stop := start.after (c :: more)
        (lexChars stop rest').map (⟨shape.kind text, text, start, stop⟩ :: ·)
termination_by cs.length
decreasing_by
  exact Nat.lt_succ_of_le (Lexeme.length_le_of_reach _h)

/-- Cuts a text into tokens, the first of which begins at `start`. -/
def lex (start : Position) (text : String) : Except LexError (List Token) :=
  lexChars start text.toList

end PhraseServer
