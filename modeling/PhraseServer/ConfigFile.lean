/-
  Configuration files.

  A configuration file is TOML with up to four keys, each an array of strings:
  `source_path`, `build_path`, `extensions` and `modules`.  Any other key, type
  or table is an error, and so is a key given twice; keys that are missing stand
  for empty arrays.
-/
import PhraseServer.Json.Parser

namespace PhraseServer

/-- The four lists that a configuration file or a command line gives. -/
structure Layer where
  source : List String := []
  build : List String := []
  extensions : List String := []
  modules : List String := []
deriving DecidableEq, Repr

namespace ConfigFile

/-- Reads a value at the head of a text. -/
abbrev Reader (α : Type) := List Char → Option (α × List Char)

/-! ## Blanks and comments -/

/-- Blanks inside a line. -/
def isBlankChar (c : Char) : Bool := c = ' ' || c = '\t'

/-- Characters of comments and strings: all but controls, the tab excepted. -/
def isText (c : Char) : Bool := c = '\t' || (0x20 ≤ c.toNat && c.toNat ≠ 0x7f)

/-- Skips blanks, newlines and comments. -/
def skipGap (comment : Bool) : List Char → Option (List Char)
  | [] => some []
  | '\n' :: rest => skipGap false rest
  | '\r' :: '\n' :: rest => skipGap false rest
  | c :: rest =>
    if comment then if isText c then skipGap true rest else none
    else if isBlankChar c then skipGap false rest
    else if c = '#' then skipGap true rest
    else some (c :: rest)

/-- Skips the rest of a line, which may hold a comment, and its newline. -/
def skipLine (comment : Bool) : List Char → Option (List Char)
  | [] => some []
  | '\n' :: rest => some rest
  | '\r' :: '\n' :: rest => some rest
  | c :: rest =>
    if comment then if isText c then skipLine true rest else none
    else if isBlankChar c then skipLine false rest
    else if c = '#' then skipLine true rest
    else none

/-! ## Strings -/

/-- The value of hexadecimal digits. -/
def hexValue? (cs : List Char) : Option Nat :=
  cs.foldl (fun n c => n.bind fun n => (Json.hexValue? c).map (n * 16 + ·)) (some 0)

/-- The character with a code point; surrogates and large numbers have none. -/
def charOf? (n : Nat) : Option Char := if n.isValidChar then some (Char.ofNat n) else none

/-- The character of an escape of one letter. -/
def escape? (c : Char) : Option Char :=
  [('b', '\x08'), ('t', '\t'), ('n', '\n'), ('f', '\x0c'), ('r', '\r'), ('e', '\x1b'),
    ('"', '"'), ('\\', '\\')].lookup c

/-- Reads an escape behind its backslash. -/
def escape : Reader Char
  | 'x' :: a :: b :: rest => ((hexValue? [a, b]).bind charOf?).map (·, rest)
  | 'u' :: a :: b :: c :: d :: rest => ((hexValue? [a, b, c, d]).bind charOf?).map (·, rest)
  | 'U' :: a :: b :: c :: d :: e :: f :: g :: h :: rest =>
    ((hexValue? [a, b, c, d, e, f, g, h]).bind charOf?).map (·, rest)
  | c :: rest => (escape? c).map (·, rest)
  | [] => none

/-- Reads a string up to its quote; `done` holds the characters read so far, the
    last one first, and `bound` bounds the number of those to come. -/
def basicTail : (bound : Nat) → (done : List Char) → Reader (List Char)
  | 0, _, _ => none
  | _, _, [] => none
  | bound + 1, done, c :: rest =>
    if c = '"' then some (done.reverse, rest)
    else if c = '\\' then (escape rest).bind fun (e, rest) => basicTail bound (e :: done) rest
    else if isText c then basicTail bound (c :: done) rest
    else none

/-- Reads a string without escapes up to its quote. -/
def literalTail (done : List Char) : Reader (List Char)
  | [] => none
  | c :: rest =>
    if c = '\'' then some (done.reverse, rest)
    else if isText c then literalTail (c :: done) rest
    else none

/-- The end of a string of several lines, behind three quotes: up to two more
    belong to the string. -/
def closing (quote : Char) (done rest : List Char) : List Char × List Char :=
  match rest with
  | a :: b :: more =>
    if a = quote && b = quote then ((quote :: quote :: done).reverse, more)
    else if a = quote then ((quote :: done).reverse, b :: more)
    else (done.reverse, rest)
  | [a] => if a = quote then ((quote :: done).reverse, []) else (done.reverse, rest)
  | [] => (done.reverse, rest)

/-- Skips blanks and newlines; tells whether a newline came. -/
def skipFold (newline : Bool) : List Char → Bool × List Char
  | '\n' :: rest => skipFold true rest
  | '\r' :: '\n' :: rest => skipFold true rest
  | c :: rest => if isBlankChar c then skipFold newline rest else (newline, c :: rest)
  | [] => (newline, [])

/-- Reads a string of several lines up to its three quotes.  The ends of lines
    are kept as they stand; a backslash before one drops it with the blanks up to
    the next text. -/
def longBasicTail : (bound : Nat) → (done : List Char) → Reader (List Char)
  | 0, _, _ => none
  | _, _, [] => none
  | _, done, '"' :: '"' :: '"' :: rest => some (closing '"' done rest)
  | bound + 1, done, '\r' :: '\n' :: rest => longBasicTail bound ('\n' :: '\r' :: done) rest
  | bound + 1, done, c :: rest =>
    if c = '\\' then
      match skipFold false rest with
      | (true, folded) => longBasicTail bound done folded
      | (false, _) => (escape rest).bind fun (e, rest) => longBasicTail bound (e :: done) rest
    else if c = '\n' || isText c then longBasicTail bound (c :: done) rest
    else none

/-- Reads a string of several lines without escapes up to its three quotes; the
    ends of lines are kept as they stand. -/
def longLiteralTail (done : List Char) : Reader (List Char)
  | [] => none
  | '\'' :: '\'' :: '\'' :: rest => some (closing '\'' done rest)
  | '\r' :: '\n' :: rest => longLiteralTail ('\n' :: '\r' :: done) rest
  | c :: rest => if c = '\n' || isText c then longLiteralTail (c :: done) rest else none

/-- Drops a newline right behind the opening quotes. -/
def dropNewline : List Char → List Char
  | '\n' :: rest => rest
  | '\r' :: '\n' :: rest => rest
  | cs => cs

/-- Reads a string on one line. -/
def shortString : Reader String
  | '"' :: rest =>
    (basicTail (rest.length + 1) [] rest).map fun (cs, rest) => (String.ofList cs, rest)
  | '\'' :: rest => (literalTail [] rest).map fun (cs, rest) => (String.ofList cs, rest)
  | _ => none

/-- Reads a string. -/
def string : Reader String
  | '"' :: '"' :: '"' :: rest =>
    let body := dropNewline rest
    (longBasicTail (body.length + 1) [] body).map fun (cs, rest) => (String.ofList cs, rest)
  | '\'' :: '\'' :: '\'' :: rest =>
    (longLiteralTail [] (dropNewline rest)).map fun (cs, rest) => (String.ofList cs, rest)
  | cs => shortString cs

/-! ## Arrays and keys -/

/-- Reads the strings of an array up to its bracket; the last comma may stand
    alone.  `bound` bounds the number of strings. -/
def arrayTail : (bound : Nat) → Reader (List String)
  | 0, _ => none
  | bound + 1, cs =>
    match skipGap false cs with
    | none => none
    | some (']' :: rest) => some ([], rest)
    | some cs =>
      match string cs with
      | none => none
      | some (s, rest) =>
        match skipGap false rest with
        | some (',' :: rest) => (arrayTail bound rest).map fun (ss, rest) => (s :: ss, rest)
        | some (']' :: rest) => some ([s], rest)
        | _ => none

/-- Reads an array of strings. -/
def array : Reader (List String)
  | '[' :: rest => arrayTail (rest.length + 1) rest
  | _ => none

/-- Characters of keys without quotes. -/
def isKeyChar (c : Char) : Bool := c.isAlphanum || c = '_' || c = '-'

/-- Reads a key. -/
def key : Reader String := fun cs =>
  match cs.takeWhile isKeyChar with
  | [] => shortString cs
  | name => some (String.ofList name, cs.dropWhile isKeyChar)

/-! ## Files -/

/-- The keys read so far. -/
structure Fields where
  source : Option (List String) := none
  build : Option (List String) := none
  extensions : Option (List String) := none
  modules : Option (List String) := none
deriving DecidableEq, Repr

namespace Fields

/-- Sets a key, once. -/
def set? (f : Fields) (name : String) (value : List String) : Option Fields :=
  if name = "source_path" && f.source.isNone then some { f with source := some value }
  else if name = "build_path" && f.build.isNone then some { f with build := some value }
  else if name = "extensions" && f.extensions.isNone then some { f with extensions := some value }
  else if name = "modules" && f.modules.isNone then some { f with modules := some value }
  else none

/-- The lists of all keys. -/
def layer (f : Fields) : Layer :=
  ⟨f.source.getD [], f.build.getD [], f.extensions.getD [], f.modules.getD []⟩

end Fields

/-- Reads a key with its array, up to the end of the line. -/
def setting : Reader (String × List String) := fun cs =>
  match key cs with
  | none => none
  | some (name, rest) =>
    match rest.dropWhile isBlankChar with
    | '=' :: rest =>
      match array (rest.dropWhile isBlankChar) with
      | none => none
      | some (value, rest) => (skipLine false rest).map fun rest => ((name, value), rest)
    | _ => none

/-- Reads settings to the end of a text; `bound` bounds their number. -/
def settings : (bound : Nat) → Fields → List Char → Option Fields
  | 0, _, _ => none
  | bound + 1, fields, cs =>
    match skipGap false cs with
    | none => none
    | some [] => some fields
    | some cs =>
      match setting cs with
      | none => none
      | some ((name, value), rest) =>
        match fields.set? name value with
        | none => none
        | some fields => settings bound fields rest

/-- Reads a configuration file; a byte order mark at its head is skipped. -/
def parse (text : String) : Option Layer :=
  let cs := match text.toList with
    | '\ufeff' :: rest => rest
    | cs => cs
  (settings (cs.length + 1) {} cs).map Fields.layer

end ConfigFile

end PhraseServer
