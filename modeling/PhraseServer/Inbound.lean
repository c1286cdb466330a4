/-
  Lines that arrive.

  A line is UTF-8 text that holds one JSON value; white space around it is
  ignored, and a line of white space alone is blank.
-/
import PhraseServer.Json.Parser
import PhraseServer.Text.Space
import PhraseServer.Text.Utf8

namespace PhraseServer

/-- Why a line holds no request. -/
inductive LineFault where
  | notUtf8 (error : Utf8Error)
  /-- The text between white space is no JSON value. -/
  | notJson (text : List Char)
deriving DecidableEq, Repr

/-- The reason given to the client; `explain` says what is wrong with a text that
    is no JSON value. -/
def LineFault.message (explain : List Char → String) : LineFault → String
  | notUtf8 error => error.message
  | notJson text => explain text

/-- What a line holds. -/
inductive Inbound where
  | blank
  | request (v : Json)
  | invalid (fault : LineFault)
deriving Repr

namespace Inbound

/-- Reads a line of text. -/
def ofChars (cs : List Char) : Inbound :=
  match trimSpace cs with
  | [] => .blank
  | cs =>
    match Json.decode cs with
    | some v => .request v
    | none => .invalid (.notJson cs)

/-- Reads a line of bytes. -/
def ofBytes (bytes : List UInt8) : Inbound :=
  match decodeUtf8 bytes with
  | .ok cs => ofChars cs
  | .error e => .invalid (.notUtf8 e)

end Inbound

end PhraseServer
