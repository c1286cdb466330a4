/-
  Replies.

  A reply is a bare value, or an array of two strings: a failure of the request,
  or an exception raised by the analysis.
-/
import PhraseServer.Json.Printer

namespace PhraseServer

/-- The answer to a request. -/
inductive Reply where
  | value (v : Json)
  | failure (message : String)
  | exception (message : String)
deriving Repr

namespace Reply

/-- Whether the request was refused. -/
def isError : Reply → Bool
  | value _ => false
  | failure _ | exception _ => true

/-- A reply as a JSON value. -/
def toJson : Reply → Json
  | value v => v
  | failure message => .arr [.str "failure", .str message]
  | exception message => .arr [.str "exception", .str message]

/-- A reply as a line of text, without its newline. -/
def line (r : Reply) : String := r.toJson.encode

end Reply

end PhraseServer
