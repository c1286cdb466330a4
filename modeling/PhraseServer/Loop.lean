/-
  The request loop.

  A loop reads lines of bytes, has a service answer each request and writes each
  reply as a line.  Blank lines are passed over; a line that holds no request is
  answered with a failure, and the service does not see it: `explain` gives the
  reason where the line is no JSON value.  A reply is counted, then written, then
  its newline, then the output is flushed.

  The output may refuse a write or a flush, which ends the run: a `Sink` decides
  by what it took before.  `Sink.reliable` refuses nothing.
-/
import PhraseServer.Inbound
import PhraseServer.Reply

namespace PhraseServer

/-! ## Outputs -/

/-- What is done to an output. -/
inductive Event where
  | write (text : String)
  | flush
deriving DecidableEq, Repr

/-- The text that an event adds to an output. -/
def Event.text : Event → String
  | write s => s
  | flush => ""

/-- An output: whether it refuses an event, and why, given the events it took,
    the last one first. -/
abbrev Sink := List Event → Event → Option String

namespace Sink

/-- The output that takes everything. -/
def reliable : Sink := fun _ _ => none

/-- The number of bytes of the events taken. -/
def bytesTaken : List Event → Nat
  | [] => 0
  | e :: taken => e.text.utf8ByteSize + bytesTaken taken

/-- The output that refuses to grow beyond `limit` bytes. -/
def limited (limit : Nat) : Sink
  | taken, .write s => if bytesTaken taken + s.utf8ByteSize ≤ limit then none else some "sink full"
  | _, .flush => none

/-- Offers events to an output in order, up to the first refusal: the events
    taken, the last one first, and the reason of a refusal. -/
def offer (sink : Sink) (taken : List Event) : List Event → List Event × Option String
  | [] => (taken, none)
  | e :: es =>
    match sink taken e with
    | some reason => (taken, some reason)
    | none => offer sink (e :: taken) es

end Sink

/-! ## Lines -/

/-- Cuts bytes into lines; each keeps its newline, the last may have none. -/
def splitLines (bytes : List UInt8) : List (List UInt8) :=
  match bytes with
  | [] => []
  | b :: bs =>
    if b = 0x0a then [b] :: splitLines bs
    else
      match splitLines bs with
      | [] => [[b]]
      | line :: lines => (b :: line) :: lines

/-! ## Serving -/

/-- What answers requests, over states `σ`. -/
abbrev Service (σ : Type) := σ → Json → σ × Reply

/-- A loop between two requests: the state of its service and the number of
    replies made. -/
structure Loop (σ : Type) where
  service : σ
  served : Nat := 0

namespace Loop

variable {σ : Type}

/-- The reply to a line, if it is not blank. -/
def answer (explain : List Char → String) (service : Service σ) (loop : Loop σ)
    (line : List UInt8) : Option (Loop σ × Reply) :=
  match Inbound.ofBytes line with
  | .blank => none
  | .invalid fault =>
    some ({ loop with served := loop.served + 1 },
      .failure ("malformed request: " ++ fault.message explain))
  | .request v =>
    let (s, reply) := service loop.service v
    some (⟨s, loop.served + 1⟩, reply)

/-- The events that put a reply on an output. -/
def delivery (reply : Reply) : List Event := [.write reply.line, .write "\n", .flush]

/-- What a run leaves: the loop, the events that the output took, the last one
    first, and why it refused one. -/
structure Result (σ : Type) where
  loop : Loop σ
  taken : List Event
  refusal : Option String

/-- Serves lines on an output that took some events. -/
def runLines (explain : List Char → String) (service : Service σ) (sink : Sink) (loop : Loop σ)
    (taken : List Event) : List (List UInt8) → Result σ
  | [] => ⟨loop, taken, none⟩
  | line :: lines =>
    match answer explain service loop line with
    | none => runLines explain service sink loop taken lines
    | some (loop, reply) =>
      match sink.offer taken (delivery reply) with
      | (taken, some reason) => ⟨loop, taken, some reason⟩
      | (taken, none) => runLines explain service sink loop taken lines

/-- Serves an input on a fresh output. -/
def run (explain : List Char → String) (service : Service σ) (sink : Sink) (loop : Loop σ)
    (input : List UInt8) : Result σ :=
  runLines explain service sink loop [] (splitLines input)

/-- The text that the output took. -/
def Result.output (r : Result σ) : String := String.join (r.taken.reverse.map (·.text))

/-- How often the output was flushed. -/
def Result.flushes (r : Result σ) : Nat := r.taken.count .flush

/-- The text of the error that ended a run. -/
def Result.error? (r : Result σ) : Option String := r.refusal.map ("i/o error: " ++ ·)

end Loop

end PhraseServer
