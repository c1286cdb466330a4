/-
  JSON values.

  Numbers are integers of 64 bits or floats.  The members of an object are kept
  in the order of their names, each name once.
-/
import PhraseServer.Number.Binary64

namespace PhraseServer

/-- A number of a JSON text. -/
inductive Number where
  /-- An integer that fits 64 bits, with or without sign. -/
  | int (value : Int)
  /-- Any other number. -/
  | float (negative : Bool) (magnitude : Binary64)
deriving DecidableEq, Repr

/-- A JSON value. -/
inductive Json where
  | null
  | bool (value : Bool)
  | num (value : Number)
  | str (value : String)
  | arr (items : List Json)
  | obj (members : List (String × Json))
deriving Repr, Inhabited

namespace Json

/-- An unsigned number. -/
def nat (n : Nat) : Json := .num (.int n)

/-- Puts a member in its place; a member of that name is replaced. -/
def insertMember (name : String) (value : Json) : List (String × Json) → List (String × Json)
  | [] => [(name, value)]
  | (n, v) :: rest =>
    if name = n then (name, value) :: rest
    else if name < n then (name, value) :: (n, v) :: rest
    else (n, v) :: insertMember name value rest

/-- The object with given members; of two with one name the last counts. -/
def object (members : List (String × Json)) : Json :=
  .obj (members.foldl (fun done (name, value) => insertMember name value done) [])

/-- The member of an object with a given name. -/
def get? (value : Json) (name : String) : Option Json :=
  match value with
  | .obj members => members.lookup name
  | _ => none

/-- The largest unsigned word. -/
def maxWord : Nat := 18446744073709551615

/-- Whether a number is an unsigned integer of 64 bits. -/
def asUnsigned? : Json → Option Nat
  | .num (.int n) => if 0 ≤ n && n ≤ maxWord then some n.toNat else none
  | _ => none

end Json

end PhraseServer
