import PMRAccess.Database
import PMRAccess.Lib.Linear

/-!
# The atomic map

What a front end is for its clients: a map from keys to values on which `SendPut`, `SendUpdate`,
`SendGet` and `SendDelete` are executed one at a time. A history of calls and returns of the front
end is compared with the histories of this object (`Lib.Linearizable`).
-/

namespace PMRAccess

open Lib

inductive MapOp
  /-- `SendPut` and `SendUpdate` -/
  | put (key val : Bytes)
  | get (key : Bytes)
  | delete (key : Bytes)
  deriving DecidableEq, Repr

/-- What a call returns; what `SendPut` returns says nothing. -/
inductive MapRes
  | stored
  | got (val : Option Bytes)
  | deleted (ok : Bool)
  deriving DecidableEq, Repr

/-- An operation on the map; a deletion succeeds whether or not the key is there. -/
def Store.apply (db : Store) : MapOp → Store × MapRes
  | .put key val => (db.put key val, .stored)
  | .get key => (db, .got (db key))
  | .delete key => (db.delete key, .deleted true)

end PMRAccess
