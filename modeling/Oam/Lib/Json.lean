/-
  JSON values, as a parser hands them over.

  An object keeps its members in the order they were written; a number is kept as the text it prints as.  `get`, `asStr`
  and `asObject` are the accessors of `serde_json::Value`: each gives `none` on a value of another kind.
-/
import Oam.Lib.Text

namespace Json

open Text

/-- A parsed JSON value. -/
inductive Value where
  | null
  | bool (b : Bool)
  | num (text : Str)
  | str (s : Str)
  | arr (items : List Value)
  | obj (members : List (Str × Value))

namespace Value

def asStr : Value → Option Str
  | .str s => some s
  | _ => none

def asObject : Value → Option (List (Str × Value))
  | .obj members => some members
  | _ => none

def get (v : Value) (key : Str) : Option Value := v.asObject.bind fun members => members.lookup key

end Value

end Json
