/-
# JSON values

The members of an object keep the order in which they are given; a number keeps
the text that it is written with.
-/

namespace SchemaCatalog

/-- A JSON value. -/
inductive Json where
  | null
  | bool (b : Bool)
  | number (text : String)
  | string (text : String)
  | array (items : List Json)
  | object (members : List (String × Json))

namespace Json

/-- The value of a member of an object. -/
def member? (key : String) : Json → Option Json
  | object members => members.lookup key
  | _ => none

/-- Whether a value is `null`. -/
def isNull : Json → Bool
  | null => true
  | _ => false

/-- The number that a natural number is. -/
def ofNat (n : Nat) : Json := number (toString n)

/-- An array of strings. -/
def ofStrings (ss : List String) : Json := array (ss.map string)

/-- A value that may be missing, as `null` if it is. -/
def ofOption (v : Option Json) : Json := v.getD null

/-- The members of an object with one more: a key that is there already keeps its
place and takes the new value. -/
def setMember (key : String) (value : Json) : List (String × Json) → List (String × Json)
  | [] => [(key, value)]
  | m :: ms => if m.1 = key then (key, value) :: ms else m :: setMember key value ms

end Json

end SchemaCatalog
