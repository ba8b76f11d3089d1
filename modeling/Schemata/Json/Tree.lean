import Schemata.Value

/-!
JSON documents as written: fields in document order, repeated keys included, numbers as their text.

`Json.toValue` is the data that a document denotes; of a repeated key the last entry counts. Members are read leniently: what is
missing or of another type counts as empty, zero or false.
-/

namespace Schemata

/-- a JSON document with everything that its text fixes, white space apart -/
inductive Json where
  | null
  | bool (b : Bool)
  | number (digits : String)
  | string (s : String)
  | array (items : List Json)
  | object (fields : List (String × Json))
  deriving Inhabited

namespace Json

mutual

/-- the data of a document -/
def toValue : Json → Value
  | null => .null
  | bool b => .bool b
  | number t => .float ((Number.parse? t).getD 0.0)
  | string s => .string s
  | array xs => .array (toValues xs)
  | object fs => .object (toFields [] fs)

def toValues : List Json → List Value
  | [] => []
  | x :: xs => toValue x :: toValues xs

def toFields (acc : Dict Value) : List (String × Json) → Dict Value
  | [] => acc
  | (k, x) :: xs => toFields (Dict.insert acc k (toValue x)) xs

end

/-! ## Members -/

def has (j : Json) (key : String) : Bool :=
  match j with
  | .object fs => fs.any (·.1 == key)
  | _ => false

/-- a member, null when there is none -/
def member (j : Json) (key : String) : Json :=
  match j with
  | .object fs => ((fs.reverse.find? (·.1 == key)).map (·.2)).getD .null
  | _ => .null

def asStr : Json → String
  | .string s => s
  | _ => ""

def asArr : Json → List Json
  | .array xs => xs
  | _ => []

def asObj : Json → List (String × Json)
  | .object fs => fs
  | _ => []

def asFloat : Json → Float
  | .number t => (Number.parse? t).getD 0
  | _ => 0

/-- the integer part of a number, as an integer of 64 bits -/
def asInt (j : Json) : Int := Number.toInt64 j.asFloat

def str (j : Json) (key : String) : String := (j.member key).asStr

def arr (j : Json) (key : String) : List Json := (j.member key).asArr

def strs (j : Json) (key : String) : List String := (j.arr key).map asStr

def obj (j : Json) (key : String) : List (String × Json) := (j.member key).asObj

def isTrue (j : Json) (key : String) : Bool :=
  match j.member key with
  | .bool b => b
  | _ => false

def int (j : Json) (key : String) : Int := (j.member key).asInt

/-- the text members of an object member -/
def texts (j : Json) (key : String) : Dict String := Dict.ofList ((j.obj key).map fun (k, v) => (k, v.asStr))

end Json

end Schemata
