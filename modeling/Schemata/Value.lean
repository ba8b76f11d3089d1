import Schemata.Dict
import Schemata.Number.Layout
import Schemata.Number.Reading
import Schemata.Text.Quote

/-!
Data values: what is validated, sampled and embedded in schemas.

A number has one of several carriers (64-bit, 32-bit, sized integers, or the literal text of a document); `number?`
is its 64-bit value, and comparisons of numbers go through it. Objects are dictionaries, so their key order carries
no meaning. `Value.equal` is equality of data, `Value.display` the text of a value inside a message.
-/

namespace Schemata

/-- size of an integer carrier; `machine` is the native word of 64 bits -/
inductive Width where
  | machine | w8 | w16 | w32 | w64
  deriving Repr, DecidableEq

def Width.bits : Width → Nat
  | machine => 64
  | w8 => 8
  | w16 => 16
  | w32 => 32
  | w64 => 64

/-- a data value -/
inductive Value where
  | null
  | bool (b : Bool)
  | float (x : Float)
  | single (x : Float)
  | int (signed : Bool) (width : Width) (n : Int)
  | literal (digits : String)
  | string (s : String)
  | array (items : List Value)
  | object (fields : List (String × Value))
  deriving Inhabited

namespace Value

/-- a native integer -/
def nat (n : Nat) : Value := .int true .machine n

def ofInt (n : Int) : Value := .int true .machine n

/-- an integer reduced to a width, as two's complement does -/
def wrap (signed : Bool) (width : Width) (n : Int) : Value :=
  let m : Int := (Nat.pow 2 width.bits : Int)
  .int signed width (if signed then n.bmod (Nat.pow 2 width.bits) else n % m)

/-- the 64-bit value of a number, and whether it is one; a literal beyond the range is none -/
def numeric : Value → Float × Bool
  | float x => (x, true)
  | single x => (x, true)
  | int _ _ n => (Number.ofInt n, true)
  | literal t =>
    match Number.read t with
    | .number x => (x, true)
    | .overflow negative => (Number.signed negative Number.infinity, false)
    | .malformed => (0.0, false)
  | _ => (0.0, false)

def number? (v : Value) : Option Float :=
  let (x, ok) := v.numeric
  if ok then some x else none

/-- the name of an integer carrier -/
def intName (signed : Bool) (w : Width) : String :=
  (if signed then "int" else "uint") ++ (match w with | .machine => "" | w => toString w.bits)

/-- the JSON type of a value; a literal that is no number goes by the name of its carrier -/
def typeName (v : Value) : String :=
  match v with
  | null => "null"
  | bool _ => "boolean"
  | string _ => "string"
  | array _ => "array"
  | object _ => "object"
  | literal _ => if v.number?.isSome then "number" else "json.Number"
  | _ => "number"

/-- the name of the carrier of a value -/
def carrierName : Value → String
  | null => "<nil>"
  | bool _ => "bool"
  | float _ => "float64"
  | single _ => "float32"
  | int signed w _ => intName signed w
  | literal _ => "json.Number"
  | string _ => "string"
  | array _ => "[]interface \x7b\x7d"
  | object _ => "map[string]interface \x7b\x7d"

mutual

/-- equality of data: numbers by their 64-bit value, everything else by shape -/
def equal : Value → Value → Bool
  | null, b => match b with | null => true | _ => false
  | bool x, b => match b with | bool y => x == y | _ => false
  | string x, b => match b with | string y => x == y | _ => false
  | array xs, b => match b with | array ys => equalItems xs ys | _ => false
  | object xs, b => match b with | object ys => equalFields xs ys | _ => false
  | a, b =>
    match a.number?, b.number? with
    | some x, some y => x == y
    | _, _ => false

def equalItems : List Value → List Value → Bool
  | [], ys => ys.isEmpty
  | x :: xs, ys => match ys with | y :: ys => equal x y && equalItems xs ys | [] => false

def equalFields : List (String × Value) → List (String × Value) → Bool
  | [], ys => ys.isEmpty
  | (k, x) :: xs, ys => match ys with | (l, y) :: ys => k == l && equal x y && equalFields xs ys | [] => false

end

mutual

/-- the text of a value inside a message -/
def display : Value → String
  | null => "<nil>"
  | bool b => if b then "true" else "false"
  | float x => Number.Layout.general.text Number.double x
  | single x => Number.Layout.general.text Number.single x
  | int _ _ n => toString n
  | literal t => t
  | string s => s
  | array xs => "[" ++ " ".intercalate (displayItems xs) ++ "]"
  | object fs => "map[" ++ " ".intercalate (displayFields fs) ++ "]"

def displayItems : List Value → List String
  | [] => []
  | x :: xs => display x :: displayItems xs

def displayFields : List (String × Value) → List String
  | [] => []
  | (k, x) :: xs => (k ++ ":" ++ display x) :: displayFields xs

end

def isNull : Value → Bool
  | null => true
  | _ => false

def isObject : Value → Bool
  | object _ => true
  | _ => false

/-- the member of an object -/
def field? (v : Value) (key : String) : Option Value :=
  match v with
  | object fs => Dict.get? fs key
  | _ => none

/-- a string member, empty when there is none -/
def stringAt (v : Value) (key : String) : String :=
  match v.field? key with
  | some (string s) => s
  | _ => ""

/-- an array member, empty when there is none -/
def arrayAt (v : Value) (key : String) : List Value :=
  match v.field? key with
  | some (array xs) => xs
  | _ => []

/-- an object from entries, of which the last of a key wins -/
def ofEntries (entries : List (String × Value)) : Value := .object (Dict.ofList entries)

end Value

end Schemata
