import Schemata.Json.Tree
import Schemata.Number.Layout
import Schemata.Text.Quote

/-!
Making JSON documents, and their text without white space.
-/

namespace Schemata.Json

def ofInt (n : Int) : Json := .number (toString n)

def ofStrings (ss : List String) : Json := .array (ss.map .string)

/-- a number in the notation of data; what is not finite becomes a string -/
def ofNumber (f : Number.BinaryFormat) (x : Float) : Json :=
  let t := Number.Layout.wire.text f x
  if Number.isFinite x then .number t else .string t

def ofFloat (x : Float) : Json := ofNumber Number.double x

mutual

/-- the document of a value; a literal becomes a string -/
def ofValue : Value → Json
  | .null => .null
  | .bool b => .bool b
  | .float x => ofFloat x
  | .single x => ofNumber Number.single x
  | .int _ _ n => ofInt n
  | .literal t => .string t
  | .string s => .string s
  | .array xs => .array (ofValues xs)
  | .object fs => .object (ofFields fs)

def ofValues : List Value → List Json
  | [] => []
  | x :: xs => ofValue x :: ofValues xs

def ofFields : List (String × Value) → List (String × Json)
  | [] => []
  | (k, x) :: rest => (k, ofValue x) :: ofFields rest

end

/-! ## Entries that are left out when they say nothing -/

def opt (key : String) (j : Option Json) : List (String × Json) := j.toList.map (key, ·)

def flag (key : String) (b : Bool) : List (String × Json) := if b then [(key, .bool true)] else []

def word (key s : String) : List (String × Json) := if s = "" then [] else [(key, .string s)]

def list (key : String) (xs : List Json) : List (String × Json) := if xs.isEmpty then [] else [(key, .array xs)]

def nonEmpty (key : String) (fs : List (String × Json)) : List (String × Json) :=
  if fs.isEmpty then [] else [(key, .object fs)]

/-! ## Text -/

mutual

/-- the text of a document -/
def text : Json → String
  | .null => "null"
  | .bool b => if b then "true" else "false"
  | .number t => t
  | .string s => Text.jsonString s
  | .array xs => "[" ++ ",".intercalate (textItems xs) ++ "]"
  | .object fs => "\x7b" ++ ",".intercalate (textFields fs) ++ "\x7d"

def textItems : List Json → List String
  | [] => []
  | x :: xs => text x :: textItems xs

def textFields : List (String × Json) → List String
  | [] => []
  | (k, x) :: rest => (Text.jsonString k ++ ":" ++ text x) :: textFields rest

end

end Schemata.Json
