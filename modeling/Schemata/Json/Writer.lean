import Schemata.Json.Reader

/-!
Writing JSON text.

`compact` writes a value without white space, object keys in order, and fails on numbers that the format has no text
for. `indent` lays out an existing text without touching its strings and numbers.
-/

namespace Schemata.Json

/-- why a value has no JSON text -/
inductive WriteError where
  | notFinite (name : String)
  | badLiteral (digits : String)
  deriving Repr, DecidableEq

/-- both texts belong to the format's own writer; only a bad literal is reported in words of its own -/
def WriteError.message : WriteError → String
  | notFinite name => "json: unsupported value: " ++ name
  | badLiteral t => "json: invalid number literal " ++ Text.quote t

def floatText (f : Number.BinaryFormat) (x : Float) : Except WriteError String :=
  if Number.isFinite x then .ok (Number.Layout.wire.text f x)
  else .error (.notFinite (Number.Layout.wire.text f x))

def literalText (t : String) : Except WriteError String :=
  if t.isEmpty then .ok "0"
  else if t.toList.all isNumberChar then .ok t
  else .error (.badLiteral t)

mutual

/-- a value as JSON text without white space -/
def compact : Value → Except WriteError String
  | .null => .ok "null"
  | .bool b => .ok (if b then "true" else "false")
  | .float x => floatText Number.double x
  | .single x => floatText Number.single x
  | .int _ _ n => .ok (toString n)
  | .literal t => literalText t
  | .string s => .ok (Text.jsonString s)
  | .array xs => (compactItems xs).map fun ts => "[" ++ ",".intercalate ts ++ "]"
  | .object fs => (compactFields fs).map fun ts => "\x7b" ++ ",".intercalate ts ++ "\x7d"

def compactItems : List Value → Except WriteError (List String)
  | [] => .ok []
  | x :: xs => do
    let t ← compact x
    let ts ← compactItems xs
    return t :: ts

def compactFields : List (String × Value) → Except WriteError (List String)
  | [] => .ok []
  | (k, x) :: xs => do
    let t ← compact x
    let ts ← compactFields xs
    return (Text.jsonString k ++ ":" ++ t) :: ts

end

/-- the data a value becomes when it is written and read again -/
inductive NormalizeError where
  | write (e : WriteError)
  | read (e : ReadError)
  deriving Repr, DecidableEq

def normalize (v : Value) : Except NormalizeError Value :=
  match compact v with
  | .error e => .error (.write e)
  | .ok t => (parseValue t).mapError .read

/-- a document as compact text, numbers and key order as they were read -/
def newline (unit : String) (depth : Nat) : String := "\n" ++ String.join (List.replicate depth unit)

mutual

/-- a document with one member or element a line -/
def pretty (unit : String) (depth : Nat) : Json → String
  | null => "null"
  | bool b => if b then "true" else "false"
  | number t => t
  | string s => Text.jsonString s
  | array [] => "[]"
  | array (x :: xs) =>
    "[" ++ newline unit (depth + 1) ++ pretty unit (depth + 1) x ++ prettyItems unit (depth + 1) xs
      ++ newline unit depth ++ "]"
  | object [] => "\x7b\x7d"
  | object ((k, x) :: xs) =>
    "\x7b" ++ newline unit (depth + 1) ++ Text.jsonString k ++ ": " ++ pretty unit (depth + 1) x
      ++ prettyFields unit (depth + 1) xs ++ newline unit depth ++ "\x7d"

def prettyItems (unit : String) (depth : Nat) : List Json → String
  | [] => ""
  | x :: xs => "," ++ newline unit depth ++ pretty unit depth x ++ prettyItems unit depth xs

def prettyFields (unit : String) (depth : Nat) : List (String × Json) → String
  | [] => ""
  | (k, x) :: xs =>
    "," ++ newline unit depth ++ Text.jsonString k ++ ": " ++ pretty unit depth x ++ prettyFields unit depth xs

end

end Schemata.Json
