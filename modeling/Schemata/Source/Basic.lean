import Schemata.Shape
import Schemata.Format

/-!
Generated validators as data.

A validator file holds one function for every node of a program, numbered in the order of the nodes, and package
variables for patterns, rules and lists of values. A function is the list of helper calls in its body.
`Source.Generate` makes the file from a program, `Source.Print` writes it as text.
-/

namespace Schemata.Source

/-- which kind of value a helper asserts first -/
inductive Assertion where
  | string
  | number (coerce : Bool)
  | integer (coerce : Bool)
  | boolean (coerce : Bool)
  | null
  | array
  | object
  deriving Repr, DecidableEq

/-- the initial value of a package variable -/
inductive Initial where
  | pattern (text : String)
  | rule (r : Rule)
  | values (literals : List String)
  deriving Repr, DecidableEq

/-- a package variable; the numbers run through all of them -/
structure Variable where
  number : Nat
  initial : Initial
  deriving Repr, DecidableEq

def Variable.name (v : Variable) : String :=
  (match v.initial with
   | .pattern _ => "re"
   | .rule _ => "rule"
   | .values _ => "enum") ++ toString v.number

/-- one statement of a function body; functions are named by their numbers -/
inductive Statement where
  /-- asserts a kind and nothing more -/
  | assert (a : Assertion)
  /-- asserts a kind, and goes on with the asserted value -/
  | bind (a : Assertion)
  | minLength (n : Int)
  | maxLength (n : Int)
  | pattern (v : Variable)
  | format (name : String) (f : Format)
  | minimum (x : Float) (exclusive : Bool)
  | maximum (x : Float) (exclusive : Bool)
  | multipleOf (x : Float)
  | minItems (n : Int)
  | maxItems (n : Int)
  | unique
  | items (f : Nat)
  | tuple (minItems : Int) (closed : Bool) (rest : Option Nat) (items : List Nat)
  | required (keys : List String)
  | field (key : String) (f : Nat)
  | unknown (known : List String)
  | additional (f : Nat) (known : List String)
  | keyPattern (v : Variable)
  | anyOf (fs : List Nat)
  | oneOf (fs : List Nat)
  | tagged (property : String) (variants : List (String × Nat))
  | enum (v : Variable)
  | call (f : Nat)

/-- the function of one node -/
structure Function where
  number : Nat
  /-- the definition that the node is the root of -/
  definition : Option String := none
  nullable : Bool := false
  rules : List Variable := []
  body : List Statement := []

/-- names and settings of a generated file -/
structure Options where
  package : String := ""
  funcName : String := ""
  coerce : Bool := false
  assert : Bool := false
  deriving Repr, DecidableEq

/-- a generated validator -/
structure File where
  package : String
  funcName : String
  title : String
  assert : Bool
  entry : Nat
  vars : List Variable
  functions : List Function

/-- why a program has no validator source -/
inductive GenerateError where
  | unknownDefinition (name : String)
  | unsupportedNode (kind : String)
  | unknownFormat (name : String)
  | unsupportedPrimitive (name : String)
  | nonFinite (x : String)
  | unsupportedLiteral (carrier : String)
  | rule (e : Rule.CompileError)
  /-- a dispatch table that leads to no variant -/
  | badDispatch
  deriving Repr, DecidableEq

def GenerateError.message : GenerateError → String
  | unknownDefinition n => "gen: unknown definition " ++ Text.quote n
  | unsupportedNode k => "gen: unsupported node " ++ k
  | unknownFormat n => "gen: unknown format " ++ Text.quote n
  | unsupportedPrimitive n => "gen: unsupported primitive " ++ Text.quote n
  | nonFinite x => "gen: non-finite number " ++ x
  | unsupportedLiteral c => "gen: unsupported literal " ++ c
  | rule e => e.message
  | badDispatch => "gen: dispatch to a missing variant"

end Schemata.Source
