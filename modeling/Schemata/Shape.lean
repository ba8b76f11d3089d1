import Schemata.Value
import Schemata.Rule

/-!
Shapes: what a schema document comes down to when values are checked.

A `Shape` is a tree of checks; `ref` leads to a definition of the program or, with the empty name, to its root, so
programs may be recursive while every shape is finite. The places of missing checks hold `absent`, and `foreign`
stands for a check of a kind that nothing here can run.
-/

namespace Schemata

/-- what every shape may carry: null is accepted before all other checks, rules run after them -/
structure Base where
  nullable : Bool := false
  rules : List Rule := []
  deriving Repr, DecidableEq, Inhabited

/-- the names of scalar types -/
inductive Scalar where
  | string | number | integer | boolean | null
  | other (name : String)
  deriving Repr, DecidableEq

def Scalar.name : Scalar → String
  | string => "string"
  | number => "number"
  | integer => "integer"
  | boolean => "boolean"
  | null => "null"
  | other n => n

def Scalar.ofName : String → Scalar
  | "string" => string
  | "number" => number
  | "integer" => integer
  | "boolean" => boolean
  | "null" => null
  | n => other n

/-- a scalar type with its constraints; an exclusive bound excludes its own value -/
structure Primitive where
  type : Scalar
  minLength : Option Int := none
  maxLength : Option Int := none
  pattern : String := ""
  format : String := ""
  min : Option Float := none
  max : Option Float := none
  exclusiveMin : Bool := false
  exclusiveMax : Bool := false
  multipleOf : Option Float := none

structure ArrayLimits where
  minItems : Option Int := none
  maxItems : Option Int := none
  unique : Bool := false
  deriving Repr, DecidableEq

structure TupleLimits where
  minItems : Int := 0
  maxItems : Option Int := none
  /-- no item beyond the listed positions -/
  closed : Bool := false
  unique : Bool := false
  deriving Repr, DecidableEq

/-- what happens to keys that no field lists -/
inductive UnknownKeys where
  | allow | strict | checked
  | other (code : Int)
  deriving Repr, DecidableEq

def UnknownKeys.code : UnknownKeys → Int
  | allow => 0
  | strict => 1
  | checked => 2
  | other n => n

def UnknownKeys.ofCode (n : Int) : UnknownKeys :=
  if n = 0 then allow else if n = 1 then strict else if n = 2 then checked else other n

structure ObjectPolicy where
  /-- sorted, without repetition -/
  required : List String := []
  unknown : UnknownKeys := .allow
  keyPattern : String := ""
  deriving Repr, DecidableEq

/-- dispatch on a property: which of its values selects which variant -/
structure Dispatch where
  property : String := ""
  mapping : Option (Dict Int) := none
  deriving Repr, DecidableEq

inductive Shape where
  | absent
  | foreign (base : Base)
  | any (base : Base)
  | primitive (base : Base) (p : Primitive)
  | array (base : Base) (item : Shape) (limits : ArrayLimits)
  | tuple (base : Base) (items : List Shape) (rest : Shape) (limits : TupleLimits)
  | object (base : Base) (fields : List (String × Shape)) (additional : Shape) (policy : ObjectPolicy)
  | oneOf (base : Base) (variants : List Shape) (dispatch : Dispatch)
  | anyOf (base : Base) (variants : List Shape)
  | allOf (base : Base) (parts : List Shape)
  | enum (base : Base) (values : List Value)
  | ref (base : Base) (name : String)
  deriving Inhabited

namespace Shape

def base : Shape → Base
  | absent => {}
  | foreign b => b
  | any b => b
  | primitive b _ => b
  | array b _ _ => b
  | tuple b _ _ _ => b
  | object b _ _ _ => b
  | oneOf b _ _ => b
  | anyOf b _ => b
  | allOf b _ => b
  | enum b _ => b
  | ref b _ => b

def mapBase (f : Base → Base) : Shape → Shape
  | absent => absent
  | foreign b => foreign (f b)
  | any b => any (f b)
  | primitive b p => primitive (f b) p
  | array b i l => array (f b) i l
  | tuple b is r l => tuple (f b) is r l
  | object b fs a p => object (f b) fs a p
  | oneOf b vs d => oneOf (f b) vs d
  | anyOf b vs => anyOf (f b) vs
  | allOf b ps => allOf (f b) ps
  | enum b vs => enum (f b) vs
  | ref b n => ref (f b) n

def isAbsent : Shape → Bool
  | absent => true
  | _ => false

def kindName : Shape → String
  | absent => "unknown"
  | foreign _ => "unknown"
  | any _ => "any"
  | primitive _ _ => "primitive"
  | array _ _ _ => "array"
  | tuple _ _ _ _ => "tuple"
  | object _ _ _ _ => "object"
  | oneOf _ _ _ => "oneOf"
  | anyOf _ _ => "anyOf"
  | allOf _ _ => "allOf"
  | enum _ _ => "enum"
  | ref _ _ => "ref"

/-- the names of all kinds, and of what lies beyond them -/
def kindNames : List String :=
  ["primitive", "array", "object", "oneOf", "anyOf", "allOf", "enum", "tuple", "ref", "any", "unknown"]

mutual

/-- the number of nodes; a missing one counts nothing -/
def size : Shape → Nat
  | absent => 0
  | foreign _ => 1
  | any _ => 1
  | primitive _ _ => 1
  | array _ i _ => 1 + size i
  | tuple _ is r _ => 1 + sizeAll is + size r
  | object _ fs a _ => 1 + sizeFields fs + size a
  | oneOf _ vs _ => 1 + sizeAll vs
  | anyOf _ vs => 1 + sizeAll vs
  | allOf _ ps => 1 + sizeAll ps
  | enum _ _ => 1
  | ref _ _ => 1

def sizeAll : List Shape → Nat
  | [] => 0
  | s :: ss => size s + sizeAll ss

def sizeFields : List (String × Shape) → Nat
  | [] => 0
  | (_, s) :: ss => size s + sizeFields ss

end

mutual

/-- all nodes of a shape, each before what lies below it -/
def nodes : Shape → List Shape
  | absent => []
  | array b i l => array b i l :: nodes i
  | tuple b is r l => tuple b is r l :: (nodesAll is ++ nodes r)
  | object b fs a p => object b fs a p :: (nodesFields fs ++ nodes a)
  | oneOf b vs d => oneOf b vs d :: nodesAll vs
  | anyOf b vs => anyOf b vs :: nodesAll vs
  | allOf b ps => allOf b ps :: nodesAll ps
  | s => [s]

def nodesAll : List Shape → List Shape
  | [] => []
  | s :: ss => nodes s ++ nodesAll ss

def nodesFields : List (String × Shape) → List Shape
  | [] => []
  | (_, s) :: ss => nodes s ++ nodesFields ss

end

end Shape

/-- the required keys: those with a field in the order of the fields, then the others in order -/
def ObjectPolicy.requiredKeys (p : ObjectPolicy) (fields : List (String × Shape)) : List String :=
  let listed := (fields.map (·.1)).filter p.required.contains
  listed ++ p.required.filter fun k => !listed.contains k

/-- a lowered document: its root and its definitions -/
structure Program where
  root : Shape
  defs : List (String × Shape) := []
  /-- the names of the definitions in the order of their checks -/
  order : List String := []
  /-- how generated comments call the root -/
  title : String := ""
  deriving Inhabited

namespace Program

def definition (p : Program) (name : String) : Shape := (Dict.get? p.defs name).getD .absent

/-- the names of the definitions, each once -/
def names (p : Program) : List String := p.order.eraseDups

/-- the shapes of the program: the root first, then the definitions in order -/
def shapes (p : Program) : List Shape := p.root :: p.names.map p.definition

def nodes (p : Program) : List Shape := p.shapes.flatMap Shape.nodes

def size (p : Program) : Nat := Shape.sizeAll p.shapes

/-- the formats that the program checks, sorted -/
def usedFormats (p : Program) : List String :=
  sortedSet (p.nodes.filterMap fun
    | .primitive _ q => if q.format = "" then none else some q.format
    | _ => none)

/-- the shape a reference leads to -/
def target? (p : Program) (name : String) : Option Shape :=
  if name = "" then some p.root
  else if p.order.contains name then some (p.definition name)
  else none

end Program

end Schemata
