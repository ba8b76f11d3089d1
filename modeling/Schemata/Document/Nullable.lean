import Schemata.Schema.Decode
import Schemata.Dialect

/-!
Widening a schema so that it also accepts null.

The plain dialect has no keyword for it: a type becomes a list of types, a list of values gets a null, a union gets
a branch, and what can only be wrapped is wrapped. The API description dialect sets a flag, beside a reference only
after wrapping it.
-/

namespace Schemata.Document

open Schema (Body ofBody)

/-- the schema of null alone -/
def nullBranch : Schema := .ofKeywords { type := some (.string "null") }

/-- a type with null beside it; a list of types stays as it is -/
def widen : Option Value → Option Value
  | some (.string t) => some (if t = "null" then .string t else .array [.string t, .string "null"])
  | t => t

/-- does a branch accept nothing but null? A missing branch breaks off. -/
def hasNullBranch : List Schema → Outcome Bool
  | [] => .ok false
  | .absent :: _ => abort
  | s :: ss => if s.own.types = ["null"] && s.own.ref = "" then .ok true else hasNullBranch ss

def orNull (s : Schema) : Schema := ofBody { anyOf := some [s, nullBranch] }

def withNull (branches : List Schema) : Outcome (List Schema) := do
  return if ← hasNullBranch branches then branches else branches ++ [nullBranch]

/-- values with a null among them -/
def withNullValue (values : List Value) : List Value :=
  if values.any Value.isNull then values else values ++ [.null]

/-- widens a schema of the plain dialect; one without any constraint accepts null already -/
def plainNullable (s : Schema) : Outcome Schema :=
  let b := s.body
  let k := b.own
  if k.ref ≠ "" then .ok (orNull s)
  else
    match k.const, k.enum with
    | some .null, _ => .ok s
    | some v, _ => .ok (ofBody { b with own := { k with enum := some [v, .null], const := none } })
    | none, some values =>
      .ok (ofBody { b with own := { k with enum := some (withNullValue values), type := widen k.type } })
    | none, none =>
      match k.type, b.anyOf, b.oneOf, b.allOf with
      | some _, _, _, _ => .ok (ofBody { b with own := { k with type := widen k.type } })
      | none, some branches, _, _ => do return ofBody { b with anyOf := some (← withNull branches) }
      | none, none, some branches, _ => do return ofBody { b with oneOf := some (← withNull branches) }
      | none, none, none, some _ => .ok (orNull s)
      | none, none, none, none => .ok s

/-- widens a schema of the API description dialect; siblings of a reference would be ignored there -/
def openapiNullable (s : Schema) : Schema :=
  if s.own.ref ≠ "" then ofBody { own := { nullable := true }, allOf := some [s] }
  else s.mapOwn fun k => { k with nullable := true }

def nullable (d : Dialect) (s : Schema) : Outcome Schema :=
  match d with
  | .openapi => .ok (openapiNullable s)
  | .plain => plainNullable s

/-- null in the API description dialect, which has no type for it -/
def nullWorkaround : Schema :=
  .ofKeywords { type := some (.string "string"), enum := some [.null], nullable := true }

/-! ## Types of values -/

def numberType (x : Float) : String := if Number.isInt64 x then "integer" else "number"

/-- the type of one listed value; null has none of its own here -/
inductive LiteralType where
  | passes
  | type (name : String)
  | mixed

def literalTypeOf : Value → LiteralType
  | .null => .passes
  | .string _ => .type "string"
  | .bool _ => .type "boolean"
  | .int _ _ _ => .type "integer"
  | .single x => .type (numberType x)
  | .float x => .type (numberType x)
  | _ => .mixed

/-- the type that all listed values share, with integers among the numbers; empty when there is none -/
def literalType (shared : String) : List Value → String
  | [] => shared
  | v :: vs =>
    match literalTypeOf v with
    | .passes => literalType shared vs
    | .mixed => ""
    | .type t =>
      if shared = "" || shared = t then literalType t vs
      else if (shared = "integer" && t = "number") || (shared = "number" && t = "integer") then literalType "number" vs
      else ""

end Schemata.Document
