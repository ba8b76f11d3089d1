/-!
Flavours of schema documents and modes of validators.
-/

namespace Schemata

/-- `plain` writes null into type lists and branches; `openapi` has a keyword for it -/
inductive Dialect where
  | plain | openapi
  deriving Repr, DecidableEq, Inhabited

def Dialect.name : Dialect → String
  | plain => "jsonschema"
  | openapi => "openapi"

/-- the dialect of a configured name -/
def Dialect.parse? : String → Option Dialect
  | "" => some plain
  | "jsonschema" => some plain
  | "json-schema" => some plain
  | "draft-07" => some plain
  | "openapi" => some openapi
  | "openapi3" => some openapi
  | "oas3" => some openapi
  | _ => none

/-- a validator is emitted as source text or kept as a callable predicate -/
inductive ValidatorMode where
  | source | predicate
  deriving Repr, DecidableEq, Inhabited

def ValidatorMode.name : ValidatorMode → String
  | source => "source"
  | predicate => "predicate"

end Schemata
