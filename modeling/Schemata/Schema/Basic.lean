import Schemata.Json.Writer
import Schemata.Rule
import Schemata.Failure

/-!
Schema documents: the keywords of one schema and the schemas below it.

The plain keywords stand in a record, `Keywords`; every place that holds further schemas is an argument of the
constructor `Schema.node`. A place where a document has `null` instead of a schema holds `Schema.absent`, and a list
that was given empty is not the same as none. `Body` is the view that code without recursion reads and builds.
-/

namespace Schemata

/-- which property tells the variants of a union apart, and optionally which of its values means which variant -/
structure Discriminator where
  propertyName : String
  mapping : Dict String := []
  deriving Repr, DecidableEq, Inhabited

/-- the keywords of a schema that hold no further schema -/
structure Keywords where
  schemaUri : String := ""
  ref : String := ""
  title : String := ""
  description : String := ""
  type : Option Value := none
  format : String := ""
  default : Option Value := none
  examples : List Value := []
  readOnly : Bool := false
  deprecated : Bool := false
  nullable : Bool := false
  enum : Option (List Value) := none
  const : Option Value := none
  minLength : Option Int := none
  maxLength : Option Int := none
  pattern : String := ""
  minimum : Option Float := none
  maximum : Option Float := none
  exclusiveMinimum : Option Value := none
  exclusiveMaximum : Option Value := none
  multipleOf : Option Float := none
  required : List String := []
  minItems : Option Int := none
  maxItems : Option Int := none
  uniqueItems : Bool := false
  discriminator : Option Discriminator := none
  rules : List Rule := []
  /-- keywords of no fixed meaning, kept as they are -/
  extra : Dict Value := []
  deriving Inhabited

mutual

/-- a schema, or the place of one that is missing -/
inductive Schema where
  | absent
  | node (own : Keywords) (properties : Option (List (String × Schema))) (additional : Extent) (propertyNames : Schema)
      (items : Items) (additionalItems : Extent) (anyOf oneOf allOf : Option (List Schema))
      (definitions defs : List (String × Schema))

/-- what may stand beyond the listed properties or positions -/
inductive Extent where
  | unset
  | flag (allowed : Bool)
  | sub (s : Schema)

/-- one schema for all items, or one for each position -/
inductive Items where
  | unset
  | single (s : Schema)
  | tuple (ss : List Schema)

end

instance : Inhabited Schema := ⟨.absent⟩
instance : Inhabited Extent := ⟨.unset⟩
instance : Inhabited Items := ⟨.unset⟩

namespace Schema

/-- the parts of a schema node by name -/
structure Body where
  own : Keywords := {}
  properties : Option (List (String × Schema)) := none
  additional : Extent := .unset
  propertyNames : Schema := .absent
  items : Items := .unset
  additionalItems : Extent := .unset
  anyOf : Option (List Schema) := none
  oneOf : Option (List Schema) := none
  allOf : Option (List Schema) := none
  definitions : List (String × Schema) := []
  defs : List (String × Schema) := []
  deriving Inhabited

def ofBody (b : Body) : Schema :=
  .node b.own b.properties b.additional b.propertyNames b.items b.additionalItems b.anyOf b.oneOf b.allOf
    b.definitions b.defs

def body? : Schema → Option Body
  | absent => none
  | node own properties additional propertyNames items additionalItems anyOf oneOf allOf definitions defs =>
    some { own, properties, additional, propertyNames, items, additionalItems, anyOf, oneOf, allOf, definitions, defs }

/-- the parts of a schema; a missing one has none -/
def body (s : Schema) : Body := s.body?.getD {}

def own (s : Schema) : Keywords := s.body.own

def isAbsent : Schema → Bool
  | absent => true
  | node .. => false

/-- a schema with plain keywords only -/
def ofKeywords (k : Keywords) : Schema := ofBody { own := k }

/-- the schema without keywords, which accepts everything -/
def empty : Schema := ofBody {}

/-- the plain keywords changed -/
def mapOwn (s : Schema) (f : Keywords → Keywords) : Schema :=
  match s with
  | absent => absent
  | node own properties additional propertyNames items additionalItems anyOf oneOf allOf definitions defs =>
    node (f own) properties additional propertyNames items additionalItems anyOf oneOf allOf definitions defs

/-- a schema that only points elsewhere -/
def reference (target : String) : Schema := ofKeywords { ref := target }

end Schema

/-- the declared types as a list; anything that is no type name is passed over -/
def Keywords.types (k : Keywords) : List String :=
  match k.type with
  | some (.string t) => [t]
  | some (.array ts) => ts.filterMap fun | .string t => some t | _ => none
  | _ => []

/-- a definition by its name, of either keyword -/
def Schema.Body.definition? (b : Schema.Body) (name : String) : Option Schema :=
  (Dict.get? b.definitions name).orElse fun _ => Dict.get? b.defs name

end Schemata
