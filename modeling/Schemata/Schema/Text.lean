import Schemata.Schema.Basic

/-!
The text of schema documents.

A schema is written with its keywords in a fixed order and everything empty left out; as soon as it has keywords of
no fixed meaning, all of its keywords are written in the order of their names, and a keyword of fixed meaning wins
over one of the same name.
-/

namespace Schemata.Schema

open Json (WriteError)

/-- a keyword with its text -/
abbrev Entry := String × String

def textEntry (key s : String) : List Entry := if s = "" then [] else [(key, Text.jsonString s)]

def boolEntry (key : String) (b : Bool) : List Entry := if b then [(key, "true")] else []

def intEntry (key : String) (n : Option Int) : List Entry :=
  match n with
  | some n => [(key, toString n)]
  | none => []

def valueEntry (key : String) (v : Option Value) : Except WriteError (List Entry) :=
  match v with
  | some v => (Json.compact v).map fun t => [(key, t)]
  | none => .ok []

def floatEntry (key : String) (x : Option Float) : Except WriteError (List Entry) :=
  match x with
  | some x => (Json.floatText Number.double x).map fun t => [(key, t)]
  | none => .ok []

def valuesEntry (key : String) (vs : List Value) : Except WriteError (List Entry) :=
  if vs.isEmpty then .ok [] else (Json.compact (.array vs)).map fun t => [(key, t)]

def braces (entries : List Entry) : String :=
  "\x7b" ++ ",".intercalate (entries.map fun (k, t) => Text.jsonString k ++ ":" ++ t) ++ "\x7d"

def brackets (ts : List String) : String := "[" ++ ",".intercalate ts ++ "]"

def discriminatorText (d : Discriminator) : String :=
  braces ([("propertyName", Text.jsonString d.propertyName)] ++
    (if d.mapping.isEmpty then [] else [("mapping", braces (d.mapping.map fun (k, v) => (k, Text.jsonString v)))]))

def ruleText (r : Rule) : String :=
  braces ([("rule", Text.jsonString r.expr)] ++ textEntry "message" r.message)

/-- the texts of the places that hold further schemas -/
structure Below where
  properties : List Entry
  additional : List Entry
  propertyNames : List Entry
  items : List Entry
  additionalItems : List Entry
  composition : List Entry
  definitions : List Entry

/-- all keywords of a schema, in order -/
def entries (k : Keywords) (b : Below) : Except WriteError (List Entry) := do
  let type ← valueEntry "type" k.type
  let default ← valueEntry "default" k.default
  let examples ← valuesEntry "examples" k.examples
  let enum ← valuesEntry "enum" (k.enum.getD [])
  let const ← valueEntry "const" k.const
  let minimum ← floatEntry "minimum" k.minimum
  let maximum ← floatEntry "maximum" k.maximum
  let exclusiveMinimum ← valueEntry "exclusiveMinimum" k.exclusiveMinimum
  let exclusiveMaximum ← valueEntry "exclusiveMaximum" k.exclusiveMaximum
  let multipleOf ← floatEntry "multipleOf" k.multipleOf
  return textEntry "$schema" k.schemaUri ++ textEntry "$ref" k.ref ++ textEntry "title" k.title
    ++ textEntry "description" k.description ++ type ++ textEntry "format" k.format ++ default ++ examples
    ++ boolEntry "readOnly" k.readOnly ++ boolEntry "deprecated" k.deprecated ++ boolEntry "nullable" k.nullable
    ++ enum ++ const ++ intEntry "minLength" k.minLength ++ intEntry "maxLength" k.maxLength
    ++ textEntry "pattern" k.pattern ++ minimum ++ maximum ++ exclusiveMinimum ++ exclusiveMaximum ++ multipleOf
    ++ b.properties
    ++ (if k.required.isEmpty then [] else [("required", brackets (k.required.map Text.jsonString))])
    ++ b.additional ++ b.propertyNames ++ b.items ++ b.additionalItems
    ++ intEntry "minItems" k.minItems ++ intEntry "maxItems" k.maxItems ++ boolEntry "uniqueItems" k.uniqueItems
    ++ b.composition
    ++ (match k.discriminator with | some d => [("discriminator", discriminatorText d)] | none => [])
    ++ b.definitions
    ++ (if k.rules.isEmpty then [] else [("x-rules", brackets (k.rules.map ruleText))])

def mapEntry (key : String) (es : List Entry) : List Entry := if es.isEmpty then [] else [(key, braces es)]

def listEntry (key : String) (ts : List String) : List Entry := if ts.isEmpty then [] else [(key, brackets ts)]

mutual

/-- the text of a schema -/
def text : Schema → Except WriteError String
  | .absent => .ok "null"
  | .node own properties additional propertyNames items additionalItems anyOf oneOf allOf definitions defs => do
    let ps ← textOptional properties
    let add ← textExtent additional
    let names ← text propertyNames
    let its ← textItems items
    let addItems ← textExtent additionalItems
    let anys ← textGiven anyOf
    let ones ← textGiven oneOf
    let alls ← textGiven allOf
    let ds1 ← textFields definitions
    let ds2 ← textFields defs
    let below : Below := {
      properties := mapEntry "properties" ps
      additional := add.map fun t => ("additionalProperties", t)
      propertyNames := if propertyNames.isAbsent then [] else [("propertyNames", names)]
      items := its.map fun t => ("items", t)
      additionalItems := addItems.map fun t => ("additionalItems", t)
      composition := listEntry "anyOf" anys ++ listEntry "oneOf" ones ++ listEntry "allOf" alls
      definitions := mapEntry "definitions" ds1 ++ mapEntry "$defs" ds2 }
    let es ← entries own below
    if own.extra.isEmpty then return braces es
    let extra ← Json.compactFields own.extra
    let extraEntries := own.extra.map (·.1) |>.zip extra
    let known := es.map fun (k, t) => (k, Text.jsonString k ++ ":" ++ t)
    return "\x7b" ++ ",".intercalate ((Dict.ofList (extraEntries ++ known)).map (·.2)) ++ "\x7d"

def textList : List Schema → Except WriteError (List String)
  | [] => .ok []
  | s :: ss => do
    let t ← text s
    let ts ← textList ss
    return t :: ts

def textGiven : Option (List Schema) → Except WriteError (List String)
  | none => .ok []
  | some ss => textList ss

def textFields : List (String × Schema) → Except WriteError (List Entry)
  | [] => .ok []
  | (k, s) :: ss => do
    let t ← text s
    let ts ← textFields ss
    return (k, t) :: ts

def textOptional : Option (List (String × Schema)) → Except WriteError (List Entry)
  | none => .ok []
  | some fs => textFields fs

def textExtent : Extent → Except WriteError (List String)
  | .unset => .ok []
  | .flag b => .ok [if b then "true" else "false"]
  | .sub s => (text s).map fun t => [t]

def textItems : Items → Except WriteError (List String)
  | .unset => .ok []
  | .single s => if s.isAbsent then .ok ["\x7b\x7d"] else (text s).map fun t => [t]
  | .tuple ss => (textList ss).map fun ts => [brackets ts]

end

end Schemata.Schema
