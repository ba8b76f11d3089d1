import Schemata.Json.Build
import Schemata.Shape

/-!
Programs as JSON documents, for reports and for programs made by hand.

Fields that say nothing are left out when writing and may be left out when reading. An object without a known kind
is read as a foreign shape, anything that is no object as a missing one.
-/

namespace Schemata.Shape

def baseFields (s : Shape) : List (String × Json) :=
  [("kind", .string s.kindName)] ++ Json.flag "nullable" s.base.nullable
    ++ Json.list "rules" (s.base.rules.map fun r => Json.ofStrings [r.expr, r.message])

def intField (key : String) (n : Option Int) : List (String × Json) := Json.opt key (n.map Json.ofInt)

def floatField (key : String) (x : Option Float) : List (String × Json) := Json.opt key (x.map Json.ofFloat)

def primitiveFields (p : Primitive) : List (String × Json) :=
  [("name", .string p.type.name)] ++ intField "minLength" p.minLength ++ intField "maxLength" p.maxLength
    ++ Json.word "pattern" p.pattern ++ Json.word "format" p.format ++ floatField "min" p.min ++ floatField "max" p.max
    ++ Json.flag "exMin" p.exclusiveMin ++ Json.flag "exMax" p.exclusiveMax ++ floatField "multipleOf" p.multipleOf

def dispatchFields (d : Dispatch) : List (String × Json) :=
  Json.word "discriminator" d.property ++
    (match d.mapping with
     | some m => [("mapping", .object (m.mapValues Json.ofInt)), ("tags", Json.ofStrings m.keys)]
     | none => [])

mutual

/-- the document of a shape -/
def toJson (s : Shape) : Json :=
  match s with
  | .absent => .null
  | .primitive b p => .object (baseFields (.primitive b p) ++ primitiveFields p)
  | .array b i l => .object (baseFields (.array b i l) ++ part "item" i ++ intField "minItems" l.minItems
      ++ intField "maxItems" l.maxItems ++ Json.flag "unique" l.unique)
  | .tuple b is r l => .object (baseFields (.tuple b is r l) ++ [("items", .array (toJsons is)), ("minItems", Json.ofInt l.minItems)]
      ++ intField "maxItems" l.maxItems ++ part "rest" r ++ Json.flag "closed" l.closed ++ Json.flag "unique" l.unique)
  | .object b fs a p => .object (baseFields (.object b fs a p)
      ++ [("fields", .array (fieldsToJson fs)), ("required", Json.ofStrings (p.requiredKeys fs)), ("unknown", Json.ofInt p.unknown.code)]
      ++ part "additional" a ++ Json.word "keyPattern" p.keyPattern)
  | .oneOf b vs d => .object (baseFields (.oneOf b vs d) ++ [("variants", .array (toJsons vs))] ++ dispatchFields d)
  | .anyOf b vs => .object (baseFields (.anyOf b vs) ++ [("variants", .array (toJsons vs))])
  | .allOf b ps => .object (baseFields (.allOf b ps) ++ [("parts", .array (toJsons ps))])
  | .enum b vs => .object (baseFields (.enum b vs) ++ [("values", .array (Json.ofValues vs))])
  | .ref b n => .object (baseFields (.ref b n) ++ [("name", .string n)])
  | .any b => .object (baseFields (.any b))
  | .foreign b => .object (baseFields (.foreign b))

/-- the entry of a part, which may be missing -/
def part (key : String) : Shape → List (String × Json)
  | .absent => []
  | s => [(key, toJson s)]

def toJsons : List Shape → List Json
  | [] => []
  | s :: ss => toJson s :: toJsons ss

def fieldsToJson : List (String × Shape) → List Json
  | [] => []
  | (k, s) :: rest => .array [.string k, toJson s] :: fieldsToJson rest

end

def readPair (j : Json) : String × Json :=
  match j.asArr with
  | k :: x :: _ => (k.asStr, x)
  | _ => ("", .null)

def readBase (j : Json) : Base :=
  { nullable := j.isTrue "nullable",
    rules := (j.arr "rules").map fun r => ⟨(r.asArr.headD .null).asStr, (r.asArr.getD 1 .null).asStr⟩ }

def readPrimitive (j : Json) : Primitive :=
  let int (k : String) : Option Int := if j.has k then some (j.int k) else none
  let float (k : String) : Option Float := if j.has k then some (j.member k).asFloat else none
  { type := Scalar.ofName (j.str "name"), minLength := int "minLength", maxLength := int "maxLength", pattern := j.str "pattern",
    format := j.str "format", min := float "min", max := float "max", exclusiveMin := j.isTrue "exMin",
    exclusiveMax := j.isTrue "exMax", multipleOf := float "multipleOf" }

/-- the shape of a document down to a depth, given how the values in it are read -/
def ofJson (value : Json → Value) : (depth : Nat) → Json → Shape
  | 0, _ => .absent
  | depth + 1, j =>
    match j with
    | .object _ =>
      let b := readBase j
      let int (k : String) : Option Int := if j.has k then some (j.int k) else none
      let sub (k : String) : Shape := ofJson value depth (j.member k)
      let subs (k : String) : List Shape := (j.arr k).map (ofJson value depth)
      match j.str "kind" with
      | "primitive" => .primitive b (readPrimitive j)
      | "array" => .array b (sub "item") { minItems := int "minItems", maxItems := int "maxItems", unique := j.isTrue "unique" }
      | "tuple" => .tuple b (subs "items") (sub "rest")
          { minItems := j.int "minItems", maxItems := int "maxItems", closed := j.isTrue "closed", unique := j.isTrue "unique" }
      | "object" => .object b
          ((j.arr "fields").map fun f => let (k, x) := readPair f; (k, ofJson value depth x)) (sub "additional")
          { required := sortedSet (j.strs "required"), unknown := .ofCode (j.int "unknown"), keyPattern := j.str "keyPattern" }
      | "oneOf" => .oneOf b (subs "variants")
          { property := j.str "discriminator",
            mapping := if j.has "mapping" then some (Dict.ofList ((j.obj "mapping").map fun (k, n) => (k, n.asInt))) else none }
      | "anyOf" => .anyOf b (subs "variants")
      | "allOf" => .allOf b (subs "parts")
      | "enum" => .enum b ((j.arr "values").map value)
      | "ref" => .ref b (j.str "name")
      | "any" => .any b
      | _ => .foreign b
    | _ => .absent

end Schemata.Shape
