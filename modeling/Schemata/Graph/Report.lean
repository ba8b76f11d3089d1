import Schemata.Graph.Basic
import Schemata.Json.Build

/-!
Nodes as JSON documents, for reports. What is unset is left out.
-/

namespace Schemata

def Options.report (x : Options) : List (String × Json) :=
  let int (k : String) (n : Option Int) := Json.opt k (n.map Json.ofInt)
  let float (k : String) (n : Option Float) := Json.opt k (n.map Json.ofFloat)
  match x with
  | .none => []
  | .text t => int "minLength" t.minLength ++ int "maxLength" t.maxLength ++ Json.word "pattern" t.pattern ++ Json.word "format" t.format
  | .number t => float "minimum" t.minimum ++ float "maximum" t.maximum ++ float "exclusiveMinimum" t.exclusiveMinimum
      ++ float "exclusiveMaximum" t.exclusiveMaximum ++ float "multipleOf" t.multipleOf
  | .object t => Json.list "keys" (t.keys.map .string) ++ [("unknown", Json.ofInt t.unlisted.code)]
  | .array t => int "minItems" t.minItems ++ int "maxItems" t.maxItems ++ Json.flag "unique" t.unique
  | .tuple r => Json.flag "rest" r
  | .record p => Json.word "keyPattern" p
  | .union d => Json.word "discriminator" d
  | .enum vs => [("values", .array (Json.ofValues vs))]
  | .const v => [("value", Json.ofValue v)]
  | .validator v =>
    [("mode", .string v.mode.name)] ++ Json.flag "assert" v.assert ++ Json.flag "coerce" v.coerce ++ Json.flag "formats" v.formats
  | .custom c => Json.opt "schema" (c.fragment.map fun f => Json.ofValue (.object f)) ++ Json.word "remote" c.remote

def Meta.report (m : Meta) : List (String × Json) :=
  Json.word "title" m.title ++ Json.word "description" m.description ++ Json.opt "default" (m.default.map Json.ofValue)
    ++ Json.flag "readOnly" m.readOnly ++ Json.flag "deprecated" m.deprecated ++ Json.list "examples" (Json.ofValues m.examples)
    ++ Json.nonEmpty "extensions" (Json.ofFields m.extensions) ++ Json.nonEmpty "openapi" (Json.ofFields m.openapi)
    ++ Json.list "rules" (m.rules.map fun r => Json.ofStrings [r.expr, r.message])

def Node.report (n : Node) : List (String × Json) :=
  [("id", Json.ofInt n.id), ("kind", .string n.kind.name), ("loaded", .bool n.loaded)] ++ Json.word "name" n.name
    ++ Json.word "hint" n.hint ++ Json.list "children" (n.children.map fun c => Json.ofInt (Int.ofNat c))
    ++ Json.nonEmpty "options" n.options.report ++ Json.nonEmpty "meta" n.info.report

end Schemata
