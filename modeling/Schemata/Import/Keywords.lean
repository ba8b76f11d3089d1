import Schemata.Graph.Build
import Schemata.Fragment

/-!
Keywords of schemas to import, read from decoded objects.

A keyword of the wrong type counts as missing. Counts are numbers that are not negative, cut to an integer.
-/

namespace Schemata.Import

variable (m : Dict Value)

def text? (key : String) : Option String :=
  match m.get? key with
  | some (.string s) => some s
  | _ => none

def isTrue (key : String) : Bool :=
  match m.get? key with
  | some (.bool b) => b
  | _ => false

def list? (key : String) : Option (List Value) :=
  match m.get? key with
  | some (.array xs) => some xs
  | _ => none

def object? (key : String) : Option (Dict Value) :=
  match m.get? key with
  | some (.object fs) => some fs
  | _ => none

def number? (key : String) : Option Float :=
  match m.get? key with
  | some (.float x) => some x
  | _ => none

def count? (key : String) : Option Int :=
  (number? m key).bind fun x => if x < 0 then none else some (Number.toInt64 x)

def stringsOf (xs : List Value) : List String := xs.filterMap fun | .string s => some s | _ => none

/-- the strings of a list -/
def strings (key : String) : List String := stringsOf ((list? m key).getD [])

def hasAny (keys : List String) : Bool := keys.any (m.has ·)

/-! ## Types -/

/-- the declared types -/
def typeNames : List String :=
  match m.get? "type" with
  | some (.string t) => [t]
  | some (.array ts) => stringsOf ts
  | _ => []

/-- the type that the keywords of a schema without one speak about -/
def inferredTypes : List String :=
  if hasAny m ["properties", "required", "additionalProperties", "patternProperties", "propertyNames",
      "x-kubernetes-preserve-unknown-fields"] then ["object"]
  else if hasAny m ["items", "prefixItems", "minItems", "maxItems", "uniqueItems"] then ["array"]
  else if hasAny m ["minLength", "maxLength", "pattern", "format"] then ["string"]
  else if hasAny m ["minimum", "maximum", "exclusiveMinimum", "exclusiveMaximum", "multipleOf"] then ["number"]
  else []

def isComposite : Bool := hasAny m ["anyOf", "oneOf", "allOf"]

mutual

/-- does a reference stand anywhere below? -/
def holdsReference : Value → Bool
  | .array xs => anyReference xs
  | .object fs => fieldReference fs
  | _ => false

def anyReference : List Value → Bool
  | [] => false
  | x :: xs => holdsReference x || anyReference xs

def fieldReference : List (String × Value) → Bool
  | [] => false
  | (k, x) :: rest => k == "$ref" || holdsReference x || fieldReference rest

end

/-! ## Settings -/

def textSettings : List Setting :=
  ((count? m "minLength").map Setting.minLength).toList ++ ((count? m "maxLength").map Setting.maxLength).toList
    ++ ((text? m "pattern").map Setting.pattern).toList ++ ((text? m "format").map Setting.format).toList

/-- bounds are exclusive by a flag beside them or by a keyword with a number of its own -/
def numberSettings : List Setting :=
  ((number? m "minimum").map (if isTrue m "exclusiveMinimum" then Setting.exclusiveMinimum else Setting.minimum)).toList
    ++ ((number? m "maximum").map (if isTrue m "exclusiveMaximum" then Setting.exclusiveMaximum else Setting.maximum)).toList
    ++ ((number? m "exclusiveMinimum").map Setting.exclusiveMinimum).toList
    ++ ((number? m "exclusiveMaximum").map Setting.exclusiveMaximum).toList
    ++ (((number? m "multipleOf").filter (· > 0)).map Setting.multipleOf).toList

def itemSettings : List Setting :=
  ((count? m "minItems").map Setting.minItems).toList ++ ((count? m "maxItems").map Setting.maxItems).toList
    ++ (if isTrue m "uniqueItems" then [Setting.uniqueItems] else [])

def annotationSettings : List Setting :=
  ((text? m "title").map Setting.title).toList ++ ((text? m "description").map Setting.describe).toList
    ++ ((m.get? "default").map Setting.default).toList
    ++ (if isTrue m "readOnly" then [Setting.readOnly] else []) ++ (if isTrue m "deprecated" then [Setting.deprecated] else [])
    ++ ((list? m "examples").map Setting.examples).toList
    ++ ((m.get? "example").map fun v => Setting.examples [v]).toList

/-- extensions with a meaning of their own -/
def knownExtensions : List String :=
  ["x-rules", "x-key-pattern", "x-kubernetes-preserve-unknown-fields", "x-kubernetes-int-or-string",
   "x-kubernetes-embedded-resource", "x-kubernetes-list-type", "x-kubernetes-list-map-keys", "x-kubernetes-validations"]

def extensionSettings : List Setting :=
  (m.filter fun (k, _) => Text.startsWith k "x-" && !knownExtensions.contains k).map fun (k, v) => .extension k v

/-- the property that tells the variants of a union apart -/
def discriminatorProperty : String :=
  match m.get? "discriminator" with
  | some (.string s) => s
  | some (.object d) => (text? d "propertyName").getD ""
  | _ => ""

/-! ## Elements that an array must hold, as rules -/

/-- the condition that `x` has a type -/
def typeTerm? : String → Option String
  | "string" => some "type(x) == string"
  | "boolean" => some "type(x) == bool"
  | "number" => some "type(x) in [int, uint, double]"
  | "object" => some "type(x) == map"
  | "array" => some "type(x) == list"
  | "null" => some "x == null"
  | _ => none

/-- numbers are written in full -/
def positional : Number.Layout := ⟨-400, 400⟩

/-- a constant inside a rule -/
def ruleLiteral? : Value → Option String
  | .null => some "null"
  | .bool b => some (if b then "true" else "false")
  | .string s => some (Text.quote s)
  | .float x =>
    if Number.isFinite x then
      let t := positional.text Number.double x
      some (if Text.contains t "." then t else t ++ ".0")
    else none
  | _ => none

/-- the condition on an element `x` that a schema states, if types, required keys and constants are all that it speaks about -/
def containsPredicate? (v : Value) : Option String :=
  match v with
  | .object fields => do
    let c : Dict Value := fields
    if !c.keys.all (["type", "required", "const", "enum", "title", "description"].contains ·) then none
    let typeTerms ← match c.get? "type" with
      | none => some []
      | some (.string t) => (typeTerm? t).map ([·])
      | some _ => none
    let required := sortStrings (strings c "required")
    let isMap := text? c "type" == some "object"
    let mapTerm := if required.isEmpty || isMap then [] else ["type(x) == map"]
    let constTerms ← match c.get? "const" with
      | none => some []
      | some v => (ruleLiteral? v).map fun t => ["x == " ++ t]
    let enumTerms ← match list? c "enum" with
      | none => some []
      | some vs => (vs.mapM ruleLiteral?).map fun ts => ["x in [" ++ ", ".intercalate ts ++ "]"]
    let terms := typeTerms ++ mapTerm ++ required.map (fun k => Text.quote k ++ " in x") ++ constTerms ++ enumTerms
    some (if terms.isEmpty then "true" else " && ".intercalate terms)
  | _ => none

/-- rules that count the elements with a property -/
def containsRules (predicate : String) : List Rule :=
  let least := (count? m "minContains").getD 1
  let most := count? m "maxContains"
  if least = 1 && most.isNone then [⟨"self.exists(x, " ++ predicate ++ ")", "must contain a matching element"⟩]
  else
    let bound (op : String) (n : Int) (words : String) : Rule :=
      ⟨"self.filter(x, " ++ predicate ++ ").size() " ++ op ++ " " ++ toString n,
       "must contain at " ++ words ++ " " ++ toString n ++ " matching elements"⟩
    (if least > 0 then [bound ">=" least "least"] else []) ++ (most.map fun n => bound "<=" n "most").toList

/-- no two elements agree on all of the keys -/
def distinctKeysRule (keys : List String) : Rule :=
  let same (k : String) : String := "y[" ++ Text.quote k ++ "] == x[" ++ Text.quote k ++ "]"
  ⟨"self.all(x, self.exists_one(y, " ++ " && ".intercalate (keys.map same) ++ "))",
   "duplicate entries for list-map-keys " ++ ", ".intercalate keys⟩

/-! ## What has no node of its own -/

def plainUnsupported : List String :=
  ["not", "if", "then", "else", "dependencies", "dependentRequired", "dependentSchemas", "minProperties", "maxProperties",
   "unevaluatedProperties", "unevaluatedItems", "contentMediaType", "contentEncoding"]

/-- the keywords of a schema that nodes cannot express -/
def unsupported : List String :=
  let props := m.has "properties"
  plainUnsupported.filter (m.has ·)
    ++ (if (object? m "patternProperties").any fun pp => props || pp.length > 1 then ["patternProperties"] else [])
    ++ (if (object? m "propertyNames").any fun pn => !pn.has "pattern" || pn.length > 1 then ["propertyNames"] else [])
    ++ (if props && (object? m "additionalProperties").any (!·.isEmpty) then ["additionalProperties"] else [])
    ++ (if (m.get? "contains").any fun c => (containsPredicate? c).isNone then ["contains"] else [])

end Schemata.Import
