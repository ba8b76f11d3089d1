import Schemata.Schema.Text

/-!
Reading schema documents.

Every keyword takes the form of value that it is for and refuses all others; `null` is the same as leaving a keyword
out. Keywords that are not known are kept as data. Names of keywords are matched exactly. A keyword given twice
holds its last value, but what holds members (properties, definitions, key names, a discriminator) gathers them from
all its entries.
-/

namespace Schemata.Schema

/-- a document that is no schema: not JSON, or a keyword with a value of the wrong form -/
inductive DecodeError where
  | json (e : Json.ReadError)
  | wrongType (key : String)
  deriving Repr, DecidableEq

def DecodeError.message : DecodeError → String
  | json e => e.message
  | wrongType key => "json: cannot unmarshal value of keyword " ++ key

abbrev Decoded (α : Type) := Except DecodeError α

def wrong {α : Type} (key : String) : Decoded α := .error (.wrongType key)

def asText (key : String) : Json → Decoded String
  | .string s => .ok s
  | _ => wrong key

def asBool (key : String) : Json → Decoded Bool
  | .bool b => .ok b
  | _ => wrong key

/-- digits with an optional minus sign; a word of 64 bits, and at most 19 digits -/
def asInt (key : String) : Json → Decoded (Option Int)
  | .number t =>
    let (negative, ds) := match t.toList with
      | '-' :: r => (true, r)
      | r => (false, r)
    let plain := !ds.isEmpty && ds.all Char.isDigit && ds.length ≤ 19 && (ds.head? != some '0' || ds.length == 1 || negative)
    if plain then
      let n : Int := ds.foldl (fun n c => n * 10 + ((c.toNat : Int) - 48)) 0
      .ok (some ((if negative then -n else n).bmod (Nat.pow 2 64)))
    else wrong key
  | _ => wrong key

def asFloat (key : String) : Json → Decoded (Option Float)
  | .number t => .ok (Number.parse? t)
  | _ => wrong key

def asValues (key : String) : Json → Decoded (List Value)
  | .array xs => .ok (Json.toValues xs)
  | _ => wrong key

def asTexts (key : String) : Json → Decoded (List String)
  | .array xs => xs.mapM fun x => match x with
    | .null => .ok ""
    | x => asText key x
  | _ => wrong key

/-- entries added to a mapping; the value `null` is the empty text -/
def asMapping (key : String) (earlier : Dict String) : Json → Decoded (Dict String)
  | .object fs => fs.foldlM (fun acc (k, x) => match x with
      | .null => .ok (Dict.insert acc k "")
      | x => (asText key x).map (Dict.insert acc k ·)) earlier
  | _ => wrong key

/-- the last entry of a key that is not `null` -/
def lastOf (fs : List (String × Json)) (key : String) : Option Json :=
  fs.foldl (fun acc (k, x) => if k = key then (match x with | .null => acc | x => some x) else acc) none

def textOf (fs : List (String × Json)) (key : String) : Decoded String :=
  match lastOf fs key with
  | some x => asText key x
  | none => .ok ""

/-- the members of a discriminator, set one after the other -/
def asDiscriminator (key : String) (earlier : Discriminator) : Json → Decoded Discriminator
  | .object fs => fs.foldlM (fun d (k, x) => match k, x with
      | "propertyName", .null => .ok d
      | "propertyName", x => (asText key x).map fun s => { d with propertyName := s }
      | "mapping", .null => .ok { d with mapping := [] }
      | "mapping", x => (asMapping key d.mapping x).map fun m => { d with mapping := m }
      | _, _ => .ok d) earlier
  | _ => wrong key

def asRule (key : String) : Json → Decoded Rule
  | .null => .ok ⟨"", ""⟩
  | .object fs => do
    let expr ← textOf fs "rule"
    let message ← textOf fs "message"
    return ⟨expr, message⟩
  | _ => wrong key

def asRules (key : String) : Json → Decoded (List Rule)
  | .array xs => xs.mapM (asRule key)
  | _ => wrong key

/-- a plain keyword set from its value; `none` when the keyword is not a plain one -/
def setKeyword (k : Keywords) (key : String) (j : Json) : Option (Decoded Keywords) :=
  match key with
  | "$schema" => some ((asText key j).map fun s => { k with schemaUri := s })
  | "$ref" => some ((asText key j).map fun s => { k with ref := s })
  | "title" => some ((asText key j).map fun s => { k with title := s })
  | "description" => some ((asText key j).map fun s => { k with description := s })
  | "type" => some (.ok { k with type := some j.toValue })
  | "format" => some ((asText key j).map fun s => { k with format := s })
  | "default" => some (.ok { k with default := some j.toValue })
  | "examples" => some ((asValues key j).map fun vs => { k with examples := vs })
  | "readOnly" => some ((asBool key j).map fun b => { k with readOnly := b })
  | "deprecated" => some ((asBool key j).map fun b => { k with deprecated := b })
  | "nullable" => some ((asBool key j).map fun b => { k with nullable := b })
  | "enum" => some ((asValues key j).map fun vs => { k with enum := some vs })
  | "const" => some (.ok { k with const := some j.toValue })
  | "minLength" => some ((asInt key j).map fun n => { k with minLength := n })
  | "maxLength" => some ((asInt key j).map fun n => { k with maxLength := n })
  | "pattern" => some ((asText key j).map fun s => { k with pattern := s })
  | "minimum" => some ((asFloat key j).map fun x => { k with minimum := x })
  | "maximum" => some ((asFloat key j).map fun x => { k with maximum := x })
  | "exclusiveMinimum" => some (.ok { k with exclusiveMinimum := some j.toValue })
  | "exclusiveMaximum" => some (.ok { k with exclusiveMaximum := some j.toValue })
  | "multipleOf" => some ((asFloat key j).map fun x => { k with multipleOf := x })
  | "required" => some ((asTexts key j).map fun ss => { k with required := ss })
  | "minItems" => some ((asInt key j).map fun n => { k with minItems := n })
  | "maxItems" => some ((asInt key j).map fun n => { k with maxItems := n })
  | "uniqueItems" => some ((asBool key j).map fun b => { k with uniqueItems := b })
  | "discriminator" => some ((asDiscriminator key (k.discriminator.getD { propertyName := "" }) j).map fun d => { k with discriminator := some d })
  | "x-rules" => some ((asRules key j).map fun rs => { k with rules := rs })
  | _ => none

/-- a plain keyword as `null` leaves it: text and truth values stay, everything else is taken back -/
def clearKeyword (k : Keywords) : String → Keywords
  | "type" => { k with type := none }
  | "default" => { k with default := none }
  | "examples" => { k with examples := [] }
  | "enum" => { k with enum := none }
  | "const" => { k with const := none }
  | "minLength" => { k with minLength := none }
  | "maxLength" => { k with maxLength := none }
  | "minimum" => { k with minimum := none }
  | "maximum" => { k with maximum := none }
  | "exclusiveMinimum" => { k with exclusiveMinimum := none }
  | "exclusiveMaximum" => { k with exclusiveMaximum := none }
  | "multipleOf" => { k with multipleOf := none }
  | "required" => { k with required := [] }
  | "minItems" => { k with minItems := none }
  | "maxItems" => { k with maxItems := none }
  | "discriminator" => { k with discriminator := none }
  | "x-rules" => { k with rules := [] }
  | _ => k

/-- keywords that hold further schemas -/
def structural : List String :=
  ["properties", "additionalProperties", "propertyNames", "items", "additionalItems", "anyOf", "oneOf", "allOf",
   "definitions", "$defs"]

/-- keywords of fixed meaning -/
def isKnown (key : String) : Bool := structural.contains key || (setKeyword {} key (.bool true)).isSome

/-- a schema as the keyword with `null` leaves it -/
def clear (b : Body) (key : String) : Body :=
  match key with
  | "properties" => { b with properties := none }
  | "additionalProperties" => { b with additional := .unset }
  | "propertyNames" => { b with propertyNames := .absent }
  | "items" => { b with items := .unset }
  | "additionalItems" => { b with additionalItems := .unset }
  | "anyOf" => { b with anyOf := none }
  | "oneOf" => { b with oneOf := none }
  | "allOf" => { b with allOf := none }
  | "definitions" => { b with definitions := [] }
  | "$defs" => { b with defs := [] }
  | key => { b with own := clearKeyword b.own key }

/-- a schema for what is beyond outlasts a flag given for it -/
def Extent.then (earlier later : Extent) : Extent :=
  match earlier, later with
  | .sub s, .flag _ => .sub s
  | _, later => later

/-- a list of positions outlasts a schema for all items -/
def Items.then (earlier later : Items) : Items :=
  match earlier, later with
  | .tuple ss, .single _ => .tuple ss
  | _, later => later

mutual

/-- a schema with its keywords set on an earlier one; `null` is a missing one -/
def ofJson (earlier : Body) : Json → Decoded Schema
  | .null => .ok .absent
  | .object fs => (ofMembers earlier fs).map ofBody
  | _ => wrong "schema"

/-- one keyword after the other -/
def ofMembers (b : Body) : List (String × Json) → Decoded Body
  | [] => .ok b
  | (key, j) :: rest =>
    match j with
    | .null =>
      if isKnown key then ofMembers (clear b key) rest
      else ofMembers { b with own := { b.own with extra := Dict.insert b.own.extra key .null } } rest
    | j =>
      match setKeyword b.own key j with
      | some (.ok own) => ofMembers { b with own } rest
      | some (.error e) => .error e
      | none =>
        match key with
        | "properties" => do ofMembers { b with properties := some (← ofMap (b.properties.getD []) j) } rest
        | "additionalProperties" => do ofMembers { b with additional := Extent.then b.additional (← ofExtent j) } rest
        | "propertyNames" => do ofMembers { b with propertyNames := ← ofJson b.propertyNames.body j } rest
        | "items" => do ofMembers { b with items := Items.then b.items (← ofItems j) } rest
        | "additionalItems" => do
          ofMembers { b with additionalItems := Extent.then b.additionalItems (← ofExtent j) } rest
        | "anyOf" => do ofMembers { b with anyOf := some (← ofArray j) } rest
        | "oneOf" => do ofMembers { b with oneOf := some (← ofArray j) } rest
        | "allOf" => do ofMembers { b with allOf := some (← ofArray j) } rest
        | "definitions" => do ofMembers { b with definitions := ← ofMap b.definitions j } rest
        | "$defs" => do ofMembers { b with defs := ← ofMap b.defs j } rest
        | key => ofMembers { b with own := { b.own with extra := Dict.insert b.own.extra key j.toValue } } rest

def ofMap (earlier : List (String × Schema)) : Json → Decoded (List (String × Schema))
  | .object fs => ofNamed earlier fs
  | _ => wrong "map"

def ofNamed (acc : List (String × Schema)) : List (String × Json) → Decoded (List (String × Schema))
  | [] => .ok acc
  | (key, j) :: rest => do
    let s ← ofJson {} j
    ofNamed (Dict.insert acc key s) rest

def ofArray : Json → Decoded (List Schema)
  | .array xs => ofList xs
  | _ => wrong "list"

def ofList : List Json → Decoded (List Schema)
  | [] => .ok []
  | x :: xs => do
    let s ← ofJson {} x
    let ss ← ofList xs
    return s :: ss

def ofExtent : Json → Decoded Extent
  | .bool b => .ok (.flag b)
  | .object fs => (ofMembers {} fs).map fun b => .sub (ofBody b)
  | _ => wrong "additional"

def ofItems : Json → Decoded Items
  | .array xs => (ofList xs).map .tuple
  | .object fs => (ofMembers {} fs).map fun b => .single (ofBody b)
  | _ => wrong "items"

end

/-- reads a document; the document `null` is the schema without keywords -/
def decode (text : String) : Decoded Schema := do
  let j ← (Json.parse text).mapError .json
  let s ← ofJson {} j
  return if s.isAbsent then empty else s

/-- why data is no schema -/
inductive FromValueError where
  | write (e : Json.WriteError)
  | decode (e : DecodeError)
  deriving Repr, DecidableEq

/-- a schema from data -/
def ofValue (v : Value) : Except FromValueError Schema := do
  let t ← (Json.compact v).mapError .write
  (decode t).mapError .decode

/-- a failed reading as a failure -/
def DecodeError.failure (e : DecodeError) : Failure := .ofReader .json e.message

/-- a failed writing as a failure; a bad literal is reported in its own words -/
def writeFailure : Json.WriteError → Failure
  | .notFinite n => .ofReader .json (Json.WriteError.message (.notFinite n))
  | .badLiteral t => .plain (Json.WriteError.message (.badLiteral t))

def FromValueError.failure : FromValueError → Failure
  | write e => writeFailure e
  | decode e => e.failure

end Schemata.Schema
