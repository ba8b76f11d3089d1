import Schemata.Shape
import Schemata.Schema.Decode
import Schemata.Placeholder
import Schemata.Dialect
import Schemata.Format

/-!
Lowering: from a schema document to a program of shapes.

References are linked by canonical names, in which a placeholder counts as the node it stands for; so a document
links up in the same way before and after its placeholders are resolved. A document that breaks a rule is a failure,
and a discriminated union that needs a look into a missing schema breaks off.
-/

namespace Schemata

/-- settings of a validator compilation -/
structure CompileOptions where
  dialect : Dialect := .plain
  mode : ValidatorMode := .source
  /-- numbers and booleans may be given as text -/
  coerce : Bool := false
  /-- check string formats -/
  formats : Bool := false
  /-- also emit a function that panics on failure -/
  assert : Bool := false
  /-- dispatch unions on their discriminator -/
  discriminator : Bool := false
  package : String := ""
  funcName : String := ""
  deriving Repr, DecidableEq, Inhabited

namespace Lowering

/-- a name with a placeholder replaced by its node -/
def canonical (name : String) : String :=
  match Placeholder.parse? name with
  | some p => "#" ++ toString p.node
  | none => name

/-- a pointer token with its escapes resolved -/
def unescapeToken (tok : String) : String := Text.replaceAll (Text.replaceAll tok "~1" "/") "~0" "~"

/-- the document being lowered, and its definitions by canonical name -/
structure Context where
  document : Schema.Body
  options : CompileOptions
  index : List (String × String)

def definitionsPrefix : String := "#/definitions/"

def defsPrefix : String := "#/$defs/"

/-- the name behind a pointer to a definition -/
def localName? (ref : String) : Option String :=
  if Text.startsWith ref definitionsPrefix then some (Text.trimPrefix ref definitionsPrefix)
  else if Text.startsWith ref defsPrefix then some (Text.trimPrefix ref defsPrefix)
  else none

def Context.find? (cx : Context) (token : String) : Option String :=
  let key := canonical (unescapeToken token)
  (cx.index.find? (·.1 == key)).map (·.2)

/-- the shape of a reference -/
def reference (cx : Context) (ref : String) : Outcome Shape :=
  if ref = "#" then .ok (.ref {} "")
  else
    match localName? ref with
    | none => failWith (.unsupported ("$ref " ++ ref ++ " is not local"))
    | some token =>
      match cx.find? token with
      | none => failWith (.of .referenceNotFound ("$ref " ++ ref))
      | some name => .ok (.ref {} name)

/-- the declared types, or the one type that the other keywords imply -/
def impliedTypes (b : Schema.Body) : List String :=
  let k := b.own
  let set : Extent → Bool
    | .unset => false
    | _ => true
  if !k.types.isEmpty then k.types
  else if b.properties.isSome || !k.required.isEmpty || set b.additional || !b.propertyNames.isAbsent then ["object"]
  else if (match b.items with | .unset => false | _ => true) || k.minItems.isSome || k.maxItems.isSome || k.uniqueItems
  then ["array"]
  else if k.minLength.isSome || k.maxLength.isSome || k.pattern ≠ "" || k.format ≠ "" then ["string"]
  else if k.minimum.isSome || k.maximum.isSome || k.multipleOf.isSome || k.exclusiveMinimum.isSome
    || k.exclusiveMaximum.isSome then ["number"]
  else []

/-- does every listed value already have one of the types? then the list alone is an exact check -/
def conforms (types : List String) (values : List Value) : Bool :=
  types.isEmpty || values.all fun v =>
    let t := v.typeName
    (t == "number" && Number.isInt64 v.numeric.1 && types.contains "integer") || types.contains t

/-- a pattern that can be read, or the failure that names it -/
def checkedPattern (what pattern : String) : Outcome Unit :=
  match Pattern.parse pattern with
  | .ok _ => .ok ()
  | .error e => failWith (.unsupported (what ++ " " ++ Text.quote pattern ++ ": " ++ e.message))

def stringShape (cx : Context) (k : Keywords) : Outcome Shape := do
  if k.pattern ≠ "" then checkedPattern "pattern" k.pattern
  let format := if (Format.ofName? k.format).isSome && cx.options.formats then k.format else ""
  return .primitive {} {
    type := .string, minLength := k.minLength, maxLength := k.maxLength, pattern := k.pattern, format }

/-- a bound and whether it is exclusive, from the inclusive and the exclusive keyword; `tighter` compares two bounds -/
def bound (tighter : Float → Float → Bool) (inclusive : Option Float) (exclusive : Option Value) : Option Float × Bool :=
  match exclusive with
  | some (.bool b) => (inclusive, b && inclusive.isSome)
  | some (.float x) =>
    match inclusive with
    | none => (some x, true)
    | some y => if tighter x y then (some x, true) else (inclusive, false)
  | _ => (inclusive, false)

def numberShape (t : Scalar) (k : Keywords) : Outcome Shape := do
  let (min, exclusiveMin) := bound (fun x y => x ≥ y) k.minimum k.exclusiveMinimum
  let (max, exclusiveMax) := bound (fun x y => x ≤ y) k.maximum k.exclusiveMaximum
  if k.multipleOf.any (· ≤ 0) then failWith (.unsupported "multipleOf must be positive")
  return .primitive {} { type := t, min, max, exclusiveMin, exclusiveMax, multipleOf := k.multipleOf }

/-- the pattern of the keys, from either keyword -/
def keyPatternOf (b : Schema.Body) : String :=
  if b.propertyNames.own.pattern ≠ "" then b.propertyNames.own.pattern
  else
    match Dict.get? b.own.extra "x-key-pattern" with
    | some (.string p) => p
    | _ => ""

def anyShape : List Shape → Shape
  | [s] => s
  | ss => .anyOf {} ss

def allShape : List Shape → Shape
  | [] => .any {}
  | [s] => s
  | ss => .allOf {} ss

/-- a reference with its last token in canonical form -/
def canonicalRef (ref : String) : String :=
  match Uri.cutLast '/' ref with
  | some (before, tail) => before ++ "/" ++ canonical (unescapeToken (Text.trimPrefix tail "/"))
  | none => canonical (unescapeToken ref)

/-- the schema a reference leads to, looked up by its last token -/
def resolve (cx : Context) (ref : String) : Option Schema :=
  if ref = "#" then some (.ofBody cx.document)
  else
    match cx.find? (Text.lastElement ref "/") with
    | none => none
    | some name => cx.document.definition? name

/-- follows references, at most eight of them -/
def follow (cx : Context) : Nat → Schema → Outcome (Option Schema)
  | 0, s => .ok (some s)
  | n + 1, s =>
    match s with
    | .absent => abort
    | s =>
      if s.own.ref = "" then .ok (some s)
      else
        match resolve cx s.own.ref with
        | none => .ok none
        | some next => follow cx n next

/-- the value of the discriminator that selects a variant: from the mapping, else from a constant property -/
def tag (cx : Context) (d : Discriminator) (variant : Schema) : Outcome (Option String) := do
  match variant with
  | .absent => abort
  | variant =>
    let ref := variant.own.ref
    if ref ≠ "" then
      if let some (t, _) := d.mapping.find? fun (_, r) => canonicalRef r == canonicalRef ref then
        return some t
    match ← follow cx 8 variant with
    | none => return none
    | some .absent => abort
    | some v =>
      match Dict.get? (v.body.properties.getD []) d.propertyName with
      | none => return none
      | some .absent => abort
      | some p =>
        match p.own.const with
        | some c => return some c.display
        | none =>
          match p.own.enum with
          | some [c] => return some c.display
          | _ => return none

/-- the tags of all variants; `none` as soon as one variant has none -/
def tags (cx : Context) (d : Discriminator) : Nat → Dict Int → List Schema → Outcome (Option (Dict Int))
  | _, acc, [] => .ok (some acc)
  | i, acc, v :: vs => do
    match ← tag cx d v with
    | none => return none
    | some t => tags cx d (i + 1) (Dict.insert acc t i) vs

/-- dispatch on the discriminator, where it is asked for and every variant has a tag -/
def dispatch (cx : Context) (k : Keywords) (variants : List Schema) : Outcome Dispatch :=
  match k.discriminator with
  | none => .ok {}
  | some d =>
    if d.propertyName = "" || !cx.options.discriminator then .ok {}
    else (tags cx d 0 [] variants).map fun
      | some mapping => { property := d.propertyName, mapping := some mapping }
      | none => {}

/-- the rules of a schema, each compiled once to see that it can be -/
def checkedRules : List Rule → Outcome Unit
  | [] => .ok ()
  | r :: rs =>
    match Rule.compile r.expr with
    | .ok _ => checkedRules rs
    | .error e => failWith (.unsupported e.message)

/-- the shapes of the declared types but null beside others, and whether null was among them -/
def typedShapes (several : Bool) (typed : String → Outcome Shape) : List String → Outcome (List Shape × Bool)
  | [] => .ok ([], false)
  | t :: ts =>
    if t = "null" && several then (typedShapes several typed ts).map fun (ss, _) => (ss, true)
    else do
      let s ← typed t
      let (ss, nullable) ← typedShapes several typed ts
      return (s :: ss, nullable)

/-- the check of listed values beside the check of the types -/
def valueParts (types : List String) (typed : List Shape) (values : List Value) : List Shape :=
  if values.isEmpty then (if typed.isEmpty then [] else [anyShape typed])
  else if conforms types values then [.enum {} values]
  else [anyShape typed, .enum {} values]

mutual

/-- the shape of a schema -/
def lower (cx : Context) : Schema → Outcome Shape
  | .absent => .ok (.any {})
  | .node own properties additional propertyNames items additionalItems anyOf oneOf allOf definitions defs => do
    let b : Schema.Body :=
      { own, properties, additional, propertyNames, items, additionalItems, anyOf, oneOf, allOf, definitions, defs }
    let finish (s : Shape) (nullable : Bool) : Outcome Shape := do
      checkedRules own.rules
      return s.mapBase fun base => {
        nullable := base.nullable || nullable || (cx.options.dialect == .openapi && own.nullable)
        rules := base.rules ++ own.rules }
    if own.ref ≠ "" then finish (← reference cx own.ref) false
    else
      let types := impliedTypes b
      let object (_ : Unit) : Outcome Shape := do
        let fields ← lowerOptional cx properties
        let (unknown, extra) ← lowerExtent cx additional
        let keyPattern := keyPatternOf b
        if keyPattern ≠ "" then checkedPattern "key pattern" keyPattern
        let unknown : UnknownKeys := match unknown with
          | none => .allow
          | some true => .checked
          | some false => .strict
        return .object {} fields extra { required := sortedSet own.required, unknown, keyPattern }
      let array (_ : Unit) : Outcome Shape := do
        match ← lowerItems cx items with
        | (none, single) =>
          return .array {} single { minItems := own.minItems, maxItems := own.maxItems, unique := own.uniqueItems }
        | (some shapes, _) =>
          let (open_, rest) ← lowerExtent cx additionalItems
          let closed := open_ == some false
          let maxItems := if closed then own.maxItems.filter fun (n : Int) => n < shapes.length else own.maxItems
          return .tuple {} shapes rest {
            minItems := own.minItems.getD 0, maxItems, closed, unique := own.uniqueItems }
      let typed (t : String) : Outcome Shape :=
        match t with
        | "string" => stringShape cx own
        | "number" => numberShape .number own
        | "integer" => numberShape .integer own
        | "boolean" => .ok (.primitive {} { type := .boolean })
        | "null" => .ok (.primitive {} { type := .null })
        | "object" => object ()
        | "array" => array ()
        | t => failWith (.unsupported ("type " ++ t))
      let (shapes, nullable) ← typedShapes (types.length > 1) typed types
      let values := match own.const with
        | some c => [c]
        | none => own.enum.getD []
      let valueChecks := valueParts types shapes values
      let anys ← lowerGiven cx anyOf
      let ones ← lowerGiven cx oneOf
      let dispatch ← if ones.isEmpty then .ok {} else dispatch cx own (oneOf.getD [])
      let alls ← lowerGiven cx allOf
      let parts := valueChecks ++ (if anys.isEmpty then [] else [.anyOf {} anys])
        ++ (if ones.isEmpty then [] else [.oneOf {} ones dispatch]) ++ alls
      finish (allShape parts) nullable

def lowerList (cx : Context) : List Schema → Outcome (List Shape)
  | [] => .ok []
  | s :: ss => do
    let x ← lower cx s
    let xs ← lowerList cx ss
    return x :: xs

def lowerGiven (cx : Context) : Option (List Schema) → Outcome (List Shape)
  | none => .ok []
  | some ss => lowerList cx ss

def lowerFields (cx : Context) : List (String × Schema) → Outcome (List (String × Shape))
  | [] => .ok []
  | (k, s) :: ss => do
    let x ← lower cx s
    let xs ← lowerFields cx ss
    return (k, x) :: xs

def lowerOptional (cx : Context) : Option (List (String × Schema)) → Outcome (List (String × Shape))
  | none => .ok []
  | some fs => lowerFields cx fs

/-- whether there is more (`some true` with the shape it must have), or nothing more may come (`some false`) -/
def lowerExtent (cx : Context) : Extent → Outcome (Option Bool × Shape)
  | .unset => .ok (none, .absent)
  | .flag b => .ok (if b then none else some false, .absent)
  | .sub s => (lower cx s).map fun x => (some true, x)

/-- the shapes of positions, or the one shape of all items -/
def lowerItems (cx : Context) : Items → Outcome (Option (List Shape) × Shape)
  | .unset => .ok (none, .absent)
  | .single s => if s.isAbsent then .ok (none, .absent) else (lower cx s).map fun x => (none, x)
  | .tuple ss => (lowerList cx ss).map fun xs => (some xs, .absent)

end

/-- definitions by canonical name; of two with one name the first stands -/
def indexOf (acc : List (String × String)) : List (String × Schema) → List (String × String)
  | [] => acc
  | (name, _) :: rest =>
    let key := canonical name
    if acc.any (·.1 == key) then indexOf acc rest else indexOf (acc ++ [(key, name)]) rest

def lowerNamed (cx : Context) : List String → Outcome (List (String × Shape))
  | [] => .ok []
  | name :: rest => do
    let s ← lower cx ((cx.document.definition? name).getD .absent)
    let ss ← lowerNamed cx rest
    return (name, s) :: ss

/-- what generated comments call the document: its title, or the definition that it consists of -/
def title (b : Schema.Body) : Outcome String :=
  if b.own.title ≠ "" then .ok b.own.title
  else do
    let ref ← match b.own.ref, b.allOf with
      | "", some [s] => if s.isAbsent then abort else pure s.own.ref
      | ref, _ => pure ref
    return match localName? ref with
      | some token => unescapeToken token
      | none => ""

end Lowering

/-- lowers a document: the definitions in the order of their names, then the root -/
def Program.lower (doc : Schema) (options : CompileOptions) : Outcome Program := do
  let document := doc.body
  let index := Lowering.indexOf (Lowering.indexOf [] document.definitions) document.defs
  let order := sortStrings (index.map (·.2))
  let cx : Lowering.Context := { document, options, index }
  let defs ← Lowering.lowerNamed cx order
  let root ← Lowering.lower cx (.ofBody document)
  let title ← Lowering.title document
  return { root, defs, order, title }

end Schemata
