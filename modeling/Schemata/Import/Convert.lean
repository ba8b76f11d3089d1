import Schemata.Fetch
import Schemata.Import.Keywords
import Schemata.Json.Duplicate
import Schemata.Json.Reader
import Schemata.Rule
import Schemata.Yaml.Resolve

/-!
Schemas as nodes of a graph.

Each schema of a document becomes a node. A reference becomes a node too, whose target is known once the import is
over: the schema behind a document and a fragment is built once, so references to one place, also from inside it,
meet in one node. What nodes cannot express is kept as it stands or, where references stand inside, left out with a
warning.

Text that starts like a JSON object or array is JSON, everything else is a YAML stream. In both, a key that stands
twice in one object is an error, although the data would only keep one of its values.
-/

namespace Schemata.Import

/-! ## Documents -/

/-- a failure that says in which activity it arose -/
def wrap (before : String) (f : Failure) : Failure := .wrapped ("importer: " ++ before) f ""

def fail (text : String) : Failure := .plain ("importer: " ++ text)

/-- the documents of a text, without those that are null -/
def decode (text : String) : Outcome (List Value) :=
  let trimmed := Text.trimSpace text
  if Text.startsWith trimmed "\x7b" || Text.startsWith trimmed "[" then
    match Json.parse trimmed with
    | .error e => failWith (wrap "invalid JSON: " (.ofReader .json e.message))
    | .ok j =>
      match j.duplicate? with
      | some d => failWith (wrap "" (.leaf (.duplicateKey d)))
      | none => .ok [j.toValue]
  else
    match Yaml.read text with
    | .error e => failWith (wrap "invalid YAML: " e.toFailure)
    | .ok vs => .ok (vs.filter (!·.isNull))

/-! ## Schemas -/

structure Options where
  fetcher : Option Fetcher := none
  /-- where the document lies; relative addresses start there -/
  baseUri : String := ""
  /-- the name of a root without a title -/
  name : String := ""
  /-- the only kind of resource to import -/
  kind : String := ""
  /-- what objects do with keys that they do not declare; otherwise the document decides -/
  unlisted : Option Unlisted := none
  /-- import the rules of resources -/
  rules : Bool := false
  /-- embedded resources must name their version and kind -/
  embedded : Bool := false
  /-- how many schemas may be open at once -/
  depth : Nat := 1000000

/-- a document and the nodes built from it, by their fragments -/
structure Source where
  uri : String
  root : Value
  nodes : Dict Nat := []
  /-- fragments whose schemas are being built -/
  building : List String := []
  deriving Inhabited

/-- a reference that waits for its target -/
structure Pending where
  node : Nat
  source : Nat
  fragment : String
  deriving Repr, DecidableEq

/-- an import in progress -/
structure Progress where
  graph : Graph
  sources : Array Source := #[]
  /-- documents by their addresses -/
  known : Dict Nat := []
  pending : List Pending := []
  warnings : List String := []
  /-- objects drop what they do not declare unless told otherwise -/
  pruning : Bool := false

/-- steps of an import; what was done before a failure stays done -/
abbrev ImportM (α : Type) := ExceptT Stop (StateM Progress) α

def stop {α : Type} (f : Failure) : ImportM α := throw (.failed f)

def onGraph {α : Type} (act : GraphM α) : ImportM α := fun p =>
  let (r, g) := act p.graph
  (r, { p with graph := g })

def lift {α : Type} (o : Outcome α) : ImportM α := fun p => (o, p)

/-- a new node -/
def make (kind : Kind) (options : Schemata.Options) (children : List Nat) (settings : List Setting) : ImportM Nat :=
  onGraph (GraphM.add kind options children settings)

def warn (text : String) : ImportM Unit := modify fun p => { p with warnings := p.warnings ++ [text] }

/-- a warning about a place in a document -/
def warnAt (place text : String) : ImportM Unit := warn (Fragment.display place ++ text)

def source (i : Nat) : ImportM Source := do return ((← get).sources[i]?).getD { uri := "", root := .null }

def changeSource (i : Nat) (f : Source → Source) : ImportM Unit :=
  modify fun p => { p with sources := p.sources.modify i f }

/-- one more document -/
def addSource (uri : String) (root : Value) : ImportM Nat := do
  let n := (← get).sources.size
  modify fun p => { p with sources := p.sources.push { uri, root } }
  return n

/-- makes a document known under its address -/
def register (uri : String) (i : Nat) : ImportM Unit := modify fun p => { p with known := p.known.insert uri i }

/-! ## Addresses -/

/-- the address of a reference, seen from a document; a base without a scheme is a file path -/
def resolveUri (base ref : String) : String :=
  if base = "" then ref
  else
    match Uri.parse? ref, Uri.parse? base with
    | some r, some b =>
      if r.isAbsolute then ref
      else if b.scheme = "" then Path.join [Path.dir base, ref]
      else (b.resolve r).text
    | _, _ => ref

/-- the last part of an address without the endings of schema files -/
def baseName (p : String) : String :=
  let p := match Uri.parse? p with
    | some u => if u.path = "" then p else u.path
    | none => p
  let name := Path.base p
  match [".schema.json", ".json", ".yaml", ".yml"].find? (Text.endsWith name ·) with
  | some ext => Text.trimSuffix name ext
  | none => name

/-- gets a document that is not known yet -/
def fetch (o : Options) (uri : String) : ImportM Nat := do
  match o.fetcher with
  | none => stop (.of .missingDependency ("remote reference " ++ uri ++ " requires a fetcher"))
  | some fetcher =>
    let text ← lift (fetcher uri)
    let docs ← lift ((decode text).mapFailure fun e => .causedFault .fetch { detail := uri } e)
    match docs with
    | [] => stop (.causedFault .fetch { detail := uri } (.plain "empty document"))
    | root :: _ =>
      let i ← addSource uri root
      register uri i
      return i

/-- the document and the fragment that a reference names -/
def locate (o : Options) (src : Nat) (ref : String) : ImportM (Nat × String) := do
  let (base, fragment, _) := Text.cut ref "#"
  if fragment ≠ "" && !Text.startsWith fragment "/" then
    stop (.causedFault .referenceNotFound { detail := ref } (.plain "only JSON pointer fragments are supported"))
  if base = "" then return (src, fragment)
  let uri := resolveUri (← source src).uri base
  match (← get).known.get? uri with
  | some i => return (i, fragment)
  | none => return (← fetch o uri, fragment)

/-! ## Definitions -/

/-- the name of a definition: its last key or, for a root, its title or the name of its document -/
def definitionName (s : Source) (fragment : String) (v : Value) : String :=
  if fragment ≠ "" then Fragment.lastKey fragment
  else if v.stringAt "title" ≠ "" then v.stringAt "title"
  else if s.uri = "" then "" else baseName s.uri

/-- turns a schema of a document at a place into a node -/
abbrev Convert := Value → (place : String) → ImportM Nat

/-- leads to the node behind a fragment of a document -/
abbrev Visit := (src : Nat) → (fragment : String) → ImportM (Option Nat)

/-- the node behind a fragment, built now unless it was before; none while it is being built -/
def define (convert : Convert) (src : Nat) (fragment : String) : ImportM (Option Nat) := do
  let s ← source src
  match s.nodes.get? fragment with
  | some n => return some n
  | none =>
    if s.building.contains fragment then return none
    match Fragment.find? s.root fragment with
    | none => stop (.fault .referenceNotFound { path := s.uri ++ "#" ++ fragment, detail := "no schema at pointer" })
    | some v =>
      changeSource src fun s => { s with building := fragment :: s.building }
      let n ← convert v fragment
      let name := definitionName s fragment v
      if name ≠ "" && ((← get).graph.get? n).any (·.name = "") then onGraph (GraphM.apply n [.named name])
      changeSource src fun s =>
        { s with nodes := s.nodes.insert fragment n, building := s.building.filter (· ≠ fragment) }
      return some n

/-- a reference to the schema behind a fragment -/
def refer (src : Nat) (fragment : String) : ImportM Nat := do
  let n ← onGraph (GraphM.defer .missing [])
  modify fun p => { p with pending := p.pending ++ [⟨n, src, fragment⟩] }
  return n

/-! ## Annotations -/

/-- the expression and the message of a rule -/
def readRule (v : Value) : Rule :=
  match v with
  | .string s => ⟨s, ""⟩
  | .object m =>
    let expr := (text? m "rule").getD ""
    ⟨if expr = "" then (text? m "expr").getD "" else expr, (text? m "message").getD ""⟩
  | _ => ⟨"", ""⟩

/-- the rules under a key; those that are empty or do not compile are left out -/
def readRules (m : Dict Value) (key place : String) : ImportM (List Setting) := do
  let rec go (i : Nat) : List Value → ImportM (List Setting)
    | [] => pure []
    | v :: vs => do
      let r := readRule v
      let here := place ++ "/" ++ key ++ "/" ++ toString i
      if r.expr = "" then
        warnAt here ": empty rule"
        go (i + 1) vs
      else
        match Rule.compile r.expr with
        | .error e =>
          warnAt here (": dropping rule: " ++ e.message)
          go (i + 1) vs
        | .ok _ => return .rule r :: (← go (i + 1) vs)
  go 0 ((list? m key).getD [])

/-- annotations, rules and extensions -/
def annotations (o : Options) (m : Dict Value) (place : String) : ImportM (List Setting) := do
  let rules ← readRules m "x-rules" place
  let more ← if o.rules then readRules m "x-kubernetes-validations" place else pure []
  return annotationSettings m ++ rules ++ more ++ extensionSettings m

/-! ## Arrays -/

/-- what the kind of a list and the elements it must hold add to an array -/
def listSettings (m : Dict Value) (place : String) : ImportM (List Setting) := do
  let contains := match (m.get? "contains").bind containsPredicate? with
    | some p => (containsRules m p).map Setting.rule
    | none => []
  let own ← match (text? m "x-kubernetes-list-type").getD "" with
    | "set" => pure [Setting.uniqueItems]
    | "map" =>
      let keys := strings m "x-kubernetes-list-map-keys"
      if keys.isEmpty then
        warnAt place ": list-type map without list-map-keys"
        pure []
      else pure [Setting.rule (distinctKeysRule keys)]
    | "" => pure []
    | "atomic" => pure []
    | other =>
      warnAt place (": unknown list-type " ++ Text.quote other)
      pure []
  return own ++ contains

/-- converts the schemas of a list under a key -/
def convertList (convert : Convert) (place key : String) : (index : Nat) → List Value → ImportM (List Nat)
  | _, [] => pure []
  | i, v :: vs => do
    let n ← convert v (place ++ "/" ++ key ++ "/" ++ toString i)
    return n :: (← convertList convert place key (i + 1) vs)

/-- the positions of a tuple; those from `least` on are optional -/
def convertPositions (convert : Convert) (place key : String) (least : Int) :
    (index : Nat) → List Value → ImportM (List Nat)
  | _, [] => pure []
  | i, v :: vs => do
    let n ← convert v (place ++ "/" ++ key ++ "/" ++ toString i)
    let n ← if (i : Int) ≥ least then make .optional .none [n] [] else pure n
    return n :: (← convertPositions convert place key least (i + 1) vs)

/-- an array with positions; what lies beyond them is refused, unlimited or has a schema -/
def tupleNode (convert : Convert) (m : Dict Value) (items : List Value) (key place : String) (settings : List Setting) :
    ImportM Nat := do
  let ns ← convertPositions convert place key ((count? m "minItems").getD 0) 0 items
  let restKey := if key = "prefixItems" then "items" else "additionalItems"
  match m.get? restKey with
  | some (.bool false) => make .tuple (.tuple false) ns settings
  | rest =>
    let r ← convert (rest.getD (.bool true)) (place ++ "/" ++ restKey)
    make .tuple (.tuple true) (ns ++ [r]) settings

def arrayNode (convert : Convert) (m : Dict Value) (place : String) : ImportM Nat := do
  let settings := itemSettings m ++ (← listSettings m place)
  match list? m "prefixItems", list? m "items" with
  | some items, _ => tupleNode convert m items "prefixItems" place settings
  | none, some items => tupleNode convert m items "items" place settings
  | none, none =>
    let item ← match m.get? "items" with
      | some v => convert v (place ++ "/items")
      | none => make .unknown .none [] []
    make .array (.array {}) [item] settings

/-! ## Objects -/

/-- an object without properties of its own whose values share a schema -/
def recordNode? (convert : Convert) (m : Dict Value) (place : String) : ImportM (Option Nat) := do
  let pattern := match (object? m "propertyNames").bind (text? · "pattern") with
    | some p => if p = "" then (text? m "x-key-pattern").getD "" else p
    | none => (text? m "x-key-pattern").getD ""
  let record (pattern : String) (v : Value) (at_ : String) : ImportM (Option Nat) := do
    let n ← convert v at_
    return some (← make .record (.record "") [n] (if pattern = "" then [] else [.keyPattern pattern]))
  match object? m "patternProperties", m.get? "additionalProperties" with
  | some [(k, v)], _ => record k v (place ++ "/patternProperties/" ++ escapeToken k)
  | _, some (.bool false) => return none
  | _, some v => record pattern v (place ++ "/additionalProperties")
  | _, none => return none

/-- what an object does with undeclared keys: first what the document marks, then what the import asks for -/
def unlistedPolicy (o : Options) (m : Dict Value) (place : String) : ImportM Unlisted := do
  match m.get? "additionalProperties" with
  | some (.bool false) => return .reject
  | _ =>
    if isTrue m "x-kubernetes-preserve-unknown-fields" then
      if o.unlisted = some .reject then warnAt place ": preserve-unknown-fields overrides strict unknown handling"
      return .keep
    return o.unlisted.getD (if (← get).pruning then .drop else .keep)

/-- the keys that an embedded resource must have -/
def embeddedKeys (o : Options) (m : Dict Value) : List String :=
  if o.embedded && isTrue m "x-kubernetes-embedded-resource" then ["apiVersion", "kind"] else []

/-- converts properties in the order of their keys; those that are not required are optional -/
def convertFields (convert : Convert) (place : String) (required : List String) (acc : List (String × Nat)) :
    Dict Value → ImportM (List (String × Nat))
  | [] => pure acc
  | (k, v) :: rest => do
    let n ← convert v (place ++ "/properties/" ++ escapeToken k)
    let n ← if required.contains k then pure n else make .optional .none [n] []
    convertFields convert place required (putField k n acc) rest

/-- adds fields for keys that are required and not declared -/
def addMissing (props : Dict Value) (node : ImportM Nat) (acc : List (String × Nat)) :
    List String → ImportM (List (String × Nat))
  | [] => pure acc
  | k :: ks => do
    if props.has k then addMissing props node acc ks
    else
      let n ← node
      addMissing props node (putField k n acc) ks

def objectNode (o : Options) (convert : Convert) (m : Dict Value) (place : String) : ImportM Nat := do
  let props := (object? m "properties").getD []
  let record ← if props.isEmpty then recordNode? convert m place else pure none
  match record with
  | some n => return n
  | none =>
    let required := strings m "required"
    let embedded := embeddedKeys o m
    let fields ← convertFields convert place (required ++ embedded) [] props
    let fields ← addMissing props (make .unknown .none [] []) fields required
    let fields ← addMissing props (make .string (.text {}) [] [.minLength 1]) fields embedded
    let unlisted ← unlistedPolicy o m place
    make .object (.object { keys := fields.map (·.1), unlisted }) (fields.map (·.2)) []

/-! ## Types and combinations -/

def typeNode (o : Options) (convert : Convert) (m : Dict Value) (place type : String) : ImportM Nat :=
  match type with
  | "string" => make .string (.text {}) [] (textSettings m)
  | "number" => make .number (.number {}) [] (numberSettings m)
  | "integer" => make .integer (.number {}) [] (numberSettings m)
  | "boolean" => make .boolean .none [] []
  | "null" => make .null .none [] []
  | "object" => objectNode o convert m place
  | "array" => arrayNode convert m place
  | t => stop (fail (Fragment.display place ++ ": unknown type " ++ Text.quote t))

def typeNodes (o : Options) (convert : Convert) (m : Dict Value) (place : String) : List String → ImportM (List Nat)
  | [] => pure []
  | t :: ts => do
    let n ← typeNode o convert m place t
    return n :: (← typeNodes o convert m place ts)

/-- the node for what a schema says of its own; none when it only combines others -/
def ownNode? (o : Options) (convert : Convert) (m : Dict Value) (types : List String) (place : String) :
    ImportM (Option Nat) := do
  if isTrue m "x-kubernetes-int-or-string" then
    let i ← make .integer (.number {}) [] []
    let s ← make .string (.text {}) [] []
    return some (← make .union (.union "") [i, s] [])
  match list? m "enum", m.get? "const" with
  | some vs, _ => return some (← make .enum (.enum vs) [] [])
  | none, some v => return some (← make .const (.const v) [] [])
  | none, none =>
    match (if types.isEmpty then inferredTypes m else types) with
    | [] => return none
    | [t] => return some (← typeNode o convert m place t)
    | ts =>
      let ns ← typeNodes o convert m place ts
      return some (← make .union (.union "") ns [])

/-- does a variant require a single constant for the property? References are followed a few steps. -/
def pins (o : Options) (prop : String) : (steps : Nat) → (src : Nat) → Value → ImportM Bool
  | 0, _, _ => pure false
  | steps + 1, src, v =>
    match v with
    | .object m =>
      match text? m "$ref" with
      | some ref => fun p =>
        match (locate o src ref).run p with
        | (.ok (target, fragment), p) =>
          match Fragment.find? ((p.sources[target]?).getD { uri := "", root := .null }).root fragment with
          | some w => (pins o prop steps target w).run p
          | none => (.ok false, p)
        | (.error _, p) => (.ok false, p)
      | none => do
        let rec any : List Value → ImportM Bool
          | [] => pure false
          | x :: xs => do if ← pins o prop steps src x then pure true else any xs
        if ← any ((list? m "allOf").getD []) then return true
        match Fragment.find? v ("/properties/" ++ escapeToken prop) with
        | some (.object pm) => return Dict.has pm "const" || ((list? pm "enum").getD []).length = 1
        | _ => return false
    | _ => pure false

/-- the first variant that does not fix the property -/
def unpinned? (o : Options) (src : Nat) (prop : String) : (index : Nat) → List Value → ImportM (Option Nat)
  | _, [] => pure none
  | i, v :: vs => do
    if ← pins o prop 9 src v then unpinned? o src prop (i + 1) vs else return some i

/-- a choice of exactly one; it keeps its discriminator if every variant fixes the property -/
def choiceNode (o : Options) (src : Nat) (m : Dict Value) (variants : List Value) (nodes : List Nat) (place : String) :
    ImportM Nat := do
  let prop := discriminatorProperty m
  if prop = "" then make .union (.union "") nodes []
  else
    match ← unpinned? o src prop 0 variants with
    | some i =>
      warnAt place ("/oneOf/" ++ toString i ++ ": variant does not pin discriminator " ++ Text.quote prop
        ++ "; importing a plain union")
      make .union (.union "") nodes []
    | none => make .union (.union prop) nodes []

/-- the node of one combining keyword, if the schema has it -/
def partNode? (o : Options) (src : Nat) (convert : Convert) (m : Dict Value) (place key : String) :
    ImportM (Option Nat) := do
  match list? m key with
  | none => return none
  | some vs =>
    let ns ← convertList convert place key 0 vs
    match key, ns with
    | "anyOf", _ => return some (← make .union (.union "") ns [])
    | "oneOf", _ => return some (← choiceNode o src m vs ns place)
    | _, [n] => return some n
    | _, _ => return some (← make .intersection .none ns [])

/-- what a schema combines; several keywords hold together -/
def combined? (o : Options) (src : Nat) (convert : Convert) (m : Dict Value) (place : String) :
    ImportM (Option Nat) := do
  let a ← partNode? o src convert m place "anyOf"
  let b ← partNode? o src convert m place "oneOf"
  let c ← partNode? o src convert m place "allOf"
  match a.toList ++ b.toList ++ c.toList with
  | [] => return none
  | [n] => return some n
  | ns => return some (← make .intersection .none ns [])

/-- a schema object that is no reference -/
def schemaNode (o : Options) (src : Nat) (convert : Convert) (m : Dict Value) (place : String) : ImportM Nat := do
  let left := unsupported m
  if !left.isEmpty && !fieldReference m then make .custom (.custom { fragment := some m }) [] []
  else
    if !left.isEmpty then
      warnAt place (": ignoring " ++ ", ".intercalate left ++ " (subtree holds references)")
    let types := typeNames m
    let nullType := types.contains "null" && (types.length > 1 || isComposite m)
    let types := if nullType then types.erase "null" else types
    let settings ← annotations o m place
    let own ← ownNode? o convert m types place
    let comb ← combined? o src convert m place
    let n ← match own, comb with
      | some a, some b => make .intersection .none [a, b] settings
      | none, some b => do onGraph (GraphM.apply b settings); pure b
      | some a, none => do onGraph (GraphM.apply a settings); pure a
      | none, none => make .unknown .none [] settings
    if nullType || isTrue m "nullable" then make .nullable .none [n] [] else return n

/-- the node of a schema; `fuel` bounds how many are open at once -/
def convert (o : Options) : (fuel : Nat) → (src : Nat) → Convert
  | 0, _, _, _ => stop (.leaf .tooDeep)
  | fuel + 1, src, v, place =>
    match v with
    | .bool true => make .unknown .none [] []
    | .bool false => make .custom (.custom { fragment := some [("not", .object [])] }) [] []
    | .object m =>
      match text? m "$ref" with
      | none => schemaNode o src (convert o fuel src) m place
      | some ref => do
        let (target, fragment) ← fun p =>
          let (r, p) := (locate o src ref).run p
          (Outcome.mapFailure r (·.withPath place), p)
        let _ ← define (convert o fuel target) target fragment
        let n ← refer target fragment
        if isTrue m "nullable" then make .nullable .none [n] [] else return n
    | v => stop (fail (Fragment.display place ++ ": schema must be an object or boolean, got " ++ v.carrierName))

/-- the definition behind a fragment of a document -/
def definition (o : Options) : Visit := fun src fragment => define (convert o o.depth src) src fragment

end Schemata.Import
