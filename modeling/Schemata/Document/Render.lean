import Schemata.Document.Nullable
import Schemata.Graph.Load
import Schemata.Graph.Visit
import Schemata.Registry
import Schemata.Fetch

/-!
Rendering nodes of a graph as schema documents.

A reference becomes a pointer, and its target one of the document's definitions; the place of a definition is taken
before its body is rendered, so a circle of references ends at the pointer. References to the root are the pointer
`#`. Definitions are known by placeholders until their names are final.
-/

namespace Schemata

namespace Document

open Schema (Body ofBody)

/-- the name of the target that documents are rendered for -/
def target : String := "jsonschema"

/-- the address of the vocabulary of the plain dialect -/
def draftUri : String := "http://json-schema.org/draft-07/schema#"

structure Options where
  dialect : Dialect := .plain
  /-- name the vocabulary in the root (plain dialect only) -/
  schemaUri : Bool := false
  /-- let no object have further properties -/
  strict : Bool := false
  fetcher : Option Fetcher := none
  /-- the file that owns the definitions -/
  path : String := ""

/-- what changes while a document is rendered -/
structure State where
  registry : Registry
  /-- definitions in the order in which their places were taken -/
  order : List Nat := []
  bodies : List (Nat × Schema) := []
  discriminator : Bool := false
  /-- the root's body, when it becomes a definition because the root also accepts null -/
  hoist : Option Nat := none

abbrev RenderM (α : Type) := ExceptT Stop (StateM State) α

/-- what stays the same -/
structure Context where
  graph : Graph
  options : Options
  /-- nodes that are the document itself -/
  self : List Nat

def lift {α : Type} (o : Outcome α) : RenderM α := fun s => (o, s)

def fail {α : Type} (f : Failure) : RenderM α := lift (failWith f)

def unsupported (n : Node) (detail : String) : Failure := .fault .unsupportedSchemaConstruct (n.site detail)

/-! ## Annotations -/

def putAll (d : Dict Value) (more : Dict Value) : Dict Value := more.foldl (fun d (k, v) => d.insert k v) d

/-- annotations of a node written into its schema -/
def annotate (d : Dialect) (m : Meta) (s : Schema) : Schema :=
  s.mapOwn fun k =>
    let extra := if d = .openapi then (match m.examples with | v :: _ => k.extra.insert "example" v | [] => k.extra) else k.extra
    let extra := putAll extra m.extensions
    { k with
      title := if m.title = "" then k.title else m.title
      description := if m.description = "" then k.description else m.description
      default := m.default.orElse fun _ => k.default
      readOnly := k.readOnly || m.readOnly
      deprecated := k.deprecated || m.deprecated
      examples := if d = .openapi then k.examples else k.examples ++ m.examples
      extra := if d = .openapi then putAll extra m.openapi else extra
      rules := k.rules ++ m.rules }

/-! ## Nodes without children -/

def typed (t : String) : Keywords := { type := some (.string t) }

def textSchema (o : TextOptions) : Schema :=
  .ofKeywords { typed "string" with
    minLength := o.minLength, maxLength := o.maxLength, pattern := o.pattern, format := o.format }

/-- exclusive bounds are numbers in one dialect and flags beside the bounds in the other -/
def numberSchema (d : Dialect) (type : String) (o : NumberOptions) : Schema :=
  let k : Keywords := { typed type with minimum := o.minimum, maximum := o.maximum, multipleOf := o.multipleOf }
  .ofKeywords <|
    match d with
    | .openapi => { k with
        minimum := o.exclusiveMinimum.orElse fun _ => o.minimum
        maximum := o.exclusiveMaximum.orElse fun _ => o.maximum
        exclusiveMinimum := o.exclusiveMinimum.map fun _ => .bool true
        exclusiveMaximum := o.exclusiveMaximum.map fun _ => .bool true }
    | .plain => { k with
        exclusiveMinimum := o.exclusiveMinimum.map .float
        exclusiveMaximum := o.exclusiveMaximum.map .float }

def withType (k : Keywords) (t : String) : Keywords := if t = "" then k else { k with type := some (.string t) }

def enumSchema (d : Dialect) (n : Node) : Outcome Schema :=
  let values := n.enumValues
  if values.isEmpty then failWith (unsupported n "empty enum")
  else if d = .openapi && values.all Value.isNull then .ok nullWorkaround
  else
    let k := withType { enum := some values } (literalType "" values)
    .ok <| .ofKeywords <|
      if values.any Value.isNull then
        (match d with
         | .openapi => { k with nullable := true }
         | .plain => { k with type := widen k.type })
      else k

def constSchema (d : Dialect) (v : Value) : Schema :=
  match d with
  | .plain => .ofKeywords { const := some v }
  | .openapi =>
    if v.isNull then nullWorkaround else .ofKeywords (withType { enum := some [v] } (literalType "" [v]))

/-- a fragment as it stands, or the document behind an address without the name of its vocabulary -/
def customSchema (fetcher : Option Fetcher) (n : Node) : Outcome Schema :=
  let o := n.customOptions
  match o.fragment with
  | some fs =>
    match Schema.ofValue (.object fs) with
    | .ok s => .ok s
    | .error e => failWith (.causedFault .unsupportedSchemaConstruct (n.site "") e.failure)
  | none =>
    if o.remote = "" then failWith (unsupported n "custom node without schema")
    else
      match fetcher with
      | none => failWith (.fault .missingDependency (n.site ("no fetcher for " ++ o.remote)))
      | some fetch => do
        let doc ← fetch o.remote
        match Schema.decode doc with
        | .ok s => return s.mapOwn fun k => { k with schemaUri := "" }
        | .error e => failWith (.causedFault .fetch { node := n.id, detail := o.remote } e.failure)

/-! ## Discriminators -/

/-- the only value that a property accepts, as text -/
def constantText (n : Node) : Option String :=
  match n.kind with
  | .const => some n.constValue.display
  | .enum => match n.enumValues with | [v] => some v.display | _ => none
  | _ => none

/-- the text of the first constant among the properties of the name; a property without a node ends the search -/
def constantIn (g : Graph) (prop : String) : List (String × Nat) → Option String
  | [] => none
  | (key, id) :: rest =>
    if key ≠ prop then constantIn g prop rest
    else
      match g.unwrap id with
      | none => none
      | some n => (constantText n).orElse fun _ => constantIn g prop rest

/-- the constant by which a variant is told from the others -/
def discriminatorValue (g : Graph) (variant : Nat) (prop : String) : Option String :=
  match g.unwrap variant with
  | some obj => if obj.kind = .object then constantIn g prop (obj.objectOptions.keys.zip obj.children) else none
  | none => none

/-- the discriminator of a union with its rendered variants; pointers are mapped in the API description dialect -/
def discriminatorOf (cx : Context) (n : Node) (prop : String) :
    (i : Nat) → Dict String → List (Nat × Schema) → Outcome Discriminator
  | _, mapping, [] => .ok { propertyName := prop, mapping }
  | i, mapping, (id, s) :: rest =>
    match discriminatorValue cx.graph id prop with
    | none =>
      failWith (unsupported n ("variant " ++ toString i ++ " has no constant " ++ Text.quote prop ++ " property"))
    | some tag =>
      let mapping := if cx.options.dialect = .openapi && s.own.ref ≠ "" then mapping.insert tag s.own.ref else mapping
      discriminatorOf cx n prop (i + 1) mapping rest

/-! ## Tuples -/

/-- positions up to the last one that is not optional -/
def requiredItems (g : Graph) (fixed : List Nat) : Nat :=
  (fixed.zipIdx.foldl (fun acc (id, i) => if g.isOptional id then acc else i + 1) 0)

/-- a tuple from its rendered positions; one dialect has no positions and takes any of them everywhere -/
def tupleSchema (d : Dialect) (minItems : Nat) (items : List Schema) (rest : Option Schema) : Schema :=
  let k : Keywords := { typed "array" with
    minItems := if minItems > 0 then some minItems else none
    maxItems := if rest.isNone then some items.length else none }
  match d with
  | .openapi => ofBody { own := k, items := .single (ofBody { anyOf := some (items ++ rest.toList) }) }
  | .plain => ofBody {
      own := k, items := .tuple items
      additionalItems := match rest with | some s => .sub s | none => .flag false }

/-! ## Rendering -/

/-- takes the place of a definition, unless it is taken already; tells whether the body is still to be rendered -/
def reserve (cx : Context) (id : Nat) : RenderM Bool := fun s =>
  if s.order.contains id then (.ok false, s)
  else
    let s := { s with order := s.order ++ [id] }
    match s.registry.declare cx.graph id cx.options.path "" false with
    | .ok (r, _) => (.ok true, { s with registry := r })
    | .error e => (.error e, s)

def definitionPointer (s : State) (id : Nat) : Schema :=
  .reference ("#/definitions/" ++ s.registry.reference id refAttr)

/-- takes the node that waits to be hoisted, if it is this one -/
def takeHoist (id : Nat) : RenderM Bool := fun s =>
  if s.hoist = some id then (.ok true, { s with hoist := none }) else (.ok false, s)

def getState : RenderM State := fun s => (.ok s, s)

def setBody (id : Nat) (b : Schema) : RenderM Unit := fun s => (.ok (), { s with bodies := s.bodies ++ [(id, b)] })

/-- how a node below is rendered -/
abbrev Descend := Nat → RenderM Schema

def renderAll (cx : Context) (descend : Descend) (n : Node) : List Nat → RenderM (List Schema)
  | [] => pure []
  | id :: ids =>
    match cx.graph.get? id with
    | none => fail (.fault .unsupportedConstruct (n.site "dangling child"))
    | some _ => do
      let s ← descend id
      let ss ← renderAll cx descend n ids
      return s :: ss

def renderSole (cx : Context) (descend : Descend) (n : Node) : RenderM Schema := do
  descend (← lift (cx.graph.sole n)).id

/-- the properties of an object and the keys among them that are required; `keys` are those not used up yet -/
def renderFields (cx : Context) (descend : Descend) (n : Node) :
    (keys : List String) → List Nat → RenderM (List (String × Schema) × List String)
  | _, [] => pure ([], [])
  | [], _ :: _ => fail (unsupported n "property without key")
  | key :: keys, id :: ids =>
    match cx.graph.get? id with
    | none => fail (unsupported n ("dangling property " ++ key))
    | some _ => do
      let s ← descend id
      let (fs, required) ← renderFields cx descend n keys ids
      return ((key, s) :: fs, if cx.graph.isOptional id then required else key :: required)

/-- a pointer to the definition of a node, which is rendered the first time -/
def define (cx : Context) (descend : Descend) (id : Nat) : RenderM Schema := do
  if ← reserve cx id then
    let body ← descend id
    setBody id body
  return definitionPointer (← getState) id

/-- a node that is no optional or nullable wrapper -/
def renderNode (cx : Context) (descend : Descend) (n : Node) : RenderM Schema :=
  let d := cx.options.dialect
  match n.kind with
  | .string => pure (textSchema n.textOptions)
  | .number => pure (numberSchema d "number" n.numberOptions)
  | .integer => pure (numberSchema d "integer" n.numberOptions)
  | .boolean => pure (.ofKeywords (typed "boolean"))
  | .null => pure (match d with | .openapi => nullWorkaround | .plain => nullBranch)
  | .unknown => pure .empty
  | .object => do
    let o := n.objectOptions
    let (fs, required) ← renderFields cx descend n o.keys n.children
    return ofBody {
      own := { typed "object" with required := sortStrings required }
      properties := some (Dict.ofList fs)
      additional := .flag !(cx.options.strict || o.unlisted = .reject) }
  | .array => do
    let item ← renderSole cx descend n
    let o := n.arrayOptions
    return ofBody {
      own := { typed "array" with minItems := o.minItems, maxItems := o.maxItems, uniqueItems := o.unique }
      items := .single item }
  | .tuple => do
    let items ← renderAll cx descend n n.children
    if n.hasRest then
      match items.getLast? with
      | none => fail (unsupported n "tuple rest without element")
      | some rest => return tupleSchema d (requiredItems cx.graph n.children.dropLast) items.dropLast (some rest)
    else return tupleSchema d (requiredItems cx.graph n.children) items none
  | .record => do
    let value ← renderSole cx descend n
    let p := n.keyPattern
    let own : Keywords := { typed "object" with
      extra := if p ≠ "" && d = .openapi then [("x-key-pattern", .string p)] else [] }
    return ofBody {
      own, additional := .sub value
      propertyNames := if p ≠ "" && d = .plain then .ofKeywords { pattern := p } else .absent }
  | .union => do
    let variants ← renderAll cx descend n n.children
    let prop := n.discriminator
    if prop = "" then return ofBody { anyOf := some variants }
    fun s => (.ok (), { s with discriminator := true })
    let disc ← lift (discriminatorOf cx n prop 0 [] (n.children.zip variants))
    return ofBody { own := { discriminator := some disc }, oneOf := some variants }
  | .intersection => do return ofBody { allOf := some (← renderAll cx descend n n.children) }
  | .enum => lift (enumSchema d n)
  | .const => pure (constSchema d n.constValue)
  | .ref => do
    let t ← lift (cx.graph.sole n)
    if cx.self.contains t.id then return .reference "#"
    define cx descend t.id
  | .validator => renderSole cx descend n
  | .custom => lift (customSchema cx.options.fetcher n)
  | _ => fail (unsupported n "no rendering")

/-- renders a node with its local wrappers: null is accepted when one of them says so, and all of them annotate the result. `depth`
bounds the nesting. -/
def render (cx : Context) : (depth : Nat) → Nat → RenderM Schema
  | 0, _ => lift abort
  | depth + 1, id =>
    let (wrappers, below) := cx.graph.localChain id
    match below with
    | none =>
      let site := ((cx.graph.get? id).map fun n => n.site "wrapper without child").getD {}
      fail (.fault .unsupportedConstruct site)
    | some last => do
      let d := cx.options.dialect
      let s ← if ← takeHoist last.id then define cx (render cx depth) last.id
        else renderNode cx (render cx depth) last
      let s ← if wrappers.any (·.kind = .nullable) then lift (nullable d s) else pure s
      return (wrappers ++ [last]).foldl (fun s n => annotate d n.info s) s

/-! ## Roots -/

/-- the nodes that a list of nodes reaches, in the order of the walk; `steps` bounds their number -/
def reach (g : Graph) : (steps : Nat) → (seen stack : List Nat) → List Nat
  | steps, seen, stack =>
    match steps, stack.dropWhile seen.contains with
    | _, [] => seen
    | 0, _ => seen
    | steps + 1, id :: rest =>
      let next := ((g.get? id).map Node.children).getD []
      reach g steps (id :: seen) (next.filter (fun c => (g.get? c).isSome) ++ rest)

/-- does a reference that the root reaches lead to the node? -/
def isReferenced (g : Graph) (root id : Nat) : Bool :=
  (reach g g.size [] [root]).any fun i => (g.get? i).any fun n => n.kind = .ref && n.children == [id]

/-- follows optional and validator wrappers from a root: the nodes that are the document itself and, when a nullable wrapper comes in
between and the body is referenced, the body that has to become a definition -/
def rootIdentity (g : Graph) (root : Nat) : Nat → Bool → List Nat → Nat → List Nat × Option Nat
  | 0, _, self, _ => (self, none)
  | fuel + 1, widened, self, id =>
    match g.get? id with
    | none => (self, none)
    | some n =>
      let transparent := n.kind = .optional || n.kind = .validator
      if transparent || n.kind = .nullable then
        let widened := widened || n.kind = .nullable
        match n.children with
        | [c] =>
          if (g.get? c).isNone then (self, none)
          else rootIdentity g root fuel widened (if widened then self else self ++ [c]) c
        | _ => (self, none)
      else if widened && n.kind ≠ .ref && isReferenced g root n.id then (self, some n.id)
      else (self, none)

end Document

/-- a rendered schema; names of definitions and pointers to them are placeholders -/
structure Document where
  root : Schema
  /-- a union with a discriminator was rendered -/
  discriminator : Bool
  /-- definitions in the order of their first rendering -/
  definitions : List Nat

namespace Document

open Schema (ofBody)

/-- the text of a document, placeholders included -/
def template (d : Document) : Outcome String :=
  match d.root.text with
  | .ok t => .ok t
  | .error e => failWith (Schema.writeFailure e)

/-- the nesting that rendering can reach: a path through the graph for each definition -/
def maxDepth (g : Graph) : Nat := (g.size + 1) * (g.size + 1) + 1

/-- puts the definitions into the root; a pointer cannot have siblings and is wrapped first -/
def assemble (o : Options) (s : State) (root : Schema) : Document :=
  let root :=
    if s.order.isEmpty then root
    else
      let root := if root.own.ref ≠ "" then ofBody { allOf := some [root] } else root
      let body := root.body
      ofBody { body with definitions := Dict.ofList (s.order.map fun id =>
        (s.registry.reference id symbolAttr, ((s.bodies.find? (·.1 == id)).map (·.2)).getD .empty)) }
  { root := if o.schemaUri && o.dialect = .plain then root.mapOwn fun k => { k with schemaUri := draftUri } else root
    discriminator := s.discriminator
    definitions := s.order }

/-- renders a loaded node and declares its definitions, which also stay declared on a failure -/
def ofNode (g : Graph) (root : Nat) (r : Registry) (o : Options) : Outcome Document × Registry :=
  let (self, hoist) := rootIdentity g root (g.size + 1) false [root] root
  let (res, s) := (render { graph := g, options := o, self } (maxDepth g) root).run.run { registry := r, hoist }
  (res.map (assemble o s), s.registry)

/-- loads and renders a node with names of its own: the final text and the document it came from -/
def renderText (root : Option Nat) (o : Options) : GraphM (String × Document) := do
  GraphM.load root
  let id := root.getD 0
  let (doc, r) := ofNode (← GraphM.graph) id { target := target } o
  let doc ← GraphM.lift doc
  let template ← GraphM.lift doc.template
  let (text, _) ← GraphM.lift (r.resolve template).2
  return (text, doc)

end Document

end Schemata
