import Schemata.Dialect
import Schemata.Import.Convert
import Schemata.Json.Writer
import Schemata.Schema.Decode

/-!
Importing documents into a graph.

A document is a plain schema, an API description or a definition of resources. A plain schema has one entry, its
root; an API description has one for each of its component schemas, in the order of their names; resource
definitions have one for each kind.
-/

namespace Schemata.Import

inductive DocumentKind where
  | plain | api | resources
  deriving Repr, DecidableEq

def DocumentKind.name : DocumentKind → String
  | plain => "jsonschema"
  | api => "openapi"
  | resources => "crd"

/-- the dialect that suits documents of the kind -/
def DocumentKind.dialect : DocumentKind → Dialect
  | plain => .plain
  | _ => .openapi

structure Imported where
  kind : DocumentKind
  /-- nodes that leave the document, with their names -/
  entries : List (String × Option Nat)
  warnings : List String

/-! ## Kinds of documents -/

def isResource : Nat → Value → Bool
  | 0, _ => false
  | fuel + 1, v =>
    match v with
    | .object m =>
      if text? m "kind" = some "CustomResourceDefinition" then true
      else if text? m "kind" = some "List" then
        match list? m "items" with
        | some (x :: _) => isResource fuel x
        | _ => false
      else (object? m "openAPIV3Schema").isSome
    | _ => false

mutual

/-- how deep lists are nested, taken at their first elements -/
def nesting : Value → Nat
  | .array xs => 1 + nestingOf xs
  | .object fs => 1 + nestingIn fs
  | _ => 1

def nestingOf : List Value → Nat
  | [] => 0
  | x :: xs => max (nesting x) (nestingOf xs)

def nestingIn : List (String × Value) → Nat
  | [] => 0
  | (_, x) :: rest => max (nesting x) (nestingIn rest)

end

/-- is the document a definition of resources, or a list that starts with one? -/
def isResources (v : Value) : Bool := isResource (nesting v) v

def isApi : Value → Bool
  | .object m => Dict.has m "openapi" || Dict.has m "swagger"
  | _ => false

/-! ## Plain schemas and API descriptions -/

/-- a document, known under its address if it has one -/
def openDocument (o : Options) (v : Value) : ImportM Nat := do
  let i ← addSource o.baseUri v
  if o.baseUri ≠ "" then register o.baseUri i
  return i

/-- the name of a root: its title, what the import asks for, the name of its node, or a general one -/
def rootName (o : Options) (title nodeName : String) : String :=
  if title ≠ "" then title else if o.name ≠ "" then o.name else if nodeName ≠ "" then nodeName else "Schema"

def rootEntry (visit : Visit) (o : Options) (v : Value) : ImportM (String × Option Nat) := do
  let src ← openDocument o v
  let n ← visit src ""
  let name := rootName o (v.stringAt "title") (((n.bind (← get).graph.get?).map (·.name)).getD "")
  match n with
  | some id => onGraph (GraphM.apply id [.named name])
  | none => pure ()
  return (name, n)

def componentEntries (visit : Visit) (src : Nat) (lead : String) : List String → ImportM (List (String × Option Nat))
  | [] => pure []
  | name :: names => do
    let n ← visit src (lead ++ escapeToken name)
    return (name, n) :: (← componentEntries visit src lead names)

def apiEntries (visit : Visit) (o : Options) (v : Value) : ImportM (List (String × Option Nat)) := do
  let src ← openDocument o v
  let namesOf : Option Value → List String
    | some (.object m) => Dict.keys m
    | _ => []
  match Fragment.find? v "/components/schemas" with
  | some w => componentEntries visit src "/components/schemas/" (namesOf (some w))
  | none => componentEntries visit src "/definitions/" (namesOf (Fragment.find? v "/definitions"))

/-! ## Resources -/

/-- documents with lists replaced by what they list -/
def flattenLists (docs : List Value) : List Value :=
  docs.flatMap fun v => if v.stringAt "kind" = "List" then v.arrayAt "items" else [v]

def resourceKind (v : Value) : String :=
  match Fragment.find? v "/spec/names/kind" with
  | some (.string s) => s
  | _ => ""

def objectBehind? (v : Value) (fragment : String) : Option Value :=
  match Fragment.find? v fragment with
  | some (.object m) => some (.object m)
  | _ => none

/-- is a version of a resource served? It is unless it says no. -/
def isServed (v : Value) : Bool :=
  match v.field? "served" with
  | some (.bool b) => b
  | _ => true

/-- the schema of a resource: of the first served version that has one, of the first version that has one, or the older common one -/
def resourceSchema? (v : Value) : Option Value :=
  match v.field? "openAPIV3Schema" with
  | some (.object m) => some (.object m)
  | _ =>
    match v.field? "spec" with
    | some (.object spec) =>
      let versions := (Value.object spec).arrayAt "versions"
      let schemaOf (w : Value) : Option Value := objectBehind? w "/schema/openAPIV3Schema"
      match (versions.filter isServed).findSome? schemaOf, versions.findSome? schemaOf with
      | some s, _ => some s
      | none, some s => some s
      | none, none => objectBehind? (.object spec) "/validation/openAPIV3Schema"
    | _ => none

/-- the entries of resources; `seen` holds the kinds before -/
def resourceEntries (visit : Visit) (o : Options) (seen : List String) : List Value → ImportM (List (String × Option Nat))
  | [] => pure []
  | v :: rest => do
    if !isResources v then
      warn "skipping non-CRD document"
      resourceEntries visit o seen rest
    else
      let kind := resourceKind v
      if o.kind ≠ "" && kind ≠ o.kind then resourceEntries visit o seen rest
      else
        match resourceSchema? v with
        | none => stop (fail ("CRD " ++ Text.quote kind ++ " has no openAPIV3Schema"))
        | some schema =>
          let kind := if kind ≠ "" then kind else if o.name ≠ "" then o.name else "Resource"
          if seen.contains kind then
            warn ("duplicate CRD kind " ++ kind ++ ": keeping the first")
            resourceEntries visit o seen rest
          else
            let src ← addSource o.baseUri schema
            let n ← fun p =>
              let (r, p) := (visit src "").run p
              (Outcome.mapFailure r (wrap ("CRD " ++ kind ++ ": ")), p)
            return (kind, n) :: (← resourceEntries visit o (kind :: seen) rest)

def allResources (visit : Visit) (o : Options) (docs : List Value) : ImportM (List (String × Option Nat)) := do
  modify fun p => { p with pruning := true }
  let entries ← resourceEntries visit o [] (flattenLists docs)
  if entries.isEmpty then
    if o.kind ≠ "" then stop (fail ("CRD kind " ++ Text.quote o.kind ++ " not found"))
    stop (fail "no CRD schema found")
  return entries

/-! ## Imports -/

/-- the entries of documents, when `visit` builds what they lead to -/
def importBy (visit : Visit) (o : Options) (docs : List Value) :
    ImportM (DocumentKind × List (String × Option Nat)) := do
  match docs with
  | [] => stop (fail "empty input")
  | first :: rest =>
    if isResources first then return (.resources, ← allResources visit o docs)
    if isApi first then return (.api, ← apiEntries visit o first)
    if !rest.isEmpty then warn ("ignoring " ++ toString rest.length ++ " trailing documents")
    return (.plain, [← rootEntry visit o first])

def importDocuments (o : Options) (docs : List Value) : ImportM (DocumentKind × List (String × Option Nat)) :=
  importBy (definition o) o docs

/-- gives the references of an import their targets -/
def close (p : Progress) : Graph :=
  p.pending.foldl (fun g r =>
    let target : Deferred := match (p.sources[r.source]?).bind fun s => s.nodes.get? r.fragment with
      | some n => .node n
      | none => .missing
    g.modify r.node fun n => { n with deferred := some target }) p.graph

/-- imports decoded documents; what a failed import added stays in the graph -/
def ofDocuments (o : Options) (docs : List Value) : GraphM Imported := fun g =>
  let (r, p) := (importDocuments o docs).run { graph := g }
  (r.map fun (kind, entries) => { kind, entries, warnings := p.warnings }, close p)

/-- imports the documents of a text -/
def ofText (o : Options) (text : String) : GraphM Imported := do
  ofDocuments o (← GraphM.lift (decode text))

/-- imports a value as a document -/
def ofValue (o : Options) (v : Value) : GraphM Imported := do
  if v.isNull then GraphM.fail (fail "nil schema")
  else
    match Json.normalize v with
    | .error (.write e) => GraphM.fail (wrap "cannot marshal input: " (Schema.writeFailure e))
    | .error (.read e) => GraphM.fail (wrap "invalid marshaled JSON: " (.ofReader .json e.message))
    | .ok v => ofDocuments o [v]

end Schemata.Import
