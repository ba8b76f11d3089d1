import Schemata.Value
import Schemata.Shape
import Schemata.Dialect
import Schemata.Failure

/-!
Schema graphs: nodes that refer to each other by number.

A node has a kind, options of that kind, annotations and the numbers of its children, so sharing and cycles are
plain look-ups. Numbers start at 1 and are never given twice. A node can be changed until it is loaded; from then on
it is frozen, and trying to change it breaks off. Hooks are data: what they do and what they report is part of the
model.
-/

namespace Schemata

/-- the kinds of schema nodes; `invalid` stands for every kind outside the set -/
inductive Kind where
  | string | number | integer | boolean | null | unknown | object | array | tuple | record | union | intersection | enum
  | const | optional | nullable | ref | validator | custom | invalid
  deriving Repr, DecidableEq, Inhabited

namespace Kind

def all : List Kind :=
  [string, number, integer, boolean, null, unknown, object, array, tuple, record, union, intersection, enum, const,
   optional, nullable, ref, validator, custom]

def name : Kind → String
  | string => "string"
  | number => "number"
  | integer => "integer"
  | boolean => "boolean"
  | null => "null"
  | unknown => "unknown"
  | object => "object"
  | array => "array"
  | tuple => "tuple"
  | record => "record"
  | union => "union"
  | intersection => "intersection"
  | enum => "enum"
  | const => "const"
  | optional => "optional"
  | nullable => "nullable"
  | ref => "ref"
  | validator => "validator"
  | custom => "custom"
  | invalid => "invalid"

def ofName (s : String) : Kind := (all.find? (·.name == s)).getD invalid

/-- wrappers around one child that compose in any order -/
def isWrapper : Kind → Bool
  | optional => true
  | nullable => true
  | ref => true
  | _ => false

/-- kinds without children -/
def isPrimitive : Kind → Bool
  | string => true
  | number => true
  | integer => true
  | boolean => true
  | null => true
  | unknown => true
  | _ => false

end Kind

/-! ## Options -/

structure TextOptions where
  minLength : Option Int := none
  maxLength : Option Int := none
  pattern : String := ""
  format : String := ""
  deriving Repr, DecidableEq

structure NumberOptions where
  minimum : Option Float := none
  maximum : Option Float := none
  exclusiveMinimum : Option Float := none
  exclusiveMaximum : Option Float := none
  multipleOf : Option Float := none

/-- what an object does with keys that it does not declare -/
inductive Unlisted where
  | keep | reject | drop
  deriving Repr, DecidableEq

def Unlisted.code : Unlisted → Nat
  | keep => 0
  | reject => 1
  | drop => 2

/-- `keys` names the children, one by one -/
structure ObjectOptions where
  keys : List String := []
  unlisted : Unlisted := .keep
  deriving Repr, DecidableEq

structure ValidatorOptions where
  mode : ValidatorMode := .source
  /-- also emit a function that panics on issues -/
  assert : Bool := false
  /-- accept numbers and booleans given as text -/
  coerce : Bool := false
  /-- check string formats -/
  formats : Bool := false
  deriving Repr, DecidableEq

/-- a fragment that is rendered as it stands, or the address of a document -/
structure CustomOptions where
  fragment : Option (Dict Value) := none
  remote : String := ""

/-- options of a node, by the kinds they belong to -/
inductive Options where
  | none
  | text (o : TextOptions)
  | number (o : NumberOptions)
  | object (o : ObjectOptions)
  | array (o : ArrayLimits)
  /-- does the last child describe all items beyond the fixed positions? -/
  | tuple (rest : Bool)
  | record (keyPattern : String)
  | union (discriminator : String)
  | enum (values : List Value)
  | const (value : Value)
  | validator (o : ValidatorOptions)
  | custom (o : CustomOptions)
  deriving Inhabited

/-- annotations that every node may carry -/
structure Meta where
  title : String := ""
  description : String := ""
  default : Option Value := none
  readOnly : Bool := false
  deprecated : Bool := false
  examples : List Value := []
  /-- keywords for every dialect -/
  extensions : Dict Value := []
  /-- keywords for the API description dialect only -/
  openapi : Dict Value := []
  rules : List Rule := []
  deriving Inhabited

/-- has the node no annotation? -/
def Meta.isEmpty (m : Meta) : Bool :=
  m.title == "" && m.description == "" && m.default.isNone && !m.readOnly && !m.deprecated && m.examples.isEmpty
    && m.extensions.isEmpty && m.openapi.isEmpty && m.rules.isEmpty

/-! ## Hooks -/

/-- what a hook does to its node -/
inductive Reaction where
  | fail
  | rename
  | describe
  | watch
  deriving Repr, DecidableEq

/-- a hook on loading or sampling; its argument is the message, name or text that the reaction takes -/
structure Hook where
  reaction : Reaction
  argument : String
  deriving Repr, DecidableEq

/-- what a hook does to an export -/
inductive ExportReaction where
  | fail
  | set (value : String)
  | watch
  deriving Repr, DecidableEq

/-- a hook on exporting; its argument is the message of a failure or the attribute it looks at -/
structure ExportHook where
  reaction : ExportReaction
  argument : String
  deriving Repr, DecidableEq

/-- what hooks report when they have run -/
inductive Event where
  | load (node argument : String)
  | generate (node argument : String)
  | exported (node target name attr : String) (value : Option String)
  deriving Repr, DecidableEq

/-! ## Nodes -/

/-- a target that is looked up when the reference is loaded -/
inductive Deferred where
  | node (id : Nat)
  /-- an entry point of the graph: by its name, or the first one -/
  | entry (name : Option String)
  | missing
  deriving Repr, DecidableEq

structure Node where
  id : Nat
  kind : Kind
  children : List Nat := []
  options : Options := .none
  info : Meta := {}
  name : String := ""
  /-- the property through which loading reached the node -/
  hint : String := ""
  onLoad : List Hook := []
  onExport : List ExportHook := []
  onGenerate : List Hook := []
  deferred : Option Deferred := none
  loaded : Bool := false
  deriving Inhabited

namespace Node

/-- the text of a node in messages -/
def label (n : Node) : String :=
  n.kind.name ++ "#" ++ toString n.id ++ (if n.name = "" then "" else "(" ++ n.name ++ ")")

def textOptions (n : Node) : TextOptions := match n.options with | .text o => o | _ => {}
def numberOptions (n : Node) : NumberOptions := match n.options with | .number o => o | _ => {}
def objectOptions (n : Node) : ObjectOptions := match n.options with | .object o => o | _ => {}
def arrayOptions (n : Node) : ArrayLimits := match n.options with | .array o => o | _ => {}
def hasRest (n : Node) : Bool := match n.options with | .tuple r => r | _ => false
def keyPattern (n : Node) : String := match n.options with | .record p => p | _ => ""
def discriminator (n : Node) : String := match n.options with | .union d => d | _ => ""
def enumValues (n : Node) : List Value := match n.options with | .enum vs => vs | _ => []
def constValue (n : Node) : Value := match n.options with | .const v => v | _ => .null
def validatorOptions (n : Node) : ValidatorOptions := match n.options with | .validator o => o | _ => {}
def customOptions (n : Node) : CustomOptions := match n.options with | .custom o => o | _ => {}

/-- where a fault about this node lies -/
def site (n : Node) (detail : String) : Site := { node := n.id, kind := n.kind.name, detail }

end Node

/-! ## Graphs -/

structure Graph where
  nodes : Array Node := #[]
  /-- named entry points, in order; a point may have lost its node -/
  entries : List (String × Option Nat) := []
  /-- what hooks reported, oldest first -/
  events : List Event := []
  deriving Inhabited

namespace Graph

def size (g : Graph) : Nat := g.nodes.size

/-- the node of a number -/
def get? (g : Graph) (id : Nat) : Option Node := if id = 0 then none else g.nodes[id - 1]?

/-- a graph with one more node; its number is the new size -/
def add (g : Graph) (kind : Kind) (options : Options) (children : List Nat) : Graph :=
  { g with nodes := g.nodes.push { id := g.size + 1, kind, options, children } }

def modify (g : Graph) (id : Nat) (f : Node → Node) : Graph :=
  if id = 0 then g else { g with nodes := g.nodes.modify (id - 1) f }

def child? (g : Graph) (n : Node) (i : Nat) : Option Node := n.children[i]?.bind g.get?

/-- the only child of a wrapper -/
def sole (g : Graph) (n : Node) : Outcome Node :=
  match n.children with
  | [c] =>
    match g.get? c with
    | some m => .ok m
    | none => failWith (.fault .unsupportedConstruct (n.site "dangling child"))
  | cs =>
    failWith (.fault .unsupportedConstruct (n.site ("wrapper has " ++ toString cs.length ++ " children, want 1")))

/-- an entry point: by its name, or the first one -/
def entry? (g : Graph) (name : Option String) : Option Nat :=
  match name with
  | some s => (g.entries.find? (·.1 == s)).bind (·.2)
  | none => g.entries.head?.bind (·.2)

/-- where a deferred reference leads, if it leads to a node -/
def target? (g : Graph) (d : Deferred) : Option Node :=
  match d with
  | .node id => g.get? id
  | .entry name => (g.entry? name).bind g.get?
  | .missing => none

end Graph

/-- steps on a graph; what was done before a failure stays done -/
abbrev GraphM (α : Type) := ExceptT Stop (StateM Graph) α

namespace GraphM

def lift {α : Type} (o : Outcome α) : GraphM α := fun g => (o, g)

def fail {α : Type} (f : Failure) : GraphM α := lift (failWith f)

def graph : GraphM Graph := fun g => (.ok g, g)

def update (f : Graph → Graph) : GraphM Unit := fun g => (.ok (), f g)

def report (e : Event) : GraphM Unit := update fun g => { g with events := g.events ++ [e] }

/-- the node of a number; breaks off when there is none -/
def node (id : Nat) : GraphM Node := fun g =>
  match g.get? id with
  | some n => (.ok n, g)
  | none => (abort, g)

/-- changes a node that is not loaded yet -/
def change (id : Nat) (f : Node → Node) : GraphM Unit := do
  let n ← node id
  if n.loaded then lift (abortWith ("schema: node " ++ toString id ++ " is frozen"))
  else update (·.modify id f)

/-- a step with its failure changed -/
def mapFailure {α : Type} (x : GraphM α) (f : Failure → Failure) : GraphM α := fun g =>
  let (r, g') := x g
  (Outcome.mapFailure r f, g')

end GraphM

end Schemata
