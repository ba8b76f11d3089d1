import Schemata.Graph.Basic

/-!
Building graphs: settings of nodes and the constructors of each kind.

A setting of a kind that the node is not of changes nothing. All other settings change the node and so break off
once it is loaded.
-/

namespace Schemata

/-- one thing to set on a node -/
inductive Setting where
  | named (name : String)
  | title (s : String)
  | describe (s : String)
  | default (v : Value)
  | readOnly
  | deprecated
  | examples (vs : List Value)
  | extension (key : String) (v : Value)
  | openapi (key : String) (v : Value)
  | rule (r : Rule)
  | minLength (n : Int)
  | maxLength (n : Int)
  | pattern (p : String)
  | format (f : String)
  | minimum (x : Float)
  | maximum (x : Float)
  | exclusiveMinimum (x : Float)
  | exclusiveMaximum (x : Float)
  | multipleOf (x : Float)
  | minItems (n : Int)
  | maxItems (n : Int)
  | uniqueItems
  | keyPattern (p : String)
  | onLoad (h : Hook)
  | onExport (h : ExportHook)
  | onGenerate (h : Hook)
  deriving Inhabited

namespace Node

def mapInfo (n : Node) (f : Meta → Meta) : Node := { n with info := f n.info }

def mapText? (n : Node) (f : TextOptions → TextOptions) : Option Node :=
  match n.options with
  | .text o => some { n with options := .text (f o) }
  | _ => none

def mapNumber? (n : Node) (f : NumberOptions → NumberOptions) : Option Node :=
  match n.options with
  | .number o => some { n with options := .number (f o) }
  | _ => none

def mapArray? (n : Node) (f : ArrayLimits → ArrayLimits) : Option Node :=
  match n.options with
  | .array o => some { n with options := .array (f o) }
  | _ => none

/-- the node with a setting, or `none` when the setting is not one of its kind -/
def set? (n : Node) : Setting → Option Node
  | .named s => some { n with name := s }
  | .title s => some (n.mapInfo fun m => { m with title := s })
  | .describe s => some (n.mapInfo fun m => { m with description := s })
  | .default v => some (n.mapInfo fun m => { m with default := some v })
  | .readOnly => some (n.mapInfo fun m => { m with readOnly := true })
  | .deprecated => some (n.mapInfo fun m => { m with deprecated := true })
  | .examples vs => some (n.mapInfo fun m => { m with examples := m.examples ++ vs })
  | .extension k v => some (n.mapInfo fun m => { m with extensions := m.extensions.insert k v })
  | .openapi k v => some (n.mapInfo fun m => { m with openapi := m.openapi.insert k v })
  | .rule r => some (n.mapInfo fun m => { m with rules := m.rules ++ [r] })
  | .minLength k => n.mapText? fun o => { o with minLength := some k }
  | .maxLength k => n.mapText? fun o => { o with maxLength := some k }
  | .pattern p => n.mapText? fun o => { o with pattern := p }
  | .format f => n.mapText? fun o => { o with format := f }
  | .minimum x => n.mapNumber? fun o => { o with minimum := some x }
  | .maximum x => n.mapNumber? fun o => { o with maximum := some x }
  | .exclusiveMinimum x => n.mapNumber? fun o => { o with exclusiveMinimum := some x }
  | .exclusiveMaximum x => n.mapNumber? fun o => { o with exclusiveMaximum := some x }
  | .multipleOf x => n.mapNumber? fun o => { o with multipleOf := some x }
  | .minItems k => n.mapArray? fun o => { o with minItems := some k }
  | .maxItems k => n.mapArray? fun o => { o with maxItems := some k }
  | .uniqueItems => n.mapArray? fun o => { o with unique := true }
  | .keyPattern p => match n.options with | .record _ => some { n with options := .record p } | _ => none
  | .onLoad h => some { n with onLoad := n.onLoad ++ [h] }
  | .onExport h => some { n with onExport := n.onExport ++ [h] }
  | .onGenerate h => some { n with onGenerate := n.onGenerate ++ [h] }

end Node

namespace GraphM

/-- applies one setting to a node -/
def set (id : Nat) (s : Setting) : GraphM Unit := do
  let n ← node id
  match n.set? s with
  | some m => change id fun _ => m
  | none => pure ()

/-- applies settings in order -/
def apply (id : Nat) : List Setting → GraphM Unit
  | [] => pure ()
  | s :: ss => do
    set id s
    apply id ss

/-- a new node with settings, by its number -/
def add (kind : Kind) (options : Options) (children : List Nat) (settings : List Setting) : GraphM Nat := do
  update (·.add kind options children)
  let id := (← graph).size
  apply id settings
  return id

/-- a reference whose target is looked up when it is loaded -/
def defer (target : Deferred) (settings : List Setting) : GraphM Nat := do
  let id ← add .ref .none [] []
  change id fun n => { n with deferred := some target }
  apply id settings
  return id

end GraphM

/-- fields in order of their first mention; a repeated key takes the later node -/
def putField (key : String) (id : Nat) : List (String × Nat) → List (String × Nat)
  | [] => [(key, id)]
  | (k, i) :: rest => if k = key then (k, id) :: rest else (k, i) :: putField key id rest

/-- a new object; an optional field is wrapped in a node of its own, made at its turn -/
def GraphM.object (fields : List (String × Nat × Bool)) (unlisted : Unlisted) (settings : List Setting) :
    GraphM Nat := do
  let rec put (acc : List (String × Nat)) : List (String × Nat × Bool) → GraphM (List (String × Nat))
    | [] => pure acc
    | (key, id, isOptional) :: rest => do
      let id ← if isOptional then add .optional .none [id] [] else pure id
      put (putField key id acc) rest
  let fs ← put [] fields
  add .object (.object { keys := fs.map (·.1), unlisted }) (fs.map (·.2)) settings

end Schemata
