import Schemata.Emit.File
import Schemata.Graph.Load
import Schemata.Registry

/-!
Runs of a backend over a graph.

A run holds a registry that all files share and one for each scope that was asked for, in that order. Before an
input is scanned the run is marked; when the scan fails, the shared registry goes back to the mark and the scopes
made since then are dropped.
-/

namespace Schemata

structure Run where
  graph : Graph
  target : String
  naming : Naming := Naming.standard
  shared : Registry
  /-- in the order in which they were made -/
  scopes : List (String × Registry) := []

/-- steps of a run; what was done before a failure stays done -/
abbrev RunM (α : Type) := ExceptT Stop (StateM Run) α

namespace Run

def start (g : Graph) (target : String) (naming : Naming) : Run :=
  { graph := g, target, naming, shared := { target, naming } }

/-- the registry of a scope, if there is one -/
def registryFor (r : Run) (scope : String) : Option Registry :=
  if scope = "" then some r.shared else (r.scopes.find? (·.1 == scope)).map (·.2)

/-- the run with a registry for the scope -/
def openScope (r : Run) (scope : String) : Run :=
  if (r.registryFor scope).isSome then r
  else { r with scopes := r.scopes ++ [(scope, { target := r.target, naming := r.naming })] }

def setRegistry (r : Run) (scope : String) (reg : Registry) : Run :=
  if scope = "" then { r with shared := reg }
  else { r with scopes := r.scopes.map fun (s, old) => (s, if s = scope then reg else old) }

structure Checkpoint where
  mark : Nat
  scopes : Nat
  deriving Repr, DecidableEq

def checkpoint (r : Run) : Checkpoint := ⟨r.shared.mark, r.scopes.length⟩

def rollback (r : Run) (c : Checkpoint) : Run :=
  { r with shared := r.shared.discard c.mark, scopes := r.scopes.take c.scopes }

/-- makes all names final -/
def finalize (r : Run) : Run :=
  { r with shared := r.shared.finalize, scopes := r.scopes.map fun (s, reg) => (s, reg.finalize) }

end Run

namespace RunM

def fail {α : Type} (f : Failure) : RunM α := throw (.failed f)

def lift {α : Type} (o : Outcome α) : RunM α := fun r => (o, r)

def onGraph {α : Type} (act : GraphM α) : RunM α := fun r =>
  let (a, g) := act r.graph
  (a, { r with graph := g })

/-- the registry of a scope, made on first use -/
def registry (scope : String) : RunM Registry := do
  modify (·.openScope scope)
  match (← get).registryFor scope with
  | some reg => return reg
  | none => return (← get).shared

/-- a step on the registry of a scope -/
def onRegistry {α : Type} (scope : String) (f : Registry → Outcome α × Registry) : RunM α := do
  let (a, reg) := f (← registry scope)
  modify (·.setRegistry scope reg)
  lift a

/-- declares a node in a scope -/
def declare (scope : String) (id : Nat) (file hint : String) (explicit : Bool) : RunM Unit := do
  let g := (← get).graph
  onRegistry scope fun reg =>
    match reg.declare g id file hint explicit with
    | .ok (reg, _) => (.ok (), reg)
    | .error e => (.error e, reg)

end RunM

/-- a node that a file exposes under a name -/
structure NamedNode where
  name : String
  node : Option Nat
  deriving Repr, DecidableEq

/-- a source file and what it exposes, in order -/
structure Input where
  path : String
  exports : List NamedNode
  deriving Repr, DecidableEq

/-- renders inputs for one target -/
structure Backend where
  target : String
  scan : Input → RunM (List OutputFile)

end Schemata
