import Schemata.Graph.Build

/-!
Loading: closing and freezing everything that a root reaches.

A load walks from a root through children, in declaration order and depth first, and skips what is loaded already.
Each node on the way has its deferred target resolved, runs its load hooks, passes hints to its properties and is
then frozen. A step loads one node, so a walk takes at most as many steps as the graph has nodes.
-/

namespace Schemata

namespace GraphM

/-- what the reaction of a hook changes -/
def react (id : Nat) (h : Hook) : GraphM Unit :=
  match h.reaction with
  | .fail => fail (.plain h.argument)
  | .rename => change id fun n => { n with name := h.argument }
  | .describe => change id fun n => n.mapInfo fun m => { m with description := h.argument }
  | .watch => pure ()

/-- runs hooks in order; each reports once it has run -/
def runHooks (phase : String) (event : String → String → Event) (id : Nat) : List Hook → GraphM Unit
  | [] => pure ()
  | h :: hs => do
    let before ← node id
    mapFailure (react id h) fun f => .wrapped (phase ++ " " ++ before.label ++ ": ") f ""
    report (event (← node id).label h.argument)
    runHooks phase event id hs

/-- resolves a deferred target -/
def resolve (n : Node) : GraphM Unit :=
  match n.deferred with
  | some d =>
    if n.children.isEmpty then do
      match (← graph).target? d with
      | some t => update (·.modify n.id fun m => { m with children := [t.id] })
      | none => fail (.fault .unsupportedConstruct (n.site "lazy target not in graph"))
    else pure ()
  | none => pure ()

end GraphM

namespace Graph

/-- gives a hint to a node and to the wrappers' child below it, up to the first frozen node or the first that wraps nothing;
`seen` holds the nodes passed so far -/
def giveHint (key : String) (seen : List Nat) : Nat → Nat → Graph → Graph
  | 0, _, g => g
  | fuel + 1, id, g =>
    match g.get? id with
    | none => g
    | some n =>
      if seen.contains id || n.loaded then g
      else
        let g := g.modify id fun m => if m.hint = "" then { m with hint := key } else m
        match n.kind.isWrapper, n.children with
        | true, [c] => giveHint key (id :: seen) fuel c g
        | _, _ => g

/-- gives the properties of an object their keys as hints -/
def giveHints (g : Graph) : List (String × Nat) → Graph
  | [] => g
  | (key, id) :: rest => giveHints (g.giveHint key [] (g.size + 1) id) rest

def isLoaded (g : Graph) (id : Nat) : Bool := (g.get? id).any (·.loaded)

end Graph

namespace GraphM

/-- loads a single node -/
def loadOne (id : Nat) : GraphM Unit := do
  resolve (← node id)
  runHooks "onLoad" Event.load id (← node id).onLoad
  let n ← node id
  if n.kind = .object then update (·.giveHints (n.objectOptions.keys.zip n.children))
  update (·.modify id fun m => { m with loaded := true })

/-- loads what stands on the stack, nodes and what they reach, one node a step -/
def loadFrom : (steps : Nat) → (stack : List Nat) → GraphM Unit
  | 0, _ => pure ()
  | steps + 1, stack => do
    let g ← graph
    match stack.dropWhile g.isLoaded with
    | [] => pure ()
    | id :: rest =>
      loadOne id
      let n ← node id
      let g ← graph
      loadFrom steps (n.children.filter (fun c => (g.get? c).isSome && !g.isLoaded c) ++ rest)

/-- loads everything that a root reaches -/
def load (root : Option Nat) : GraphM Unit := do
  let g ← graph
  match root.bind g.get? with
  | none => fail (.unsupported "root does not belong to graph")
  | some n => loadFrom g.size [n.id]

/-- runs the hooks on sampling of a node -/
def generated (id : Nat) : GraphM Unit := do
  runHooks "onGenerate" Event.generate id (← node id).onGenerate

end GraphM

/-! ## Exports -/

/-- one node leaving the graph under a name, with attributes that hooks may read and set -/
structure Export where
  target : String
  name : String
  attrs : Dict String := []
  deriving Repr, DecidableEq

namespace GraphM

/-- runs the export hooks of a node in order -/
def runExportHooks (label : String) (x : Export) : List ExportHook → GraphM Export
  | [] => pure x
  | h :: hs => do
    let x ← match h.reaction with
      | .fail => fail (.wrapped ("onExport " ++ label ++ ": ") (.plain h.argument) "")
      | .set v => pure { x with attrs := x.attrs.insert h.argument v }
      | .watch => pure x
    report (.exported label x.target x.name h.argument (x.attrs.get? h.argument))
    runExportHooks label x hs

/-- the export of a node after its hooks -/
def exported (id : Nat) (x : Export) : GraphM Export := do
  let n ← node id
  runExportHooks n.label x n.onExport

end GraphM

end Schemata
