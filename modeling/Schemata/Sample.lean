import Schemata.Graph.Load
import Schemata.Graph.Visit
import Schemata.Json.Writer
import Schemata.Schema.Decode
import Schemata.Pattern.Syntax

/-!
Sample values: a small value for each node, always the same one.

Optional parts are left out, lists are as short as they may be, and of a union the first variant that has a value is
taken. A reference may be entered again only a limited number of times while a value is built; where that leaves no
value, a nullable wrapper gives null. Every value that is made runs the sampling hooks of its node.
-/

namespace Schemata.Sample

structure Options where
  /-- how often the target of a reference may be entered within itself; 0 and less stand for the standard -/
  maxDepth : Int := 0
  /-- prefer a default, then an example, over a value made up -/
  useDefaults : Bool := false

/-- the limit in force -/
def Options.limit (o : Options) : Nat := if o.maxDepth ≤ 0 then 2 else o.maxDepth.toNat

/-- the graph, and how often each reference target is being entered -/
structure State where
  graph : Graph
  active : List (Nat × Nat) := []

def State.count (s : State) (id : Nat) : Nat := ((s.active.find? (·.1 == id)).map (·.2)).getD 0

def State.setCount (s : State) (id n : Nat) : State := { s with active := (id, n) :: s.active.filter (·.1 != id) }

abbrev SampleM (α : Type) := ExceptT Stop (StateM State) α

def onGraph {α : Type} (x : GraphM α) : SampleM α := fun s =>
  let (r, g) := x s.graph
  (r, { s with graph := g })

def lift {α : Type} (o : Outcome α) : SampleM α := fun s => (o, s)

def fail {α : Type} (f : Failure) : SampleM α := lift (failWith f)

def failAt {α : Type} (n : Node) (detail : String) : SampleM α := fail (.fault .unsupportedConstruct (n.site detail))

/-- counts a target as entered while the body runs, however the body ends -/
def entered (id : Nat) (body : SampleM Value) : SampleM Value := fun s =>
  let (r, s') := body (s.setCount id (s.count id + 1))
  (r, s'.setCount id (s'.count id - 1))

/-- the outcome of a body as a value; breaking off is passed on -/
def attempt (body : SampleM Value) : SampleM (Except Failure Value) := fun s =>
  match body s with
  | (.ok v, s') => (.ok (.ok v), s')
  | (.error (.failed f), s') => (.ok (.error f), s')
  | (.error (.aborted r), s') => (.error (.aborted r), s')

/-! ## Strings -/

/-- a text in each format -/
def ofFormat : String → String
  | "date-time" => "1970-01-01T00:00:00Z"
  | "date" => "1970-01-01"
  | "time" => "00:00:00Z"
  | "email" => "user@example.com"
  | "hostname" => "example.com"
  | "ipv4" => "127.0.0.1"
  | "ipv6" => "::1"
  | "uri" => "https://example.com"
  | "uuid" => "00000000-0000-4000-8000-000000000000"
  | "regex" => ".*"
  | _ => ""

/-- lengthened to a least length -/
def pad (s : String) (c : Char) (minLength : Option Int) : String :=
  match minLength with
  | some n => s ++ String.ofList (List.replicate (n - s.length).toNat c)
  | none => s

/-- texts to try against a pattern, lengthened by their last character and within the greatest length -/
def candidates (base : String) (o : TextOptions) : List String :=
  let seeds := [base, "a", "A", "0", "a0", "aaaa", "0000", "a-a", "a_a", "a.a", "AAAA"]
  (seeds.map fun s => pad s (s.toList.getLast?.getD 'a') o.minLength).filter fun s =>
    match o.maxLength with
    | some m => !(decide ((s.length : Int) > m))
    | none => true

def textValue (n : Node) : SampleM Value :=
  let o := n.textOptions
  let base := pad (ofFormat o.format) 'a' o.minLength
  if o.pattern = "" then pure (.string base)
  else
    match Pattern.parse o.pattern with
    | .error e => fail (.causedFault .unsupportedConstruct (n.site "") (.plain e.message))
    | .ok p =>
      match (candidates base o).find? p.search with
      | some s => pure (.string s)
      | none => failAt n ("no sample matches pattern " ++ Text.quote o.pattern)

/-! ## Numbers -/

/-- the tighter of an inclusive and an exclusive bound, and whether it is exclusive -/
def bound (tighter : Float → Float → Bool) (inclusive exclusive : Option Float) : Option (Float × Bool) :=
  match exclusive, inclusive with
  | some x, none => some (x, true)
  | some x, some y => if tighter x y then some (x, true) else some (y, false)
  | none, some y => some (y, false)
  | none, none => none

/-- zero, or the least number of the grid above the lower bound -/
def numberOf (integer : Bool) (o : NumberOptions) : Float :=
  let step := o.multipleOf.getD (if integer then 1.0 else 0.5)
  let v := match bound (· ≥ ·) o.minimum o.exclusiveMinimum with
    | some (lo, isExclusive) =>
      if 0.0 < lo || (0.0 == lo && isExclusive) then (if isExclusive then lo + step else lo) else 0.0
    | none => 0.0
  let v := if o.multipleOf.isSome || integer then (v / step).ceil * step else v
  if integer then v.ceil else v

def numberValue (n : Node) : SampleM Value :=
  let o := n.numberOptions
  let v := numberOf (n.kind = .integer) o
  match bound (· ≤ ·) o.maximum o.exclusiveMaximum with
  | some (hi, isExclusive) =>
    if v > hi || (v == hi && isExclusive) then failAt n "numeric bounds leave no sample value" else pure (.float v)
  | none => pure (.float v)

/-! ## Nodes -/

/-- how a node below is sampled -/
abbrev Descend := Nat → SampleM Value

def child (descend : Descend) (n : Node) (i : Nat) : SampleM Value := do
  match (← onGraph GraphM.graph).child? n i with
  | some c => descend c.id
  | none => failAt n ("missing child " ++ toString i)

def sole (descend : Descend) (n : Node) : SampleM Value := do
  descend (← lift ((← onGraph GraphM.graph).sole n)).id

/-- the fields that are not optional; of a key that stands twice the later one counts -/
def fieldsValue (descend : Descend) (acc : Dict Value) : List (String × Nat) → SampleM Value
  | [] => pure (.object acc)
  | (key, id) :: rest => do
    let g ← onGraph GraphM.graph
    if (g.get? id).isNone || g.isOptional id then fieldsValue descend acc rest
    else
      let v ← descend id
      fieldsValue descend (acc.insert key v) rest

def items (descend : Descend) (n : Node) : List Nat → SampleM (List Value)
  | [] => pure []
  | i :: is => do
    let v ← child descend n i
    let vs ← items descend n is
    return v :: vs

/-- as many equal items as must be there -/
def arrayValue (descend : Descend) (n : Node) : SampleM Value := do
  let o := n.arrayOptions
  let count := o.minItems.getD 0
  if count < 0 then lift abort
  else
    let vs ← items descend n (List.replicate count.toNat 0)
    if o.unique && count > 1 then failAt n "cannot synthesize distinct items" else return .array vs

/-- positions up to the last one that is not optional -/
def tupleValue (descend : Descend) (n : Node) : SampleM Value := do
  let g ← onGraph GraphM.graph
  let fixed := if n.hasRest then n.children.dropLast else n.children
  let count := fixed.zipIdx.foldl (fun acc (id, i) => if g.isOptional id then acc else i + 1) 0
  return .array (← items descend n (List.range count))

/-- the first variant that has a value -/
def unionValue (descend : Descend) (n : Node) (errs : List Failure) : List Nat → SampleM Value
  | [] => if errs.isEmpty then failAt n "empty union" else fail (.joined errs)
  | i :: is => do
    match ← attempt (child descend n i) with
    | .ok v => return v
    | .error f => unionValue descend n (errs ++ [f]) is

/-- objects of all parts merged, or the first part as soon as one is no object -/
def intersectionValue (descend : Descend) (n : Node) (first : Value) (merged : Option (Dict Value)) :
    List Nat → SampleM Value
  | [] => pure ((merged.map Value.object).getD first)
  | i :: is => do
    let v ← child descend n i
    let first := if i = 0 then v else first
    match v with
    | .object fs => intersectionValue descend n first (some (fs.foldl (fun d (k, x) => d.insert k x) (merged.getD []))) is
    | _ => return first

/-- a default, or else an example -/
def preferred? (m : Meta) : Option Value := m.default.orElse fun _ => m.examples.head?

/-- the value of a node, its own hooks left out; `bare` samples a node in the same way -/
def nodeValue (o : Options) (descend bare : Descend) (n : Node) : SampleM Value :=
  match n.kind with
  | .string => textValue n
  | .number => numberValue n
  | .integer => numberValue n
  | .boolean => pure (.bool false)
  | .null => pure .null
  | .unknown => pure .null
  | .object => fieldsValue descend [] (n.objectOptions.keys.zip n.children)
  | .array => arrayValue descend n
  | .tuple => tupleValue descend n
  | .record => pure (.object [])
  | .union => unionValue descend n [] (List.range n.children.length)
  | .intersection => intersectionValue descend n .null none (List.range n.children.length)
  | .enum => match n.enumValues with | v :: _ => pure v | [] => failAt n "empty enum"
  | .const => pure n.constValue
  | .optional => sole bare n
  | .nullable => do
    match ← attempt (sole descend n) with
    | .ok v => return v
    | .error f => if f.isTooDeep then return .null else fail f
  | .ref => do
    let t ← lift ((← onGraph GraphM.graph).sole n)
    let s ← (fun s => (.ok s, s) : SampleM State)
    if s.count t.id ≥ o.limit then fail (.leaf .tooDeep) else entered t.id (descend t.id)
  | .validator => sole descend n
  | .custom => pure ((preferred? n.info).getD .null)
  | .invalid => fail (.fault .unhandledNodeKind (n.site ""))

/-- a value with the hooks of its node; a preferred value stands for one made up where that is asked for -/
def withHooks (o : Options) (id : Nat) (make : SampleM Value) : SampleM Value := do
  let n ← onGraph (GraphM.node id)
  let v ← match (if o.useDefaults then preferred? n.info else none) with
    | some v => pure v
    | none => make
  onGraph (GraphM.generated id)
  return v

/-- the value of a node, nested at most `depth` deep -/
def bareValue (o : Options) : (depth : Nat) → Nat → SampleM Value
  | 0, _ => lift abort
  | depth + 1, id => do
    let n ← onGraph (GraphM.node id)
    nodeValue o (fun c => withHooks o c (bareValue o depth c)) (bareValue o depth) n

/-- the nesting a value can reach: a path through the graph for each entry of a reference target -/
def maxNesting (o : Options) (g : Graph) : Nat := (o.limit * g.size + 1) * (g.size + 1) + 1

/-- loads a node and makes a value for it -/
def value (o : Options) (root : Nat) : GraphM Value := do
  GraphM.load (some root)
  let n ← GraphM.node root
  fun g =>
    let (r, s) := withHooks o root (bareValue o (maxNesting o g) root) { graph := g }
    let r := match r with
      | .error (.failed f) =>
        if f.isTooDeep then failWith (.fault .unsupportedConstruct (n.site "recursive schema has no finite value"))
        else .error (.failed f)
      | r => r
    (r, s.graph)

/-- a value as indented JSON text -/
def prettyText (v : Value) : Outcome String :=
  match Json.compact v with
  | .error e => failWith (Schema.writeFailure e)
  | .ok t =>
    match Json.parse t with
    | .ok j => .ok (j.pretty "  " 0)
    | .error e => failWith (.ofReader .json e.message)

/-- the sample of a node as indented JSON text -/
def text (o : Options) (root : Nat) : GraphM String := do
  GraphM.lift (prettyText (← value o root))

end Schemata.Sample
