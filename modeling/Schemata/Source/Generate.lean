import Schemata.Source.Basic
import Schemata.Failure

/-!
Generating validators: one function per node.

Nodes are numbered as `Program.nodes` lists them, so the children of a node follow it and their numbers come from
the sizes of the subtrees before them. Variables are numbered in the order in which the functions first need them.
-/

namespace Schemata.Source

/-- variables made so far, in reverse, with the number of the next one -/
structure Pool where
  next : Nat := 0
  made : List Variable := []

/-- steps of generation: they make variables and may fail -/
abbrev Gen := StateT Pool (Except GenerateError)

def fail {α : Type} (e : GenerateError) : Gen α := fun _ => .error e

def newVariable (i : Initial) : Gen Variable := fun pool =>
  let v : Variable := ⟨pool.next, i⟩
  .ok (v, { next := pool.next + 1, made := v :: pool.made })

/-- the numbers of sibling shapes, when the first of them gets `start`; a missing shape goes by the number 0 -/
def numbers (start : Nat) : List Shape → List Nat
  | [] => []
  | s :: ss => (if s.isAbsent then 0 else start) :: numbers (start + s.size) ss

/-- the definitions of a program by name, with the number of their first node; the root has the empty name -/
def entries (p : Program) : List (String × Nat) :=
  let ns := numbers 0 p.shapes
  (p.names.zip (ns.drop 1)) ++ [("", ns.headD 0)]

/-- of entries of one name the last counts -/
def entryOf? (es : List (String × Nat)) (name : String) : Option Nat :=
  (es.reverse.find? (·.1 == name)).map (·.2)

/-- the definition that starts at a node; of several the last, and the root counts as the one of the empty name -/
def definitionAt? (es : List (String × Nat)) (id : Nat) : Option String :=
  es.dropLast.reverse.map (·.1) |>.find? fun name => entryOf? es name == some id

/-- a number as a constant of the target text -/
def numberLiteral (x : Float) : String := Number.Layout.general.text Number.double x

mutual

/-- a value as an expression of the target text -/
def literal : Value → Except GenerateError String
  | .null => .ok "nil"
  | .bool b => .ok (if b then "true" else "false")
  | .string s => .ok (Text.quote s)
  | .float x =>
    if Number.isFinite x then .ok ("float64(" ++ numberLiteral x ++ ")")
    else .error (.nonFinite (numberLiteral x))
  | .int true .machine n => .ok ("float64(" ++ toString n ++ ")")
  | .array xs => (literals xs).map fun ts => "[]any\x7b" ++ ", ".intercalate ts ++ "\x7d"
  | .object fs => (literalFields fs).map fun ts => "map[string]any\x7b" ++ ", ".intercalate ts ++ "\x7d"
  | .int signed w n => .error (.unsupportedLiteral (Value.int signed w n).carrierName)
  | .single x => .error (.unsupportedLiteral (Value.single x).carrierName)
  | .literal t => .error (.unsupportedLiteral (Value.literal t).carrierName)

def literals : List Value → Except GenerateError (List String)
  | [] => .ok []
  | x :: xs => do
    let t ← literal x
    let ts ← literals xs
    return t :: ts

def literalFields : List (String × Value) → Except GenerateError (List String)
  | [] => .ok []
  | (k, x) :: xs => do
    let t ← literal x
    let ts ← literalFields xs
    return (Text.quote k ++ ": " ++ t) :: ts

end

def when? {α : Type} (o : Option α) (f : α → Statement) : List Statement :=
  match o with
  | some a => [f a]
  | none => []

def stringBody (q : Primitive) : Gen (List Statement) := do
  if q.minLength.isNone && q.maxLength.isNone && q.pattern = "" && q.format = "" then return [.assert .string]
  let pattern ← if q.pattern = "" then pure [] else do
    let v ← newVariable (.pattern q.pattern)
    pure [Statement.pattern v]
  let format ← if q.format = "" then pure [] else
    match Format.ofName? q.format with
    | some f => pure [Statement.format q.format f]
    | none => fail (.unknownFormat q.format)
  return .bind .string :: when? q.minLength .minLength ++ when? q.maxLength .maxLength ++ pattern ++ format

def numberBody (a : Assertion) (q : Primitive) : List Statement :=
  if q.min.isNone && q.max.isNone && q.multipleOf.isNone then [.assert a]
  else
    .bind a :: when? q.min (fun x => .minimum x q.exclusiveMin) ++ when? q.max (fun x => .maximum x q.exclusiveMax)
      ++ when? q.multipleOf .multipleOf

def primitiveBody (coerce : Bool) (q : Primitive) : Gen (List Statement) :=
  match q.type with
  | .string => stringBody q
  | .number => pure (numberBody (.number coerce) q)
  | .integer => pure (numberBody (.integer coerce) q)
  | .boolean => pure [.assert (.boolean coerce)]
  | .null => pure [.assert .null]
  | .other n => fail (.unsupportedPrimitive n)

def arrayBody (item : Option Nat) (l : ArrayLimits) : List Statement :=
  if l.minItems.isNone && l.maxItems.isNone && !l.unique && item.isNone then [.assert .array]
  else
    .bind .array :: when? l.minItems .minItems ++ when? l.maxItems .maxItems
      ++ (if l.unique then [.unique] else []) ++ when? item .items

/-- an object whose fields are given with the numbers of their functions -/
def objectBody (fields : List (String × Shape)) (ns : List Nat) (additional : Option Nat) (q : ObjectPolicy) :
    Gen (List Statement) := do
  let open_ := q.unknown = .allow || (q.unknown = .checked && additional.isNone)
  if q.required.isEmpty && fields.isEmpty && q.keyPattern = "" && open_ then return [.assert .object]
  let known := fields.map (·.1)
  let required := q.requiredKeys fields
  let beyond : List Statement :=
    if q.unknown = .strict then [.unknown known]
    else if q.unknown = .checked then when? additional fun f => .additional f known
    else []
  let keys ← if q.keyPattern = "" then pure [] else do
    let v ← newVariable (.pattern q.keyPattern)
    pure [Statement.keyPattern v]
  return Statement.bind .object :: (if required.isEmpty then [] else [Statement.required required])
    ++ (known.zip ns).map (fun (k, n) => Statement.field k n) ++ beyond ++ keys

/-- the variants by tag, in the order of the tags -/
def taggedVariants (ns : List Nat) : List (String × Int) → Except GenerateError (List (String × Nat))
  | [] => .ok []
  | (t, i) :: rest =>
    match if i < 0 then none else ns[i.toNat]? with
    | none => .error .badDispatch
    | some n => (taggedVariants ns rest).map ((t, n) :: ·)

/-- the number of a shape that may be missing -/
def present (s : Shape) (n : Nat) : Option Nat := if s.isAbsent then none else some n

/-- the body of the function of node `id` -/
def body (es : List (String × Nat)) (coerce : Bool) (id : Nat) : Shape → Gen (List Statement)
  | .absent => pure []
  | .foreign _ => fail (.unsupportedNode "unknown")
  | .any _ => pure []
  | .primitive _ q => primitiveBody coerce q
  | .array _ item l => pure (arrayBody (present item (id + 1)) l)
  | .tuple _ items rest l =>
    pure (.bind .array :: when? l.maxItems .maxItems ++ (if l.unique then [.unique] else [])
      ++ [.tuple l.minItems l.closed (present rest (id + 1 + Shape.sizeAll items)) (numbers (id + 1) items)])
  | .object _ fields additional q =>
    objectBody fields (numbers (id + 1) (fields.map (·.2)))
      (present additional (id + 1 + Shape.sizeFields fields)) q
  | .oneOf _ variants d =>
    let ns := numbers (id + 1) variants
    if d.property = "" then pure [.oneOf ns]
    else
      match taggedVariants ns (d.mapping.getD []) with
      | .ok vs => pure [.tagged d.property vs]
      | .error e => fail e
  | .anyOf _ variants => pure [.anyOf (numbers (id + 1) variants)]
  | .allOf _ parts => pure ((numbers (id + 1) parts).map .call)
  | .enum _ values =>
    match literals values with
    | .error e => fail e
    | .ok ts => do
      let v ← newVariable (.values ts)
      pure [.enum v]
  | .ref _ name =>
    match entryOf? es name with
    | some n => pure [.call n]
    | none => fail (.unknownDefinition name)

def ruleVariables : List Rule → Gen (List Variable)
  | [] => pure []
  | r :: rs => do
    match Rule.compile r.expr with
    | .error e => fail (.rule e)
    | .ok _ =>
      let v ← newVariable (.rule r)
      let vs ← ruleVariables rs
      return v :: vs

/-- the function of one node: its rules come before its body -/
def function (es : List (String × Nat)) (coerce : Bool) (id : Nat) (s : Shape) : Gen Function := do
  let rules ← ruleVariables s.base.rules
  let body ← body es coerce id s
  return { number := id, definition := definitionAt? es id, nullable := s.base.nullable, rules, body }

def functions (es : List (String × Nat)) (coerce : Bool) : Nat → List Shape → Gen (List Function)
  | _, [] => pure []
  | id, s :: ss => do
    let f ← function es coerce id s
    let fs ← functions es coerce (id + 1) ss
    return f :: fs

/-- the validator of a program -/
def generate (p : Program) (o : Options) : Except GenerateError File :=
  let es := entries p
  match functions es o.coerce 0 p.nodes {} with
  | .error e => .error e
  | .ok (functions, pool) => .ok {
      package := if o.package = "" then "validator" else o.package
      funcName := if o.funcName = "" then "Validate" else o.funcName
      title := if p.title = "" then "a value" else p.title
      assert := o.assert
      entry := (entryOf? es "").getD 0
      vars := pool.made.reverse
      functions }

end Schemata.Source
