import Schemata.Rule.Grammar

/-!
Static types of rule expressions.

`self` has the dynamic type, which fits everywhere; a call takes the types of every signature its arguments fit, and
results that differ make it dynamic. Types of empty literals are open variables that the context closes.
`Typing.infer?` gives the type of a whole expression, or `none` when some part of it fits no signature.
-/

namespace Schemata.Rule

inductive Ty where
  | bool | int | uint | double | string | bytes | null | dyn | timestamp | duration
  | list (element : Ty)
  | map (key value : Ty)
  | type (of : Ty)
  | param (name : Nat)
  deriving Repr, DecidableEq, Inhabited

def Ty.text : Ty → String
  | bool => "bool"
  | int => "int"
  | uint => "uint"
  | double => "double"
  | string => "string"
  | bytes => "bytes"
  | null => "null_type"
  | dyn => "dyn"
  | timestamp => "google.protobuf.Timestamp"
  | duration => "google.protobuf.Duration"
  | list e => "list(" ++ e.text ++ ")"
  | map k v => "map(" ++ k.text ++ ", " ++ v.text ++ ")"
  | type t => "type(" ++ t.text ++ ")"
  | param _ => "dyn"

namespace Typing

/-- what type variables stand for -/
abbrev Bindings := List (Nat × Ty)

def lookup (m : Bindings) (n : Nat) : Option Ty := (m.find? (·.1 == n)).map (·.2)

/-- variables replaced by what they stand for; open ones stay, or become dynamic -/
def substitute (m : Bindings) (close : Bool) : Nat → Ty → Ty
  | 0, _ => .dyn
  | fuel + 1, t =>
    match t with
    | .param n =>
      match lookup m n with
      | some t => substitute m close fuel t
      | none => if close then .dyn else .param n
    | .list e => .list (substitute m close fuel e)
    | .map k v => .map (substitute m close fuel k) (substitute m close fuel v)
    | .type t => .type (substitute m close fuel t)
    | t => t

/-- does the variable occur in the type? -/
def occurs (m : Bindings) (n : Nat) : Nat → Ty → Bool
  | 0, _ => true
  | fuel + 1, t =>
    match t with
    | .param k => k == n || (match lookup m k with | some t => occurs m n fuel t | none => false)
    | .list e => occurs m n fuel e
    | .map k v => occurs m n fuel k || occurs m n fuel v
    | .type t => occurs m n fuel t
    | _ => false

def mostGeneral (a b : Ty) : Ty := if b = .dyn then b else a

/-- can a value of type `a` stand where `b` is asked? answers with what the variables then stand for -/
def fits : Nat → Bindings → Ty → Ty → Option Bindings
  | 0, _, _, _ => none
  | fuel + 1, m, a, b =>
    /- `bind t n`: the variable `n` takes `t`, or a common generalisation of it and what it stands for already -/
    let bind (t : Ty) (n : Nat) : Option Bindings × Bool :=
      if t = .param n then (some m, true)
      else
        match lookup m n with
        | some s =>
          if t = s then (some m, true)
          else
            match fits fuel m t s with
            | some m' =>
              let g := mostGeneral t s
              (some (if occurs m' n fuel g then m' else (n, g) :: m'.filter (·.1 != n)), true)
            | none => (none, true)
        | none => if occurs m n fuel t then (none, false) else (some ((n, t) :: m), false)
    match a, b with
    | .param x, .param y =>
      match bind a y with
      | (some m, _) => some m
      | (none, true) => none
      | (none, false) => (bind b x).1
    | _, .param y =>
      match bind a y with
      | (some m, _) => some m
      | (none, _) => none
    | .param x, _ => (bind b x).1
    | .dyn, _ => some m
    | _, .dyn => some m
    | .list x, .list y => fits fuel m x y
    | .map k v, .map k' v' =>
      match fits fuel m k k' with
      | some m => fits fuel m v v'
      | none => none
    | .type _, .type _ => some m
    | a, b => if a = b then some m else none

def depth : Nat := 64

def fitsAll (m : Bindings) : List Ty → List Ty → Option Bindings
  | [], [] => some m
  | a :: as, b :: bs =>
    match fits depth m a b with
    | some m => fitsAll m as bs
    | none => none
  | _, _ => none

/-- a signature; `param 0` and `param 1` are its own variables -/
structure Signature where
  member : Bool := false
  args : List Ty
  result : Ty

def global (args : List Ty) (result : Ty) : Signature := { args, result }

def method (args : List Ty) (result : Ty) : Signature := { member := true, args, result }

def a : Ty := .param 0

def b : Ty := .param 1

/-- the orders, also between numbers of different types -/
def orders : List Signature :=
  ([(.bool, .bool), (.int, .int), (.int, .double), (.int, .uint), (.uint, .uint), (.uint, .double), (.uint, .int),
    (.double, .double), (.double, .int), (.double, .uint), (.string, .string), (.bytes, .bytes),
    (.timestamp, .timestamp), (.duration, .duration)] : List (Ty × Ty)).map fun (x, y) => global [x, y] .bool

/-- parts of points in time and of durations, with an optional zone -/
def timeParts (ofDuration : Bool) : List Signature :=
  [method [.timestamp] .int, method [.timestamp, .string] .int]
    ++ (if ofDuration then [method [.duration] .int] else [])

def signatures : String → List Signature
  | "_?_:_" => [global [.bool, a, a] a]
  | "_&&_" => [global [.bool, .bool] .bool]
  | "_||_" => [global [.bool, .bool] .bool]
  | "!_" => [global [.bool] .bool]
  | "_==_" => [global [a, a] .bool]
  | "_!=_" => [global [a, a] .bool]
  | "_<_" => orders
  | "_<=_" => orders
  | "_>_" => orders
  | "_>=_" => orders
  | "_+_" =>
    [global [.bytes, .bytes] .bytes, global [.double, .double] .double, global [.duration, .duration] .duration,
     global [.duration, .timestamp] .timestamp, global [.timestamp, .duration] .timestamp, global [.int, .int] .int,
     global [.list a, .list a] (.list a), global [.string, .string] .string, global [.uint, .uint] .uint]
  | "_-_" =>
    [global [.double, .double] .double, global [.duration, .duration] .duration, global [.int, .int] .int,
     global [.timestamp, .duration] .timestamp, global [.timestamp, .timestamp] .duration,
     global [.uint, .uint] .uint]
  | "_*_" => [global [.double, .double] .double, global [.int, .int] .int, global [.uint, .uint] .uint]
  | "_/_" => [global [.double, .double] .double, global [.int, .int] .int, global [.uint, .uint] .uint]
  | "_%_" => [global [.int, .int] .int, global [.uint, .uint] .uint]
  | "-_" => [global [.double] .double, global [.int] .int]
  | "_[_]" => [global [.list a, .int] a, global [.map a b, a] b]
  | "@in" => [global [a, .list a] .bool, global [a, .map a b] .bool]
  | "size" =>
    [global [.bytes] .int, method [.bytes] .int, global [.list a] .int, method [.list a] .int,
     global [.map a b] .int, method [.map a b] .int, global [.string] .int, method [.string] .int]
  | "type" => [global [a] (.type a)]
  | "bool" => [global [.bool] .bool, global [.string] .bool]
  | "bytes" => [global [.bytes] .bytes, global [.string] .bytes]
  | "double" => [global [.double] .double, global [.int] .double, global [.string] .double, global [.uint] .double]
  | "duration" => [global [.duration] .duration, global [.int] .duration, global [.string] .duration]
  | "dyn" => [global [a] .dyn]
  | "int" =>
    [global [.int] .int, global [.double] .int, global [.duration] .int, global [.string] .int,
     global [.timestamp] .int, global [.uint] .int]
  | "string" =>
    [global [.string] .string, global [.bool] .string, global [.bytes] .string, global [.double] .string,
     global [.duration] .string, global [.int] .string, global [.timestamp] .string, global [.uint] .string]
  | "timestamp" => [global [.timestamp] .timestamp, global [.int] .timestamp, global [.string] .timestamp]
  | "uint" => [global [.uint] .uint, global [.double] .uint, global [.int] .uint, global [.string] .uint]
  | "contains" => [method [.string, .string] .bool]
  | "endsWith" => [method [.string, .string] .bool]
  | "startsWith" => [method [.string, .string] .bool]
  | "matches" => [global [.string, .string] .bool, method [.string, .string] .bool]
  | "getFullYear" => timeParts false
  | "getMonth" => timeParts false
  | "getDayOfYear" => timeParts false
  | "getDayOfMonth" => timeParts false
  | "getDate" => timeParts false
  | "getDayOfWeek" => timeParts false
  | "getHours" => timeParts true
  | "getMinutes" => timeParts true
  | "getSeconds" => timeParts true
  | "getMilliseconds" => timeParts true
  | _ => []

/-- names that stand for types -/
def typeName? : String → Option Ty
  | "bool" => some .bool
  | "bytes" => some .bytes
  | "double" => some .double
  | "int" => some .int
  | "list" => some (.list .dyn)
  | "map" => some (.map .dyn .dyn)
  | "null_type" => some .null
  | "string" => some .string
  | "type" => some (.type .dyn)
  | "uint" => some .uint
  | _ => none

/-- bindings and the next free variable -/
structure State where
  bindings : Bindings := []
  next : Nat := 2

def fresh (s : State) : Ty × State := (.param s.next, { s with next := s.next + 1 })

/-- a signature with variables of its own -/
def instantiate (g : Signature) (s : State) : Signature × State :=
  let m : Bindings := [(0, .param s.next), (1, .param (s.next + 1))]
  let sub := substitute m false depth
  ({ g with args := g.args.map sub, result := sub g.result }, { s with next := s.next + 2 })

/-- the type of a call: every signature of the right form that fits counts -/
def resolve (member : Bool) (args : List Ty) : Option Ty → State → List Signature → Option (Ty × State)
  | found, s, [] => found.map (·, s)
  | found, s, g :: gs =>
    if g.member != member then resolve member args found s gs
    else
      let (g, s) := instantiate g s
      match fitsAll s.bindings args g.args with
      | none => resolve member args found s gs
      | some m =>
        let s := { s with bindings := m }
        let result := substitute m false depth g.result
        let joined := match found with
          | none => result
          | some t => if t = .dyn || t = result then t else .dyn
        resolve member args (some joined) s gs

/-- the common type of two elements of a literal -/
def joinElement (s : State) (previous current : Ty) : Ty × State :=
  match fits depth s.bindings previous current with
  | some m => (mostGeneral previous current, { s with bindings := m })
  | none => (.dyn, s)

/-- the type that a walk gives its variable -/
def elementOf : Ty → Option Ty
  | .dyn => some .dyn
  | .list e => some e
  | .map k _ => some k
  | .param _ => some .dyn
  | _ => none

/-- the type of a field -/
def fieldOf : Ty → Option Ty
  | .dyn => some .dyn
  | .map _ v => some v
  | .param _ => some .dyn
  | _ => none

/-- names in scope with their types, innermost first -/
abbrev Scope := List (String × Ty)

def isBool (s : State) (t : Ty) : Option State :=
  (fits depth s.bindings t .bool).map fun m => { s with bindings := m }

mutual

def infer (scope : Scope) (s : State) : Expr → Option (Ty × State)
  | .const c =>
    let t : Ty := match c with
      | .null => .null
      | .bool _ => .bool
      | .int _ => .int
      | .uint _ => .uint
      | .double _ => .double
      | .string _ => .string
      | .bytes _ => .bytes
    some (t, s)
  | .ident name =>
    match (scope.find? (·.1 == name)).map (·.2) with
    | some t => some (t, s)
    | none => (typeName? name).map fun t => (.type t, s)
  | .select e _ =>
    match infer scope s e with
    | none => none
    | some (t, s) => (fieldOf (substitute s.bindings false depth t)).map (·, s)
  | .present e _ =>
    match infer scope s e with
    | none => none
    | some (t, s) => (fieldOf (substitute s.bindings false depth t)).map fun _ => (.bool, s)
  | .call f args =>
    match inferAll scope s args with
    | none => none
    | some (ts, s) => resolve false ts none s (signatures f)
  | .member target f args =>
    match infer scope s target with
    | none => none
    | some (t, s) =>
      match inferAll scope s args with
      | none => none
      | some (ts, s) => resolve true (t :: ts) none s (signatures f)
  | .list items =>
    match inferAll scope s items with
    | none => none
    | some ([], s) => let (v, s) := fresh s; some (.list v, s)
    | some (t :: ts, s) =>
      let (t, s) := ts.foldl (fun (acc : Ty × State) t => joinElement acc.2 acc.1 t) (t, s)
      some (.list t, s)
  | .map es =>
    match inferEntries scope s es with
    | none => none
    | some ([], s) =>
      let (k, s) := fresh s
      let (v, s) := fresh s
      some (.map k v, s)
    | some ((k, v) :: rest, s) =>
      let (k, s) := rest.foldl (fun (acc : Ty × State) t => joinElement acc.2 acc.1 t.1) (k, s)
      let (v, s) := rest.foldl (fun (acc : Ty × State) t => joinElement acc.2 acc.1 t.2) (v, s)
      some (.map k v, s)
  | .walk kind v range body =>
    match infer scope s range with
    | none => none
    | some (t, s) =>
      match elementOf (substitute s.bindings false depth t) with
      | none => none
      | some e =>
        match infer ((v, e) :: scope) s body with
        | none => none
        | some (bt, s) =>
          match kind with
          | .collect => some (.list bt, s)
          | .keep => (isBool s bt).map fun s => (.list e, s)
          | _ => (isBool s bt).map fun s => (.bool, s)
  | .walkIf v range guard body =>
    match infer scope s range with
    | none => none
    | some (t, s) =>
      match elementOf (substitute s.bindings false depth t) with
      | none => none
      | some e =>
        match infer ((v, e) :: scope) s guard with
        | none => none
        | some (gt, s) =>
          match isBool s gt with
          | none => none
          | some s => (infer ((v, e) :: scope) s body).map fun (bt, s) => (.list bt, s)

def inferAll (scope : Scope) (s : State) : List Expr → Option (List Ty × State)
  | [] => some ([], s)
  | e :: es =>
    match infer scope s e with
    | none => none
    | some (t, s) => (inferAll scope s es).map fun (ts, s) => (t :: ts, s)

def inferEntries (scope : Scope) (s : State) : List (Expr × Expr) → Option (List (Ty × Ty) × State)
  | [] => some ([], s)
  | (k, v) :: es =>
    match infer scope s k with
    | none => none
    | some (kt, s) =>
      match infer scope s v with
      | none => none
      | some (vt, s) => (inferEntries scope s es).map fun (ts, s) => ((kt, vt) :: ts, s)

end

/-- the type of a whole expression over `self` -/
def infer? (e : Expr) : Option Ty :=
  (infer [("self", .dyn)] {} e).map fun (t, s) => substitute s.bindings true depth t

end Typing

end Schemata.Rule
