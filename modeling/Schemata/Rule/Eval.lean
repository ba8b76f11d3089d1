import Schemata.Rule.Typing
import Schemata.Rule.Moment
import Schemata.Pattern.Syntax

/-!
Evaluation of rule expressions.

A `Datum` is a value of the rule language. An operation that does not apply to its operands is an error with a text;
the connectives, the conditional and the walks know what to do with errors: `&&` is false as soon as one side is,
`||` true as soon as one side is, whatever the other side says. Numbers of different types compare by value.
-/

namespace Schemata.Rule

inductive Datum where
  | null
  | bool (b : Bool)
  | int (n : Int)
  | uint (n : Int)
  | double (x : Float)
  | string (s : String)
  | bytes (bs : List Nat)
  | list (items : List Datum)
  /-- `textKeys` marks a map whose keys can only be strings -/
  | map (textKeys : Bool) (entries : List (Datum × Datum))
  | type (name : String)
  | moment (m : Moment)
  /-- a length of time in billionths of a second -/
  | span (n : Int)
  deriving Inhabited

namespace Datum

mutual

/-- a data value as a datum -/
def ofValue : Value → Datum
  | .null => null
  | .bool b => bool b
  | .float x => double x
  | .single x => double x
  | .int signed _ n => if signed then int n else uint n
  | .literal t => string t
  | .string s => string s
  | .array xs => list (ofValues xs)
  | .object fs => map true (ofFields fs)

def ofValues : List Value → List Datum
  | [] => []
  | x :: xs => ofValue x :: ofValues xs

def ofFields : List (String × Value) → List (Datum × Datum)
  | [] => []
  | (k, x) :: xs => (string k, ofValue x) :: ofFields xs

end

def typeName : Datum → String
  | null => "null_type"
  | bool _ => "bool"
  | int _ => "int"
  | uint _ => "uint"
  | double _ => "double"
  | string _ => "string"
  | bytes _ => "bytes"
  | list _ => "list"
  | map _ _ => "map"
  | type _ => "type"
  | moment _ => "google.protobuf.Timestamp"
  | span _ => "google.protobuf.Duration"

/-- the name of the carrier of a datum, for messages about walks -/
def carrier : Datum → String
  | null => "types.Null"
  | bool _ => "types.Bool"
  | int _ => "types.Int"
  | uint _ => "types.Uint"
  | double _ => "types.Double"
  | string _ => "types.String"
  | bytes _ => "types.Bytes"
  | list _ => "*types.baseList"
  | map _ _ => "*types.baseMap"
  | type _ => "*types.Type"
  | moment _ => "types.Timestamp"
  | span _ => "types.Duration"

mutual

/-- the text of a datum inside a message -/
def display : Datum → String
  | null => "<nil>"
  | bool b => if b then "true" else "false"
  | int n => toString n
  | uint n => toString n
  | double x => Number.Layout.general.text Number.double x
  | string s => s
  | bytes bs => "[" ++ " ".intercalate (bs.map toString) ++ "]"
  | list xs => "[" ++ " ".intercalate (displayAll xs) ++ "]"
  | map _ es => "map[" ++ " ".intercalate (displayEntries es) ++ "]"
  | type n => n
  | moment m => m.display
  | span n => Span.display n

def displayAll : List Datum → List String
  | [] => []
  | x :: xs => display x :: displayAll xs

def displayEntries : List (Datum × Datum) → List String
  | [] => []
  | (k, v) :: es => (display k ++ ":" ++ display v) :: displayEntries es

end

/-- the value of a number, for comparisons across types -/
def numeric? : Datum → Option Float
  | int n => some (Number.ofInt n)
  | uint n => some (Number.ofInt n)
  | double x => some x
  | _ => none

mutual

/-- equality; data of different types differ, numbers compare by value -/
def equal : Datum → Datum → Bool
  | null, d => match d with | null => true | _ => false
  | bool x, d => match d with | bool y => x == y | _ => false
  | int x, d => match d with
    | int y => x == y
    | uint y => x == y
    | double y => Number.ofInt x == y
    | _ => false
  | uint x, d => match d with
    | int y => x == y
    | uint y => x == y
    | double y => Number.ofInt x == y
    | _ => false
  | double x, d => match d.numeric? with | some y => x == y | none => false
  | string x, d => match d with | string y => x == y | _ => false
  | bytes x, d => match d with | bytes y => x == y | _ => false
  | type x, d => match d with | type y => x == y | _ => false
  | moment x, d => match d with | moment y => x.sameInstant y | _ => false
  | span x, d => match d with | span y => x == y | _ => false
  | list xs, d => match d with | list ys => equalAll xs ys | _ => false
  | map _ xs, d => match d with | map _ ys => xs.length == ys.length && equalEntries xs ys | _ => false

def equalAll : List Datum → List Datum → Bool
  | [], ys => ys.isEmpty
  | x :: xs, ys => match ys with | y :: ys => equal x y && equalAll xs ys | [] => false

/-- every entry has a counterpart -/
def equalEntries : List (Datum × Datum) → List (Datum × Datum) → Bool
  | [], _ => true
  | (k, v) :: es, ys => (ys.any fun (l, w) => equal k l && equal v w) && equalEntries es ys

end

end Datum

/-- why an evaluation gave no datum -/
abbrev Fault := String

abbrev Result := Except Fault Datum

def noOverload : Fault := "no such overload"

def noOverloadOf (f : String) : Fault := "no such overload: " ++ f

def noOverloadFor (f : String) (args : List Datum) : Fault :=
  "no such overload: " ++ f ++ "(" ++ ", ".intercalate (args.map Datum.typeName) ++ ")"

/-! ## Operations -/

/-- are data of this type ordered? -/
def ordered : Datum → Bool
  | .bool _ => true
  | .int _ => true
  | .uint _ => true
  | .double _ => true
  | .string _ => true
  | .bytes _ => true
  | .moment _ => true
  | .span _ => true
  | _ => false

def compareFloats (x y : Float) : Except Fault Ordering :=
  if Number.isNaN x || Number.isNaN y then .error "NaN values cannot be ordered"
  else .ok (if x < y then .lt else if x == y then .eq else .gt)

def compareBytes : List Nat → List Nat → Ordering
  | [], [] => .eq
  | [], _ => .lt
  | _, [] => .gt
  | x :: xs, y :: ys => if x < y then .lt else if x > y then .gt else compareBytes xs ys

/-- the order of two data -/
def compareData (x y : Datum) : Except Fault Ordering :=
  match x, y with
  | .bool a, .bool b => .ok (if a == b then .eq else if b then .lt else .gt)
  | .int a, .int b => .ok (compare a b)
  | .int a, .uint b => .ok (compare a b)
  | .uint a, .int b => .ok (compare a b)
  | .uint a, .uint b => .ok (compare a b)
  | .string a, .string b => .ok (compare a b)
  | .bytes a, .bytes b => .ok (compareBytes a b)
  | .moment a, .moment b => .ok (compare a.total b.total)
  | .span a, .span b => .ok (compare a b)
  | x, y =>
    match x.numeric?, y.numeric? with
    | some a, some b => compareFloats a b
    | _, _ => .error noOverload

def relate (f : String) (p : Ordering → Bool) (x y : Datum) : Result :=
  if ordered x then (compareData x y).map fun o => .bool (p o) else .error (noOverloadOf f)

def inInt64 (n : Int) : Bool := -(Nat.pow 2 63 : Int) ≤ n && n < (Nat.pow 2 63 : Int)

def inUint64 (n : Int) : Bool := 0 ≤ n && n < (Nat.pow 2 64 : Int)

def checkedInt (n : Int) : Result := if inInt64 n then .ok (.int n) else .error "integer overflow"

def checkedUint (n : Int) : Result := if inUint64 n then .ok (.uint n) else .error "unsigned integer overflow"

def checkedSpan (n : Int) : Result := if inInt64 n then .ok (.span n) else .error "duration overflow"

def checkedMoment (m : Moment) : Result := if m.inRange then .ok (.moment m) else .error "timestamp overflow"

/-- a moment moved by a length of time; it keeps its offset -/
def moved (m : Moment) (n : Int) : Result := checkedMoment (Moment.ofTotal (m.total + n) m.offset)

def add (x y : Datum) : Result :=
  match x with
  | .int a => match y with | .int b => checkedInt (a + b) | _ => .error noOverload
  | .uint a => match y with | .uint b => checkedUint (a + b) | _ => .error noOverload
  | .double a => match y with | .double b => .ok (.double (a + b)) | _ => .error noOverload
  | .string a => match y with | .string b => .ok (.string (a ++ b)) | _ => .error noOverload
  | .bytes a => match y with | .bytes b => .ok (.bytes (a ++ b)) | _ => .error noOverload
  | .list a => match y with | .list b => .ok (.list (a ++ b)) | _ => .error noOverload
  | .moment a => match y with | .span b => moved a b | _ => .error noOverload
  | .span a => match y with
    | .span b => checkedSpan (a + b)
    | .moment b => moved b a
    | _ => .error noOverload
  | _ => .error (noOverloadOf "_+_")

/-- the three arithmetic types, each with itself only -/
def arithmetic (f : String) (ints : Int → Int → Result) (uints : Int → Int → Result)
    (doubles : Option (Float → Float → Float)) (x y : Datum) : Result :=
  match x with
  | .int a => match y with | .int b => ints a b | _ => .error noOverload
  | .uint a => match y with | .uint b => uints a b | _ => .error noOverload
  | .double a =>
    match doubles with
    | none => .error (noOverloadOf f)
    | some g => match y with | .double b => .ok (.double (g a b)) | _ => .error noOverload
  | _ => .error (noOverloadOf f)

def subtract (x y : Datum) : Result :=
  match x with
  | .moment a => match y with
    | .span b => moved a (-b)
    | .moment b => checkedSpan (a.total - b.total)
    | _ => .error noOverload
  | .span a => match y with | .span b => checkedSpan (a - b) | _ => .error noOverload
  | x => arithmetic "_-_" (fun a b => checkedInt (a - b)) (fun a b => checkedUint (a - b)) (some (· - ·)) x y

def divided (a b : Int) (text : String) (k : Int → Result) (op : Int → Int → Int) : Result :=
  if b = 0 then .error text else k (op a b)

def negate : Datum → Result
  | .int a => checkedInt (-a)
  | .double a => .ok (.double (-a))
  | .span a => checkedSpan (-a)
  | .bool _ => .error noOverload
  | _ => .error (noOverloadOf "-_")

def size : Datum → Result
  | .string s => .ok (.int s.length)
  | .bytes b => .ok (.int b.length)
  | .list xs => .ok (.int xs.length)
  | .map _ es => .ok (.int es.length)
  | _ => .error (noOverloadOf "size")

/-- an index of a list -/
def position (i : Datum) : Except Fault Int :=
  match i with
  | .int n => .ok n
  | .uint n => if inInt64 n then .ok n else .error ("unsupported index value " ++ i.display ++ " in list")
  | .double x =>
    if Number.isWhole x && inInt64 ((Number.truncate? x).getD (Nat.pow 2 63 : Int)) then .ok ((Number.truncate? x).getD 0)
    else .error ("unsupported index value " ++ i.display ++ " in list")
  | i => .error ("unsupported index type '" ++ i.typeName ++ "' in list")

/-- looks an index or key up; `none` when it is not there -/
def find (d key : Datum) : Except Fault (Option Datum) :=
  match d with
  | .map textKeys es =>
    match textKeys, key with
    | true, .string _ => .ok ((es.find? fun e => e.1.equal key).map (·.2))
    | true, _ => .error noOverload
    | false, _ => .ok ((es.find? fun e => e.1.equal key).map (·.2))
  | .list xs =>
    match position key with
    | .error e => .error e
    | .ok n => .ok (if n < 0 then none else xs[n.toNat]?)
  | _ => .ok none

/-- the element of an index or key -/
def index (d key : Datum) : Result :=
  match find d key with
  | .error e => .error e
  | .ok (some v) => .ok v
  | .ok none =>
    match d with
    | .list _ => .error ("index out of bounds: " ++ key.display)
    | _ => .error ("no such key: " ++ key.display)

/-- is a field there? a list answers with the error of its index -/
def hasField (d : Datum) (field : String) : Result :=
  (find d (.string field)).map fun o => .bool o.isSome

def member (x d : Datum) : Result :=
  match d with
  | .list xs => .ok (.bool (xs.any fun y => y.equal x))
  | .map _ es => .ok (.bool (es.any fun e => e.1.equal x))
  | _ => .error noOverload

def onStrings (p : String → String → Bool) (x y : Datum) : Result :=
  match x, y with
  | .string a, .string b => .ok (.bool (p a b))
  | _, _ => .error noOverload

def matchesPattern (x y : Datum) : Result :=
  match x with
  | .string s =>
    match y with
    | .string p =>
      match Pattern.parse p with
      | .ok r => .ok (.bool (r.search s))
      | .error e => .error e.message
    | _ => .error noOverload
  | _ => .error (noOverloadOf "matches")

/-! ## Conversions -/

def conversionFault (source target : String) : Fault :=
  "type conversion error from '" ++ source ++ "' to '" ++ target ++ "'"

/-- a decimal integer with an optional sign -/
def integerOf? (s : String) : Option Int :=
  match s.toList with
  | '-' :: r => (Text.natOf? (String.ofList r)).map fun n => -(n : Int)
  | '+' :: r => (Text.natOf? (String.ofList r)).map fun n => (n : Int)
  | r => (Text.natOf? (String.ofList r)).map fun n => (n : Int)

def boolOf? (s : String) : Option Bool :=
  if ["1", "t", "T", "true", "TRUE", "True"].contains s then some true
  else if ["0", "f", "F", "false", "FALSE", "False"].contains s then some false
  else none

def toInt (d : Datum) : Result :=
  match d with
  | .int n => .ok (.int n)
  | .uint n => checkedInt n
  | .double x =>
    match Number.truncate? x with
    | some n => if -(Nat.pow 2 63 : Int) < n && n < (Nat.pow 2 63 : Int) then .ok (.int n) else .error "integer overflow"
    | none => .error "integer overflow"
  | .string s =>
    match (integerOf? s).filter inInt64 with
    | some n => .ok (.int n)
    | none => .error (conversionFault "string" "int")
  | .moment m => .ok (.int m.seconds)
  | .span n => .ok (.int n)
  | d => .error (noOverloadFor "int" [d])

def toUint (d : Datum) : Result :=
  match d with
  | .uint n => .ok (.uint n)
  | .int n => checkedUint n
  | .double x =>
    match Number.truncate? x with
    | some n => if x < 0 then .error "unsigned integer overflow" else checkedUint n
    | none => .error "unsigned integer overflow"
  | .string s =>
    match (Text.natOf? s).filter fun n => inUint64 n with
    | some n => .ok (.uint n)
    | none => .error (conversionFault "string" "uint")
  | d => .error (noOverloadFor "uint" [d])

def toDouble (d : Datum) : Result :=
  match d with
  | .double x => .ok (.double x)
  | .int n => .ok (.double (Number.ofInt n))
  | .uint n => .ok (.double (Number.ofInt n))
  | .string s =>
    match Number.parse? s with
    | some x => .ok (.double x)
    | none => .error (conversionFault "string" "double")
  | d => .error (noOverloadFor "double" [d])

def toText (d : Datum) : Result :=
  match d with
  | .string s => .ok (.string s)
  | .bool _ => .ok (.string d.display)
  | .int _ => .ok (.string d.display)
  | .uint _ => .ok (.string d.display)
  | .double _ => .ok (.string d.display)
  | .bytes bs =>
    match String.fromUTF8? ⟨(bs.map (·.toUInt8)).toArray⟩ with
    | some s => .ok (.string s)
    | none => .error "invalid UTF-8 in bytes, cannot convert to string"
  | .moment m => .ok (.string m.text)
  | .span n => .ok (.string (Span.text n))
  | d => .error (noOverloadFor "string" [d])

def toBool (d : Datum) : Result :=
  match d with
  | .bool b => .ok (.bool b)
  | .string s =>
    match boolOf? s with
    | some b => .ok (.bool b)
    | none => .error (conversionFault "string" "bool")
  | d => .error (noOverloadFor "bool" [d])

def toBytes (d : Datum) : Result :=
  match d with
  | .bytes b => .ok (.bytes b)
  | .string s => .ok (.bytes (s.toUTF8.toList.map UInt8.toNat))
  | d => .error (noOverloadFor "bytes" [d])

def toMoment (d : Datum) : Result :=
  match d with
  | .moment m => .ok (.moment m)
  | .int n => checkedMoment ⟨n, 0, 0⟩
  | .string s =>
    match Moment.parse? s with
    | some m => checkedMoment m
    | none => .error (conversionFault "string" "google.protobuf.Timestamp")
  | d => .error (noOverloadFor "timestamp" [d])

def toSpan (d : Datum) : Result :=
  match d with
  | .span n => .ok (.span n)
  | .int _ => .error (conversionFault "int" "google.protobuf.Duration")
  | .string s =>
    match Span.parse? s with
    | some n => .ok (.span n)
    | none => .error (conversionFault "string" "google.protobuf.Duration")
  | d => .error (noOverloadFor "duration" [d])

/-- a part of a moment or of a length of time; a moment can be asked for it in a zone -/
def timePart (f : String) (args : List Datum) : Result :=
  let found : Except Fault (Option Int) := match args with
    | [.moment m] => .ok (m.part? f)
    | [.moment m, .string zone] => (Moment.zoneOffset zone).map fun o => { m with offset := o }.part? f
    | [.span n] => .ok (Span.part? n f)
    | _ => .ok none
  found.bind fun part => match part with
    | some n => .ok (.int n)
    | none => .error (noOverloadFor f args)

/-- a call whose arguments are all data -/
def apply (f : String) (args : List Datum) : Result :=
  match f, args with
  | "_==_", [x, y] => .ok (.bool (x.equal y))
  | "_!=_", [x, y] => .ok (.bool (!x.equal y))
  | "_<_", [x, y] => relate f (· == .lt) x y
  | "_<=_", [x, y] => relate f (· != .gt) x y
  | "_>_", [x, y] => relate f (· == .gt) x y
  | "_>=_", [x, y] => relate f (· != .lt) x y
  | "_+_", [x, y] => add x y
  | "_-_", [x, y] => subtract x y
  | "_*_", [x, y] => arithmetic f (fun a b => checkedInt (a * b)) (fun a b => checkedUint (a * b)) (some (· * ·)) x y
  | "_/_", [x, y] =>
    arithmetic f (fun a b => divided a b "division by zero" checkedInt Int.tdiv)
      (fun a b => divided a b "division by zero" checkedUint Int.tdiv) (some (· / ·)) x y
  | "_%_", [x, y] =>
    arithmetic f (fun a b => divided a b "modulus by zero" checkedInt Int.tmod)
      (fun a b => divided a b "modulus by zero" checkedUint Int.tmod) none x y
  | "!_", [x] => match x with | .bool b => .ok (.bool !b) | _ => .error noOverload
  | "-_", [x] => negate x
  | "_[_]", [x, y] => index x y
  | "@in", [x, y] => member x y
  | "size", [x] => size x
  | "type", [x] => .ok (.type x.typeName)
  | "dyn", [x] => .ok x
  | "int", [x] => toInt x
  | "uint", [x] => toUint x
  | "double", [x] => toDouble x
  | "string", [x] => toText x
  | "bool", [x] => toBool x
  | "bytes", [x] => toBytes x
  | "timestamp", [x] => toMoment x
  | "duration", [x] => toSpan x
  | "startsWith", [x, y] => onStrings Text.startsWith x y
  | "endsWith", [x, y] => onStrings Text.endsWith x y
  | "contains", [x, y] => onStrings Text.contains x y
  | "matches", [x, y] => matchesPattern x y
  | f, args => timePart f args

/-! ## Connectives and walks -/

/-- the truth of a result, or the error it amounts to -/
def truth (r : Result) : Except Fault Bool :=
  match r with
  | .ok (.bool b) => .ok b
  | .ok _ => .error noOverload
  | .error e => .error e

/-- a connective that `decisive` on either side settles; otherwise the first error stands -/
def connect (decisive : Bool) (x y : Result) : Result :=
  match truth x with
  | .ok b =>
    if b = decisive then .ok (.bool decisive)
    else (truth y).map .bool
  | .error e =>
    match truth y with
    | .ok b => if b = decisive then .ok (.bool decisive) else .error e
    | .error _ => .error e

/-- folds a connective over elements, and stops once it is settled -/
def quantify (decisive : Bool) (p : Datum → Result) : Result → List Datum → Result
  | acc, [] => acc
  | acc, x :: xs =>
    match acc with
    | .ok (.bool b) => if b = decisive then acc else quantify decisive p (connect decisive acc (p x)) xs
    | acc => quantify decisive p (connect decisive acc (p x)) xs

/-- the elements that satisfy a predicate; of several errors the last one stands -/
def keepWhere (p : Datum → Result) (xs : List Datum) : Except Fault (List Datum) :=
  let step (acc : Except Fault (List Datum)) (x : Datum) : Except Fault (List Datum) :=
    match truth (p x) with
    | .error e => .error e
    | .ok b => if b then acc.map (x :: ·) else acc
  (xs.foldl step (.ok [])).map List.reverse

def collect (p : Datum → Result) : List Datum → Except Fault (List Datum)
  | [] => .ok []
  | x :: xs => do
    let y ← p x
    let rest ← collect p xs
    return y :: rest

/-- the elements a walk visits -/
def elements (d : Datum) : Except Fault (List Datum) :=
  match d with
  | .list xs => .ok xs
  | .map _ es => .ok (es.map (·.1))
  | d => .error ("got '" ++ d.carrier ++ "', expected iterable type")

abbrev Env := List (String × Datum)

def constant : Const → Datum
  | .null => .null
  | .bool b => .bool b
  | .int n => .int n
  | .uint n => .uint n
  | .double x => .double x
  | .string s => .string s
  | .bytes b => .bytes b

def walkOver (kind : Walk) (p : Datum → Result) (xs : List Datum) : Result :=
  match kind with
  | .all => quantify false p (.ok (.bool true)) xs
  | .any => quantify true p (.ok (.bool false)) xs
  | .one => (keepWhere p xs).map fun ys => .bool (ys.length == 1)
  | .collect => (collect p xs).map .list
  | .keep => (keepWhere p xs).map .list

mutual

/-- the datum of an expression -/
def eval (env : Env) : Expr → Result
  | .const c => .ok (constant c)
  | .ident name =>
    match (env.find? (·.1 == name)).map (·.2) with
    | some d => .ok d
    | none => .ok (.type name)
  | .select e f => (eval env e).bind fun d => index d (.string f)
  | .present e f => (eval env e).bind fun d => hasField d f
  | .call f args =>
    match f, args with
    | "_&&_", [x, y] => connect false (eval env x) (eval env y)
    | "_||_", [x, y] => connect true (eval env x) (eval env y)
    | "_?_:_", [c, x, y] =>
      match truth (eval env c) with
      | .error e => .error e
      | .ok true => eval env x
      | .ok false => eval env y
    | f, args => (evalAll env args).bind (apply f)
  | .member target f args =>
    (eval env target).bind fun d => (evalAll env args).bind fun ds => apply f (d :: ds)
  | .list items => (evalAll env items).map .list
  | .map es => (evalEntries env es).map (.map false)
  | .walk kind v range body =>
    (eval env range).bind fun d => (elements d).bind fun xs =>
      walkOver kind (fun x => eval ((v, x) :: env) body) xs
  | .walkIf v range guard body =>
    (eval env range).bind fun d => (elements d).bind fun xs =>
      (keepWhere (fun x => eval ((v, x) :: env) guard) xs).bind fun ys =>
        (collect (fun x => eval ((v, x) :: env) body) ys).map .list

def evalAll (env : Env) : List Expr → Except Fault (List Datum)
  | [] => .ok []
  | e :: es => (eval env e).bind fun d => (evalAll env es).map (d :: ·)

def evalEntries (env : Env) : List (Expr × Expr) → Except Fault (List (Datum × Datum))
  | [] => .ok []
  | (k, v) :: es =>
    (eval env k).bind fun kd => (eval env v).bind fun vd => (evalEntries env es).map ((kd, vd) :: ·)

end

end Schemata.Rule
