import Schemata.Failure
import Schemata.Number.Integer
import Schemata.Value
import Schemata.Yaml.Node

/-!
The data of YAML documents.

A plain scalar is null, a boolean or a number if its text is one of theirs, a string otherwise; a tag fixes the
kind, and a text that is none of that kind stays a string. The key of an entry is its text, whatever its kind, and
must not stand twice in one mapping.
-/

namespace Schemata.Yaml

/-- what the text of a plain scalar may stand for -/
inductive Scalar where
  | null
  | bool (b : Bool)
  | int (n : Int)
  | float (x : Float)
  | text
  deriving Repr

def isExponent (cs : List Char) : Bool :=
  match cs with
  | [] => true
  | e :: cs =>
    (e == 'e' || e == 'E') &&
      (let ds := match cs with
        | '+' :: ds => ds
        | '-' :: ds => ds
        | ds => ds
       !ds.isEmpty && ds.all Char.isDigit)

/-- an optional sign, digits with at most one point, and an optional exponent; digits must follow a leading point -/
def isDecimal (cs : List Char) : Bool :=
  let cs := match cs with
    | '+' :: cs => cs
    | '-' :: cs => cs
    | cs => cs
  let whole := cs.takeWhile Char.isDigit
  match cs.dropWhile Char.isDigit with
  | '.' :: rest =>
    let places := rest.takeWhile Char.isDigit
    (!whole.isEmpty || !places.isEmpty) && isExponent (rest.dropWhile Char.isDigit)
  | rest => !whole.isEmpty && isExponent rest

/-- an integer with a base mark before the sign, or behind one sign -/
def marked? (base : Nat) (mark : Char) (cs : List Char) : Option Int :=
  match cs with
  | '0' :: m :: rest =>
    if m == mark then
      Number.signed64? (Number.naturalOf? base) rest <|> Number.unsigned64? (Number.naturalOf? base) rest
    else none
  | '-' :: '0' :: m :: rest => if m == mark then Number.signed64? (Number.naturalOf? base) ('-' :: rest) else none
  | _ => none

/-- texts that start with a digit or a sign -/
def numberScalar (cs : List Char) : Scalar :=
  let plain := cs.filter (· != '_')
  let integer := Number.signed64? Number.markedNatural? plain <|> Number.unsigned64? Number.markedNatural? plain
  let decimal : Option Float := if isDecimal plain then Number.parse? (String.ofList plain) else none
  match integer, decimal with
  | some n, _ => .int n
  | none, some x => .float x
  | none, none =>
    match marked? 2 'b' plain <|> marked? 8 'o' plain with
    | some n => .int n
    | none => .text

/-- what a plain text stands for -/
def Scalar.ofPlain (s : String) : Scalar :=
  if ["true", "True", "TRUE"].contains s then .bool true
  else if ["false", "False", "FALSE"].contains s then .bool false
  else if ["", "~", "null", "Null", "NULL"].contains s then .null
  else if [".nan", ".NaN", ".NAN"].contains s then .float Number.nan
  else if [".inf", ".Inf", ".INF", "+.inf", "+.Inf", "+.INF"].contains s then .float Number.infinity
  else if ["-.inf", "-.Inf", "-.INF"].contains s then .float (Number.signed true Number.infinity)
  else
    match s.toList with
    | '.' :: cs => match Number.parse? (String.ofList ('.' :: cs)) with
      | some x => .float x
      | none => .text
    | c :: cs => if c.isDigit || c == '+' || c == '-' then numberScalar (c :: cs) else .text
    | [] => .null

/-- the short form of a standard tag -/
def shortTag (tag : String) : String :=
  match Text.dropPrefix? "tag:yaml.org,2002:".toList tag.toList with
  | some rest => "!!" ++ String.ofList rest
  | none => tag

/-- the value of a scalar -/
def scalarValue (tag : String) (style : Style) (text : String) : Value :=
  let tag := shortTag tag
  if tag == "" || tag == "!" then
    if style ≠ .plain then .string text
    else match Scalar.ofPlain text with
      | .null => .null
      | .bool b => .bool b
      | .int n => .float (Number.ofInt n)
      | .float x => .float x
      | .text => .string text
  else
    match tag, Scalar.ofPlain text with
    | "!!null", _ => .null
    | "!!bool", .bool b => .bool b
    | "!!int", .int n => .float (Number.ofInt n)
    | "!!float", .int n => if n < (Nat.pow 2 63 : Int) then .float (Number.ofInt n) else .string text
    | "!!float", .float x => .float x
    | _, _ => .string text

/-- the text of a key: that of a scalar, the name of an alias, nothing for a collection -/
def Node.keyText : Node → String
  | scalar _ _ _ text => text
  | reference _ name _ => name
  | _ => ""

def duplicateAt (key : String) (first mark : Mark) : DuplicateKey :=
  { key, firstLine := first.line + 1, firstColumn := first.column + 1, line := mark.line + 1, column := mark.column + 1 }

/-- why a stream has no data -/
inductive StreamError where
  | unreadable (e : ReadError)
  | duplicate (d : DuplicateKey)
  /-- a node stands inside itself -/
  | endless

def StreamError.toFailure : StreamError → Failure
  | unreadable e => .plain e.message
  | duplicate d => .leaf (.duplicateKey d)
  | endless => .leaf .endless

/-- the entries of a mapping, given the data of nodes; `seen` holds the keys before, each with its place -/
def entriesOf (value : Node → Except StreamError Value) (seen : List (String × Mark)) :
    List (Node × Node) → Except StreamError (List (String × Value))
  | [] => .ok []
  | (k, n) :: rest =>
    match seen.find? (·.1 == k.keyText) with
    | some (_, first) => .error (.duplicate (duplicateAt k.keyText first k.mark))
    | none => do
      let v ← value n
      return (k.keyText, v) :: (← entriesOf value ((k.keyText, k.mark) :: seen) rest)

/-- the data of a node down to a depth, with aliases replaced by what they name -/
def Node.value (table : Array Node) : (depth : Nat) → Node → Except StreamError Value
  | 0, _ => .error .endless
  | depth + 1, n =>
    match n with
    | .scalar _ tag style text => .ok (scalarValue tag style text)
    | .reference _ _ target =>
      match table[target]? with
      | some n => n.value table depth
      | none => .ok .null
    | .sequence _ items => do return .array (← items.mapM (Node.value table depth))
    | .mapping _ entries => do return .ofEntries (← entriesOf (Node.value table depth) [] entries)

mutual

/-- how many nodes a tree has -/
def Node.count : Node → Nat
  | .scalar _ _ _ _ => 1
  | .reference _ _ _ => 1
  | .sequence _ items => 1 + countAll items
  | .mapping _ entries => 1 + countEntries entries

def countAll : List Node → Nat
  | [] => 0
  | n :: ns => n.count + countAll ns

def countEntries : List (Node × Node) → Nat
  | [] => 0
  | (k, n) :: rest => k.count + n.count + countEntries rest

end

/-- deeper than any node reaches that does not stand inside itself -/
def depthBound (table : Array Node) (n : Node) : Nat := n.count + countAll table.toList + 1

def readDocuments : Nat → (first : Bool) → Stream → List Value → Except StreamError (List Value)
  | 0, _, _, acc => .ok acc.reverse
  | fuel + 1, first, s, acc =>
    match nextDocument first s with
    | .error e => .error (.unreadable e)
    | .ok (none, _) => .ok acc.reverse
    | .ok (some n, s) => do
      let v ← n.value s.table (depthBound s.table n)
      readDocuments fuel false s (v :: acc)

/-- the data of every document of a stream -/
def read (text : String) : Except StreamError (List Value) :=
  match Stream.ofText text with
  | .error e => .error (.unreadable e)
  | .ok s => readDocuments (text.length + 2) true s []

end Schemata.Yaml
