import Schemata.Rule.Token

/-!
Rule expressions, and how they are read.

A rule is a predicate over the value under test, which it calls `self`. Operators are calls of functions with operator
names. The five walks over a list or a map (`all`, `exists`, `exists_one`, `map`, `filter`) bind a variable and are forms of
their own.

Binding grows from the conditional over `||`, `&&`, relations, sums and products to unary signs and member access;
operators of one level associate to the left. The walks are recognised where a method of that name has the right
number of arguments.
-/

namespace Schemata.Rule

inductive Const where
  | null
  | bool (b : Bool)
  | int (n : Int)
  | uint (n : Nat)
  | double (x : Float)
  | string (s : String)
  | bytes (bs : List Nat)

/-- walks over the elements of a list or the keys of a map -/
inductive Walk where
  | all | any | one | collect | keep
  deriving Repr, DecidableEq

inductive Expr where
  | const (c : Const)
  | ident (name : String)
  | select (operand : Expr) (field : String)
  | present (operand : Expr) (field : String)
  | call (function : String) (args : List Expr)
  | member (target : Expr) (function : String) (args : List Expr)
  | list (items : List Expr)
  | map (entries : List (Expr × Expr))
  | walk (kind : Walk) (bound : String) (range body : Expr)
  | walkIf (bound : String) (range guard body : Expr)
  deriving Inhabited

abbrev Tokens := List Token

/-- words that name nothing -/
def reserved : List String :=
  ["as", "break", "const", "continue", "else", "for", "function", "if", "import", "let", "loop", "package", "namespace",
   "return", "var", "void", "while", "in", "true", "false", "null"]

def keywordConst? : String → Option Const
  | "true" => some (.bool true)
  | "false" => some (.bool false)
  | "null" => some .null
  | _ => none

def relationOp? : Token → Option String
  | .op "<" => some "_<_"
  | .op "<=" => some "_<=_"
  | .op ">" => some "_>_"
  | .op ">=" => some "_>=_"
  | .op "==" => some "_==_"
  | .op "!=" => some "_!=_"
  | .ident "in" => some "@in"
  | _ => none

def sumOp? : Token → Option String
  | .op "+" => some "_+_"
  | .op "-" => some "_-_"
  | _ => none

def productOp? : Token → Option String
  | .op "*" => some "_*_"
  | .op "/" => some "_/_"
  | .op "%" => some "_%_"
  | _ => none

def expectOp (s : String) : Tokens → Option Tokens
  | .op t :: rest => if t = s then some rest else none
  | _ => none

/-- counts repeated signs -/
def signs (s : String) : Tokens → Nat × Tokens
  | .op t :: rest => if t = s then let (n, r) := signs s rest; (n + 1, r) else (0, .op t :: rest)
  | ts => (0, ts)

def maxInt : Nat := Nat.pow 2 63

/-- a member call, with the walks recognised -/
def memberCall (target : Expr) (function : String) (args : List Expr) : Option Expr :=
  let walk (kind : Walk) : Option Expr :=
    match args with
    | [.ident v, body] => some (.walk kind v target body)
    | [_, _] => none
    | _ => some (.member target function args)
  match function with
  | "all" => walk .all
  | "exists" => walk .any
  | "exists_one" => walk .one
  | "filter" => walk .keep
  | "map" =>
    match args with
    | [.ident v, guard, body] => some (.walkIf v target guard body)
    | [_, _, _] => none
    | _ => walk .collect
  | _ => some (.member target function args)

/-- a call without a target; `has` asks for a field -/
def globalCall (function : String) (args : List Expr) : Option Expr :=
  match function, args with
  | "has", [.select e f] => some (.present e f)
  | "has", [_] => none
  | f, args => some (.call f args)

mutual

def expression : Nat → Tokens → Option (Expr × Tokens)
  | 0, _ => none
  | fuel + 1, ts =>
    match disjunction fuel ts with
    | none => none
    | some (c, .op "?" :: ts) =>
      match disjunction fuel ts with
      | some (a, .op ":" :: ts) =>
        match expression fuel ts with
        | some (b, ts) => some (.call "_?_:_" [c, a, b], ts)
        | none => none
      | _ => none
    | some r => some r

def disjunction : Nat → Tokens → Option (Expr × Tokens)
  | 0, _ => none
  | fuel + 1, ts =>
    match conjunction fuel ts with
    | none => none
    | some (e, ts) => moreDisjuncts fuel e ts

def moreDisjuncts : Nat → Expr → Tokens → Option (Expr × Tokens)
  | 0, _, _ => none
  | fuel + 1, e, .op "||" :: ts =>
    match conjunction fuel ts with
    | none => none
    | some (e2, ts) => moreDisjuncts fuel (.call "_||_" [e, e2]) ts
  | _ + 1, e, ts => some (e, ts)

def conjunction : Nat → Tokens → Option (Expr × Tokens)
  | 0, _ => none
  | fuel + 1, ts =>
    match relation fuel ts with
    | none => none
    | some (e, ts) => moreConjuncts fuel e ts

def moreConjuncts : Nat → Expr → Tokens → Option (Expr × Tokens)
  | 0, _, _ => none
  | fuel + 1, e, .op "&&" :: ts =>
    match relation fuel ts with
    | none => none
    | some (e2, ts) => moreConjuncts fuel (.call "_&&_" [e, e2]) ts
  | _ + 1, e, ts => some (e, ts)

def relation : Nat → Tokens → Option (Expr × Tokens)
  | 0, _ => none
  | fuel + 1, ts =>
    match sum fuel ts with
    | none => none
    | some (e, ts) => moreRelations fuel e ts

def moreRelations : Nat → Expr → Tokens → Option (Expr × Tokens)
  | 0, _, _ => none
  | fuel + 1, e, t :: ts =>
    match relationOp? t with
    | some f =>
      match sum fuel ts with
      | none => none
      | some (e2, ts) => moreRelations fuel (.call f [e, e2]) ts
    | none => some (e, t :: ts)
  | _ + 1, e, [] => some (e, [])

def sum : Nat → Tokens → Option (Expr × Tokens)
  | 0, _ => none
  | fuel + 1, ts =>
    match product fuel ts with
    | none => none
    | some (e, ts) => moreSummands fuel e ts

def moreSummands : Nat → Expr → Tokens → Option (Expr × Tokens)
  | 0, _, _ => none
  | fuel + 1, e, t :: ts =>
    match sumOp? t with
    | some f =>
      match product fuel ts with
      | none => none
      | some (e2, ts) => moreSummands fuel (.call f [e, e2]) ts
    | none => some (e, t :: ts)
  | _ + 1, e, [] => some (e, [])

def product : Nat → Tokens → Option (Expr × Tokens)
  | 0, _ => none
  | fuel + 1, ts =>
    match unary fuel ts with
    | none => none
    | some (e, ts) => moreFactors fuel e ts

def moreFactors : Nat → Expr → Tokens → Option (Expr × Tokens)
  | 0, _, _ => none
  | fuel + 1, e, t :: ts =>
    match productOp? t with
    | some f =>
      match unary fuel ts with
      | none => none
      | some (e2, ts) => moreFactors fuel (.call f [e, e2]) ts
    | none => some (e, t :: ts)
  | _ + 1, e, [] => some (e, [])

/-- signs before a member; an even number of them cancels out, and a minus before a number belongs to it -/
def unary : Nat → Tokens → Option (Expr × Tokens)
  | 0, _ => none
  | fuel + 1, .op "!" :: ts =>
    let (n, ts) := signs "!" (.op "!" :: ts)
    match postfixed fuel ts with
    | none => none
    | some (e, ts) => some (if n % 2 = 0 then e else .call "!_" [e], ts)
  | fuel + 1, .op "-" :: .int n :: ts =>
    if n > maxInt then none else suffixes fuel (.const (.int (-(n : Int)))) ts
  | fuel + 1, .op "-" :: .double x :: ts => suffixes fuel (.const (.double (-x))) ts
  | fuel + 1, .op "-" :: ts =>
    let (n, ts) := signs "-" (.op "-" :: ts)
    match postfixed fuel ts with
    | none => none
    | some (e, ts) => some (if n % 2 = 0 then e else .call "-_" [e], ts)
  | fuel + 1, ts => postfixed fuel ts

def postfixed : Nat → Tokens → Option (Expr × Tokens)
  | 0, _ => none
  | fuel + 1, ts =>
    match primary fuel ts with
    | none => none
    | some (e, ts) => suffixes fuel e ts

/-- member access, calls and indexing behind an expression -/
def suffixes : Nat → Expr → Tokens → Option (Expr × Tokens)
  | 0, _, _ => none
  | fuel + 1, e, .op "." :: .ident f :: .op "(" :: ts =>
    match arguments fuel ")" ts with
    | none => none
    | some (args, ts) =>
      match memberCall e f args with
      | none => none
      | some call => suffixes fuel call ts
  | fuel + 1, e, .op "." :: .ident f :: ts =>
    if (keywordConst? f).isSome || f == "in" then none else suffixes fuel (.select e f) ts
  | _ + 1, _, .op "." :: _ => none
  | fuel + 1, e, .op "[" :: ts =>
    match expression fuel ts with
    | some (i, .op "]" :: ts) => suffixes fuel (.call "_[_]" [e, i]) ts
    | _ => none
  | _ + 1, e, ts => some (e, ts)

def primary : Nat → Tokens → Option (Expr × Tokens)
  | 0, _ => none
  | _ + 1, [] => none
  | fuel + 1, t :: ts =>
    match t with
    | .int n => if n ≥ maxInt then none else some (.const (.int n), ts)
    | .uint n => if n ≥ Nat.pow 2 64 then none else some (.const (.uint n), ts)
    | .double x => some (.const (.double x), ts)
    | .string s => some (.const (.string s), ts)
    | .bytes bs => some (.const (.bytes bs), ts)
    | .ident name =>
      match keywordConst? name with
      | some c => some (.const c, ts)
      | none =>
        if reserved.contains name then none
        else
          match ts with
          | .op "(" :: rest =>
            match arguments fuel ")" rest with
            | none => none
            | some (args, rest) => (globalCall name args).map (·, rest)
          | ts => some (.ident name, ts)
    | .op "(" =>
      match expression fuel ts with
      | some (e, .op ")" :: ts) => some (e, ts)
      | _ => none
    | .op "[" =>
      match arguments fuel "]" ts with
      | none => none
      | some (items, ts) => some (.list items, ts)
    | .op "\x7b" => entries fuel [] ts
    | _ => none

/-- expressions divided by commas up to the closing sign; a list may end in a comma -/
def arguments : Nat → String → Tokens → Option (List Expr × Tokens)
  | 0, _, _ => none
  | fuel + 1, closing, ts =>
    match expectOp closing ts with
    | some rest => some ([], rest)
    | none =>
      match expression fuel ts with
      | none => none
      | some (e, .op "," :: rest) =>
        if closing != "]" && (expectOp closing rest).isSome then none
        else (arguments fuel closing rest).map fun (es, r) => (e :: es, r)
      | some (e, rest) => (expectOp closing rest).map fun r => ([e], r)

/-- the entries of a map literal behind its brace -/
def entries : Nat → List (Expr × Expr) → Tokens → Option (Expr × Tokens)
  | 0, _, _ => none
  | fuel + 1, acc, ts =>
    match expectOp "\x7d" ts with
    | some rest => some (.map acc.reverse, rest)
    | none =>
      match expression fuel ts with
      | some (k, .op ":" :: ts) =>
        match expression fuel ts with
        | some (v, .op "," :: ts) => entries fuel ((k, v) :: acc) ts
        | some (v, ts) => (expectOp "\x7d" ts).map fun r => (.map ((k, v) :: acc).reverse, r)
        | none => none
      | _ => none

end

/-- reads a whole text as one expression -/
def parse? (text : String) : Option Expr :=
  let cs := text.toList
  match Token.scan (cs.length + 1) cs with
  | none => none
  | some ts =>
    match expression (12 * ts.length + 24) ts with
    | some (e, []) => some e
    | _ => none

end Schemata.Rule
