import Schemata.Value

/-!
Tokens of rule expressions: names, numbers, quoted texts and operators. Blanks and line comments separate tokens.
-/

namespace Schemata.Rule

inductive Token where
  | ident (name : String)
  | int (n : Nat)
  | uint (n : Nat)
  | double (x : Float)
  | string (s : String)
  | bytes (bs : List Nat)
  | op (text : String)
  deriving Inhabited

namespace Token

def isIdentStart (c : Char) : Bool := c.isAlpha || c == '_'

def isIdentChar (c : Char) : Bool := c.isAlphanum || c == '_'

/-- the bytes of a character in UTF-8 -/
def utf8 (c : Char) : List Nat := c.toString.toUTF8.toList.map UInt8.toNat

/-- `n` hexadecimal digits -/
def hexDigits : Nat → Nat → List Char → Option (Nat × List Char)
  | 0, acc, cs => some (acc, cs)
  | n + 1, acc, c :: cs =>
    match Number.digitOf? 16 c with
    | some d => hexDigits n (acc * 16 + d) cs
    | none => none
  | _ + 1, _, [] => none

/-- an escape behind its backslash; `raw` marks a byte rather than a character -/
def escape (cs : List Char) : Option (Nat × Bool × List Char) :=
  match cs with
  | 'a' :: r => some (7, false, r)
  | 'b' :: r => some (8, false, r)
  | 'f' :: r => some (12, false, r)
  | 'n' :: r => some (10, false, r)
  | 'r' :: r => some (13, false, r)
  | 't' :: r => some (9, false, r)
  | 'v' :: r => some (11, false, r)
  | '\\' :: r => some (92, false, r)
  | '\x27' :: r => some (39, false, r)
  | '"' :: r => some (34, false, r)
  | '\x60' :: r => some (96, false, r)
  | '?' :: r => some (63, false, r)
  | 'x' :: r => (hexDigits 2 0 r).map fun (n, r) => (n, true, r)
  | 'X' :: r => (hexDigits 2 0 r).map fun (n, r) => (n, true, r)
  | 'u' :: r => (hexDigits 4 0 r).map fun (n, r) => (n, false, r)
  | 'U' :: r => (hexDigits 8 0 r).map fun (n, r) => (n, false, r)
  | a :: b :: c :: r =>
    match Number.digitOf? 4 a, Number.digitOf? 8 b, Number.digitOf? 8 c with
    | some x, some y, some z => some (x * 64 + y * 8 + z, true, r)
    | _, _, _ => none
  | _ => none

def validScalar (n : Nat) : Bool := n < 0xD800 || (0xE000 ≤ n && n ≤ 0x10FFFF)

/-- the body of a quoted text up to its closing quotes, as characters or bytes -/
def quoted (closing : List Char) (multiline raw bytes : Bool) : Nat → List Nat → List Char →
    Option (List Nat × List Char)
  | 0, _, _ => none
  | fuel + 1, acc, cs =>
    match Text.dropPrefix? closing cs with
    | some rest => some (acc.reverse, rest)
    | none =>
      match cs with
      | [] => none
      | c :: r =>
        if !multiline && (c == '\n' || c == '\r') then none
        else if c == '\\' && !raw then
          match escape r with
          | none => none
          | some (n, isByte, r) =>
            if bytes then
              if isByte then quoted closing multiline raw bytes fuel (n :: acc) r
              else if validScalar n then
                quoted closing multiline raw bytes fuel ((utf8 (Char.ofNat n)).reverse ++ acc) r
              else none
            else if validScalar n then quoted closing multiline raw bytes fuel (n :: acc) r
            else none
        else quoted closing multiline raw bytes fuel
          ((if bytes then (utf8 c).reverse else [c.toNat]) ++ acc) r

/-- a quoted text, read from its first quote -/
def text (raw bytes : Bool) (cs : List Char) : Option (Token × List Char) :=
  let finish (closing : List Char) (multiline : Bool) (body : List Char) : Option (Token × List Char) :=
    (quoted closing multiline raw bytes (body.length + 1) [] body).map fun (ns, rest) =>
      (if bytes then .bytes ns else .string (String.ofList (ns.map Char.ofNat)), rest)
  match cs with
  | '"' :: '"' :: '"' :: r => finish ['"', '"', '"'] true r
  | '\x27' :: '\x27' :: '\x27' :: r => finish ['\x27', '\x27', '\x27'] true r
  | '"' :: r => finish ['"'] false r
  | '\x27' :: r => finish ['\x27'] false r
  | _ => none

def isQuote (c : Char) : Bool := c == '"' || c == '\x27'

def natOf (base : Nat) (cs : List Char) : Nat :=
  cs.foldl (fun n c => n * base + (Number.digitOf? base c).getD 0) 0

/-- the exponent part of a number, if one stands here -/
def exponent (cs : List Char) : List Char × List Char :=
  match cs with
  | e :: r =>
    if e == 'e' || e == 'E' then
      let (sign, r') := match r with
        | '+' :: t => (['+'], t)
        | '-' :: t => (['-'], t)
        | t => ([], t)
      let ds := r'.takeWhile Char.isDigit
      if ds.isEmpty then ([], cs) else (e :: sign ++ ds, r'.dropWhile Char.isDigit)
    else ([], cs)
  | [] => ([], [])

/-- a number, read from its first digit or point -/
def number (cs : List Char) : Option (Token × List Char) :=
  let suffixed (n : Nat) (rest : List Char) : Token × List Char :=
    match rest with
    | 'u' :: r => (.uint n, r)
    | 'U' :: r => (.uint n, r)
    | r => (.int n, r)
  let float (body : List Char) (rest : List Char) : Option (Token × List Char) :=
    (Number.parse? (String.ofList body)).map fun x => (.double x, rest)
  match cs with
  | '0' :: 'x' :: r =>
    let ds := r.takeWhile fun c => (Number.digitOf? 16 c).isSome
    if ds.isEmpty then none
    else some (suffixed (natOf 16 ds) (r.dropWhile fun c => (Number.digitOf? 16 c).isSome))
  | _ =>
    let ds := cs.takeWhile Char.isDigit
    let rest := cs.dropWhile Char.isDigit
    match rest with
    | '.' :: f :: r =>
      if f.isDigit then
        let fs := (f :: r).takeWhile Char.isDigit
        let (ex, rest) := exponent ((f :: r).dropWhile Char.isDigit)
        float (ds ++ '.' :: fs ++ ex) rest
      else some (suffixed (natOf 10 ds) rest)
    | _ =>
      let (ex, after) := exponent rest
      if ex.isEmpty then some (suffixed (natOf 10 ds) rest) else float (ds ++ ex) after

def operators : List String :=
  ["==", "!=", "<=", ">=", "&&", "||", "<", ">", "!", "-", "+", "*", "/", "%", "?", ":", ".", ",", "(", ")", "[", "]",
   "\x7b", "\x7d"]

/-- one token and the text behind it -/
def next (cs : List Char) : Option (Token × List Char) :=
  match cs with
  | [] => none
  | c :: r =>
    if isQuote c then text false false cs
    else if c.isDigit then number cs
    else if c == '.' && (r.head?).any Char.isDigit then number cs
    else if isIdentStart c then
      let lower := c.toLower
      match r with
      | q :: r' =>
        if lower == 'r' && isQuote q then text true false r
        else if lower == 'b' && isQuote q then text false true r
        else if (lower == 'r' && q.toLower == 'b' || lower == 'b' && q.toLower == 'r') && (r'.head?).any isQuote then
          text true true r'
        else some (.ident (String.ofList (cs.takeWhile isIdentChar)), cs.dropWhile isIdentChar)
      | [] => some (.ident c.toString, [])
    else
      match operators.find? fun o => o.toList.isPrefixOf cs with
      | some o => some (.op o, cs.drop o.length)
      | none => none

def isSeparator (c : Char) : Bool := c == ' ' || c == '\t' || c == '\n' || c == '\r' || c == '\x0c'

/-- all tokens of a text; `none` when some part of it is none -/
def scan : Nat → List Char → Option (List Token)
  | 0, _ => none
  | fuel + 1, cs =>
    match cs.dropWhile isSeparator with
    | [] => some []
    | '/' :: '/' :: r => scan fuel (r.dropWhile (· != '\n'))
    | cs =>
      match next cs with
      | none => none
      | some (t, rest) => (scan fuel rest).map (t :: ·)

end Token

end Schemata.Rule
