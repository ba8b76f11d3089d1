import Schemata.Number.Reading
import Schemata.Text.Basic

/-!
Lexemes of generated source text.

A text is divided into names, keywords, literals and operators; comments are kept apart, each with the number of the
lexeme that it stands before. A line that ends behind something that can end a statement gets a separator of its
own.
-/

namespace Schemata.Source

inductive LexemeKind where
  | name | keyword | number | quoted | operator
  /-- written, or implied by the end of a line -/
  | separator
  | ending
  deriving Repr, DecidableEq, Inhabited

structure Lexeme where
  kind : LexemeKind
  text : String
  /-- lines and columns count from 1 -/
  line : Nat
  last : Nat
  column : Nat
  deriving Repr, DecidableEq, Inhabited

/-- a comment -/
structure Remark where
  text : String
  line : Nat
  last : Nat
  column : Nat
  /-- the number of the lexeme behind it -/
  before : Nat
  deriving Repr, DecidableEq

/-- does the comment end with its line? -/
def Remark.toLineEnd (r : Remark) : Bool := Text.startsWith r.text "//"

def keywords : List String :=
  ["break", "case", "chan", "const", "continue", "default", "defer", "else", "fallthrough", "for", "func", "go", "goto", "if",
   "import", "interface", "map", "package", "range", "return", "select", "struct", "switch", "type", "var"]

/-- longer ones first -/
def operators : List String :=
  ["<<=", ">>=", "&^=", "...", "&&", "||", "<-", "++", "--", "==", "!=", "<=", ">=", ":=", "+=", "-=", "*=", "/=", "%=", "&=",
   "|=", "^=", "<<", ">>", "&^", "+", "-", "*", "/", "%", "&", "|", "^", "<", ">", "=", "!", "(", ")", "[", "]", "\x7b", "\x7d",
   ",", ".", ":", "~"]

/-- can a statement end behind this? -/
def Lexeme.endsStatement (t : Lexeme) : Bool :=
  match t.kind with
  | .name => true
  | .number => true
  | .quoted => true
  | .keyword => ["break", "continue", "fallthrough", "return"].contains t.text
  | .operator => ["++", "--", ")", "]", "\x7d"].contains t.text
  | _ => false

def startsName (c : Char) : Bool := c == '_' || Text.Category.isLetter c

def continuesName (c : Char) : Bool := startsName c || Text.Category.isDecimalDigit c

/-! ## Literals -/

/-- digits of a base and underscores between them, and the rest; bases up to ten take every decimal digit -/
def spanDigits (base : Nat) (cs : List Char) : List Char × List Char :=
  let digit (c : Char) : Bool := c == '_' || (Number.digitOf? (if base ≤ 10 then 10 else base) c).isSome
  (cs.takeWhile digit, cs.dropWhile digit)

def hasDigit (cs : List Char) : Bool := cs.any (· != '_')

/-- does each underscore follow a digit and stand before one? -/
def separated (afterDigit : Bool) : List Char → Bool
  | [] => true
  | '_' :: rest => afterDigit && (rest.head?.any fun c => (Number.digitOf? 16 c).isSome) && separated false rest
  | c :: rest => separated (Number.digitOf? 16 c).isSome rest

/-- the exponent at the start of a text: its characters, whether it is well formed, and the rest -/
def exponentPart (mark : Char) (cs : List Char) : Option (List Char × Bool × List Char) :=
  match cs with
  | e :: rest =>
    if e.toLower == mark then
      let (sign, rest) := match rest with
        | '+' :: r => (['+'], r)
        | '-' :: r => (['-'], r)
        | r => ([], r)
      let (ds, rest) := spanDigits 10 rest
      some (e :: sign ++ ds, hasDigit ds && separated false ds, rest)
    else none
  | [] => none

/-- a number at the start of a text, and the rest; malformed ones give nothing -/
def number? (cs : List Char) : Option (List Char × List Char) :=
  let (mark, base, body) := match cs with
    | '0' :: m :: rest =>
      match m.toLower with
      | 'x' => (['0', m], 16, rest)
      | 'o' => (['0', m], 8, rest)
      | 'b' => (['0', m], 2, rest)
      | _ => ([], 10, cs)
    | _ => ([], 10, cs)
  let (whole, rest) := spanDigits base body
  let (point, rest) := match rest with
    | '.' :: r => let (ds, r) := spanDigits base r; ('.' :: ds, r)
    | r => ([], r)
  let digits := whole ++ point.drop 1
  let small := base > 10 || digits.all fun c => c == '_' || (Number.digitOf? base c).isSome
  let fine := hasDigit digits && separated (!mark.isEmpty) whole && separated false (point.drop 1) && small
    && !(!point.isEmpty && (base == 8 || base == 2))
  let finish (e : List Char) (ok integer : Bool) (rest : List Char) : Option (List Char × List Char) :=
    let (suffix, rest) := match rest with
      | 'i' :: r => (['i'], r)
      | r => ([], r)
    let octal := integer && suffix.isEmpty && mark.isEmpty && whole.head? == some '0'
    if fine && ok && !(octal && whole.any fun c => c == '8' || c == '9') then some (mark ++ whole ++ point ++ e ++ suffix, rest)
    else none
  match exponentPart 'e' rest, exponentPart 'p' rest with
  | some (e, ok, r), _ => finish e (ok && mark.isEmpty) false r
  | none, some (e, ok, r) => finish e (ok && base == 16) false r
  | none, none => finish [] (!(base == 16 && !point.isEmpty)) point.isEmpty rest

def octalCount (cs : List Char) : Option Nat :=
  if cs.length == 3 && cs.all fun c => '0' ≤ c && c ≤ '7' then some (cs.foldl (fun n c => n * 8 + (c.toNat - 48)) 0) else none

def hexCount (length : Nat) (cs : List Char) : Option Nat :=
  if cs.length == length then cs.foldl (fun acc c => acc.bind fun n => (Number.digitOf? 16 c).map (n * 16 + ·)) (some 0) else none

/-- how many characters an escape takes behind its backslash -/
def escapeLength? (quote : Char) (cs : List Char) : Option Nat :=
  let codePoint (n : Nat) : Bool := n < 0xD800 || (0xE000 ≤ n && n < 0x110000)
  match cs with
  | [] => none
  | c :: rest =>
    if "abfnrtv\\".toList.contains c || c == quote then some 1
    else if '0' ≤ c && c ≤ '7' then (octalCount (cs.take 3)).bind fun n => if n < 256 then some 3 else none
    else if c == 'x' then (hexCount 2 (rest.take 2)).map fun _ => 3
    else if c == 'u' then (hexCount 4 (rest.take 4)).bind fun n => if codePoint n then some 5 else none
    else if c == 'U' then (hexCount 8 (rest.take 8)).bind fun n => if codePoint n then some 9 else none
    else none

/-- the characters up to the closing quote, how many they stand for, and the rest; `skip` characters belong to an escape -/
def quotedBody? (quote : Char) (count : Nat) (acc : List Char) : Nat → List Char → Option (List Char × Nat × List Char)
  | _, [] => none
  | skip + 1, c :: cs => quotedBody? quote count (c :: acc) skip cs
  | 0, c :: cs =>
    if c == quote then some ((c :: acc).reverse, count, cs)
    else if c == '\n' then none
    else if c == '\\' then (escapeLength? quote cs).bind fun n => quotedBody? quote (count + 1) (c :: acc) n cs
    else quotedBody? quote (count + 1) (c :: acc) 0 cs

/-- a quoted literal at the start of a text, and the rest -/
def quoted? (cs : List Char) : Option (List Char × List Char) :=
  match cs with
  | '"' :: rest => (quotedBody? '"' 0 ['"'] 0 rest).map fun (text, _, rest) => (text, rest)
  | '\'' :: rest => (quotedBody? '\'' 0 ['\''] 0 rest).bind fun (text, count, rest) => if count == 1 then some (text, rest) else none
  | '\x60' :: rest =>
    match Text.cutAt? ['\x60'] rest with
    | some (body, rest) => some ('\x60' :: body ++ ['\x60'], rest)
    | none => none
  | _ => none

/-! ## Texts -/

/-- a text that is being divided -/
structure Lexing where
  rest : List Char
  line : Nat := 1
  column : Nat := 1
  /-- latest first -/
  lexemes : List Lexeme := []
  count : Nat := 0
  remarks : List Remark := []

namespace Lexing

/-- moves over characters that stand at the front -/
def pass (s : Lexing) (cs rest : List Char) : Lexing :=
  let breaks := cs.count '\n'
  { s with
    rest
    line := s.line + breaks
    column := if breaks = 0 then s.column + cs.length else (cs.reverse.takeWhile (· != '\n')).length + 1 }

def push (s : Lexing) (kind : LexemeKind) (cs rest : List Char) : Lexing :=
  let after := s.pass cs rest
  let t : Lexeme := { kind, text := String.ofList cs, line := s.line, last := after.line, column := s.column }
  { after with lexemes := t :: s.lexemes, count := s.count + 1 }

/-- puts in the separator that the end of a line implies -/
def separate (s : Lexing) : Lexing :=
  match s.lexemes with
  | t :: _ =>
    if t.endsStatement then
      { s with lexemes := ⟨.separator, "\n", s.line, s.line, s.column⟩ :: s.lexemes, count := s.count + 1 }
    else s
  | [] => s

def remark (s : Lexing) (cs rest : List Char) : Lexing :=
  let after := s.pass cs rest
  let text := String.ofList (cs.filter (· != '\r'))
  { after with remarks := ⟨text, s.line, after.line, s.column, s.count⟩ :: s.remarks }

end Lexing

/-- does nothing but blanks and comments stand before the end of the line? -/
def endsLine : Nat → List Char → Bool
  | 0, _ => true
  | _, [] => true
  | fuel + 1, c :: cs =>
    if c == '\n' then true
    else if c == ' ' || c == '\t' || c == '\r' then endsLine fuel cs
    else if c == '/' then
      match cs with
      | '/' :: _ => true
      | '*' :: cs =>
        match Text.cutAt? ['*', '/'] cs with
        | some (body, rest) => body.contains '\n' || endsLine fuel rest
        | none => true
      | _ => false
    else false

/-- one lexeme, comment or blank; nothing if the text cannot go on like this -/
def lexStep (s : Lexing) : Option Lexing :=
  match s.rest with
  | [] => some s
  | c :: cs =>
    if c == '\n' then some (s.separate.pass [c] cs)
    else if c == ' ' || c == '\t' || c == '\r' then some (s.pass [c] cs)
    else if Text.startsWith (String.ofList (s.rest.take 2)) "//" then
      some (s.separate.remark (s.rest.takeWhile (· != '\n')) (s.rest.dropWhile (· != '\n')))
    else if Text.startsWith (String.ofList (s.rest.take 2)) "/*" then
      match Text.cutAt? ['*', '/'] (cs.drop 1) with
      | none => none
      | some (body, rest) =>
        let s := if endsLine (s.rest.length + 1) s.rest then s.separate else s
        some (s.remark (['/', '*'] ++ body ++ ['*', '/']) rest)
    else if startsName c then
      let name := s.rest.takeWhile continuesName
      some (s.push (if keywords.contains (String.ofList name) then .keyword else .name) name (s.rest.dropWhile continuesName))
    else if c.isDigit || (c == '.' && cs.head?.any Char.isDigit) then
      (number? s.rest).map fun (t, rest) => s.push .number t rest
    else if c == '"' || c == '\'' || c == '\x60' then (quoted? s.rest).map fun (t, rest) => s.push .quoted t rest
    else if c == ';' then some (s.push .separator [c] cs)
    else
      match operators.find? fun o => Text.startsWith (String.ofList (s.rest.take 3)) o with
      | some o => some (s.push .operator o.toList (s.rest.drop o.length))
      | none => none

def lexFrom : Nat → Lexing → Option Lexing
  | 0, s => some s
  | fuel + 1, s => if s.rest.isEmpty then some s else (lexStep s).bind (lexFrom fuel)

/-- the lexemes of a text, the ending last, and its comments -/
def lex? (text : String) : Option (Array Lexeme × List Remark) :=
  let cs := match text.toList with
    | '\ufeff' :: cs => cs
    | cs => cs
  if cs.contains '\x00' || cs.contains '\ufeff' then none
  else
    (lexFrom (cs.length + 1) { rest := cs }).map fun s =>
      let s := s.separate
      let ending : Lexeme := ⟨.ending, "", s.line, s.line, s.column⟩
      ((ending :: s.lexemes).reverse.toArray, s.remarks.reverse)

end Schemata.Source
