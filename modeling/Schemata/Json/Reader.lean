import Schemata.Json.Tree

/-!
Reading JSON text.

The reader is lenient where the format's users rely on it: a number is any run of number characters that reads as a
number, and control characters may stand in strings. A NUL character ends the text. Nesting deeper than ten thousand
is refused.
-/

namespace Schemata.Json

/-- why a text is no JSON document -/
inductive ReadError where
  | unexpectedEnd
  | invalidCharacter (c : Char)
  | badNumber (digits : String)
  | badEscape
  | tooDeep
  deriving Repr, DecidableEq

def ReadError.message : ReadError → String
  | unexpectedEnd => "unexpected end of JSON input"
  | invalidCharacter c => "invalid character " ++ Text.quote c.toString ++ " in JSON text"
  | badNumber t => "invalid JSON number " ++ t
  | badEscape => "invalid escape in JSON string"
  | tooDeep => "JSON nesting exceeds the maximum depth"

def isSpace (c : Char) : Bool := c == ' ' || c == '\t' || c == '\n' || c == '\r'

def skipSpace (cs : List Char) : List Char := cs.dropWhile isSpace

def hexValue (cs : List Char) : Option Nat :=
  cs.foldl (fun acc c => match acc, Number.digitOf? 16 c with
    | some n, some d => some (n * 16 + d)
    | _, _ => none) (some 0)

/-- four hexadecimal digits and what follows them -/
def hex4 : List Char → Option (Nat × List Char)
  | a :: b :: c :: d :: rest => (hexValue [a, b, c, d]).map (·, rest)
  | _ => none

/-- a code unit as a character; half of a pair has none and becomes the replacement character -/
def unitChar (n : Nat) : Char := if 0xD800 ≤ n ∧ n < 0xE000 then '\uFFFD' else Char.ofNat n

/-- the characters of a string up to its closing quote, in reverse on `acc` -/
def stringBody (acc : List Char) : Nat → List Char → Except ReadError (String × List Char)
  | 0, _ => .error .unexpectedEnd
  | _, [] => .error .unexpectedEnd
  | fuel + 1, c :: cs =>
    if c = '"' then .ok (String.ofList acc.reverse, cs)
    else if c = '\x00' then .error .unexpectedEnd
    else if c = '\\' then
      match cs with
      | '"' :: r => stringBody ('"' :: acc) fuel r
      | '\\' :: r => stringBody ('\\' :: acc) fuel r
      | '/' :: r => stringBody ('/' :: acc) fuel r
      | 'b' :: r => stringBody ('\x08' :: acc) fuel r
      | 'f' :: r => stringBody ('\x0c' :: acc) fuel r
      | 'n' :: r => stringBody ('\n' :: acc) fuel r
      | 'r' :: r => stringBody ('\r' :: acc) fuel r
      | 't' :: r => stringBody ('\t' :: acc) fuel r
      | 'u' :: r =>
        match hex4 r with
        | none => .error .badEscape
        | some (n, r) =>
          if 0xD800 ≤ n ∧ n < 0xDC00 then
            match r with
            | '\\' :: 'u' :: r2 =>
              match hex4 r2 with
              | none => .error .badEscape
              | some (m, r3) =>
                if 0xDC00 ≤ m ∧ m < 0xE000 then
                  stringBody (Char.ofNat (0x10000 + (n - 0xD800) * 0x400 + (m - 0xDC00)) :: acc) fuel r3
                else stringBody (unitChar n :: acc) fuel r
            | _ => stringBody (unitChar n :: acc) fuel r
          else stringBody (unitChar n :: acc) fuel r
      | _ => .error .badEscape
    else stringBody (c :: acc) fuel cs

def isNumberChar (c : Char) : Bool :=
  c.isDigit || c == '.' || c == 'e' || c == 'E' || c == '+' || c == '-'

/-- may a number end before this text? -/
def endsNumber : List Char → Bool
  | [] => true
  | c :: _ => c == '\x00' || isSpace c || c == ',' || c == ':' || c == '}' || c == ']'

/-- a number: a run of number characters that reads as one -/
def numberBody (first : Char) (cs : List Char) : Except ReadError (Json × List Char) :=
  let body := cs.takeWhile isNumberChar
  let rest := cs.dropWhile isNumberChar
  let text := String.ofList (first :: body)
  if !endsNumber rest then .error .unexpectedEnd
  else if (Number.parse? text).isNone then .error (.badNumber text)
  else .ok (.number text, rest)

def keyword (word : String) (v : Json) (cs : List Char) : Except ReadError (Json × List Char) :=
  match Text.dropPrefix? word.toList cs with
  | some rest => .ok (v, rest)
  | none => .error .unexpectedEnd

def maxDepth : Nat := 10000

mutual

/-- one document value and the text behind it -/
def value (depth : Nat) : Nat → List Char → Except ReadError (Json × List Char)
  | 0, _ => .error .unexpectedEnd
  | fuel + 1, cs =>
    match skipSpace cs with
    | [] => .error .unexpectedEnd
    | '{' :: rest =>
      if depth ≥ maxDepth then .error .tooDeep
      else match skipSpace rest with
        | '}' :: rest => .ok (.object [], rest)
        | rest => members (depth + 1) [] fuel rest
    | '[' :: rest =>
      if depth ≥ maxDepth then .error .tooDeep
      else match skipSpace rest with
        | ']' :: rest => .ok (.array [], rest)
        | rest => elements (depth + 1) [] fuel rest
    | '"' :: rest =>
      match stringBody [] (rest.length + 1) rest with
      | .ok (s, rest) => .ok (.string s, rest)
      | .error e => .error e
    | c :: rest =>
      if c.isDigit || c == '-' then numberBody c rest
      else if c == 't' then keyword "true" (.bool true) (c :: rest)
      else if c == 'f' then keyword "false" (.bool false) (c :: rest)
      else if c == 'n' then keyword "null" .null (c :: rest)
      else .error (.invalidCharacter c)

/-- the elements of an array behind its opening bracket, in reverse on `acc` -/
def elements (depth : Nat) (acc : List Json) : Nat → List Char → Except ReadError (Json × List Char)
  | 0, _ => .error .unexpectedEnd
  | fuel + 1, cs =>
    match value depth fuel cs with
    | .error e => .error e
    | .ok (v, rest) =>
      match skipSpace rest with
      | ']' :: rest => .ok (.array (v :: acc).reverse, rest)
      | ',' :: rest => elements depth (v :: acc) fuel rest
      | c :: _ => .error (.invalidCharacter c)
      | [] => .error .unexpectedEnd

/-- the members of an object behind its opening brace, in reverse on `acc`; the key `null` is the empty one -/
def members (depth : Nat) (acc : List (String × Json)) : Nat → List Char → Except ReadError (Json × List Char)
  | 0, _ => .error .unexpectedEnd
  | fuel + 1, cs =>
    let key : Except ReadError (String × List Char) :=
      match skipSpace cs with
      | '"' :: rest => stringBody [] (rest.length + 1) rest
      | 'n' :: rest =>
        match Text.dropPrefix? "ull".toList rest with
        | some rest => .ok ("", rest)
        | none => .error .unexpectedEnd
      | c :: _ => .error (.invalidCharacter c)
      | [] => .error .unexpectedEnd
    match key with
    | .error e => .error e
    | .ok (k, rest) =>
      match skipSpace rest with
      | ':' :: rest =>
        match value depth fuel rest with
        | .error e => .error e
        | .ok (v, rest) =>
          match skipSpace rest with
          | '}' :: rest => .ok (.object ((k, v) :: acc).reverse, rest)
          | ',' :: rest => members depth ((k, v) :: acc) fuel rest
          | c :: _ => .error (.invalidCharacter c)
          | [] => .error .unexpectedEnd
      | c :: _ => .error (.invalidCharacter c)
      | [] => .error .unexpectedEnd

end

/-- a whole text as one document -/
def parse (s : String) : Except ReadError Json :=
  let cs := s.toList
  match value 0 (3 * cs.length + 3) cs with
  | .error e => .error e
  | .ok (v, rest) =>
    match skipSpace rest with
    | [] => .ok v
    | c :: _ => if c = '\x00' then .ok v else .error (.invalidCharacter c)

/-- a whole text as data -/
def parseValue (s : String) : Except ReadError Value := (parse s).map toValue

end Schemata.Json
