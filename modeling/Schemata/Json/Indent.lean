import Schemata.Json.Writer
import Schemata.Number.Reading

/-!
Laying out JSON text anew.

Only the white space between tokens changes: strings and numbers stay as they are written, whatever they hold. Each
member and each element stands on a line of its own.
-/

namespace Schemata.Json

/-- why a text has no layout -/
inductive IndentError where
  | malformed
  /-- a number that is none, or is out of range -/
  | badNumber (digits : String) (range : Bool)
  deriving Repr, DecidableEq

def IndentError.message : IndentError → String
  | malformed => "unexpected character"
  | badNumber t range =>
    "strconv.ParseFloat: parsing " ++ Text.quote t ++ ": " ++ (if range then "value out of range" else "invalid syntax")

namespace Indent

/-- the rest of a string behind its opening quote, escapes untouched -/
def stringRest (acc : List Char) : List Char → Option (String × List Char)
  | [] => none
  | '\\' :: c :: rest => stringRest (c :: '\\' :: acc) rest
  | '"' :: rest => some (String.ofList ('"' :: acc).reverse, rest)
  | c :: rest => stringRest (c :: acc) rest

def stringToken? : List Char → Option (String × List Char)
  | '"' :: rest => stringRest ['"'] rest
  | _ => none

def isNumberChar (c : Char) : Bool := c.isDigit || c == '.' || c == 'e' || c == 'E' || c == '+' || c == '-'

def numberToken (first : Char) (cs : List Char) : Except IndentError (String × List Char) :=
  let t := String.ofList (first :: cs.takeWhile isNumberChar)
  match Number.read t with
  | .number _ => .ok (t, cs.dropWhile isNumberChar)
  | .overflow _ => .error (.badNumber t true)
  | .malformed => .error (.badNumber t false)

def wordToken (word : String) (cs : List Char) : Except IndentError (String × List Char) :=
  match Text.dropPrefix? word.toList cs with
  | some rest => .ok (word, rest)
  | none => .error .malformed

mutual

/-- a value at a depth, laid out, and what follows it -/
def value (unit : String) (depth : Nat) : Nat → List Char → Except IndentError (String × List Char)
  | 0, _ => .error .malformed
  | fuel + 1, cs =>
    match skipSpace cs with
    | '\x7b' :: rest =>
      match skipSpace rest with
      | '\x7d' :: rest => .ok ("\x7b\x7d", rest)
      | rest => do
        let (t, rest) ← members unit (depth + 1) fuel rest
        return ("\x7b" ++ t ++ newline unit depth ++ "\x7d", rest)
    | '[' :: rest =>
      match skipSpace rest with
      | ']' :: rest => .ok ("[]", rest)
      | rest => do
        let (t, rest) ← elements unit (depth + 1) fuel rest
        return ("[" ++ t ++ newline unit depth ++ "]", rest)
    | '"' :: rest => match stringToken? ('"' :: rest) with
      | some r => .ok r
      | none => .error .malformed
    | 't' :: rest => wordToken "true" ('t' :: rest)
    | 'f' :: rest => wordToken "false" ('f' :: rest)
    | 'n' :: rest => wordToken "null" ('n' :: rest)
    | c :: rest => if c.isDigit || c == '-' then numberToken c rest else .error .malformed
    | [] => .error .malformed

/-- the members of an object up to and with its closing brace -/
def members (unit : String) (depth : Nat) : Nat → List Char → Except IndentError (String × List Char)
  | 0, _ => .error .malformed
  | fuel + 1, cs =>
    match stringToken? (skipSpace cs) with
    | none => .error .malformed
    | some (key, rest) =>
      match skipSpace rest with
      | ':' :: rest => do
        let (v, rest) ← value unit depth fuel rest
        let line := newline unit depth ++ key ++ ": " ++ v
        match skipSpace rest with
        | '\x7d' :: rest => return (line, rest)
        | ',' :: rest =>
          let (more, rest) ← members unit depth fuel rest
          return (line ++ "," ++ more, rest)
        | _ => throw .malformed
      | _ => .error .malformed

/-- the elements of an array up to and with its closing bracket -/
def elements (unit : String) (depth : Nat) : Nat → List Char → Except IndentError (String × List Char)
  | 0, _ => .error .malformed
  | fuel + 1, cs => do
    let (v, rest) ← value unit depth fuel cs
    let line := newline unit depth ++ v
    match skipSpace rest with
    | ']' :: rest => return (line, rest)
    | ',' :: rest =>
      let (more, rest) ← elements unit depth fuel rest
      return (line ++ "," ++ more, rest)
    | _ => throw .malformed

end

end Indent

/-- a JSON text with one line for each member and element -/
def indent (unit text : String) : Except IndentError String := do
  let (t, rest) ← Indent.value unit 0 (text.length + 1) text.toList
  if (skipSpace rest).isEmpty then return t else throw .malformed

end Schemata.Json
