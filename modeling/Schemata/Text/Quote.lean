import Schemata.Text.Basic

/-!
Quoted text.

Two forms: `quote` is the form of messages and generated constants (every character that cannot be printed is
escaped), and `jsonString` the form of data documents (control characters, and the five characters that matter to
markup, are escaped).
-/

namespace Schemata.Text

/-- a character inside a quoted text -/
def quoteChar (c : Char) : String :=
  match c with
  | '"' => "\\\""
  | '\\' => "\\\\"
  | '\n' => "\\n"
  | '\r' => "\\r"
  | '\t' => "\\t"
  | '\x07' => "\\a"
  | '\x08' => "\\b"
  | '\x0b' => "\\v"
  | '\x0c' => "\\f"
  | c =>
    let n := c.toNat
    if Category.isPrintable c then c.toString
    else if n < 128 then "\\x" ++ hex n 2
    else if n < 0x10000 then "\\u" ++ hex n 4
    else "\\U" ++ hex n 8

/-- a text in double quotes, everything unprintable escaped -/
def quote (s : String) : String := "\"" ++ String.join (s.toList.map quoteChar) ++ "\""

/-- a character inside a string of a data document -/
def jsonChar (c : Char) : String :=
  match c with
  | '"' => "\\\""
  | '\\' => "\\\\"
  | '\n' => "\\n"
  | '\r' => "\\r"
  | '\t' => "\\t"
  | c =>
    let n := c.toNat
    if n < 32 || c == '<' || c == '>' || c == '&' || n == 0x2028 || n == 0x2029 then "\\u" ++ hex n 4
    else c.toString

def jsonString (s : String) : String := "\"" ++ String.join (s.toList.map jsonChar) ++ "\""

end Schemata.Text
