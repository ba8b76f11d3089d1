import Schemata.Text.Basic

/-!
Positions in YAML text.

A cursor is what is left of a text together with the place where that starts. All movement goes one character or one
line break at a time, so lines and columns are always right.
-/

namespace Schemata.Yaml

/-- a place in a text, counted from 0 -/
structure Mark where
  line : Nat := 0
  column : Nat := 0
  index : Nat := 0
  deriving Repr, DecidableEq, Inhabited

/-- why a text cannot be read; line 0 stands for no line -/
structure ReadError where
  line : Nat := 0
  problem : String
  deriving Repr, DecidableEq

def ReadError.message (e : ReadError) : String :=
  "yaml: " ++ (if e.line = 0 then "" else "line " ++ toString e.line ++ ": ") ++ e.problem

abbrev Read (α : Type) := Except ReadError α

structure Cursor where
  rest : List Char
  mark : Mark := {}
  deriving Inhabited

def isBreak (c : Char) : Bool := c == '\n' || c == '\r' || c == '\u0085' || c == '\u2028' || c == '\u2029'

def isBlank (c : Char) : Bool := c == ' ' || c == '\t'

/-- characters of names -/
def isWord (c : Char) : Bool := c.isAlphanum || c == '_' || c == '-'

def isHexDigit (c : Char) : Bool := c.isDigit || ('a' ≤ c && c ≤ 'f') || ('A' ≤ c && c ≤ 'F')

def hexDigit (c : Char) : Nat :=
  if c.isDigit then c.toNat - 48 else if 'a' ≤ c then c.toNat - 87 else c.toNat - 55

/-- characters that a document may hold -/
def isAllowed (c : Char) : Bool :=
  let n := c.toNat
  n == 0x09 || n == 0x0A || n == 0x0D || (0x20 ≤ n && n ≤ 0x7E) || n == 0x85 || (0xA0 ≤ n && n ≤ 0xD7FF)
    || (0xE000 ≤ n && n ≤ 0xFFFD) || 0x10000 ≤ n

namespace Cursor

def peek? (c : Cursor) : Option Char := c.rest.head?

/-- the character some places ahead -/
def ahead? (c : Cursor) (n : Nat) : Option Char := c.rest[n]?

def at? (c : Cursor) (ch : Char) : Bool := c.peek? == some ch

def blankHere (c : Cursor) : Bool := c.peek?.any isBlank

def breakHere (c : Cursor) : Bool := c.peek?.any isBreak

/-- is there a blank, a break or the end some places ahead? -/
def gapAhead (c : Cursor) (n : Nat) : Bool := (c.ahead? n).all fun ch => isBlank ch || isBreak ch

def endHere (c : Cursor) : Bool := c.rest.isEmpty

/-- one character further -/
def skip (c : Cursor) : Cursor :=
  match c.rest with
  | [] => c
  | _ :: cs => ⟨cs, { c.mark with column := c.mark.column + 1, index := c.mark.index + 1 }⟩

/-- over the characters that a test accepts -/
def skipWhile (p : Char → Bool) (c : Cursor) : Cursor :=
  let n := (c.rest.takeWhile p).length
  ⟨c.rest.drop n, { c.mark with column := c.mark.column + n, index := c.mark.index + n }⟩

/-- over a line break, which is read as a line feed unless it is one of the two separators -/
def line (c : Cursor) : List Char × Cursor :=
  let next (n : Nat) (cs : List Char) : Cursor := ⟨cs, ⟨c.mark.line + 1, 0, c.mark.index + n⟩⟩
  match c.rest with
  | '\r' :: '\n' :: cs => (['\n'], next 2 cs)
  | '\r' :: cs => (['\n'], next 1 cs)
  | '\n' :: cs => (['\n'], next 1 cs)
  | '\u0085' :: cs => (['\n'], next 1 cs)
  | '\u2028' :: cs => (['\u2028'], next 1 cs)
  | '\u2029' :: cs => (['\u2029'], next 1 cs)
  | _ => ([], c)

def skipLine (c : Cursor) : Cursor := c.line.2

/-- to the end of the line -/
def skipRest (c : Cursor) : Cursor := c.skipWhile fun ch => !isBreak ch

/-- over blanks and line breaks -/
def skipGap (c : Cursor) : Cursor :=
  let rec go : Nat → Cursor → Cursor
    | 0, c => c
    | fuel + 1, c =>
      if c.blankHere then go fuel c.skip
      else if c.breakHere then go fuel c.skipLine
      else c
  go c.rest.length c

/-- does a marker of three characters stand here, at the start of a line? -/
def documentMarker (c : Cursor) (ch : Char) : Bool :=
  c.mark.column == 0 && c.ahead? 0 == some ch && c.ahead? 1 == some ch && c.ahead? 2 == some ch && c.gapAhead 3

def anyMarker (c : Cursor) : Bool := c.documentMarker '-' || c.documentMarker '.'

/-- a failure while reading tokens: the line of what was being read or, when that is the first, of this place -/
def fail {α : Type} (c : Cursor) (context : Mark) (problem : String) : Read α :=
  let line := if context.line ≠ 0 then context.line + 1 else if c.mark.line ≠ 0 then c.mark.line + 1 else 0
  .error { line, problem }

end Cursor

end Schemata.Yaml
