import Schemata.Number.Binary

/-!
Reading numbers from text.

`read` accepts decimal numbers (`-1.5e3`), hexadecimal ones with a binary exponent (`0x1.8p3`), the names of the
infinities and of the not-a-number value, and underscores between digits. The three answers keep apart what is no
number and what is one beyond the range.
-/

namespace Schemata.Number

inductive Reading where
  | number (x : Float)
  | overflow (negative : Bool)
  | malformed
  deriving Repr

def digitOf? (base : Nat) (c : Char) : Option Nat :=
  let v :=
    if '0' ≤ c ∧ c ≤ '9' then some (c.toNat - '0'.toNat)
    else if 'a' ≤ c ∧ c ≤ 'f' then some (c.toNat - 'a'.toNat + 10)
    else if 'A' ≤ c ∧ c ≤ 'F' then some (c.toNat - 'A'.toNat + 10)
    else none
  v.filter (· < base)

/-- an underscore stands between two digits, or between the base mark and a digit -/
def underscoresOk (base : Nat) : (before : Char) → List Char → Bool
  | before, [] => before != '_'
  | before, c :: rest =>
    if (digitOf? base c).isSome then underscoresOk base '0' rest
    else if c = '_' then before == '0' && underscoresOk base '_' rest
    else before != '_' && underscoresOk base '!' rest

/-- the digits of a mantissa: value, digits seen, digits after the point, whether a point was seen, and the rest -/
structure Mantissa where
  value : Nat := 0
  digits : Nat := 0
  places : Nat := 0
  point : Bool := false

def Mantissa.scan (base : Nat) (m : Mantissa) : List Char → Mantissa × List Char
  | [] => (m, [])
  | c :: rest =>
    if c = '_' then scan base m rest
    else if c = '.' then (if m.point then (m, c :: rest) else scan base { m with point := true } rest)
    else match digitOf? base c with
      | some d => scan base { m with
          value := m.value * base + d, digits := m.digits + 1,
          places := if m.point then m.places + 1 else m.places } rest
      | none => (m, c :: rest)

/-- exponent digits; beyond ten thousand the value no longer grows -/
def exponentDigits (acc : Nat) (seen : Bool) : List Char → Nat × Bool × List Char
  | [] => (acc, seen, [])
  | c :: rest =>
    if c = '_' then exponentDigits acc seen rest
    else match digitOf? 10 c with
      | some d => exponentDigits (if acc < 10000 then acc * 10 + d else acc) true rest
      | none => (acc, seen, c :: rest)

/-- an optional exponent part; `none` when the mark stands without digits -/
def exponentPart (mark : Char) (cs : List Char) : Option (Option Int × List Char) :=
  match cs with
  | c :: rest =>
    if c.toLower = mark then
      let (neg, rest) := match rest with
        | '+' :: r => (false, r)
        | '-' :: r => (true, r)
        | r => (false, r)
      match rest with
      | d :: _ =>
        if (digitOf? 10 d).isNone then none
        else
          let (e, _, rest) := exponentDigits 0 false rest
          some (some (if neg then -(e : Int) else e), rest)
      | [] => none
    else some (none, cs)
  | [] => some (none, [])

def ofParts (negative : Bool) (num den : Nat) : Reading :=
  match ofRatio? negative num den with
  | some x => .number x
  | none => .overflow negative

/-- `value * 10 ^ exponent`; exponents far outside the range decide without arithmetic -/
def ofDecimal (negative : Bool) (value : Nat) (exponent : Int) : Reading :=
  if value = 0 then .number (signed negative 0.0)
  else
    let size : Int := (value.log2 : Int) * 30103 / 100000 + exponent
    if size > 320 then .overflow negative
    else if size < -400 then .number (signed negative 0.0)
    else let (n, d) := scale 10 value 1 exponent; ofParts negative n d

def ofHexadecimal (negative : Bool) (value : Nat) (exponent : Int) : Reading :=
  if value = 0 then .number (signed negative 0.0)
  else
    let size : Int := (value.log2 : Int) + exponent
    if size > 1100 then .overflow negative
    else if size < -1200 then .number (signed negative 0.0)
    else let (n, d) := scale 2 value 1 exponent; ofParts negative n d

def lowered (cs : List Char) : String := String.ofList (cs.map Char.toLower)

def readSpecial (negative signedText : Bool) (cs : List Char) : Reading :=
  let t := lowered cs
  if t = "inf" ∨ t = "infinity" then .number (signed negative infinity)
  else if t = "nan" ∧ ¬ signedText then .number nan
  else .malformed

/-- a number without its sign -/
def readUnsigned (negative signedText : Bool) (cs : List Char) : Reading :=
  match cs with
  | '0' :: x :: rest =>
    if x.toLower = 'x' ∧ ¬ rest.isEmpty then
      let (m, after) := Mantissa.scan 16 {} rest
      if m.digits = 0 then .malformed
      else match exponentPart 'p' after with
        | some (some e, []) =>
          if cs.contains '_' && !underscoresOk 16 '0' rest then .malformed
          else ofHexadecimal negative m.value (e - 4 * m.places)
        | _ => .malformed
    else decimal
  | _ => decimal
where
  decimal : Reading :=
    let (m, after) := Mantissa.scan 10 {} cs
    if m.digits = 0 then readSpecial negative signedText cs
    else match exponentPart 'e' after with
      | some (e, []) =>
        if cs.contains '_' && !underscoresOk 10 '^' cs then .malformed
        else ofDecimal negative m.value (e.getD 0 - m.places)
      | _ => .malformed

def read (s : String) : Reading :=
  match s.toList with
  | '+' :: cs => readUnsigned false true cs
  | '-' :: cs => readUnsigned true true cs
  | cs => readUnsigned false false cs

/-- the number, when the text is one within the range -/
def parse? (s : String) : Option Float :=
  match read s with
  | .number x => some x
  | _ => none

end Schemata.Number
