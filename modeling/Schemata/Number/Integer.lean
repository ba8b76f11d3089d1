import Schemata.Number.Reading

/-!
Reading integers of 64 bits from text, with a sign and a base mark.
-/

namespace Schemata.Number

/-- digits of a base, at least one -/
def naturalOf? (base : Nat) (cs : List Char) : Option Nat :=
  if cs.isEmpty then none
  else cs.foldl (fun acc c => acc.bind fun n => (digitOf? base c).map (n * base + ·)) (some 0)

/-- a natural number whose base the text itself tells: `0x`, `0o`, `0b`, or a leading zero for octal -/
def markedNatural? (cs : List Char) : Option Nat :=
  match cs with
  | ['0'] => some 0
  | '0' :: m :: rest =>
    match m.toLower with
    | 'x' => naturalOf? 16 rest
    | 'o' => naturalOf? 8 rest
    | 'b' => naturalOf? 2 rest
    | _ => naturalOf? 8 (m :: rest)
  | _ => naturalOf? 10 cs

/-- an integer of 64 bits read by a rule for its digits -/
def signed64? (digits : List Char → Option Nat) (cs : List Char) : Option Int :=
  let bounded (negative : Bool) (n : Nat) : Option Int :=
    if negative then (if n ≤ Nat.pow 2 63 then some (-(n : Int)) else none) else (if n < Nat.pow 2 63 then some (n : Int) else none)
  match cs with
  | '+' :: cs => (digits cs).bind (bounded false)
  | '-' :: cs => (digits cs).bind (bounded true)
  | cs => (digits cs).bind (bounded false)

/-- a natural number of 64 bits; it has no sign -/
def unsigned64? (digits : List Char → Option Nat) (cs : List Char) : Option Int :=
  (digits cs).bind fun n => if n < Nat.pow 2 64 then some (n : Int) else none

/-! ## Integers with a base mark and underscores -/

inductive IntegerFault where
  | malformed | range
  deriving Repr, DecidableEq

/-- does every underscore stand between digits, or between a base mark and a digit? -/
def spaced (digit : Char → Bool) (afterDigit : Bool) : List Char → Bool
  | [] => true
  | '_' :: rest => afterDigit && (rest.head?.any digit) && spaced digit false rest
  | c :: rest => spaced digit (digit c) rest

/-- the value of digits, underscores passed over; the first fault from the left counts -/
def digitsValue (base : Nat) (n : Nat) : List Char → Except IntegerFault Nat
  | [] => .ok n
  | '_' :: rest => digitsValue base n rest
  | c :: rest =>
    match digitOf? base c with
    | none => .error .malformed
    | some d => if n * base + d < Nat.pow 2 64 then digitsValue base (n * base + d) rest else .error .range

/-- an integer of 64 bits whose base the text itself tells -/
def readInteger (s : String) : Except IntegerFault Int := do
  let (negative, cs) := match s.toList with
    | '-' :: cs => (true, cs)
    | '+' :: cs => (false, cs)
    | cs => (false, cs)
  let (base, mark, ds) := match cs with
    | '0' :: m :: d :: ds =>
      match m.toLower with
      | 'x' => (16, true, d :: ds)
      | 'o' => (8, true, d :: ds)
      | 'b' => (2, true, d :: ds)
      | _ => (8, true, m :: d :: ds)
    | '0' :: ds => (8, true, ds)
    | ds => (10, false, ds)
  if cs.isEmpty then throw .malformed
  let n ← digitsValue base 0 ds
  if !spaced (fun c => c.isDigit || (base == 16 && (digitOf? 16 c).isSome)) mark ds then throw .malformed
  if negative then if n ≤ Nat.pow 2 63 then return -(n : Int) else throw .range
  else if n < Nat.pow 2 63 then return n else throw .range

end Schemata.Number
