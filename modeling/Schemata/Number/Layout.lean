import Schemata.Number.Binary

/-!
Numbers as text: the fewest decimal digits that read back, and how they are laid out.

A positive dyadic of a format stands for the interval of reals that round to it; the ends belong to it when the
significand is even. `shortest` walks the decimal grids from one digit upward and takes the first grid that has a
point in the interval: of two neighbours the nearer, and on an exact tie the even one.

A `Layout` says which decimal exponents are written positionally; all others take the exponent form `d.ddde±XX` with
at least two exponent digits. `wire` is the notation of data documents, `general` that of messages and of generated
constants.
-/

namespace Schemata.Number

/-- the value `coefficient * 10 ^ exponent` -/
structure Decimal where
  coefficient : Nat
  exponent : Int
  deriving Repr, DecidableEq

/-- the reals that round to a dyadic, as multiples of a quarter of its last place -/
structure Interval where
  lower : Nat
  value : Nat
  upper : Nat
  closed : Bool
  exponent : Int
  deriving Repr

def BinaryFormat.interval (f : BinaryFormat) (d : Dyadic) : Interval where
  lower := if d.significand = Nat.pow 2 (f.precision - 1) ∧ d.exponent > f.minExp
    then 4 * d.significand - 1 else 4 * d.significand - 2
  value := 4 * d.significand
  upper := 4 * d.significand + 2
  closed := d.significand % 2 == 0
  exponent := d.exponent - 2

/-- is `c * 10 ^ g` one of the reals of the interval? -/
def Interval.contains (i : Interval) (c : Nat) (g : Int) : Bool :=
  let (cn, cd) := scale 10 c 1 g
  let (un, ud) := scale 2 1 1 i.exponent
  let point := cn * ud
  let unit := un * cd
  if i.closed then i.lower * unit ≤ point && point ≤ i.upper * unit
  else i.lower * unit < point && point < i.upper * unit

/-- the number of digits before the decimal point of `num / den`, counted below zero for leading zeros after it -/
def decimalPoint (num den : Nat) : Int :=
  let guess : Int := (((num.log2 : Int) - (den.log2 : Int)) * 30103).fdiv 100000 - 1
  let below (k : Int) : Bool := let (n, d) := scale 10 num den (-k); n < d
  if below guess then guess
  else if below (guess + 1) then guess + 1
  else if below (guess + 2) then guess + 2
  else guess + 3

/-- trailing zeros move into the exponent -/
def Decimal.trim : Nat → Decimal → Decimal
  | 0, d => d
  | fuel + 1, d =>
    if d.coefficient ≠ 0 ∧ d.coefficient % 10 = 0
    then Decimal.trim fuel ⟨d.coefficient / 10, d.exponent + 1⟩ else d

/-- the point of the grid `10 ^ g` that the interval holds, if there is one -/
def Interval.gridPoint (i : Interval) (g : Int) : Option Nat :=
  let (vn, vd) := let (n, d) := scale 2 i.value 1 i.exponent; scale 10 n d (-g)
  let c := vn / vd
  let down := i.contains c g
  let up := i.contains (c + 1) g
  if down && up then some (roundDiv vn vd)
  else if down then some c
  else if up then some (c + 1)
  else none

/-- tries `n`, `n + 1`, … digits -/
def Interval.search (i : Interval) (point : Int) : Nat → Nat → Decimal
  | 0, _ => ⟨0, 0⟩
  | fuel + 1, n =>
    let g := point - n
    match i.gridPoint g with
    | some c => Decimal.trim 400 ⟨c, g⟩
    | none => i.search point fuel (n + 1)

/-- the fewest digits that the format reads back as `d`; at most 17 are ever needed -/
def shortest (f : BinaryFormat) (d : Dyadic) : Decimal :=
  if d.significand = 0 then ⟨0, 0⟩
  else
    let i := f.interval d
    let (n, den) := d.ratio
    i.search (decimalPoint n den) 18 1

end Schemata.Number

/-! ## Layouts -/

namespace Schemata.Number

/-- the decimal exponents of the leading digit that are written without an exponent part -/
structure Layout where
  lowest : Int
  highest : Int
  deriving Repr, DecidableEq

/-- data documents: positional from `1e-6` up to, and without, `1e21` -/
def Layout.wire : Layout := ⟨-6, 20⟩

/-- messages: positional from `1e-4` up to, and without, `1e6` -/
def Layout.general : Layout := ⟨-4, 5⟩

def zeros (n : Nat) : String := String.ofList (List.replicate n '0')

/-- an exponent with its sign and at least two digits -/
def exponentText (e : Int) : String :=
  let body := toString e.natAbs
  (if e < 0 then "-" else "+") ++ (if body.length < 2 then "0" ++ body else body)

/-- the digits of a decimal, laid out -/
def Layout.digits (n : Layout) (d : Decimal) : String :=
  if d.coefficient = 0 then "0"
  else
    let digits := (toString d.coefficient).toList
    let point : Int := digits.length + d.exponent
    let lead := point - 1
    if n.lowest ≤ lead ∧ lead ≤ n.highest then
      if point ≤ 0 then "0." ++ zeros (-point).toNat ++ String.ofList digits
      else if digits.length ≤ point.toNat then String.ofList digits ++ zeros (point.toNat - digits.length)
      else String.ofList (digits.take point.toNat) ++ "." ++ String.ofList (digits.drop point.toNat)
    else
      let rest := digits.drop 1
      String.ofList (digits.take 1) ++ (if rest.isEmpty then "" else "." ++ String.ofList rest)
        ++ "e" ++ exponentText lead

/-- a number of the format as text; what is not finite has a fixed name -/
def Layout.text (n : Layout) (f : BinaryFormat) (x : Float) : String :=
  match parts x with
  | .nan => "NaN"
  | .infinite negative => if negative then "-Inf" else "+Inf"
  | .finite negative d =>
    let d := if f = double then d else
      let (num, den) := d.ratio
      (f.round num den).getD d
    (if negative then "-" else "") ++ n.digits (shortest f d)

end Schemata.Number
