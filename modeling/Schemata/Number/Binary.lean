/-!
Binary floating-point numbers as exact dyadic values.

A `Dyadic` is `significand * 2 ^ exponent`. `BinaryFormat.round` takes a ratio of two naturals to the nearest dyadic
of a format (a tie goes to the even significand) and says `none` when the ratio lies beyond the format's range. Text
readers and narrowing conversions all go through it, so every rounding of the library is this one.
-/

namespace Schemata.Number

/-- a floating-point format: width of the significand, and the exponent of its last place from the least to the greatest -/
structure BinaryFormat where
  precision : Nat
  minExp : Int
  maxExp : Int
  deriving Repr, DecidableEq

/-- 64-bit numbers -/
def double : BinaryFormat := ⟨53, -1074, 971⟩

/-- 32-bit numbers -/
def single : BinaryFormat := ⟨24, -149, 104⟩

/-- the value `significand * 2 ^ exponent` -/
structure Dyadic where
  significand : Nat
  exponent : Int
  deriving Repr, DecidableEq

/-- what the bits of a number say -/
inductive Parts where
  | nan
  | infinite (negative : Bool)
  | finite (negative : Bool) (magnitude : Dyadic)
  deriving Repr, DecidableEq

/-- the quotient rounded to the nearest natural, a half to the even neighbour -/
def roundDiv (num den : Nat) : Nat :=
  let q := num / den
  let r := num % den
  if 2 * r > den || (2 * r == den && q % 2 == 1) then q + 1 else q

/-- `num / den * b ^ e` as a ratio, for any integer power -/
def scale (b : Nat) (num den : Nat) (e : Int) : Nat × Nat :=
  if 0 ≤ e then (num * Nat.pow b e.toNat, den) else (num, den * Nat.pow b (-e).toNat)

/-- the exponent of the last place that the format uses for the ratio -/
def BinaryFormat.lastPlace (f : BinaryFormat) (num den : Nat) : Int :=
  let e : Int := (num.log2 : Int) - (den.log2 : Int)
  let (n, d) := scale 2 num den (-e)
  let q := if n ≥ d then e - f.precision + 1 else e - f.precision
  max q f.minExp

/-- the nearest value of the format, `none` beyond its range -/
def BinaryFormat.round (f : BinaryFormat) (num den : Nat) : Option Dyadic :=
  if num = 0 then some ⟨0, f.minExp⟩
  else
    let q := f.lastPlace num den
    let (n, d) := scale 2 num den (-q)
    let m := roundDiv n d
    let (m, q) := if m = Nat.pow 2 f.precision then (Nat.pow 2 (f.precision - 1), q + 1) else (m, q)
    if q > f.maxExp then none else some ⟨m, q⟩

/-- sign, exponent and significand of a 64-bit number -/
def parts (x : Float) : Parts :=
  let bits := x.toBits.toNat
  let negative := bits ≥ Nat.pow 2 63
  let e : Nat := bits / Nat.pow 2 52 % 2048
  let m : Nat := bits % Nat.pow 2 52
  if e = 2047 then (if m = 0 then .infinite negative else .nan)
  else if e = 0 then .finite negative ⟨m, -1074⟩
  else .finite negative ⟨m + Nat.pow 2 52, (e : Int) - 1075⟩

/-- the 64-bit number of a dyadic of the format `double` -/
def ofDyadic (negative : Bool) (d : Dyadic) : Float :=
  let body :=
    if d.significand < Nat.pow 2 52 then d.significand
    else (d.exponent + 1075).toNat * Nat.pow 2 52 + (d.significand - Nat.pow 2 52)
  Float.ofBits (UInt64.ofNat (if negative then body + Nat.pow 2 63 else body))

/-- positive infinity -/
def infinity : Float := Float.ofBits 0x7FF0000000000000

/-- the number that is not one -/
def nan : Float := Float.ofBits 0x7FF8000000000001

def signed (negative : Bool) (x : Float) : Float := if negative then -x else x

/-- a ratio as a 64-bit number, `none` beyond the range -/
def ofRatio? (negative : Bool) (num den : Nat) : Option Float :=
  (double.round num den).map (ofDyadic negative)

/-- a ratio of naturals that equals the dyadic -/
def Dyadic.ratio (d : Dyadic) : Nat × Nat := scale 2 d.significand 1 d.exponent

/-- an integer as the nearest 64-bit number -/
def ofInt (n : Int) : Float :=
  match ofRatio? (n < 0) n.natAbs 1 with
  | some x => x
  | none => signed (n < 0) infinity

/-- the nearest 32-bit number, kept as a 64-bit one -/
def narrow (x : Float) : Float :=
  match parts x with
  | .finite negative d =>
    let (n, den) := d.ratio
    match single.round n den with
    | some s =>
      let (sn, sd) := s.ratio
      (ofRatio? negative sn sd).getD (signed negative infinity)
    | none => signed negative infinity
  | _ => x

/-- the integer part, toward zero; `none` for what is not finite -/
def truncate? (x : Float) : Option Int :=
  match parts x with
  | .finite negative d =>
    let (n, den) := d.ratio
    some (if negative then -(n / den : Int) else (n / den : Int))
  | _ => none

/-- the integer part as an integer of 64 bits; what does not fit becomes the least of them -/
def toInt64 (x : Float) : Int :=
  match truncate? x with
  | some n => if -(Nat.pow 2 63 : Int) ≤ n && n < (Nat.pow 2 63 : Int) then n else -(Nat.pow 2 63 : Int)
  | none => -(Nat.pow 2 63 : Int)

/-- is the number finite and without a fraction? -/
def isWhole (x : Float) : Bool :=
  match parts x with
  | .finite _ d => let (n, den) := d.ratio; n % den == 0
  | _ => false

/-- is the number an integer of 64 bits? -/
def isInt64 (x : Float) : Bool :=
  isWhole x && (match truncate? x with | some n => -(Nat.pow 2 63 : Int) ≤ n && n < (Nat.pow 2 63 : Int) | none => false)

def isNaN (x : Float) : Bool := match parts x with | .nan => true | _ => false

def isFinite (x : Float) : Bool := match parts x with | .finite _ _ => true | _ => false

end Schemata.Number
