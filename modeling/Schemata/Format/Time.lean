import Schemata.Text.Basic

/-!
Dates and times of day as text, in the profile of internet timestamps.

Numbers have two digits, except that an hour may have one; a fraction of a second may follow a point or a comma; the
zone is `Z` or a signed offset. Readers give what they read and the text behind it, so the formats and the points in
time of rules share them.
-/

namespace Schemata.Format

/-- a number of two digits, or of one where that is allowed -/
def twoDigits (oneIsEnough : Bool) : List Char → Option (Nat × List Char)
  | a :: rest =>
    if a.isDigit then
      match rest with
      | b :: rest' =>
        if b.isDigit then some ((a.toNat - 48) * 10 + (b.toNat - 48), rest')
        else if oneIsEnough then some (a.toNat - 48, rest) else none
      | [] => if oneIsEnough then some (a.toNat - 48, []) else none
    else none
  | [] => none

def fourDigits : List Char → Option (Nat × List Char)
  | a :: b :: c :: d :: rest =>
    if [a, b, c, d].all Char.isDigit then
      some (([a, b, c, d]).foldl (fun n x => n * 10 + (x.toNat - 48)) 0, rest)
    else none
  | _ => none

def sign (c : Char) : List Char → Option (List Char)
  | d :: rest => if c = d then some rest else none
  | [] => none

def isLeap (year : Nat) : Bool := year % 4 == 0 && (year % 100 != 0 || year % 400 == 0)

def daysIn (year month : Nat) : Nat :=
  if month = 2 then (if isLeap year then 29 else 28)
  else if [4, 6, 9, 11].contains month then 30 else 31

/-- a date of the calendar -/
structure Date where
  year : Nat
  month : Nat
  day : Nat
  deriving Repr, DecidableEq

/-- a time of day; `offset` is its distance from universal time in seconds, positive in the east -/
structure Clock where
  hour : Nat
  minute : Nat
  second : Nat
  nanos : Nat
  offset : Int
  deriving Repr, DecidableEq

/-- a calendar date and the text behind it -/
def datePart (cs : List Char) : Option (Date × List Char) := do
  let (year, cs) ← fourDigits cs
  let cs ← sign '-' cs
  let (month, cs) ← twoDigits false cs
  let cs ← sign '-' cs
  let (day, cs) ← twoDigits false cs
  guard (1 ≤ month ∧ month ≤ 12 ∧ 1 ≤ day ∧ day ≤ daysIn year month)
  return (⟨year, month, day⟩, cs)

/-- billionths from the digits behind the point; further digits are cut off -/
def nanosOf (digits : List Char) : Nat :=
  ((digits ++ List.replicate 9 '0').take 9).foldl (fun n c => n * 10 + (c.toNat - 48)) 0

/-- a fraction of a second in billionths, if one stands here -/
def fraction : List Char → Nat × List Char
  | p :: d :: rest =>
    if (p == '.' || p == ',') && d.isDigit then
      (nanosOf (d :: rest.takeWhile Char.isDigit), rest.dropWhile Char.isDigit)
    else (0, p :: d :: rest)
  | cs => (0, cs)

/-- `Z` or a signed offset, in seconds -/
def zone : List Char → Option (Int × List Char)
  | 'Z' :: rest => some (0, rest)
  | s :: cs =>
    if s == '+' || s == '-' then do
      let (hour, cs) ← twoDigits false cs
      let cs ← sign ':' cs
      let (minute, cs) ← twoDigits false cs
      guard (hour ≤ 24 ∧ minute ≤ 60)
      let seconds : Int := (hour * 60 + minute) * 60
      return (if s == '-' then -seconds else seconds, cs)
    else none
  | [] => none

/-- a time of day with its zone, and the text behind it -/
def timePart (cs : List Char) : Option (Clock × List Char) := do
  let (hour, cs) ← twoDigits true cs
  let cs ← sign ':' cs
  let (minute, cs) ← twoDigits false cs
  let cs ← sign ':' cs
  let (second, cs) ← twoDigits false cs
  guard (hour < 24 ∧ minute < 60 ∧ second < 60)
  let (nanos, cs) := fraction cs
  let (offset, cs) ← zone cs
  return (⟨hour, minute, second, nanos, offset⟩, cs)

/-- a whole text that the reader uses up -/
def whole? {α : Type} (reader : List Char → Option (α × List Char)) (s : String) : Option α :=
  match reader s.toList with
  | some (a, []) => some a
  | _ => none

/-- a date and a time of day -/
def dateTime? : String → Option (Date × Clock) :=
  whole? fun cs => do
    let (date, cs) ← datePart cs
    let cs ← sign 'T' cs
    let (clock, cs) ← timePart cs
    return ((date, clock), cs)

def isDate (s : String) : Bool := (whole? datePart s).isSome

def isTime (s : String) : Bool := (whole? timePart s).isSome

def isDateTime (s : String) : Bool := (dateTime? s).isSome

end Schemata.Format
