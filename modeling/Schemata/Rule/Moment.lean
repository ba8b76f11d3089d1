import Schemata.Format.Time
import Schemata.Number.Layout
import Schemata.Text.Quote

/-!
Points in time and lengths of time, as rules compute with them.

A `Moment` counts seconds from the start of 1970 in universal time and remembers the offset it was written in; two
moments are the same when they are the same point in time, whatever their offsets. A length of time is a whole
number of billionths of a second. Days and dates are exchanged by counting from the first of March, so that a leap
day ends its year.
-/

namespace Schemata.Rule

structure Moment where
  seconds : Int
  nanos : Nat
  /-- seconds east of universal time -/
  offset : Int
  deriving Repr, DecidableEq, Inhabited

namespace Moment

/-- the first and the last second of the years 1 to 9999 -/
def earliest : Int := -62135596800

def latest : Int := 253402300799

/-- days from the first of January 1970 to a date -/
def daysTo (year month day : Int) : Int :=
  let y := if month ≤ 2 then year - 1 else year
  let era := y / 400
  let yearOfEra := y % 400
  let dayOfYear := (153 * ((month + 9) % 12) + 2) / 5 + day - 1
  era * 146097 + yearOfEra * 365 + yearOfEra / 4 - yearOfEra / 100 + dayOfYear - 719468

/-- the date so many days after the first of January 1970: year, month and day -/
def dateAt (days : Int) : Int × Int × Int :=
  let z := days + 719468
  let era := z / 146097
  let dayOfEra := z % 146097
  let yearOfEra := (dayOfEra - dayOfEra / 1460 + dayOfEra / 36524 - dayOfEra / 146096) / 365
  let dayOfYear := dayOfEra - (365 * yearOfEra + yearOfEra / 4 - yearOfEra / 100)
  let shifted := (5 * dayOfYear + 2) / 153
  let day := dayOfYear - (153 * shifted + 2) / 5 + 1
  let month := if shifted < 10 then shifted + 3 else shifted - 9
  let year := yearOfEra + era * 400
  (if month ≤ 2 then year + 1 else year, month, day)

/-- the moment of a date and a time of day -/
def ofParts (d : Format.Date) (c : Format.Clock) : Moment :=
  ⟨daysTo d.year d.month d.day * 86400 + c.hour * 3600 + c.minute * 60 + c.second - c.offset, c.nanos, c.offset⟩

def parse? (s : String) : Option Moment := (Format.dateTime? s).map fun (d, c) => ofParts d c

def inRange (m : Moment) : Bool := earliest ≤ m.seconds && m.seconds ≤ latest

/-- all billionths of a second since the start of 1970 -/
def total (m : Moment) : Int := m.seconds * 1000000000 + m.nanos

/-- the moment at a total, in an offset -/
def ofTotal (total offset : Int) : Moment := ⟨total / 1000000000, (total % 1000000000).toNat, offset⟩

def sameInstant (x y : Moment) : Bool := x.seconds == y.seconds && x.nanos == y.nanos

/-! ## Parts -/

/-- seconds that a clock at the moment's offset shows -/
def shown (m : Moment) : Int := m.seconds + m.offset

def days (m : Moment) : Int := m.shown / 86400

def date (m : Moment) : Int × Int × Int := dateAt m.days

def year (m : Moment) : Int := m.date.1

def month (m : Moment) : Int := m.date.2.1

def day (m : Moment) : Int := m.date.2.2

def dayOfYear (m : Moment) : Int := m.days - daysTo m.year 1 1 + 1

/-- the day of the week, Sunday first -/
def weekday (m : Moment) : Int := (m.days + 4) % 7

def hour (m : Moment) : Int := m.shown % 86400 / 3600

def minute (m : Moment) : Int := m.shown % 3600 / 60

def second (m : Moment) : Int := m.shown % 60

/-- a part by the name of the function that asks for it; months and days count from zero there, except the date -/
def part? (m : Moment) : String → Option Int
  | "getFullYear" => some m.year
  | "getMonth" => some (m.month - 1)
  | "getDayOfYear" => some (m.dayOfYear - 1)
  | "getDayOfMonth" => some (m.day - 1)
  | "getDate" => some m.day
  | "getDayOfWeek" => some m.weekday
  | "getHours" => some m.hour
  | "getMinutes" => some m.minute
  | "getSeconds" => some m.second
  | "getMilliseconds" => some (m.nanos / 1000000 : Nat)
  | _ => none

/-! ## Text -/

def padded (width : Nat) (n : Int) : String :=
  let body := toString n.natAbs
  (if n < 0 then "-" else "") ++ Number.zeros (width - body.length) ++ body

/-- the digits of a fraction of nine places behind a point, without the zeros at its end -/
def fractionText (nanos : Nat) : String :=
  if nanos = 0 then "" else "." ++ Text.trimRight (padded 9 nanos) (· == '0')

def clockText (m : Moment) : String :=
  padded 2 m.hour ++ ":" ++ padded 2 m.minute ++ ":" ++ padded 2 m.second ++ fractionText m.nanos

def dateText (m : Moment) : String :=
  padded 4 m.year ++ "-" ++ padded 2 m.month ++ "-" ++ padded 2 m.day

/-- the offset in hours and minutes -/
def offsetText (m : Moment) (separator : String) : String :=
  let minutes := m.offset.natAbs / 60
  (if m.offset < 0 then "-" else "+") ++ padded 2 (minutes / 60 : Nat) ++ separator ++ padded 2 (minutes % 60 : Nat)

/-- the text that reads back as this moment -/
def text (m : Moment) : String :=
  m.dateText ++ "T" ++ m.clockText ++ (if m.offset = 0 then "Z" else m.offsetText ":")

/-- the text of a moment inside a message -/
def display (m : Moment) : String :=
  m.dateText ++ " " ++ m.clockText ++ " " ++ m.offsetText "" ++ " "
    ++ (if m.offset = 0 then "UTC" else m.offsetText "")

/-! ## Zones -/

def wholeNumber (s : String) : Except String Int :=
  let n := match s.toList with
    | '-' :: r => (Text.natOf? (String.ofList r)).map fun n => -(n : Int)
    | '+' :: r => (Text.natOf? (String.ofList r)).map fun n => (n : Int)
    | r => (Text.natOf? (String.ofList r)).map fun n => (n : Int)
  match n with
  | some n =>
    if n.natAbs < Nat.pow 2 63 then .ok n
    else .error ("strconv.Atoi: parsing " ++ Text.quote s ++ ": value out of range")
  | none => .error ("strconv.Atoi: parsing " ++ Text.quote s ++ ": invalid syntax")

/-- the offset of a zone, given by name or as signed hours and minutes; universal time is the one name known here -/
def zoneOffset (zone : String) : Except String Int :=
  let (hours, minutes, found) := Text.cut zone ":"
  if found then do
    let h ← wholeNumber hours
    let m ← wholeNumber minutes
    return (if Text.startsWith zone "-" then h * 60 - m else h * 60 + m) * 60
  else if ["", "UTC", "Local"].contains zone then .ok 0
  else .error ("unknown time zone " ++ zone)

end Moment

/-! ## Lengths of time -/

namespace Span

/-- billionths of a second in a unit -/
def unit? : String → Option Nat
  | "ns" => some 1
  | "us" => some 1000
  | "µs" => some 1000
  | "μs" => some 1000
  | "ms" => some 1000000
  | "s" => some 1000000000
  | "m" => some 60000000000
  | "h" => some 3600000000000
  | _ => none

def isUnitChar (c : Char) : Bool := c != '.' && !c.isDigit

def natOf (digits : List Char) : Nat := digits.foldl (fun n c => n * 10 + (c.toNat - 48)) 0

/-- one number with its unit, in billionths of a second, and the text behind it -/
def term? (cs : List Char) : Option (Nat × List Char) := do
  let whole := cs.takeWhile Char.isDigit
  let rest := cs.dropWhile Char.isDigit
  let (places, rest) := match rest with
    | '.' :: r => (r.takeWhile Char.isDigit, r.dropWhile Char.isDigit)
    | r => ([], r)
  guard (!(whole.isEmpty && places.isEmpty))
  let unit ← unit? (String.ofList (rest.takeWhile isUnitChar))
  return (natOf whole * unit + natOf places * unit / Nat.pow 10 places.length, rest.dropWhile isUnitChar)

/-- the sum of all terms; every term reads at least one character -/
def terms? : Nat → Nat → List Char → Option Nat
  | _, acc, [] => some acc
  | 0, _, _ => none
  | fuel + 1, acc, cs =>
    match term? cs with
    | some (n, rest) => terms? fuel (acc + n) rest
    | none => none

def isInt64 (n : Int) : Bool := -(Nat.pow 2 63 : Int) ≤ n && n < (Nat.pow 2 63 : Int)

/-- reads a length of time such as `1h30m` -/
def parse? (s : String) : Option Int :=
  let (negative, cs) := match s.toList with
    | '-' :: r => (true, r)
    | '+' :: r => (false, r)
    | r => (false, r)
  if cs = ['0'] then some 0
  else if cs.isEmpty then none
  else ((terms? cs.length 0 cs).map fun n => if negative then -(n : Int) else (n : Int)).filter isInt64

/-- the text of a length of time: its seconds -/
def text (n : Int) : String :=
  let seconds := Number.ofInt (n.tdiv 1000000000) + Number.ofInt (n.tmod 1000000000) / 1000000000
  Number.Layout.text ⟨-400, 400⟩ Number.double seconds ++ "s"

/-- the text of a length of time inside a message -/
def display (n : Int) : String :=
  let u := n.natAbs
  let scaled (unit : Nat) (width : Nat) (name : String) : String :=
    let places := Text.trimRight (Moment.padded width (u % unit : Nat)) (· == '0')
    toString (u / unit) ++ (if places.isEmpty then "" else "." ++ places) ++ name
  let body :=
    if u = 0 then "0s"
    else if u < 1000 then toString u ++ "ns"
    else if u < 1000000 then scaled 1000 3 "µs"
    else if u < 1000000000 then scaled 1000000 6 "ms"
    else
      let seconds := u / 1000000000
      let hours := seconds / 3600
      (if hours > 0 then toString hours ++ "h" else "")
        ++ (if seconds ≥ 60 then toString (seconds / 60 % 60) ++ "m" else "")
        ++ toString (seconds % 60) ++ Moment.fractionText (u % 1000000000) ++ "s"
  if n < 0 then "-" ++ body else body

/-- a part by the name of the function that asks for it -/
def part? (n : Int) : String → Option Int
  | "getHours" => some (n.tdiv 3600000000000)
  | "getMinutes" => some (n.tdiv 60000000000)
  | "getSeconds" => some (n.tdiv 1000000000)
  | "getMilliseconds" => some (n.tdiv 1000000)
  | _ => none

end Span

end Schemata.Rule
