import Schemata.Format.Time
import Schemata.Format.Address
import Schemata.Pattern.Syntax

/-!
String formats that validators can check, by name.
-/

namespace Schemata

inductive Format where
  | date | dateTime | email | hostname | ipv4 | ipv6 | regex | time | uri | uuid
  deriving Repr, DecidableEq

namespace Format

/-- in the order of their names -/
def all : List Format := [date, dateTime, email, hostname, ipv4, ipv6, regex, time, uri, uuid]

def name : Format → String
  | date => "date"
  | dateTime => "date-time"
  | email => "email"
  | hostname => "hostname"
  | ipv4 => "ipv4"
  | ipv6 => "ipv6"
  | regex => "regex"
  | time => "time"
  | uri => "uri"
  | uuid => "uuid"

/-- the name of the check in generated source -/
def functionName : Format → String
  | date => "Date"
  | dateTime => "DateTime"
  | email => "Email"
  | hostname => "Hostname"
  | ipv4 => "IPv4"
  | ipv6 => "IPv6"
  | regex => "Regex"
  | time => "Time"
  | uri => "URI"
  | uuid => "UUID"

def ofName? (s : String) : Option Format := all.find? (·.name == s)

/-- is the text in the format? -/
def holds : Format → String → Bool
  | date, s => isDate s
  | dateTime, s => isDateTime s
  | email, s => isEmail s
  | hostname, s => isHostname s
  | ipv4, s => isIPv4 s
  | ipv6, s => isIPv6 s
  | regex, s => (Pattern.parse s).toOption.isSome
  | time, s => isTime s
  | uri, s => isUri s
  | uuid, s => isUuid s

end Format

end Schemata
