import Schemata.Dict
import Schemata.Failure
import Schemata.FileTree
import Schemata.Uri

/-!
Where documents behind addresses come from.

A fetcher gives the text of a document or a failure that names the address; no failure is worth a second try.
Fetchers are put together from sources by the scheme of the address, and a cache remembers what succeeded.

A document may be fetched over a transport that answers requests. An answer may send the request elsewhere, at most
ten times. Only an answer of success counts, and only up to a limit of bytes.
-/

namespace Schemata

/-- the document behind an address -/
abbrev Fetcher := String → Outcome String

namespace Fetch

/-- a failed fetch -/
def failed {α : Type} (uri : String) (cause : Failure) : Outcome α :=
  failWith (.causedFault .fetch { detail := uri } cause)

/-- documents kept in memory -/
def ofMap (docs : Dict String) : Fetcher := fun uri =>
  match docs.get? uri with
  | some t => .ok t
  | none => failed uri (.plain "not found")

/-- what stands before `://`; nothing when that is missing or stands first -/
def schemeOf (uri : String) : String :=
  let (before, _, found) := Text.cut uri "://"
  if found then before else ""

/-- a source for each scheme -/
def bySchemes (sources : Dict Fetcher) : Fetcher := fun uri =>
  let scheme := schemeOf uri
  match sources.get? scheme with
  | some fetch => fetch uri
  | none => failed uri (.plain ("no fetcher for scheme " ++ Text.quote scheme))

/-- documents in files; relative paths start at a root -/
def ofFiles (t : FileTree) (root : String) : Fetcher := fun uri =>
  let p := Text.trimPrefix uri "file://"
  match t.read (if Path.isAbsolute p then p else Path.join [root, p]) with
  | .ok text => .ok text
  | .error e => failed uri e.failure

/-- files for addresses without a scheme, a remote source for the others that are known -/
def standard (remote : Fetcher) (t : FileTree) (root : String) : Fetcher :=
  bySchemes [("", ofFiles t root), ("file", ofFiles t root), ("http", remote), ("https", remote)]

/-- documents fetched so far -/
abbrev Cache := Dict String

/-- a fetch that remembers successes -/
def cached (next : Fetcher) (c : Cache) (uri : String) : Outcome String × Cache :=
  match c.get? uri with
  | some t => (.ok t, c)
  | none =>
    match next uri with
    | .ok t => (.ok t, c.insert uri t)
    | .error e => (.error e, c)

end Fetch

end Schemata

/-! ## Transports -/

namespace Schemata.Fetch

/-- an answer to a request -/
structure Answer where
  status : Int
  body : String
  /-- where to ask instead; empty for nowhere -/
  location : String := ""
  deriving Repr, DecidableEq

/-- answers a request for an address, given what the request accepts; the other outcome says why there is no answer -/
abbrev Transport := (address accept : String) → Except String Answer

/-- what requests accept -/
def accepted : String := "application/schema+json, application/json, application/yaml;q=0.9, */*;q=0.5"

/-- the greatest number of bytes, if nothing else is said -/
def standardLimit : Nat := 16777216

/-- does an answer with this status send the request elsewhere? -/
def redirects (status : Int) : Bool := [301, 302, 303, 307, 308].contains status

/-- an address without an empty port -/
def dropEmptyPort (u : Uri) : Uri :=
  let host := match Uri.cutLast ':' u.host with
    | some (before, ":") => before
    | _ => u.host
  { u with host }

/-- the text of an address that may be shown: its password is hidden -/
def shown (u : Uri) : String :=
  match u.user with
  | some user =>
    let (name, _, secret) := Text.cut user ":"
    if secret then Uri.text { u with user := some (name ++ ":***") } else u.text
  | none => u.text

def getFailure (address cause : String) : Failure := .plain ("Get " ++ Text.quote address ++ ": " ++ cause)

/-- asks for an address, with so many redirections left -/
def request (transport : Transport) : (left : Nat) → Uri → Except Failure Answer
  | left, u =>
    match transport u.text accepted with
    | .error cause => .error (getFailure (shown u) cause)
    | .ok a =>
      if redirects a.status && a.location ≠ "" then
        match Uri.parse a.location, left with
        | .error e, _ =>
          .error (getFailure (shown u) ("failed to parse Location header " ++ Text.quote a.location ++ ": " ++ e.message))
        | .ok _, 0 => .error (getFailure a.location "stopped after 10 redirects")
        | .ok next, left + 1 => request transport left (u.resolve next)
      else .ok a

/-- the document behind an address; a limit of zero or less stands for the usual one -/
def ofTransport (transport : Transport) (limit : Int) : Fetcher := fun uri =>
  match Uri.parse uri with
  | .error e => failed uri (.plain e.message)
  | .ok u =>
    match request transport 9 (dropEmptyPort u) with
    | .error f => failed uri f
    | .ok a =>
      let limit : Nat := if limit ≤ 0 then standardLimit else limit.toNat
      if a.status < 200 || a.status > 299 then failed uri (.plain ("status " ++ toString a.status))
      else if Text.byteLength a.body > limit then
        failed uri (.plain ("document exceeds " ++ toString limit ++ " bytes"))
      else .ok a.body

/-- a source without any connection -/
def offline : Fetcher := ofTransport (fun _ _ => .error "no route") 0

end Schemata.Fetch
