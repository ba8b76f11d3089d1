import Schemata.Path
import Schemata.Number.Reading
import Schemata.Text.Quote

/-!
Locations of documents: reading, resolving a relative one against a base, and writing.

Percent escapes are checked while reading; the path keeps its escaped form. Resolution follows the usual rules for
relative references, with the dot elements removed.
-/

namespace Schemata

structure Uri where
  scheme : String := ""
  opaquePart : String := ""
  user : Option String := none
  host : String := ""
  /-- no authority was written, although there is a scheme -/
  bare : Bool := false
  escapedPath : String := ""
  query : Option String := none
  fragment : String := ""
  deriving Repr, DecidableEq, Inhabited

namespace Uri

/-- which part of a location a text is -/
inductive Part where
  | path | host | zone | user | fragment
  deriving Repr, DecidableEq

/-- must the character be escaped in this part? -/
def mustEscape (part : Part) (c : Char) : Bool :=
  if c.toNat ≥ 128 then true
  else if c.isAlphanum || "-_.~".toList.contains c then false
  else
    match part with
    | .host => !"!$&'()*+,;=:[]<>\"".toList.contains c
    | .zone => !"!$&'()*+,;=:[]<>\"".toList.contains c
    | .path => !"$&+,/:;=@".toList.contains c
    | .user => !"$&+,;=".toList.contains c
    | .fragment => !"$&+,/:;=?@!()*".toList.contains c

def hexValue (a b : Char) : Option Nat :=
  match Number.digitOf? 16 a, Number.digitOf? 16 b with
  | some x, some y => some (x * 16 + y)
  | _, _ => none

/-- why a text is no location -/
inductive Fault where
  | controlCharacter
  | missingScheme
  | colonInFirstElement
  | escape (text : String)
  | hostCharacter (c : Char)
  | port (text : String)
  | missingBracket
  | user
  deriving Repr, DecidableEq

def Fault.message : Fault → String
  | controlCharacter => "net/url: invalid control character in URL"
  | missingScheme => "missing protocol scheme"
  | colonInFirstElement => "first path segment in URL cannot contain colon"
  | escape text => "invalid URL escape " ++ Text.quote text
  | hostCharacter c => "invalid character " ++ Text.quote c.toString ++ " in host name"
  | port text => "invalid port " ++ Text.quote text ++ " after host"
  | missingBracket => "missing ']' in host"
  | user => "net/url: invalid userinfo"

/-- the first escape that is malformed, or character that is not allowed where escapes cannot help -/
def faultIn? (part : Part) : List Char → Option Fault
  | '%' :: a :: b :: rest =>
    match hexValue a b with
    | none => some (.escape (String.ofList ['%', a, b]))
    | some v =>
      let ok := match part with
        | .host => v ≥ 128 || v == 0x25
        | .zone => v == 0x25 || v == 0x20 || !mustEscape .host (Char.ofNat v)
        | _ => true
      if ok then faultIn? part rest else some (.escape (String.ofList ['%', a, b]))
  | '%' :: rest => some (.escape (String.ofList ('%' :: rest)))
  | c :: rest =>
    if (part == .host || part == .zone) && c.toNat < 128 && mustEscape part c then some (.hostCharacter c)
    else faultIn? part rest
  | [] => none

/-- are all escapes well formed, and all characters allowed where escapes cannot help? -/
def wellEscaped (part : Part) (cs : List Char) : Bool := (faultIn? part cs).isNone

/-- refuses a part with a fault -/
def checkPart (part : Part) (s : String) : Except Fault Unit :=
  match faultIn? part s.toList with
  | some f => .error f
  | none => .ok ()

/-- bytes of a text with its escapes resolved -/
def unescapeBytes : List Char → List UInt8
  | '%' :: a :: b :: rest =>
    match hexValue a b with
    | some v => UInt8.ofNat v :: unescapeBytes rest
    | none => '%'.toString.toUTF8.toList ++ unescapeBytes (a :: b :: rest)
  | c :: rest => c.toString.toUTF8.toList ++ unescapeBytes rest
  | [] => []
termination_by cs => cs.length

/-- the length of a well-formed UTF-8 sequence at the start of the bytes, if one stands there -/
def sequence? (bs : List UInt8) : Option (Char × List UInt8) :=
  let try' (n : Nat) : Option (Char × List UInt8) :=
    if bs.length < n then none
    else (String.fromUTF8? ⟨(bs.take n).toArray⟩).bind fun s =>
      match s.toList with
      | [c] => some (c, bs.drop n)
      | _ => none
  (try' 1).orElse fun _ => (try' 2).orElse fun _ => (try' 3).orElse fun _ => try' 4

/-- text of bytes; a byte that is no part of a character becomes the replacement character -/
def decodeBytes : Nat → List UInt8 → List Char
  | 0, _ => []
  | _, [] => []
  | fuel + 1, b :: bs =>
    match sequence? (b :: bs) with
    | some (c, rest) => c :: decodeBytes fuel rest
    | none => '\uFFFD' :: decodeBytes fuel bs

/-- a text with its escapes resolved; `none` if one is malformed -/
def unescape? (s : String) : Option String :=
  if wellEscaped .path s.toList then
    let bs := unescapeBytes s.toList
    some (String.ofList (decodeBytes bs.length bs))
  else none

def upperHex (n : Nat) : String := String.ofList ((Text.hex n 2).toList.map Char.toUpper)

def escapeChar (part : Part) (c : Char) : String :=
  if mustEscape part c then String.join (c.toString.toUTF8.toList.map fun b => "%" ++ upperHex b.toNat)
  else c.toString

def escape (part : Part) (s : String) : String := String.join (s.toList.map (escapeChar part))

/-- may a path stand as it is written? -/
def pathAsWritten (s : String) : Bool :=
  s.toList.all fun c => "!$&'()*+,;=:@[]%/".toList.contains c || !mustEscape .path c

def canonicalPath (s : String) : String :=
  if pathAsWritten s then s else escape .path ((unescape? s).getD s)

/-- the decoded path -/
def path (u : Uri) : String := (unescape? u.escapedPath).getD u.escapedPath

/-- the scheme and the rest; `none` when a colon stands first -/
def splitScheme (seen : List Char) : List Char → Option (String × List Char)
  | [] => some ("", seen.reverse)
  | c :: rest =>
    if c.isAlpha then splitScheme (c :: seen) rest
    else if c.isDigit || c == '+' || c == '-' || c == '.' then
      if seen.isEmpty then some ("", c :: rest) else splitScheme (c :: seen) rest
    else if c == ':' then
      if seen.isEmpty then none else some (String.ofList seen.reverse, rest)
    else some ("", seen.reverse ++ c :: rest)

/-- an empty port, or a colon with digits -/
def validPort (s : String) : Bool :=
  match s.toList with
  | [] => true
  | ':' :: ds => ds.all Char.isDigit
  | _ => false

/-- text before and from the last occurrence of a character on -/
def cutLast (c : Char) (s : String) : Option (String × String) :=
  let back := s.toList.reverse
  let after := back.takeWhile (· != c)
  if after.length = back.length then none
  else some (String.ofList (back.drop (after.length + 1)).reverse, String.ofList (c :: after.reverse))

def checkPort (s : String) : Except Fault Unit := if validPort s then .ok () else .error (.port s)

def checkHost (host : String) : Except Fault Unit :=
  if Text.startsWith host "[" then
    match cutLast ']' host with
    | none => .error .missingBracket
    | some (inner, tail) => do
      checkPort (Text.trimPrefix tail "]")
      let (a, b, zoned) := Text.cut inner "%25"
      if zoned then
        checkPart .host a
        checkPart .zone ("%25" ++ b)
        checkPart .host tail
      else checkPart .host host
  else do
    match cutLast ':' host with
    | none => pure ()
    | some (_, port) => checkPort port
    checkPart .host host

def checkUser (s : String) : Except Fault Unit :=
  if s.toList.all fun c => c.isAlphanum || "-._:~!$&'()*+,;=%@".toList.contains c then checkPart .user s
  else .error .user

/-- reads a location without its fragment -/
def parseBase (s : String) : Except Fault Uri := do
  if s.toList.any fun c => c.toNat < 32 || c.toNat == 127 then throw .controlCharacter
  match splitScheme [] s.toList with
  | none => throw .missingScheme
  | some (scheme, rest) =>
    let scheme := String.ofList (scheme.toList.map Char.toLower)
    let (rest, q, asked) := Text.cut (String.ofList rest) "?"
    let query := if asked then some q else none
    if !Text.startsWith rest "/" && scheme ≠ "" then return { scheme, opaquePart := rest, query }
    if !Text.startsWith rest "/" && Text.contains (Text.cut rest "/").1 ":" then throw .colonInFirstElement
    let (u, path) ←
      if Text.startsWith rest "//" && (scheme ≠ "" || !Text.startsWith rest "///") then do
        let (authority, tail, more) := Text.cut (Text.trimPrefix rest "//") "/"
        let (user, host) := match cutLast '@' authority with
          | some (user, host) => (some user, Text.trimPrefix host "@")
          | none => (none, authority)
        checkHost host
        match user with
        | some user => checkUser user
        | none => pure ()
        pure (({ scheme, user, host, query } : Uri), if more then "/" ++ tail else "")
      else pure ({ scheme, query, bare := scheme ≠ "" && Text.startsWith rest "/" }, rest)
    checkPart .path path
    return { u with escapedPath := canonicalPath path }

/-- the part of a text that is no location, and why -/
structure ParseError where
  text : String
  fault : Fault
  deriving Repr, DecidableEq

def ParseError.message (e : ParseError) : String := "parse " ++ Text.quote e.text ++ ": " ++ e.fault.message

/-- reads a location -/
def parse (s : String) : Except ParseError Uri :=
  let (body, frag, _) := Text.cut s "#"
  match parseBase body, checkPart .fragment frag with
  | .error f, _ => .error ⟨body, f⟩
  | .ok _, .error f => .error ⟨s, f⟩
  | .ok u, .ok () => .ok { u with fragment := frag }

def parse? (s : String) : Option Uri := (parse s).toOption

def isAbsolute (u : Uri) : Bool := u.scheme ≠ ""

/-- removes dot elements: what is written so far without its leading slash, and whether the next element is the first -/
def removeDots (dst : String) (first : Bool) : List String → String
  | [] => dst
  | e :: rest =>
    if e = "." then
      let dst' := if rest.isEmpty then dst ++ "/" else dst
      removeDots dst' false rest
    else if e = ".." then
      let (dst', first) := match cutLast '/' dst with
        | none => ("", true)
        | some (before, _) => (before, first)
      removeDots (if rest.isEmpty then dst' ++ "/" else dst') first rest
    else removeDots ((if first then dst else dst ++ "/") ++ e) false rest

def resolvePath (base ref : String) : String :=
  let full :=
    if ref = "" then base
    else if Text.startsWith ref "/" then ref
    else
      match cutLast '/' base with
      | some (before, _) => before ++ "/" ++ ref
      | none => ref
  if full = "" then ""
  else
    let r := "/" ++ removeDots "" true (Text.splitOn full "/")
    if Text.startsWith r "//" then Text.trimPrefix r "/" else r

/-- a reference seen from a base -/
def resolve (u ref : Uri) : Uri :=
  let out := { ref with scheme := if ref.scheme = "" then u.scheme else ref.scheme }
  if ref.scheme ≠ "" || ref.host ≠ "" || ref.user.isSome then
    { out with escapedPath := resolvePath ref.escapedPath "" }
  else if ref.opaquePart ≠ "" then { out with user := none, host := "", escapedPath := "" }
  else
    let out :=
      if ref.escapedPath = "" && ref.query.isNone then
        { out with query := u.query, fragment := if ref.fragment = "" then u.fragment else ref.fragment }
      else out
    if ref.escapedPath = "" && u.opaquePart ≠ "" then
      { out with opaquePart := u.opaquePart, user := none, host := "", escapedPath := "" }
    else
      { out with host := u.host, user := u.user, escapedPath := resolvePath u.escapedPath ref.escapedPath }

/-- the text of a location -/
def text (u : Uri) : String :=
  let scheme := if u.scheme = "" then "" else u.scheme ++ ":"
  let body :=
    if u.opaquePart ≠ "" then u.opaquePart
    else
      let authority :=
        if u.scheme ≠ "" || u.host ≠ "" || u.user.isSome then
          if u.bare && u.host = "" && u.user.isNone then ""
          else
            (if u.host ≠ "" || u.escapedPath ≠ "" || u.user.isSome then "//" else "")
              ++ (match u.user with | some x => x ++ "@" | none => "") ++ u.host
        else ""
      let slash := if u.escapedPath ≠ "" && !Text.startsWith u.escapedPath "/" && u.host ≠ "" then "/" else ""
      let dot :=
        if scheme = "" && authority = "" && slash = "" && Text.contains (Text.cut u.escapedPath "/").1 ":" then "./"
        else ""
      authority ++ slash ++ dot ++ u.escapedPath
  scheme ++ body ++ (match u.query with | some q => "?" ++ q | none => "")
    ++ (if u.fragment = "" then "" else "#" ++ u.fragment)

end Uri

end Schemata
