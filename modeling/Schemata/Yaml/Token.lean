import Schemata.Yaml.Scalar

/-!
Tokens of YAML text.

A scanner holds what is left of the text, the tokens found and not yet taken, and for each open flow collection the
place that may turn out to be a key. Indentation opens and closes blocks by tokens of their own. A token may be
taken once it is certain that no key indicator has to be put before it; the scanner looks two tokens further than
that.
-/

namespace Schemata.Yaml

inductive TokenKind where
  | streamStart | streamEnd
  | version (major minor : Nat)
  | tagDirective (handle lead : String)
  | documentStart | documentEnd
  | blockSequenceStart | blockMappingStart | blockEnd
  | flowSequenceStart | flowSequenceEnd | flowMappingStart | flowMappingEnd
  | blockEntry | flowEntry | key | value
  | reference (name : String)
  | anchor (name : String)
  | tag (handle suffix : String)
  | scalar (style : Style) (text : String)
  deriving Repr, DecidableEq

structure Token where
  kind : TokenKind
  start : Mark
  stop : Mark
  deriving Repr

/-- a place that may turn out to be a key without an indicator of its own -/
structure KeyPlace where
  possible : Bool := false
  required : Bool := false
  /-- the number of the token that the key starts with -/
  number : Nat := 0
  mark : Mark := {}

structure Scanner where
  cursor : Cursor
  queue : List Token := []
  /-- how many tokens were taken -/
  taken : Nat := 0
  /-- the innermost flow collection first, the block level last -/
  places : List KeyPlace := [{}]
  indent : Int := -1
  indents : List Int := []
  keyAllowed : Bool := true
  started : Bool := false

/-- the deepest nesting that is read -/
def maxDepth : Nat := 10000

abbrev Scan (α : Type) := StateT Scanner (Except ReadError) α

namespace Scanner

def flowLevel (s : Scanner) : Nat := s.places.length - 1

def inFlow (s : Scanner) : Bool := s.flowLevel > 0

def place (s : Scanner) : KeyPlace := s.places.headD {}

def setPlace (s : Scanner) (k : KeyPlace) : Scanner := { s with places := k :: s.places.tail }

def emit (s : Scanner) (kind : TokenKind) (start : Mark) : Scanner :=
  { s with queue := s.queue ++ [⟨kind, start, s.cursor.mark⟩] }

end Scanner

def failAt {α : Type} (context : Mark) (problem : String) : Scan α := do (← get).cursor.fail context problem

def move (f : Cursor → Cursor) : Scan Unit := modify fun s => { s with cursor := f s.cursor }

def setKeyAllowed (b : Bool) : Scan Unit := modify fun s => { s with keyAllowed := b }

/-- puts a token at the end of the queue or before the token of a number -/
def insertToken (kind : TokenKind) (mark : Mark) (number : Option Nat) : Scan Unit :=
  modify fun s =>
    let t : Token := ⟨kind, mark, mark⟩
    match number with
    | none => { s with queue := s.queue ++ [t] }
    | some n => { s with queue := s.queue.take (n - s.taken) ++ t :: s.queue.drop (n - s.taken) }

/-! ## Keys without an indicator -/

def missingColon : String := "could not find expected ':'"

/-- may the place still be a key? It ends with its line and after 1024 characters. -/
def stillKey (s : Scanner) (k : KeyPlace) : Read Bool :=
  if !k.possible then .ok false
  else if k.mark.line < s.cursor.mark.line || k.mark.index + 1024 < s.cursor.mark.index then
    if k.required then s.cursor.fail k.mark missingColon else .ok false
  else .ok true

/-- gives up the place of the innermost level -/
def dropKey : Scan Unit := do
  let s ← get
  if s.place.possible then
    if s.place.required then failAt s.place.mark missingColon
    set (s.setPlace { s.place with possible := false })

/-- notes this place as a possible key -/
def saveKey : Scan Unit := do
  let s ← get
  if s.keyAllowed then
    let k : KeyPlace :=
      { possible := true, required := !s.inFlow && s.indent == s.cursor.mark.column,
        number := s.taken + s.queue.length, mark := s.cursor.mark }
    dropKey
    modify (·.setPlace k)

/-! ## Indentation -/

/-- opens a block when the column lies deeper -/
def roll (column : Nat) (number : Option Nat) (kind : TokenKind) (mark : Mark) : Scan Unit := do
  let s ← get
  if !s.inFlow && s.indent < column then
    set { s with indents := s.indent :: s.indents, indent := (column : Int) }
    if s.indents.length + 1 > maxDepth then failAt s.place.mark "exceeded max depth of 10000"
    insertToken kind mark number

/-- closes the blocks that lie deeper than the column -/
def unroll (column : Int) (mark : Mark) : Scan Unit :=
  modify fun s =>
    if s.inFlow then s
    else
      let levels := s.indent :: s.indents
      let closed := levels.takeWhile (· > column)
      let open_ := levels.dropWhile (· > column)
      { s with
        queue := s.queue ++ closed.map fun _ => ⟨.blockEnd, mark, mark⟩
        indent := open_.headD (-1)
        indents := open_.tail }

/-! ## White space and comments -/

/-- over a comment and those that follow it with nothing but white space between -/
def skipComments : Nat → Cursor → Cursor
  | 0, c => c
  | fuel + 1, c =>
    let stop := c.skipRest
    let next := stop.skipGap
    if next.at? '#' then skipComments fuel next else stop

/-- over white space and comments; a new line allows a key again. Tabs count as white space where no key may start. -/
def toToken : Nat → Scan Unit
  | 0 => pure ()
  | fuel + 1 => do
    let s ← get
    let c := if s.cursor.mark.column == 0 && s.cursor.at? '\ufeff' then s.cursor.skip else s.cursor
    let c := c.skipWhile fun ch => ch == ' ' || ((s.inFlow || !s.keyAllowed) && ch == '\t')
    let c := if c.at? '#' then skipComments c.rest.length c else c
    if c.breakHere then
      set { s with cursor := c.skipLine, keyAllowed := s.keyAllowed || !s.inFlow }
      toToken fuel
    else set { s with cursor := c }

/-- over a comment behind a token -/
def lineComment : Scan Unit :=
  move fun c =>
    let next := c.skipWhile isBlank
    if next.at? '#' then next.skipRest else c

/-! ## Single tokens -/

/-- a token of some characters -/
def indicator (kind : TokenKind) (length : Nat) : Scan Unit := do
  let start := (← get).cursor.mark
  move (Nat.repeat Cursor.skip length)
  modify (·.emit kind start)

/-- takes characters while a test holds -/
def takeChars (p : Char → Bool) : Scan String := do
  let s ← get
  let cs := s.cursor.rest.takeWhile p
  move (·.skipWhile p)
  return String.ofList cs

def streamEnd : Scan Unit := do
  move fun c =>
    if c.mark.column = 0 then c else { c with mark := { c.mark with column := 0, line := c.mark.line + 1 } }
  unroll (-1) (← get).cursor.mark
  dropKey
  setKeyAllowed false
  indicator .streamEnd 0

def documentIndicator (kind : TokenKind) : Scan Unit := do
  unroll (-1) (← get).cursor.mark
  dropKey
  setKeyAllowed false
  indicator kind 3

def flowStart (kind : TokenKind) : Scan Unit := do
  saveKey
  modify fun s => { s with places := {} :: s.places }
  if (← get).flowLevel > maxDepth then failAt {} "exceeded max depth of 10000"
  setKeyAllowed true
  indicator kind 1

def flowEnd (kind : TokenKind) : Scan Unit := do
  dropKey
  modify fun s => if s.inFlow then { s with places := s.places.tail } else s
  setKeyAllowed false
  indicator kind 1

def flowEntry : Scan Unit := do
  dropKey
  setKeyAllowed true
  indicator .flowEntry 1

def blockEntry : Scan Unit := do
  let s ← get
  if !s.inFlow then
    if !s.keyAllowed then failAt s.cursor.mark "block sequence entries are not allowed in this context"
    roll s.cursor.mark.column none .blockSequenceStart s.cursor.mark
  dropKey
  setKeyAllowed true
  indicator .blockEntry 1

def keyIndicator : Scan Unit := do
  let s ← get
  if !s.inFlow then
    if !s.keyAllowed then failAt s.cursor.mark "mapping keys are not allowed in this context"
    roll s.cursor.mark.column none .blockMappingStart s.cursor.mark
  dropKey
  setKeyAllowed (!s.inFlow)
  indicator .key 1

def valueIndicator : Scan Unit := do
  let s ← get
  if ← stillKey s s.place then
    let k := s.place
    insertToken .key k.mark (some k.number)
    roll k.mark.column (some k.number) .blockMappingStart k.mark
    modify (·.setPlace { k with possible := false })
    setKeyAllowed false
  else
    modify (·.setPlace { s.place with possible := false })
    if !s.inFlow then
      if !s.keyAllowed then failAt s.cursor.mark "mapping values are not allowed in this context"
      roll s.cursor.mark.column none .blockMappingStart s.cursor.mark
    setKeyAllowed (!s.inFlow)
  indicator .value 1

/-- may this character follow a name? -/
def endsName : Option Char → Bool
  | none => true
  | some c => isBlank c || isBreak c || c == '?' || c == ':' || c == ',' || c == ']' || c == '}' || c == '%' || c == '@' || c == '\x60'

/-- a name behind `*` or `&` -/
def nameToken (make : String → TokenKind) : Scan Unit := do
  saveKey
  setKeyAllowed false
  let start := (← get).cursor.mark
  move Cursor.skip
  let name ← takeChars isWord
  if name.isEmpty || !endsName (← get).cursor.peek? then
    failAt start "did not find expected alphabetic or numeric character"
  modify (·.emit (make name) start)

/-! ## Tags and directives -/

/-- `!`, `!!` or `!word!`; what stands before a suffix, and in a directive the whole of it -/
def tagHandle (directive : Bool) (start : Mark) : Scan String := do
  if !(← get).cursor.at? '!' then failAt start "did not find expected '!'"
  move Cursor.skip
  let word ← takeChars isWord
  if (← get).cursor.at? '!' then
    move Cursor.skip
    return "!" ++ word ++ "!"
  if directive && !word.isEmpty then failAt start "did not find expected '!'"
  return "!" ++ word

def isUriChar (c : Char) : Bool :=
  isWord c || [';', '/', '?', ':', '@', '&', '=', '+', '$', ',', '.', '!', '~', '*', '\'', '(', ')', '[', ']', '%'].contains c

/-- how many octets a character takes that starts with this one -/
def octetWidth (b : Nat) : Nat :=
  if b < 0x80 then 1 else if 0xC0 ≤ b && b < 0xE0 then 2 else if 0xE0 ≤ b && b < 0xF0 then 3
  else if 0xF0 ≤ b && b < 0xF8 then 4 else 0

/-- one octet written as `%` and two digits -/
def uriOctet (start : Mark) : Scan Nat := do
  match (← get).cursor.rest with
  | '%' :: a :: b :: _ =>
    if isHexDigit a && isHexDigit b then
      move (Nat.repeat Cursor.skip 3)
      return hexDigit a * 16 + hexDigit b
    failAt start "did not find URI escaped octet"
  | _ => failAt start "did not find URI escaped octet"

/-- the octets of one escaped character -/
def uriEscape (start : Mark) : Scan (List Nat) := do
  let first ← uriOctet start
  if octetWidth first = 0 then failAt start "found an incorrect leading UTF-8 octet"
  let rest ← (List.range (octetWidth first - 1)).mapM fun _ => do
    let b ← uriOctet start
    if b / 64 ≠ 2 then failAt start "found an incorrect trailing UTF-8 octet"
    return b
  return first :: rest

/-- the text of octets, empty when they are none -/
def ofOctets (bytes : List Nat) : String :=
  (String.fromUTF8? ⟨(bytes.map Nat.toUInt8).toArray⟩).getD ""

/-- the characters of an address -/
def uriLoop (start : Mark) : Nat → String → Scan String
  | 0, acc => return acc
  | fuel + 1, acc => do
    match (← get).cursor.peek? with
    | some c =>
      if c == '%' then
        let bytes ← uriEscape start
        uriLoop start fuel (acc ++ ofOctets bytes)
      else if isUriChar c then
        move Cursor.skip
        uriLoop start fuel (acc.push c)
      else return acc
    | none => return acc

/-- an address; what was read of it before, if anything, is its head and loses its first character -/
def tagUri (head : String) (start : Mark) : Scan String := do
  let before := (← get).cursor.mark.index
  let text ← uriLoop start ((← get).cursor.rest.length + 1) (String.ofList (head.toList.drop 1))
  if head.isEmpty && (← get).cursor.mark.index == before then failAt start "did not find expected tag URI"
  return text

def tagToken : Scan Unit := do
  saveKey
  setKeyAllowed false
  let start := (← get).cursor.mark
  let (handle, suffix) ← do
    if (← get).cursor.ahead? 1 == some '<' then
      move (Nat.repeat Cursor.skip 2)
      let uri ← tagUri "" start
      if !(← get).cursor.at? '>' then failAt start "did not find the expected '>'"
      move Cursor.skip
      pure ("", uri)
    else
      let handle ← tagHandle false start
      if handle.length > 1 && Text.endsWith handle "!" then
        pure (handle, ← tagUri "" start)
      else
        let suffix ← tagUri handle start
        pure (if suffix.isEmpty then ("", "!") else ("!", suffix))
  if !(← get).cursor.gapAhead 0 then failAt start "did not find expected whitespace or line break"
  modify (·.emit (.tag handle suffix) start)

/-- a number of at most two digits -/
def versionNumber (start : Mark) : Scan Nat := do
  let c := (← get).cursor
  let ds := c.rest.takeWhile Char.isDigit
  if ds.isEmpty then failAt start "did not find expected version number"
  if ds.length > 2 then
    move (Nat.repeat Cursor.skip 2)
    failAt start "found extremely long version number"
  move (·.skipWhile Char.isDigit)
  return ds.foldl (fun n d => n * 10 + (d.toNat - 48)) 0

def directiveValue (name : String) (start : Mark) : Scan TokenKind := do
  if name = "YAML" then
    move (·.skipWhile isBlank)
    let major ← versionNumber start
    if !(← get).cursor.at? '.' then failAt start "did not find expected digit or '.' character"
    move Cursor.skip
    return .version major (← versionNumber start)
  if name = "TAG" then
    move (·.skipWhile isBlank)
    let handle ← tagHandle true start
    if !(← get).cursor.blankHere then failAt start "did not find expected whitespace"
    move (·.skipWhile isBlank)
    let lead ← tagUri "" start
    if !(← get).cursor.gapAhead 0 then failAt start "did not find expected whitespace or line break"
    return .tagDirective handle lead
  failAt start "found unknown directive name"

def directive : Scan Unit := do
  unroll (-1) (← get).cursor.mark
  dropKey
  setKeyAllowed false
  let start := (← get).cursor.mark
  move Cursor.skip
  let name ← takeChars isWord
  if name.isEmpty then failAt start "could not find expected directive name"
  if !(← get).cursor.gapAhead 0 then failAt start "found unexpected non-alphabetical character"
  let kind ← directiveValue name start
  modify (·.emit kind start)
  lineComment
  move (·.skipWhile isBlank)
  let c := (← get).cursor
  if !(c.breakHere || c.endHere) then failAt start "did not find expected comment or line break"
  move Cursor.skipLine

/-! ## Scalars -/

def blockScalarToken (literal : Bool) : Scan Unit := do
  dropKey
  setKeyAllowed true
  let s ← get
  let (text, c) ← blockScalar literal s.indent s.cursor
  set { s with cursor := c }
  modify (·.emit (.scalar (if literal then .literal else .folded) text) s.cursor.mark)

def quotedToken (single : Bool) : Scan Unit := do
  saveKey
  setKeyAllowed false
  let s ← get
  let (text, c) ← quotedScalar single s.cursor
  set { s with cursor := c }
  modify (·.emit (.scalar (if single then .singleQuoted else .doubleQuoted) text) s.cursor.mark)
  lineComment

def plainToken : Scan Unit := do
  saveKey
  setKeyAllowed false
  let s ← get
  let (text, stop, c, broken) ← plainScalar s.inFlow s.indent s.cursor
  let token : Token := { kind := .scalar .plain text, start := s.cursor.mark, stop }
  set { s with cursor := c, keyAllowed := broken, queue := s.queue ++ [token] }
  if !broken then lineComment

/-! ## The next token -/

/-- characters with which no plain scalar starts, unless one of them is followed by text -/
def isIndicator (c : Char) : Bool :=
  ['-', '?', ':', ',', '[', ']', '{', '}', '#', '&', '*', '!', '|', '>', '\'', '"', '%', '@', '\x60'].contains c

/-- may a plain scalar start here? -/
def startsPlain (inFlow : Bool) (c : Cursor) : Bool :=
  match c.peek? with
  | none => false
  | some ch =>
    !(isBlank ch || isBreak ch || isIndicator ch)
      || (ch == '-' && !(c.ahead? 1).any isBlank)
      || (!inFlow && (ch == '?' || ch == ':') && !c.gapAhead 1)

/-- reads one token from here on -/
def tokenHere : Scan Unit := do
  let s ← get
  let c := s.cursor
  let flow := s.inFlow
  match c.peek? with
  | none => streamEnd
  | some ch =>
    if c.mark.column == 0 && ch == '%' then directive
    else if c.documentMarker '-' then documentIndicator .documentStart
    else if c.documentMarker '.' then documentIndicator .documentEnd
    else if ch == '[' then flowStart .flowSequenceStart; lineComment
    else if ch == '{' then flowStart .flowMappingStart; lineComment
    else if ch == ']' then flowEnd .flowSequenceEnd; lineComment
    else if ch == '}' then flowEnd .flowMappingEnd; lineComment
    else if ch == ',' then flowEntry; lineComment
    else if ch == '-' && c.gapAhead 1 then blockEntry
    else if ch == '?' && (flow || c.gapAhead 1) then keyIndicator; lineComment
    else if ch == ':' && (flow || c.gapAhead 1) then valueIndicator; lineComment
    else if ch == '*' then nameToken .reference; lineComment
    else if ch == '&' then nameToken .anchor; lineComment
    else if ch == '!' then tagToken; lineComment
    else if ch == '|' && !flow then blockScalarToken true
    else if ch == '>' && !flow then blockScalarToken false
    else if ch == '\'' then quotedToken true
    else if ch == '"' then quotedToken false
    else if startsPlain flow c then plainToken
    else failAt c.mark "found character that cannot start any token"

/-- adds one token, and those that indentation brings with it, to the queue -/
def fetch : Scan Unit := do
  let s ← get
  if !s.started then
    set { s with started := true }
    indicator .streamStart 0
  else
    toToken (s.cursor.rest.length + 1)
    unroll (← get).cursor.mark.column s.cursor.mark
    tokenHere

/-- may the first token of the queue still turn out to start a key? -/
def headMayBeKey (s : Scanner) : Read Bool :=
  match s.places.find? fun k => k.possible && k.number == s.taken with
  | some k => stillKey s k
  | none => .ok false

/-- fills the queue until its first token is certain -/
def fill : Nat → Scan Unit
  | 0 => pure ()
  | fuel + 1 => do
    let s ← get
    if s.queue.length > 2 && !(← headMayBeKey s) then pure ()
    else
      fetch
      fill fuel

/-- the next token, left in place -/
def peekToken : Scan Token := do
  fill ((← get).cursor.rest.length + 4)
  let s ← get
  return s.queue.headD { kind := .streamEnd, start := s.cursor.mark, stop := s.cursor.mark }

/-- takes the next token -/
def skipToken : Scan Unit :=
  modify fun s => { s with queue := s.queue.tail, taken := s.taken + 1 }

end Schemata.Yaml
