import Schemata.Yaml.Cursor

/-!
Scalars in YAML text: plain, quoted and block style.

Inside a scalar line breaks are folded: a single break becomes a blank, further breaks stay. Block scalars are read
line by line at one indentation.
-/

namespace Schemata.Yaml

inductive Style where
  | plain | singleQuoted | doubleQuoted | literal | folded
  deriving Repr, DecidableEq

/-- blanks and breaks seen since the last text of a scalar -/
structure Gap where
  blanks : List Char := []
  /-- the first break, once there was one -/
  first : Option (List Char) := none
  further : List Char := []
  /-- a break was passed, written or escaped -/
  broken : Bool := false
  deriving Inhabited

namespace Gap

/-- what a gap becomes between two pieces of text -/
def folded (g : Gap) : List Char :=
  if g.broken then
    match g.first with
    | some ['\n'] => if g.further.isEmpty then [' '] else g.further
    | first => first.getD [] ++ g.further
  else g.blanks

/-- one more blank or break; `none` at anything else -/
def step (g : Gap) (c : Cursor) : Option (Gap × Cursor) :=
  match c.peek? with
  | none => none
  | some ch =>
    if isBlank ch then some (if g.broken then g else { g with blanks := g.blanks ++ [ch] }, c.skip)
    else if isBreak ch then
      let (b, c') := c.line
      if g.broken then some ({ g with further := g.further ++ b }, c')
      else some ({ blanks := [], first := some b, further := [], broken := true }, c')
    else none

end Gap

/-! ## Plain scalars -/

/-- does the text of a plain scalar end at this character? -/
def endsPlain (inFlow : Bool) (c : Cursor) : Bool :=
  match c.peek? with
  | none => true
  | some ch =>
    isBlank ch || isBreak ch || (ch == ':' && c.gapAhead 1)
      || (inFlow && (ch == ',' || ch == '?' || ch == '[' || ch == ']' || ch == '{' || ch == '}'))

/-- text up to the next gap or end -/
def plainWord (inFlow : Bool) : Nat → List Char → Cursor → List Char × Cursor
  | 0, acc, c => (acc, c)
  | fuel + 1, acc, c =>
    match c.peek? with
    | none => (acc, c)
    | some ch => if endsPlain inFlow c then (acc, c) else plainWord inFlow fuel (ch :: acc) c.skip

/-- blanks and breaks; in a broken gap a tab must not stand for indentation -/
def plainGap (start : Mark) (indent : Int) : Nat → Gap → Cursor → Read (Gap × Cursor)
  | 0, g, c => .ok (g, c)
  | fuel + 1, g, c =>
    if g.broken && c.at? '\t' && (c.mark.column : Int) < indent then
      c.fail start "found a tab character that violates indentation"
    else
      match g.step c with
      | some (g, c) => plainGap start indent fuel g c
      | none => .ok (g, c)

/-- a plain scalar: its text backwards, the end of the text, where reading goes on, and whether a break came last -/
def plainLoop (inFlow : Bool) (start : Mark) (indent : Int) :
    Nat → List Char → Gap → Mark → Cursor → Read (List Char × Mark × Cursor × Bool)
  | 0, acc, g, stop, c => .ok (acc, stop, c, g.broken)
  | fuel + 1, acc, g, stop, c =>
    if c.anyMarker || c.at? '#' then .ok (acc, stop, c, g.broken)
    else
      let (word, c') := plainWord inFlow (c.rest.length + 1) [] c
      let (acc, g, stop) := if word.isEmpty then (acc, g, stop) else (word ++ g.folded.reverse ++ acc, {}, c'.mark)
      if !(c'.blankHere || c'.breakHere) then .ok (acc, stop, c', g.broken)
      else do
        let (g, c'') ← plainGap start indent (c'.rest.length + 1) g c'
        if !inFlow && (c''.mark.column : Int) < indent then return (acc, stop, c'', g.broken)
        plainLoop inFlow start indent fuel acc g stop c''

/-- reads a plain scalar inside a block of the given indentation -/
def plainScalar (inFlow : Bool) (indent : Int) (c : Cursor) : Read (String × Mark × Cursor × Bool) := do
  let (acc, stop, c', broken) ← plainLoop inFlow c.mark (indent + 1) (c.rest.length + 1) [] {} c.mark c
  return (String.ofList acc.reverse, stop, c', broken)

/-! ## Quoted scalars -/

/-- what an escape stands for: characters at once, or a code of so many digits -/
inductive Escape where
  | chars (cs : List Char)
  | code (digits : Nat)
  | unknown

def escapeOf : Char → Escape
  | '0' => .chars ['\x00']
  | 'a' => .chars ['\x07']
  | 'b' => .chars ['\x08']
  | 't' => .chars ['\t']
  | '\t' => .chars ['\t']
  | 'n' => .chars ['\n']
  | 'v' => .chars ['\x0b']
  | 'f' => .chars ['\x0c']
  | 'r' => .chars ['\r']
  | 'e' => .chars ['\x1b']
  | ' ' => .chars [' ']
  | '"' => .chars ['"']
  | '\'' => .chars ['\'']
  | '\\' => .chars ['\\']
  | 'N' => .chars ['\u0085']
  | '_' => .chars ['\u00a0']
  | 'L' => .chars ['\u2028']
  | 'P' => .chars ['\u2029']
  | 'x' => .code 2
  | 'u' => .code 4
  | 'U' => .code 8
  | _ => .unknown

/-- the character of a code of hexadecimal digits -/
def escapeCode (start : Mark) (digits : Nat) (c : Cursor) : Read (Char × Cursor) :=
  let ds := c.rest.take digits
  if ds.length < digits || !ds.all isHexDigit then c.fail start "did not find expected hexdecimal number"
  else
    let n := ds.foldl (fun n d => n * 16 + hexDigit d) 0
    if (0xD800 ≤ n && n ≤ 0xDFFF) || n > 0x10FFFF then c.fail start "found invalid Unicode character escape code"
    else .ok (Char.ofNat n, ⟨c.rest.drop digits,
      { c.mark with column := c.mark.column + digits, index := c.mark.index + digits }⟩)

/-- text up to a gap, the closing quote or an escaped break, which is told by the flag -/
def quotedWord (single : Bool) (start : Mark) : Nat → List Char → Cursor → Read (List Char × Cursor × Bool)
  | 0, acc, c => .ok (acc, c, false)
  | fuel + 1, acc, c =>
    match c.rest with
    | [] => .ok (acc, c, false)
    | ch :: more =>
      if isBlank ch || isBreak ch then .ok (acc, c, false)
      else if single then
        if ch == '\'' then
          if more.head? == some '\'' then quotedWord single start fuel ('\'' :: acc) c.skip.skip else .ok (acc, c, false)
        else quotedWord single start fuel (ch :: acc) c.skip
      else if ch == '"' then .ok (acc, c, false)
      else if ch == '\\' then
        if more.head?.any isBreak then .ok (acc, c.skip.skipLine, true)
        else
          match escapeOf (more.head?.getD '\x00') with
          | .chars cs => if more.isEmpty then c.fail start "found unknown escape character"
            else quotedWord single start fuel (cs.reverse ++ acc) c.skip.skip
          | .unknown => c.fail start "found unknown escape character"
          | .code n => do
            let (x, c') ← escapeCode start n c.skip.skip
            quotedWord single start fuel (x :: acc) c'
      else quotedWord single start fuel (ch :: acc) c.skip

def quotedGap : Nat → Gap → Cursor → Gap × Cursor
  | 0, g, c => (g, c)
  | fuel + 1, g, c =>
    match g.step c with
    | some (g, c) => quotedGap fuel g c
    | none => (g, c)

def quotedLoop (single : Bool) (start : Mark) : Nat → List Char → Cursor → Read (List Char × Cursor)
  | 0, acc, c => .ok (acc, c)
  | fuel + 1, acc, c =>
    if c.anyMarker then c.fail start "found unexpected document indicator"
    else if c.endHere then c.fail start "found unexpected end of stream"
    else do
      let (acc, c', escaped) ← quotedWord single start (c.rest.length + 1) acc c
      if c'.at? (if single then '\'' else '"') then return (acc, c'.skip)
      let (g, c'') := quotedGap (c'.rest.length + 1) { broken := escaped } c'
      quotedLoop single start fuel (g.folded.reverse ++ acc) c''

/-- reads a quoted scalar from its opening quote on -/
def quotedScalar (single : Bool) (c : Cursor) : Read (String × Cursor) := do
  let (acc, c') ← quotedLoop single c.mark (c.rest.length + 1) [] c.skip
  return (String.ofList acc.reverse, c')

/-! ## Block scalars -/

inductive Chomping where
  | clip | strip | keep
  deriving Repr, DecidableEq

def chompingOf? : Option Char → Option Chomping
  | some '+' => some .keep
  | some '-' => some .strip
  | _ => none

/-- the indentation digit, if there is one -/
def indentDigit (start : Mark) (c : Cursor) : Read (Nat × Cursor) :=
  match c.peek? with
  | some d =>
    if d == '0' then c.fail start "found an indentation indicator equal to 0"
    else if d.isDigit then .ok (d.toNat - 48, c.skip)
    else .ok (0, c)
  | none => .ok (0, c)

/-- the indicators behind the opening one, in either order -/
def blockHeader (start : Mark) (c : Cursor) : Read (Chomping × Nat × Cursor) := do
  match chompingOf? c.peek? with
  | some ch =>
    let (n, c) ← indentDigit start c.skip
    return (ch, n, c)
  | none =>
    let (n, c') ← indentDigit start c
    if n = 0 then return (.clip, 0, c')
    match chompingOf? c'.peek? with
    | some ch => return (ch, n, c'.skip)
    | none => return (.clip, n, c')

/-- empty lines and indentation before the next line of a block; the first time, finds the indentation of the block. Indentation 0
stands for one not known yet. -/
def blockBreaks (start : Mark) (outer : Int) (indent : Nat) :
    Nat → (widest : Nat) → List Char → Cursor → Read (Nat × List Char × Cursor)
  | 0, _, breaks, c => .ok (indent, breaks, c)
  | fuel + 1, widest, breaks, c =>
    let open_ (c : Cursor) : Bool := indent == 0 || c.mark.column < indent
    if open_ c && c.at? ' ' then blockBreaks start outer indent fuel widest breaks c.skip
    else
      let widest := max widest c.mark.column
      if open_ c && c.at? '\t' then c.fail start "found a tab character where an indentation space is expected"
      else if c.breakHere then
        let (b, c') := c.line
        blockBreaks start outer indent fuel widest (breaks ++ b) c'
      else
        let found := if indent = 0 then (max (max (widest : Int) (outer + 1)) 1).toNat else indent
        .ok (found, breaks, c)

/-- the lines of a block: text so far, the break behind it, and empty lines behind that -/
def blockLines (literal : Bool) (start : Mark) (outer : Int) (indent : Nat) :
    Nat → (text : List Char) → (first further : List Char) → (indented : Bool) → Cursor →
    Read (List Char × List Char × List Char × Cursor)
  | 0, text, first, further, _, c => .ok (text, first, further, c)
  | fuel + 1, text, first, further, indented, c =>
    if c.mark.column ≠ indent || c.endHere then .ok (text, first, further, c)
    else do
      let blank := c.blankHere
      let joint :=
        if !literal && !indented && !blank && first == ['\n'] then (if further.isEmpty then [' '] else []) else first
      let line := c.rest.takeWhile fun ch => !isBreak ch
      let c' := c.skipRest
      let (b, c'') := c'.line
      let (_, breaks, c3) ← blockBreaks start outer indent (c''.rest.length + 1) 0 [] c''
      blockLines literal start outer indent fuel (text ++ joint ++ further ++ line) b breaks blank c3

/-- reads a block scalar from its indicator on, inside a block of the given indentation -/
def blockScalar (literal : Bool) (outer : Int) (c : Cursor) : Read (String × Cursor) := do
  let start := c.mark
  let (chomping, increment, c) ← blockHeader start c.skip
  let c := c.skipWhile isBlank
  let c := if c.at? '#' then c.skipRest else c
  if !(c.breakHere || c.endHere) then c.fail start "did not find expected comment or line break"
  else
    let c := if c.breakHere then c.skipLine else c
    let given : Nat := if increment = 0 then 0 else if outer ≥ 0 then outer.toNat + increment else increment
    let (indent, breaks, c) ← blockBreaks start outer given (c.rest.length + 1) 0 [] c
    let (text, first, further, c) ← blockLines literal start outer indent (c.rest.length + 1) [] [] breaks false c
    let text := match chomping with
      | .strip => text
      | .clip => text ++ first
      | .keep => text ++ first ++ further
    return (String.ofList text, c)

end Schemata.Yaml
