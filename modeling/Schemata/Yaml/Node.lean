import Schemata.Yaml.Token

/-!
YAML documents as trees.

A node keeps where it starts. Anchored nodes stand in a table, and an alias carries the number of the node that its
anchor named at that place, which may be one that is still open: documents are graphs. A stream is read one document
at a time, so that what is wrong with the content of one is found before the next is looked at; anchors live as long
as the stream.
-/

namespace Schemata.Yaml

inductive Node where
  | scalar (mark : Mark) (tag : String) (style : Style) (text : String)
  | sequence (mark : Mark) (items : List Node)
  | mapping (mark : Mark) (entries : List (Node × Node))
  | reference (mark : Mark) (name : String) (target : Nat)
  deriving Inhabited

def Node.mark : Node → Mark
  | scalar m _ _ _ => m
  | sequence m _ => m
  | mapping m _ => m
  | reference m _ _ => m

/-- an empty scalar -/
def Node.empty (mark : Mark) : Node := .scalar mark "" .plain ""

/-- a stream of documents, partly read -/
structure Stream where
  scanner : Scanner
  /-- tag handles of the current document -/
  handles : List (String × String) := []
  /-- anchored nodes; one that is still open stands here without its content -/
  table : Array Node := #[]
  /-- the number of the node of each anchor, the latest first -/
  anchors : List (String × Nat) := []

abbrev Parse (α : Type) := StateT Stream (Except ReadError) α

def scan {α : Type} (act : Scan α) : Parse α := do
  let s ← get
  let (a, scanner) ← act s.scanner
  set { s with scanner }
  return a

def peek : Parse Token := scan peekToken

def skip : Parse Unit := scan skipToken

/-- the token behind the next one, which is taken -/
def advance : Parse Token := do
  skip
  peek

/-- a failure while reading a part that began at `context` -/
def failParse {α : Type} (context : Mark) (problem : String) (mark : Mark) : Parse α :=
  throw { line := if context.line ≠ 0 then context.line else mark.line, problem }

/-- enters a node under its anchor, if it has one, and runs the rest of it; what that gives takes its place -/
def anchored (name : String) (opened : Node) (act : Parse Node) : Parse Node := do
  if name.isEmpty then act
  else
    let number := (← get).table.size
    modify fun s => { s with table := s.table.push opened, anchors := (name, number) :: s.anchors }
    let n ← act
    modify fun s => { s with table := s.table.setIfInBounds number n }
    return n

/-! ## Properties of a node -/

structure Properties where
  anchor : String := ""
  tag : String := ""
  /-- where the node starts, its properties included -/
  start : Mark

/-- the tag that a handle and a suffix make -/
def resolveTag (start mark : Mark) (handle suffix : String) : Parse String := do
  if handle.isEmpty then return suffix
  let tag := match (← get).handles.find? (·.1 == handle) with
    | some (_, lead) => lead ++ suffix
    | none => ""
  if tag.isEmpty then failParse start "found undefined tag handle" mark
  return tag

/-- the anchor and the tag before a node, in either order -/
def properties : Parse Properties := do
  let t ← peek
  match t.kind with
  | .anchor name =>
    let t2 ← advance
    match t2.kind with
    | .tag handle suffix =>
      let _ ← advance
      return { anchor := name, tag := ← resolveTag t.start t2.start handle suffix, start := t.start }
    | _ => return { anchor := name, start := t.start }
  | .tag handle suffix =>
    let t2 ← advance
    match t2.kind with
    | .anchor name =>
      let _ ← advance
      return { anchor := name, tag := ← resolveTag t.start t.start handle suffix, start := t.start }
    | _ => return { tag := ← resolveTag t.start t.start handle suffix, start := t.start }
  | _ => return { start := t.start }

def isBlockGap : TokenKind → Bool
  | .blockEntry | .blockEnd => true
  | _ => false

def isMappingGap : TokenKind → Bool
  | .key | .value | .blockEnd => true
  | _ => false

/-! ## Nodes -/

mutual

def parseNode : Nat → (block indentless : Bool) → Parse Node
  | 0, _, _ => throw { problem := "did not find expected node content" }
  | fuel + 1, block, indentless => do
    let first ← peek
    match first.kind with
    | .reference name =>
      skip
      match (← get).anchors.find? (·.1 == name) with
      | some (_, target) => return .reference first.start name target
      | none => throw { problem := "unknown anchor '" ++ name ++ "' referenced" }
    | _ =>
      let p ← properties
      let t ← peek
      match t.kind, block with
      | .scalar style text, _ =>
        skip
        let n := Node.scalar p.start p.tag style text
        anchored p.anchor n (pure n)
      | .flowSequenceStart, _ =>
        anchored p.anchor (.sequence p.start []) do
          return .sequence p.start (← flowItems fuel t.start true [])
      | .flowMappingStart, _ =>
        anchored p.anchor (.mapping p.start []) do
          return .mapping p.start (← flowEntries fuel t.start true [])
      | .blockSequenceStart, true =>
        anchored p.anchor (.sequence p.start []) do
          skip
          return .sequence p.start (← blockItems fuel t.start [])
      | .blockMappingStart, true =>
        anchored p.anchor (.mapping p.start []) do
          skip
          return .mapping p.start (← blockEntries fuel t.start [])
      | kind, _ =>
        if indentless && kind == .blockEntry then
          anchored p.anchor (.sequence p.start []) do
            return .sequence p.start (← indentlessItems fuel [])
        else if p.anchor.isEmpty && p.tag.isEmpty then
          failParse p.start "did not find expected node content" t.start
        else
          let n := Node.scalar p.start p.tag .plain ""
          anchored p.anchor n (pure n)

/-- the entries of a block sequence, each behind its indicator -/
def blockItems : Nat → Mark → List Node → Parse (List Node)
  | 0, _, acc => return acc.reverse
  | fuel + 1, start, acc => do
    let t ← peek
    match t.kind with
    | .blockEntry =>
      let next ← advance
      if isBlockGap next.kind then blockItems fuel start (.empty t.stop :: acc)
      else
        let n ← parseNode fuel true false
        blockItems fuel start (n :: acc)
    | .blockEnd =>
      skip
      return acc.reverse
    | _ => failParse start "did not find expected '-' indicator" t.start

/-- the entries of a sequence that is not indented below its key -/
def indentlessItems : Nat → List Node → Parse (List Node)
  | 0, acc => return acc.reverse
  | fuel + 1, acc => do
    let t ← peek
    match t.kind with
    | .blockEntry =>
      let next ← advance
      if isBlockGap next.kind || isMappingGap next.kind then indentlessItems fuel (.empty t.stop :: acc)
      else
        let n ← parseNode fuel true false
        indentlessItems fuel (n :: acc)
    | _ => return acc.reverse

def blockEntries : Nat → Mark → List (Node × Node) → Parse (List (Node × Node))
  | 0, _, acc => return acc.reverse
  | fuel + 1, start, acc => do
    let t ← peek
    match t.kind with
    | .key =>
      let next ← advance
      let key ← if isMappingGap next.kind then pure (.empty t.stop) else parseNode fuel true true
      let v ← peek
      match v.kind with
      | .value =>
        let next ← advance
        let value ← if isMappingGap next.kind then pure (.empty v.stop) else parseNode fuel true true
        blockEntries fuel start ((key, value) :: acc)
      | _ => blockEntries fuel start ((key, .empty v.start) :: acc)
    | .blockEnd =>
      skip
      return acc.reverse
    | _ => failParse start "did not find expected key" t.start

/-- the entries of a flow sequence; the first one needs no comma before it -/
def flowItems : Nat → Mark → (first : Bool) → List Node → Parse (List Node)
  | 0, _, _, acc => return acc.reverse
  | fuel + 1, start, first, acc => do
    if first then skip
    let t ← peek
    if t.kind == .flowSequenceEnd then
      skip
      return acc.reverse
    let t ← if first then pure t
      else if t.kind == .flowEntry then advance
      else failParse start "did not find expected ',' or ']'" t.start
    match t.kind with
    | .key =>
      skip
      let entry ← flowPair fuel
      flowItems fuel start false (.mapping t.start [entry] :: acc)
    | .flowSequenceEnd =>
      skip
      return acc.reverse
    | _ =>
      let n ← parseNode fuel false false
      flowItems fuel start false (n :: acc)

/-- a single pair inside a flow sequence, from behind its key indicator on -/
def flowPair : Nat → Parse (Node × Node)
  | 0 => throw { problem := "did not find expected node content" }
  | fuel + 1 => do
    let t ← peek
    let key ←
      if t.kind == .value || t.kind == .flowEntry || t.kind == .flowSequenceEnd then do
        skip
        pure (.empty t.stop)
      else parseNode fuel false false
    let v ← peek
    if v.kind == .value then
      let next ← advance
      if next.kind == .flowEntry || next.kind == .flowSequenceEnd then return (key, .empty v.start)
      return (key, ← parseNode fuel false false)
    return (key, .empty v.start)

def flowEntries : Nat → Mark → (first : Bool) → List (Node × Node) → Parse (List (Node × Node))
  | 0, _, _, acc => return acc.reverse
  | fuel + 1, start, first, acc => do
    if first then skip
    let t ← peek
    if t.kind == .flowMappingEnd then
      skip
      return acc.reverse
    let t ← if first then pure t
      else if t.kind == .flowEntry then advance
      else failParse start "did not find expected ',' or '\x7d'" t.start
    match t.kind with
    | .key =>
      let next ← advance
      let gap (k : TokenKind) : Bool := k == .flowEntry || k == .flowMappingEnd
      let key ←
        if next.kind == .value || gap next.kind then pure (.empty next.start) else parseNode fuel false false
      let v ← peek
      let value ← do
        if v.kind == .value then
          let next ← advance
          if gap next.kind then pure (.empty next.start) else parseNode fuel false false
        else pure (.empty v.start)
      flowEntries fuel start false ((key, value) :: acc)
    | .flowMappingEnd =>
      skip
      return acc.reverse
    | _ =>
      let key ← parseNode fuel false false
      let v ← peek
      flowEntries fuel start false ((key, .empty v.start) :: acc)

end

/-! ## Documents -/

/-- the handles that every document knows -/
def standardHandles : List (String × String) := [("!", "!"), ("!!", "tag:yaml.org,2002:")]

/-- the directives before a document: whether a version was given, and the handles declared so far -/
def directives : Nat → Bool → List (String × String) → Parse Unit
  | 0, _, _ => pure ()
  | fuel + 1, versioned, handles => do
    let t ← peek
    match t.kind with
    | .version major minor =>
      if versioned then failParse {} "found duplicate %YAML directive" t.start
      if major ≠ 1 || minor ≠ 1 then failParse {} "found incompatible YAML document" t.start
      skip
      directives fuel true handles
    | .tagDirective handle lead =>
      if handles.any (·.1 == handle) then failParse {} "found duplicate %TAG directive" t.start
      skip
      directives fuel versioned (handles ++ [(handle, lead)])
    | _ => modify fun s => { s with handles := handles ++ standardHandles }

def skipDocumentEnds : Nat → Parse Unit
  | 0 => pure ()
  | fuel + 1 => do
    if (← peek).kind == .documentEnd then
      skip
      skipDocumentEnds fuel

/-- does a document without content end at this token? -/
def isDocumentGap : TokenKind → Bool
  | .version _ _ | .tagDirective _ _ | .documentStart | .documentEnd | .streamEnd => true
  | _ => false

/-- enough for every token that a text can have -/
def budget (s : Stream) : Nat := 8 * (s.scanner.cursor.rest.length + s.scanner.queue.length + 8)

/-- the next document; only the first one may do without its start marker -/
def nextDocument (first : Bool) : Parse (Option Node) := do
  let fuel := budget (← get)
  if first then
    let _ ← peek
    skip
  else skipDocumentEnds fuel
  let t ← peek
  let implicit := first && (match t.kind with
    | .version _ _ | .tagDirective _ _ | .documentStart | .streamEnd => false
    | _ => true)
  if t.kind == .streamEnd then return none
  let content ← do
    if implicit then
      directives fuel false []
      parseNode fuel true false
    else
      directives fuel false []
      let t ← peek
      if t.kind ≠ .documentStart then failParse {} "did not find expected <document start>" t.start
      let next ← advance
      if isDocumentGap next.kind then pure (.empty next.start) else parseNode fuel true false
  if (← peek).kind == .documentEnd then skip
  modify fun s => { s with handles := [] }
  return some content

/-- a stream at its start: every character is allowed, and a byte order mark is passed over -/
def Stream.ofText (text : String) : Read Stream :=
  let cs := match text.toList with
    | '\ufeff' :: cs => cs
    | cs => cs
  if cs.all isAllowed then .ok { scanner := { cursor := { rest := cs } } }
  else .error { problem := "control characters are not allowed" }

end Schemata.Yaml
