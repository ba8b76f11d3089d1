import Schemata.Source.Word

/-!
The grammar of source text, read straight into printed words.

Every construct gives the words of its usual layout: blanks where they belong, line breaks between statements and
declarations, none where a body fits on the line that it was written on. Texts outside the grammar are refused; two
kinds of refusal matter to those who try a text as a part of a file.
-/

namespace Schemata.Source

/-- why a text is no source file -/
inductive Refusal where
  | noPackage | noDeclaration | malformed
  deriving Repr, DecidableEq

structure Reading where
  /-- lexemes not yet read, with their numbers -/
  rest : List (Lexeme × Nat)
  /-- below zero where a brace opens a block, not a literal -/
  level : Int := 0
  /-- the numbers of the lexemes that have comments before them -/
  remarked : List Nat := []

abbrev Parse (α : Type) := StateT Reading (Except Refusal) α

def refused {α : Type} : Parse α := throw .malformed

def here : Parse Lexeme := do
  match (← get).rest with
  | (t, _) :: _ => return t
  | [] => return default

def ahead (n : Nat) : Parse Lexeme := do return (((← get).rest[n]?).map (·.1)).getD ⟨.ending, "", 0, 0, 0⟩

/-- the keyword or operator that a lexeme is -/
def Lexeme.mark (t : Lexeme) : String :=
  match t.kind with
  | .keyword => t.text
  | .operator => t.text
  | .separator => ";"
  | _ => ""

def at_ (mark : String) : Parse Bool := do return (← here).mark == mark

def atKind (k : LexemeKind) : Parse Bool := do return (← here).kind == k

/-- a number in its usual spelling: small letters for marks and exponents -/
def usualNumber (s : String) : String :=
  let lowerLast (c : Char) (cs : List Char) : List Char :=
    let tail := cs.reverse.takeWhile (· != c)
    if tail.length = cs.length then cs
    else cs.take (cs.length - tail.length - 1) ++ c.toLower :: tail.reverse
  match s.toList with
  | '0' :: 'X' :: cs => String.ofList ('0' :: 'x' :: lowerLast 'P' cs)
  | '0' :: 'x' :: cs => String.ofList ('0' :: 'x' :: lowerLast 'P' cs)
  | '0' :: 'O' :: cs => String.ofList ('0' :: 'o' :: cs)
  | '0' :: 'o' :: _ => s
  | '0' :: 'B' :: cs => String.ofList ('0' :: 'b' :: cs)
  | '0' :: 'b' :: _ => s
  | [_] => s
  | cs =>
    if cs.contains 'E' then String.ofList (lowerLast 'E' cs)
    else if cs.getLast? == some 'i' && !cs.contains '.' && !cs.contains 'e' then
      let digits := cs.dropWhile fun c => c == '0' || c == '_'
      if digits == ['i'] then "0i" else String.ofList digits
    else s

/-- reads one lexeme -/
def take : Parse Word := do
  let s ← get
  match s.rest with
  | (t, n) :: rest =>
    if t.kind == .ending then refused
    else
      set { s with rest }
      let text := if t.kind == .number then usualNumber t.text
        else if t.kind == .quoted then String.ofList (t.text.toList.filter (· != '\r'))
        else t.text
      return { text, line := t.line, last := t.last, place := some n }
  | [] => refused

def expect (mark : String) : Parse Word := do if ← at_ mark then take else refused

def expectName : Parse Word := do if ← atKind .name then take else refused

/-- the separator behind a statement; it may be left out before a closing bracket -/
def expectEnd : Parse Unit := do
  if (← at_ ")") || (← at_ "\x7d") then pure ()
  else if ← at_ ";" then let _ ← take
  else refused

/-- reads with another level -/
def withLevel {α : Type} (change : Int → Int) (act : Parse α) : Parse α := do
  let before := (← get).level
  modify fun s => { s with level := change before }
  let a ← act
  modify fun s => { s with level := before }
  return a

def nested {α : Type} (act : Parse α) : Parse α := withLevel (· + 1) act

/-- do comments stand between two words? -/
def remarkedBetween (a b : Word) : Parse Bool := do
  return (← get).remarked.any fun n => a.place.getD 0 < n && n ≤ b.place.getD 0

/-! ## Blocks -/

/-- statements between braces -/
structure Block where
  opening : Word
  stmts : List Words
  closing : Word

/-- a block with every statement on a line of its own -/
def Block.words (b : Block) : Words :=
  b.opening :: (b.stmts.flatMap (·.lead .broken)) ++ [{ b.closing with gap := .broken }]

/-- the words of a short body on one line -/
def Block.inline (b : Block) : Words :=
  if b.stmts.isEmpty then [b.opening, b.closing]
  else
    let body := b.stmts.zipIdx.flatMap fun (ws, i) =>
      if i == 0 then ws.lead .blank else { text := ";" } :: ws.lead .blank
    b.opening :: body ++ [{ b.closing with gap := .blank }]

/-- the greatest length of a function on one line -/
def lineLimit : Nat := 100

/-- the body of a function behind its head: on one line if it was written so, is short and has few statements -/
def Block.body (b : Block) (head : Words) : Words :=
  let sizes := b.stmts.map Words.size?
  let total := sizes.foldl (fun acc n => acc.bind fun a => n.map (a + ·)) (some (2 * (b.stmts.length - 1)))
  let fits := match head.size?, total with
    | some h, some n => h + n ≤ lineLimit && head.firstLine == head.lastLine
    | _, _ => false
  let inline := b.opening.line == b.closing.line && b.stmts.length ≤ 5 && fits
  (if inline then b.inline else b.words).lead .blank

/-- a statement that may stand in the head of another -/
structure Simple where
  words : Words
  /-- the expression that it consists of -/
  expr : Option Expr := none
  /-- a loop over a range -/
  isRange : Bool := false
  /-- a guard of a switch over types -/
  isGuard : Bool := false
  /-- ends without a separator -/
  isLabeled : Bool := false

/-! ## Parameters -/

/-- one entry of a list of parameters -/
structure Parameter where
  name : Option Word
  /-- without it, the entry is a name or a type -/
  type : Option Words
  /-- no blank between name and type -/
  joined : Bool := false

def Parameter.words (p : Parameter) : Words :=
  match p.name, p.type with
  | some n, some t => n :: (if p.joined then t else t.lead .blank)
  | some n, none => [n]
  | none, some t => t
  | none, none => []

def Parameter.isNamed (p : Parameter) : Bool := p.name.isSome && p.type.isSome && !p.joined

/-- all parameters have names or none has, and the last name has a type -/
def parametersAgree (ps : List Parameter) : Bool :=
  !ps.any Parameter.isNamed
    || (ps.all fun p => p.name.isSome && !p.joined) && (ps.getLast?.any fun p => p.type.isSome)

/-- parameters in brackets, with the line breaks they were read with -/
def parameterWords (opening : Word) (ps : List Words) (closing : Word) : Words :=
  let step (acc : Words × Nat) (ws : Words) : Words × Nat :=
    let broken := acc.2 < ws.firstLine
    let g : Gap := if broken then .broken else if acc.1.isEmpty then .tight else .blank
    ((if acc.1.isEmpty then ws.lead g else acc.1 ++ comma acc.2 :: ws.lead g), ws.lastLine)
  let (ws, last) := ps.foldl step ([], opening.line)
  opening :: ws
    ++ (if !ps.isEmpty && last < closing.line then [comma last, { closing with gap := .broken }] else [closing])

/-- the words of fields in braces: short ones that stood on one line stay there -/
def fieldsWords (opening : Word) (fields : List Words) (short remarked : Bool) (closing : Word) : Words :=
  let oneLine := !remarked && opening.line == closing.line
  match oneLine, fields, short with
  | true, [], _ => [opening, closing]
  | true, [f], true => opening :: f.lead .blank ++ [{ closing with gap := .blank }]
  | _, _, _ => { opening with gap := .blank } :: fields.flatMap (·.lead .broken) ++ [{ closing with gap := .broken }]

/-! ## Types, expressions and statements -/

/-- operators that may stand before an operand -/
def signs : List String := ["+", "-", "!", "^", "&", "~"]

def assignments : List String := [":=", "=", "+=", "-=", "*=", "/=", "%=", "&=", "|=", "^=", "<<=", ">>=", "&^="]

/-- may the expression be the type of a literal here? -/
def mayOpenLiteral (level : Int) : Expr → Bool
  | .name _ => level ≥ 0
  | .selector (.name _) _ _ => level ≥ 0
  | .index _ _ _ _ => level ≥ 0
  | .form _ => true
  | _ => false

mutual

/-- a type, if one starts here -/
def type? : Nat → Parse (Option Expr)
  | 0 => refused
  | fuel + 1 => do
    let t ← here
    if t.kind == .name then return some (← typeName fuel)
    match t.mark with
    | "[" =>
      let l ← take
      let len ← if ← at_ "]" then pure []
        else if ← at_ "..." then do pure [← take]
        else do pure ((← nested (expr fuel 1)).words 1)
      let r ← expect "]"
      return some (.form (l :: len ++ r :: (← type fuel).words 1))
    | "struct" => return some (.form (← structType fuel))
    | "*" => let op ← take; return some (.star op (← type fuel))
    | "func" => let f ← take; return some (.atom (f :: (← signature fuel)))
    | "interface" => return some (.atom (← interfaceType fuel))
    | "map" =>
      let m ← take
      let l ← expect "["
      let key ← type fuel
      let r ← expect "]"
      return some (.form (m :: l :: key.words 1 ++ r :: (← type fuel).words 1))
    | "chan" =>
      let c ← take
      let arrow ← if ← at_ "<-" then do pure [← take] else pure []
      return some (.atom (c :: arrow ++ ((← type fuel).words 1).lead .blank))
    | "<-" =>
      let arrow ← take
      let c ← expect "chan"
      return some (.atom (arrow :: c :: ((← type fuel).words 1).lead .blank))
    | "(" =>
      let l ← take
      let x ← type fuel
      return some (.paren l x (← expect ")"))
    | _ => return none

def type : Nat → Parse Expr
  | 0 => refused
  | fuel + 1 => do
    match ← type? fuel with
    | some x => return x
    | none => refused

/-- a name, perhaps of another package, perhaps with arguments -/
def typeName : Nat → Parse Expr
  | 0 => refused
  | fuel + 1 => do
    let n ← expectName
    let x ← if ← at_ "." then do
        let dot ← take
        pure (Expr.selector (.name n) dot (← expectName))
      else pure (.name n)
    if ← at_ "[" then
      let l ← take
      let args ← nested (types fuel)
      return .index x l args (← expect "]")
    return x

/-- types with commas between them; a comma may stand behind the last -/
def types : Nat → Parse (List Expr)
  | 0 => refused
  | fuel + 1 => do
    let x ← type fuel
    if ← at_ "," then
      let _ ← take
      if ← at_ "]" then return [x]
      return x :: (← types fuel)
    return [x]

/-- what follows a name with a bracket behind it: the type of an array, or arguments of the name -/
def arrayOrArguments : Nat → Parse (Bool × Words)
  | 0 => refused
  | fuel + 1 => do
    let l ← expect "["
    if ← at_ "]" then
      let r ← take
      return (true, l :: r :: (← type fuel).words 1)
    let args ← nested (exprs fuel)
    let args : List Words := args.map (·.words 1)
    let r ← expect "]"
    match args, ← type? fuel with
    | [len], some t => return (true, l :: len ++ r :: t.words 1)
    | _, some _ => refused
    | args, none =>
      let inner := args.zipIdx.flatMap fun ((ws : Words), i) => if i == 0 then ws else comma ws.firstLine :: ws.lead .blank
      return (false, l :: inner ++ [r])

def structType : Nat → Parse Words
  | 0 => refused
  | fuel + 1 => do
    let keyword ← take
    let l ← expect "\x7b"
    let fields ← structFields fuel
    let r ← expect "\x7d"
    let remarked ← remarkedBetween l r
    let short := match fields with
      | [(names, ws, false)] => (Words.size? (ws.drop names)).any fun n => (if names == 0 then 0 else 1) + n ≤ 30
      | _ => false
    return keyword :: fieldsWords l (fields.map fun (_, ws, _) => ws) short remarked r

/-- the fields of a structure: how many words their names take, all words, and whether there is a tag -/
def structFields : Nat → Parse (List (Nat × Words × Bool))
  | 0 => refused
  | fuel + 1 => do
    if ← at_ "\x7d" then return []
    let (names, ws) ← structField fuel
    let (ws, tagged) ← if ← atKind .quoted then do
        let tag ← take
        pure (ws ++ [{ tag with gap := .blank }], true)
      else pure (ws, false)
    expectEnd
    return (names, ws, tagged) :: (← structFields fuel)

def structField : Nat → Parse (Nat × Words)
  | 0 => refused
  | fuel + 1 => do
    if ← atKind .name then
      let next ← ahead 1
      if next.mark == "." || next.mark == ";" || next.mark == "\x7d" || next.kind == .quoted then
        return (0, (← type fuel).words 1)
      let n ← take
      if next.mark == "[" then
        let (isArray, ws) ← arrayOrArguments fuel
        return if isArray then (1, n :: ws.lead .blank) else (0, n :: ws)
      let names ← moreNames fuel
      return (names.length + 1, n :: names ++ ((← type fuel).words 1).lead .blank)
    if (← at_ "*") || (← at_ "(") then return (0, (← type fuel).words 1)
    refused

/-- further names, each behind a comma -/
def moreNames : Nat → Parse Words
  | 0 => refused
  | fuel + 1 => do
    if ← at_ "," then
      let c ← take
      let n ← expectName
      return c :: { n with gap := .blank } :: (← moreNames fuel)
    return []

def interfaceType : Nat → Parse Words
  | 0 => refused
  | fuel + 1 => do
    let keyword ← take
    let l ← expect "\x7b"
    let members ← interfaceMembers fuel
    let r ← expect "\x7d"
    let remarked ← remarkedBetween l r
    let short := match members with
      | [ws] => ws.size?.any (· ≤ 30)
      | _ => false
    return keyword :: fieldsWords l members short remarked r

def interfaceMembers : Nat → Parse (List Words)
  | 0 => refused
  | fuel + 1 => do
    if ← at_ "\x7d" then return []
    let next ← ahead 1
    let ws ← if (← atKind .name) && next.mark == "(" then do
        let n ← take
        pure (n :: (← signature fuel))
      else union fuel
    expectEnd
    return ws :: (← interfaceMembers fuel)

/-- types of which one must fit, each perhaps with all that have it as their form -/
def union : Nat → Parse Words
  | 0 => refused
  | fuel + 1 => do
    let tilde ← if ← at_ "~" then do pure [← take] else pure []
    let ws := tilde ++ (← type fuel).words 1
    if ← at_ "|" then
      let bar ← take
      return ws ++ { bar with gap := .blank } :: (← union fuel).lead .blank
    return ws

/-- parameters and results -/
def signature : Nat → Parse Words
  | 0 => refused
  | fuel + 1 => do
    let generic ← if ← at_ "[" then typeParameters fuel else pure []
    let (ps, _) ← parameters fuel
    if ← at_ "(" then
      let (rs, single) ← parameters fuel
      match single with
      | some none => return generic ++ ps
      | some (some ws) => return generic ++ ps ++ ws.lead .blank
      | none => return generic ++ ps ++ rs.lead .blank
    match ← type? fuel with
    | some t => return generic ++ ps ++ (t.bare.words 1).lead .blank
    | none => return generic ++ ps

/-- parameters in parentheses; beside their words, whether there is none, or a single one without a name -/
def parameters : Nat → Parse (Words × Option (Option Words))
  | 0 => refused
  | fuel + 1 => do
    let l ← expect "("
    let ps ← nested (parameterList fuel ")" false)
    let r ← expect ")"
    if !parametersAgree ps then refused
    let single : Option (Option Words) := match ps with
      | [] => some none
      | [p] => if p.isNamed then none else some (some p.words)
      | _ => none
    return (parameterWords l (ps.map Parameter.words) r, single)

/-- parameters of a generic declaration -/
def typeParameters : Nat → Parse Words
  | 0 => refused
  | fuel + 1 => do
    let l ← expect "["
    let ps ← nested (parameterList fuel "]" true)
    let r ← expect "]"
    if ps.isEmpty || !ps.any Parameter.isNamed || !parametersAgree ps then refused
    return parameterWords l (ps.map Parameter.words) r

def parameterList : Nat → (closing : String) → (generic : Bool) → Parse (List Parameter)
  | 0, _, _ => refused
  | fuel + 1, closing, generic => do
    if ← at_ closing then return []
    let p ← parameter fuel generic
    if ← at_ "," then
      let _ ← take
      return p :: (← parameterList fuel closing generic)
    if ← at_ closing then return [p]
    refused

def parameter : Nat → (generic : Bool) → Parse Parameter
  | 0, _ => refused
  | fuel + 1, generic => do
    if ← at_ "..." then
      let dots ← take
      return { name := none, type := some (dots :: (← type fuel).bare.words 1) }
    if !(← atKind .name) then
      let ws ← if generic then union fuel else (do return (← type fuel).bare.words 1)
      return { name := none, type := some ws }
    let next ← ahead 1
    match next.mark with
    | "." => return { name := none, type := some ((← type fuel).words 1) }
    | "[" =>
      let n ← take
      let (isArray, ws) ← arrayOrArguments fuel
      return { name := some n, type := some ws, joined := !isArray }
    | "..." =>
      let n ← take
      let dots ← take
      return { name := some n, type := some (dots :: (← type fuel).bare.words 1) }
    | _ =>
      let n ← take
      if generic && ((← at_ "~") || (← here).kind == .name || (← at_ "*")) then
        return { name := some n, type := some (← union fuel) }
      match ← type? fuel with
      | some t =>
        if generic && (← at_ "|") then
          let bar ← take
          return { name := some n, type := some (t.words 1 ++ { bar with gap := .blank } :: (← union fuel).lead .blank) }
        return { name := some n, type := some (t.bare.words 1) }
      | none => return { name := some n, type := none }

/-- an expression whose operators bind at least so tightly -/
def expr : Nat → (least : Nat) → Parse Expr
  | 0, _ => refused
  | fuel + 1, least => do
    let x ← operandWithSign fuel
    exprRest fuel least x

def exprRest : Nat → (least : Nat) → Expr → Parse Expr
  | 0, _, _ => refused
  | fuel + 1, least, x => do
    let p := precedence (← here).mark
    if p == 0 || p < least then return x
    let op ← take
    let y ← expr fuel (p + 1)
    exprRest fuel least (.binary x op y)

/-- expressions with commas between them -/
def exprs : Nat → Parse (List Expr)
  | 0 => refused
  | fuel + 1 => do
    let x ← expr fuel 1
    if ← at_ "," then
      let _ ← take
      return x :: (← exprs fuel)
    return [x]

def operandWithSign : Nat → Parse Expr
  | 0 => refused
  | fuel + 1 => do
    let t ← here
    if signs.contains t.mark then
      let op ← take
      return .unary op (← operandWithSign fuel)
    match t.mark with
    | "*" => let op ← take; return .star op (← operandWithSign fuel)
    | "<-" =>
      if (← ahead 1).mark == "chan" then type fuel
      else
        let op ← take
        return .unary op (← operandWithSign fuel)
    | _ => primary fuel (← operand fuel)

def operand : Nat → Parse Expr
  | 0 => refused
  | fuel + 1 => do
    let t ← here
    match t.kind with
    | .name => return .name (← take)
    | .number => return .atom [← take]
    | .quoted => return .atom [← take]
    | _ =>
      match t.mark with
      | "(" =>
        let l ← take
        let x ← nested (expr fuel 1)
        return .paren l x (← expect ")")
      | "func" =>
        let f ← take
        let head := f :: (← signature fuel)
        if ← at_ "\x7b" then
          let b ← nested (block fuel)
          return .atom (head ++ b.body head)
        return .atom head
      | "<-" => refused
      | "*" => refused
      | _ => type fuel

/-- everything that may follow an operand -/
def primary : Nat → Expr → Parse Expr
  | 0, _ => refused
  | fuel + 1, x => do
    match (← here).mark with
    | "." =>
      let dot ← take
      if ← atKind .name then primary fuel (.selector x dot (← take))
      else if ← at_ "(" then
        let l ← take
        if ← at_ "type" then
          let t ← take
          primary fuel (.assertion x [dot, l, t, ← expect ")"] true)
        else
          let t ← type fuel
          primary fuel (.assertion x (dot :: l :: t.words 1 ++ [← expect ")"]) false)
      else refused
    | "[" => primary fuel (← indexed fuel x)
    | "(" =>
      let l ← take
      let (args, dots) ← nested (arguments fuel)
      primary fuel (.call x l args dots (← expect ")"))
    | "\x7b" =>
      if mayOpenLiteral (← get).level x then primary fuel (← literalOf fuel x) else return x
    | _ => return x

def arguments : Nat → Parse (List Expr × Option Word)
  | 0 => refused
  | fuel + 1 => do
    if ← at_ ")" then return ([], none)
    let x ← expr fuel 1
    let dots ← if ← at_ "..." then do pure (some (← take)) else pure none
    if ← at_ "," then
      let _ ← take
      let (xs, more) ← arguments fuel
      return (x :: xs, more.orElse fun _ => dots)
    if ← at_ ")" then return ([x], dots)
    refused

/-- an index, a slice, or arguments in brackets -/
def indexed : Nat → Expr → Parse Expr
  | 0, _ => refused
  | fuel + 1, x => do
    let l ← expect "["
    if ← at_ "]" then refused
    let first ← if ← at_ ":" then pure .absent else nested (expr fuel 1)
    if ← at_ ":" then
      let parts ← nested (sliceParts fuel)
      match parts with
      | [_] => return .slice x l (first :: parts) (← expect "]")
      | [high, most] =>
        if high.isAbsent || most.isAbsent then refused
        return .slice x l (first :: parts) (← expect "]")
      | _ => refused
    else if ← at_ "," then
      let _ ← take
      let more ← if ← at_ "]" then pure [] else nested (types fuel)
      return .index x l (first :: more) (← expect "]")
    else return .index x l [first] (← expect "]")

/-- the parts behind the colons of a slice -/
def sliceParts : Nat → Parse (List Expr)
  | 0 => refused
  | fuel + 1 => do
    if ← at_ ":" then
      let _ ← take
      let x ← if (← at_ ":") || (← at_ "]") then pure .absent else expr fuel 1
      return x :: (← sliceParts fuel)
    return []

def literalOf : Nat → Expr → Parse Expr
  | 0, _ => refused
  | fuel + 1, t => do
    let l ← expect "\x7b"
    let items ← nested (literalItems fuel)
    return .literal t l items (← expect "\x7d")

def literalItems : Nat → Parse (List Expr)
  | 0 => refused
  | fuel + 1 => do
    if ← at_ "\x7d" then return []
    let key ← literalItem fuel
    let x ← if ← at_ ":" then do
        let colon ← take
        pure (.keyed key colon (← literalItem fuel))
      else pure key
    if ← at_ "," then
      let _ ← take
      return x :: (← literalItems fuel)
    if ← at_ "\x7d" then return [x]
    refused

def literalItem : Nat → Parse Expr
  | 0 => refused
  | fuel + 1 => do if ← at_ "\x7b" then literalOf fuel .absent else expr fuel 1

def block : Nat → Parse Block
  | 0 => refused
  | fuel + 1 => do
    let opening ← expect "\x7b"
    let stmts ← statements fuel
    return { opening, stmts, closing := ← expect "\x7d" }

/-- statements up to the end of a block or of a clause; empty ones are left out -/
def statements : Nat → Parse (List Words)
  | 0 => refused
  | fuel + 1 => do
    if (← at_ "\x7d") || (← at_ "case") || (← at_ "default") || (← atKind .ending) then return []
    if ← at_ ";" then
      let _ ← take
      statements fuel
    else
      let ws ← statement fuel
      return ws :: (← statements fuel)

/-- the words of a statement, its separator taken -/
def statement : Nat → Parse Words
  | 0 => refused
  | fuel + 1 => do
    match (← here).mark with
    | "const" | "type" | "var" => declarationOf fuel
    | "go" | "defer" =>
      let keyword ← take
      match ← expr fuel 1 with
      | .call f l args dots r =>
        expectEnd
        return keyword :: ((Expr.call f l args dots r).words 1).lead .blank
      | _ => refused
    | "return" =>
      let keyword ← take
      if (← at_ ";") || (← at_ "\x7d") then
        expectEnd
        return [keyword]
      let xs ← exprs fuel
      expectEnd
      return keyword :: (Expr.listWords 1 0 xs).lead .blank
    | "break" | "continue" | "goto" | "fallthrough" =>
      let keyword ← take
      let label ← if keyword.text ≠ "fallthrough" && (← atKind .name) then do
          let n ← take
          pure [{ n with gap := .blank }]
        else pure []
      expectEnd
      return keyword :: label
    | "\x7b" =>
      let b ← block fuel
      expectEnd
      return b.words
    | "if" =>
      let ws ← conditional fuel
      expectEnd
      return ws
    | "switch" =>
      let ws ← switch fuel
      expectEnd
      return ws
    | "select" =>
      let ws ← select fuel
      expectEnd
      return ws
    | "for" =>
      let ws ← loop fuel
      expectEnd
      return ws
    | _ =>
      let s ← simple fuel true
      if !s.isLabeled then expectEnd
      return s.words

/-- an expression, a sending, an assignment or, where it may, a labelled statement -/
def simple : Nat → (labels : Bool) → Parse Simple
  | 0, _ => refused
  | fuel + 1, labels => do
    let xs ← exprs fuel
    let t ← here
    if assignments.contains t.mark then
      let op ← take
      if (← at_ "range") && (op.text == ":=" || op.text == "=") && !labels && xs.length ≤ 2 then
        let range ← take
        let y ← expr fuel 1
        let target := Expr.listWords 1 0 xs
        return {
          words := target ++ { op with gap := .blank } :: { range with gap := .blank } :: (y.bare.words 1).lead .blank
          isRange := true }
      let ys ← exprs fuel
      let depth := if xs.length > 1 && ys.length > 1 then 2 else 1
      let isGuard := match xs, ys, op.text with
        | [.name _], [.assertion _ _ true], ":=" => true
        | _, _, _ => false
      return {
        words := Expr.listWords depth 0 xs ++ { op with gap := .blank } :: (Expr.listWords depth op.line ys).lead .blank
        isGuard }
    match xs with
    | [x] =>
      match t.mark with
      | ":" =>
        match x, labels with
        | .name n, true =>
          let colon ← take
          if ← at_ "\x7d" then return { words := [n, colon], isLabeled := true }
          let ws ← statement fuel
          return { words := n :: colon :: ws.lead .broken, isLabeled := true }
        | _, _ => return { words := x.words 1, expr := some x }
      | "<-" =>
        let arrow ← take
        let y ← expr fuel 1
        return { words := x.words 1 ++ { arrow with gap := .blank } :: (y.words 1).lead .blank }
      | "++" | "--" =>
        let op ← take
        return { words := x.words 2 ++ [op] }
      | _ =>
        let isGuard := match x with
          | .assertion _ _ true => true
          | _ => false
        return { words := x.words 1, expr := some x, isGuard }
    | _ => refused

def conditional : Nat → Parse Words
  | 0 => refused
  | fuel + 1 => do
    let keyword ← take
    if ← at_ "\x7b" then refused
    let head ← withLevel (fun _ => -1) do
      let init ← if ← at_ ";" then pure none else some <$> simple fuel false
      if ← at_ "\x7b" then
        match init.bind Simple.expr with
        | some x => pure (x.bare.words 1)
        | none => refused
      else
        let _ ← expect ";"
        if ← at_ "\x7b" then refused
        match (← simple fuel false).expr with
        | some x => pure ((init.map Simple.words).getD [] ++ { text := ";" } :: (x.bare.words 1).lead .blank)
        | none => refused
    let b ← block fuel
    let first := keyword :: head.lead .blank ++ b.words.lead .blank
    if ← at_ "else" then
      let other ← take
      let next ← if ← at_ "if" then conditional fuel
        else if ← at_ "\x7b" then (do return (← block fuel).words)
        else refused
      return first ++ { other with gap := .blank } :: next.lead .blank
    return first

def switch : Nat → Parse Words
  | 0 => refused
  | fuel + 1 => do
    let keyword ← take
    let (init, tag) ← withLevel (fun _ => -1) do
      let s ← if (← at_ ";") || (← at_ "\x7b") then pure none else some <$> simple fuel false
      if ← at_ ";" then
        let _ ← take
        let tag ← if ← at_ "\x7b" then pure none else some <$> simple fuel false
        pure (some s, tag)
      else pure (none, s)
    let head : Words ← match tag with
      | none => pure []
      | some s =>
        if s.isGuard then pure s.words
        else match s.expr with
          | some x => pure (x.bare.words 1)
          | none => refused
    let head : Words := match init with
      | some s => ((s.map Simple.words).getD []) ++ { text := ";" } :: head.lead .blank
      | none => head
    let opening ← expect "\x7b"
    let stmts ← caseClauses fuel
    let closing ← expect "\x7d"
    return keyword :: head.lead .blank ++ (Block.words { opening, stmts, closing }).lead .blank

def caseClauses : Nat → Parse (List Words)
  | 0 => refused
  | fuel + 1 => do
    if ← at_ "case" then
      let keyword ← take
      let xs ← exprs fuel
      let colon ← expect ":"
      let body ← statements fuel
      let ws := keyword :: (Expr.listWords 1 keyword.line xs).lead .blank ++ colon :: body.flatMap (·.lead .broken)
      return ws :: (← caseClauses fuel)
    if ← at_ "default" then
      let keyword ← take
      let colon ← expect ":"
      let body ← statements fuel
      return (keyword :: colon :: body.flatMap (·.lead .broken)) :: (← caseClauses fuel)
    return []

def select : Nat → Parse Words
  | 0 => refused
  | fuel + 1 => do
    let keyword ← take
    let opening ← expect "\x7b"
    let stmts ← commClauses fuel
    let closing ← expect "\x7d"
    if stmts.isEmpty && !(← remarkedBetween opening closing) then
      return [keyword, { opening with gap := .blank }, closing]
    return keyword :: (Block.words { opening, stmts, closing }).lead .blank

def commClauses : Nat → Parse (List Words)
  | 0 => refused
  | fuel + 1 => do
    if ← at_ "case" then
      let keyword ← take
      let s ← simple fuel false
      let colon ← expect ":"
      let body ← statements fuel
      return (keyword :: s.words.lead .blank ++ colon :: body.flatMap (·.lead .broken)) :: (← commClauses fuel)
    if ← at_ "default" then
      let keyword ← take
      let colon ← expect ":"
      let body ← statements fuel
      return (keyword :: colon :: body.flatMap (·.lead .broken)) :: (← commClauses fuel)
    return []

def loop : Nat → Parse Words
  | 0 => refused
  | fuel + 1 => do
    let keyword ← take
    let head ← withLevel (fun _ => -1) (loopHead fuel)
    let b ← block fuel
    return keyword :: head.lead .blank ++ b.words.lead .blank

/-- what stands between the keyword and the body of a loop -/
def loopHead : Nat → Parse Words
  | 0 => refused
  | fuel + 1 => do
    if ← at_ "\x7b" then return []
    if ← at_ "range" then
      let range ← take
      let x ← expr fuel 1
      return range :: (x.bare.words 1).lead .blank
    let s ← if ← at_ ";" then pure none else some <$> simple fuel false
    if (s.map Simple.isRange).getD false then return (s.map Simple.words).getD []
    if ← at_ ";" then
      let _ ← take
      let cond ← if ← at_ ";" then pure none
        else if ← at_ "\x7b" then refused
        else
          match (← simple fuel false).expr with
          | some x => pure (some x)
          | none => refused
      if !(← at_ "\x7b") then let _ ← expect ";"
      let post ← if ← at_ "\x7b" then pure none else some <$> simple fuel false
      let condition : Words := (cond.map fun x => x.bare.words 1).getD []
      if s.isNone && post.isNone then return condition
      return (s.map Simple.words).getD [] ++ { text := ";" } :: condition.lead .blank
        ++ { text := ";" } :: ((post.map Simple.words).getD []).lead .blank
    match s.bind Simple.expr with
    | some x => return x.bare.words 1
    | none => refused

/-- a declaration of constants, types or variables, its separator taken -/
def declarationOf : Nat → Parse Words
  | 0 => refused
  | fuel + 1 => do
    let keyword ← take
    if ← at_ "(" then
      let l ← take
      let specs ← declared fuel keyword.text
      let r ← expect ")"
      expectEnd
      let g : Gap := if specs.isEmpty then .tight else .broken
      return keyword :: { l with gap := .blank } :: specs.flatMap (·.lead .broken) ++ [{ r with gap := g }]
    let ws ← declaration fuel keyword.text
    expectEnd
    return keyword :: ws.lead .blank

/-- the declarations in a group -/
def declared : Nat → (keyword : String) → Parse (List Words)
  | 0, _ => refused
  | fuel + 1, keyword => do
    if ← at_ ")" then return []
    let ws ← declaration fuel keyword
    expectEnd
    return ws :: (← declared fuel keyword)

def declaration : Nat → (keyword : String) → Parse Words
  | 0, _ => refused
  | fuel + 1, keyword => do
    let n ← expectName
    if keyword == "type" then
      let next ← ahead 1
      let follow ← ahead 2
      let generic := (← at_ "[") && next.kind == .name
        && (follow.kind == .name || [",", "interface", "~", "[", "func", "map", "chan", "struct"].contains follow.mark)
      let ps ← if generic then typeParameters fuel else pure []
      let eq ← if ← at_ "=" then do pure [{ (← take) with gap := .blank }] else pure []
      return n :: ps ++ eq ++ ((← type fuel).words 1).lead .blank
    let names ← moreNames fuel
    let t ← if (← at_ "=") then pure [] else
      match ← type? fuel with
      | some t => pure ((t.words 1).lead .blank)
      | none => if keyword == "var" then refused else pure []
    let values ← if ← at_ "=" then do
        let eq ← take
        let xs ← exprs fuel
        pure ({ eq with gap := .blank } :: (Expr.listWords 1 0 xs).lead .blank)
      else pure []
    return n :: names ++ t ++ values

end

/-! ## Files -/

/-- one entry of a group of imports -/
structure ImportLine where
  words : Words
  name : String
  path : String

def importLine : Parse ImportLine := do
  let name ← if (← atKind .name) || (← at_ ".") then some <$> take else pure none
  if !(← atKind .quoted) || Text.startsWith (← here).text "'" then refused
  let path ← take
  expectEnd
  return {
    words := match name with
      | some n => [n, { path with gap := .blank }]
      | none => [path]
    name := (name.map Word.text).getD ""
    path := String.ofList (path.text.toList.drop 1).dropLast }

def importLines : Nat → Parse (List ImportLine)
  | 0 => refused
  | fuel + 1 => do
    if ← at_ ")" then return []
    let i ← importLine
    return i :: (← importLines fuel)

/-- lines of a group that follow each other without an empty line between them -/
def importRuns (run : List ImportLine) : List ImportLine → List (List ImportLine)
  | [] => if run.isEmpty then [] else [run.reverse]
  | i :: rest =>
    match run with
    | [] => importRuns [i] rest
    | p :: _ =>
      if p.words.lastLine + 1 < i.words.firstLine then run.reverse :: importRuns [i] rest else importRuns (i :: run) rest

/-- leaves out a line that the next one repeats -/
def dropRepeated : List ImportLine → List ImportLine
  | a :: b :: rest =>
    if a.path = b.path && a.name = b.name then dropRepeated (b :: rest) else a :: dropRepeated (b :: rest)
  | is => is

/-- the lines of each run in the order of their paths -/
def sortImports (is : List ImportLine) : List ImportLine :=
  (importRuns [] is).flatMap fun run =>
    dropRepeated (run.mergeSort fun a b => if a.path = b.path then Text.le a.name b.name else Text.le a.path b.path)

/-- an import declaration; in a whole file its lines are sorted -/
def importDeclaration (fuel : Nat) (whole : Bool) : Parse Words := do
  let keyword ← take
  if ← at_ "(" then
    let l ← take
    let is ← importLines fuel
    let r ← expect ")"
    expectEnd
    let is := if whole then sortImports is else is
    let g : Gap := if is.isEmpty then .tight else .broken
    return keyword :: { l with gap := .blank } :: is.flatMap (·.words.lead .broken) ++ [{ r with gap := g }]
  return keyword :: (← importLine).words.lead .blank

def functionDeclaration (fuel : Nat) : Parse Words := do
  let keyword ← take
  let receiver ← if ← at_ "(" then (do return (← parameters fuel).1.lead .blank) else pure []
  let n ← expectName
  let head := keyword :: receiver ++ { n with gap := .blank } :: (← signature fuel)
  let body ← if ← at_ "\x7b" then (do return (← nested (block fuel)).body head) else pure []
  expectEnd
  return head ++ body

/-- the declarations of a file; imports come first -/
def declarations : Nat → (whole importing : Bool) → Parse Words
  | 0, _, _ => refused
  | fuel + 1, whole, importing => do
    let t ← here
    if t.kind == .ending then return []
    match t.mark with
    | "import" =>
      if !importing then refused
      let ws ← importDeclaration fuel whole
      return ws.lead .broken ++ (← declarations fuel whole true)
    | "const" | "type" | "var" =>
      let ws ← declarationOf fuel
      return ws.lead .broken ++ (← declarations fuel whole false)
    | "func" =>
      let ws ← functionDeclaration fuel
      return ws.lead .broken ++ (← declarations fuel whole false)
    | _ => throw .noDeclaration

/-- a whole file -/
def fileWords (fuel : Nat) : Parse Words := do
  if !(← at_ "package") then throw .noPackage
  let keyword ← take
  let n ← expectName
  if n.text = "_" then refused
  expectEnd
  return keyword :: { n with gap := .blank } :: (← declarations fuel true true)

/-- statements and nothing else -/
def statementWords (fuel : Nat) : Parse Words := do
  let stmts ← statements fuel
  if ← atKind .ending then return stmts.flatMap (·.lead .broken) else refused

end Schemata.Source
