import Schemata.Source.Lexeme

/-!
Printed words, and expressions laid out as words.

A word is a piece of text with the gap before it: none, a blank, or a line break. Inside an expression the gaps
around operators depend on how deep the expression is nested and which operators it mixes: operators that bind
tightly lose their blanks first. Lists keep the line breaks of the text that they were read from.
-/

namespace Schemata.Source

inductive Gap where
  | tight | blank | broken
  deriving Repr, DecidableEq, Inhabited

structure Word where
  text : String
  gap : Gap := .tight
  /-- where it was read -/
  line : Nat := 0
  last : Nat := 0
  /-- the number of the lexeme that it is, unless it was added -/
  place : Option Nat := none
  deriving Repr, DecidableEq, Inhabited

abbrev Words := List Word

namespace Words

/-- words with another gap before the first -/
def lead (g : Gap) : Words → Words
  | [] => []
  | w :: ws => { w with gap := g } :: ws

/-- the length of words on one line; none if they are broken -/
def size? (ws : Words) : Option Nat :=
  match ws with
  | [] => some 0
  | w :: rest =>
    rest.foldl (fun acc w => acc.bind fun n =>
      match w.gap with
      | .tight => some (n + Text.byteLength w.text)
      | .blank => some (n + 1 + Text.byteLength w.text)
      | .broken => none) (some (Text.byteLength w.text))

def firstLine (ws : Words) : Nat := (ws.head?.map Word.line).getD 0

def lastLine (ws : Words) : Nat := (ws.getLast?.map Word.last).getD 0

end Words

/-- a comma that was not read -/
def comma (line : Nat) : Word := { text := ",", line, last := line }

/-! ## Expressions -/

inductive Expr where
  /-- nothing, where something may be left out -/
  | absent
  | name (w : Word)
  /-- a literal, or a part without operators -/
  | atom (ws : Words)
  /-- a type that a literal can be made of -/
  | form (ws : Words)
  | paren (opening : Word) (x : Expr) (closing : Word)
  | selector (x : Expr) (dot field : Word)
  /-- a type assertion; `guard` asks for the type itself -/
  | assertion (x : Expr) (ws : Words) (guard : Bool)
  | index (x : Expr) (opening : Word) (args : List Expr) (closing : Word)
  | slice (x : Expr) (opening : Word) (parts : List Expr) (closing : Word)
  | call (f : Expr) (opening : Word) (args : List Expr) (dots : Option Word) (closing : Word)
  | star (op : Word) (x : Expr)
  | unary (op : Word) (x : Expr)
  | binary (x : Expr) (op : Word) (y : Expr)
  | keyed (key : Expr) (colon : Word) (value : Expr)
  | literal (type : Expr) (opening : Word) (items : List Expr) (closing : Word)
  deriving Inhabited

/-- how tightly an operator binds; 0 for none between two operands -/
def precedence (op : String) : Nat :=
  if op = "||" then 1
  else if op = "&&" then 2
  else if ["==", "!=", "<", "<=", ">", ">="].contains op then 3
  else if ["+", "-", "|", "^"].contains op then 4
  else if ["*", "/", "%", "<<", ">>", "&", "&^"].contains op then 5
  else 0

namespace Expr

def isBinary : Expr → Bool
  | binary _ _ _ => true
  | _ => false

def isAbsent : Expr → Bool
  | absent => true
  | _ => false

def operator : Expr → String
  | binary _ op _ => op.text
  | _ => ""

/-- the line where an expression starts -/
def firstLine : Expr → Nat
  | absent => 0
  | name w => w.line
  | atom ws => ws.firstLine
  | form ws => ws.firstLine
  | paren l _ _ => l.line
  | selector x _ _ => x.firstLine
  | assertion x _ _ => x.firstLine
  | index x _ _ _ => x.firstLine
  | slice x _ _ _ => x.firstLine
  | call f _ _ _ _ => f.firstLine
  | star op _ => op.line
  | unary op _ => op.line
  | binary x _ _ => x.firstLine
  | keyed k _ _ => k.firstLine
  | literal absent l _ _ => l.line
  | literal t _ _ _ => t.firstLine

/-- the line where an expression ends -/
def lastLine : Expr → Nat
  | absent => 0
  | name w => w.last
  | atom ws => ws.lastLine
  | form ws => ws.lastLine
  | paren _ _ r => r.last
  | selector _ _ f => f.last
  | assertion _ ws _ => ws.lastLine
  | index _ _ _ r => r.last
  | slice _ _ _ r => r.last
  | call _ _ _ _ r => r.last
  | star _ x => x.lastLine
  | unary _ x => x.lastLine
  | binary _ _ y => y.lastLine
  | keyed _ _ v => v.lastLine
  | literal _ _ _ r => r.last

/-- what the operators of an expression are: whether there are additive and multiplicative ones, and how tightly the worst pair of an
operator and a sign binds that must be kept apart -/
structure Mix where
  additive : Bool := false
  multiplicative : Bool := false
  clash : Nat := 0

def Mix.join (a b : Mix) : Mix :=
  { additive := a.additive || b.additive, multiplicative := a.multiplicative || b.multiplicative, clash := max a.clash b.clash }

/-- the operators of an expression down to the next parentheses -/
def mix : Expr → Mix
  | binary x op y =>
    let own : Mix := { additive := precedence op.text == 4, multiplicative := precedence op.text == 5 }
    let left : Mix := if precedence x.operator < precedence op.text then {} else x.mix
    let right : Mix := match y with
      | binary _ o _ => if precedence o.text ≤ precedence op.text then {} else y.mix
      | star _ _ => if op.text == "/" then { clash := 5 } else {}
      | unary sign _ =>
        if ["/*", "&&", "&^"].contains (op.text ++ sign.text) then { clash := 5 }
        else if ["++", "--"].contains (op.text ++ sign.text) then { clash := 4 }
        else {}
      | _ => {}
    own.join (left.join right)
  | _ => {}

/-- operators that bind at least this tightly stand without blanks -/
def cutoff (m : Mix) (depth : Nat) : Nat :=
  if m.clash > 0 then m.clash + 1
  else if m.additive && m.multiplicative then (if depth == 1 then 5 else 4)
  else if depth == 1 then 6
  else 4

/-- an expression without the parentheses around it -/
def bare : Expr → Expr
  | paren _ x _ => x.bare
  | x => x

/-- lays out a list that was read between two lines: its words, and the gap before what closes it. Line 0 stands for no opening. -/
def spread (terminated : Bool) (opened : Nat) (items : List (Expr × Words)) (closed : Nat) : Words × Gap :=
  let firstLine := (items.head?.map fun p => p.1.firstLine).getD 0
  let lastLine := (items.getLast?.map fun p => p.1.lastLine).getD 0
  if items.isEmpty then ([], .tight)
  else if opened == firstLine && firstLine == lastLine then
    ((items.zipIdx.flatMap fun ((_, ws), i) => if i == 0 then ws else comma firstLine :: ws.lead .blank), .tight)
  else
    let step (acc : Words × Nat) (item : Expr × Words) : Words × Nat :=
      let (x, ws) := item
      let g : Gap := if 0 < acc.2 && acc.2 < x.firstLine then .broken else if acc.1.isEmpty then .tight else .blank
      ((if acc.1.isEmpty then ws.lead g else acc.1 ++ comma acc.2 :: ws.lead g), x.lastLine)
    let (ws, _) := items.foldl step ([], opened)
    if terminated && lastLine < closed then (ws ++ [comma lastLine], .broken) else (ws, .tight)

mutual

/-- the words of an expression at a depth -/
def words (depth : Nat) : Expr → Words
  | absent => []
  | name w => [w]
  | atom ws => ws
  | form ws => ws
  | paren l x r =>
    match x with
    | paren _ _ _ => x.words depth
    | _ => l :: x.words (max 1 (depth - 1)) ++ [r]
  | selector x dot field =>
    x.words depth ++ [dot, { field with gap := if dot.last < field.line then .broken else .tight }]
  | assertion x ws _ => x.words depth ++ ws
  | index x l args r =>
    let (ws, g) := spread true l.line (wordsOf (depth + 1) args) r.line
    x.words 1 ++ l :: ws ++ [{ r with gap := g }]
  | slice x l parts r =>
    let spaced := depth ≤ 1 && (parts.filter fun p => !p.isAbsent).length > 1 && parts.any isBinary
    x.words 1 ++ l :: sliceWords spaced (depth + 1) true parts ++ [r]
  | call f l args dots r =>
    let depth := if args.length > 1 then depth + 1 else depth
    match dots with
    | some d =>
      let (ws, _) := spread false l.line (wordsOf depth args) d.line
      f.words depth ++ l :: ws ++ d :: (if d.line < r.line then [comma d.line, { r with gap := .broken }] else [r])
    | none =>
      let (ws, g) := spread true l.line (wordsOf depth args) r.line
      f.words depth ++ l :: ws ++ [{ r with gap := g }]
  | star op x => op :: x.words 1
  | unary op x => op :: x.words depth
  | binary x op y =>
    let p := precedence op.text
    let blanks := p < cutoff (mix (binary x op y)) depth
    let g : Gap := if blanks then .blank else .tight
    let left := x.words (if precedence x.operator == p then depth else depth + 1)
    let right := (y.words (depth + 1)).lead (if x.lastLine < y.firstLine then .broken else g)
    left ++ { op with gap := g } :: right
  | keyed k colon v => k.words 1 ++ colon :: (v.words 1).lead .blank
  | literal t l items r =>
    let (ws, g) := spread true l.line (wordsOf 1 items) r.line
    t.words depth ++ l :: ws ++ [{ r with gap := g }]

def wordsOf (depth : Nat) : List Expr → List (Expr × Words)
  | [] => []
  | x :: xs => (x, x.words depth) :: wordsOf depth xs

/-- the parts of a slice with colons between them; blanks stand next to parts that are there -/
def sliceWords (spaced : Bool) (depth : Nat) (first : Bool) : List Expr → Words
  | [] => []
  | x :: xs =>
    let ws := x.words depth
    let own := if first then ws
      else { text := ":", gap := .tight } :: (if spaced then ws.lead .blank else ws)
    let next := sliceWords spaced depth false xs
    own ++ (if spaced && !ws.isEmpty then next.lead .blank else next)

end

/-- a list of expressions, commas between them, with the line breaks it was read with -/
def listWords (depth opened : Nat) (xs : List Expr) : Words := (spread false opened (wordsOf depth xs) 0).1

end Expr

end Schemata.Source
