import Schemata.Source.Grammar

/-!
The canonical layout of source text.

A text is a whole file, or a part of one: declarations, or statements. Its words are joined with the gaps that the
grammar gives them, and comments go back before the lexemes that they stood before. A text whose layout is canonical
already stays as it is.
-/

namespace Schemata.Source

def Gap.text : Gap → String
  | tight => ""
  | blank => " "
  | broken => "\n"

/-! ## Comments -/

/-- a comment for tools, not for readers; the slashes are taken off -/
def isDirective (s : String) : Bool :=
  if ["line ", "extern ", "export "].any (Text.startsWith s) then true
  else
    let small (c : Char) : Bool := ('a' ≤ c && c ≤ 'z') || c.isDigit
    let head := s.toList.takeWhile (· != ':')
    match s.toList.drop head.length with
    | ':' :: c :: _ => !head.isEmpty && head.all small && small c
    | _ => false

/-- pairs of single quotes become double ones -/
def typographic (s : String) : String := Text.replaceAll (Text.replaceAll s "\x60\x60" "“") "\x27\x27" "”"

/-- lines without empty ones at the ends, and at most one between others -/
def squeezed (pending : Bool) : List String → List String
  | [] => []
  | l :: ls =>
    if Text.trimSpace l = "" then squeezed pending ls |> fun rest => if pending && !rest.isEmpty && rest.head? ≠ some "" then "" :: rest else rest
    else l :: squeezed true ls

/-- the comment lines above a declaration in their usual form, a blank behind the slashes and directives last -/
def documentation (texts : List String) : List String :=
  let bodies := texts.map fun t => String.ofList (t.toList.drop 2)
  let directives := bodies.filter isDirective
  let lines := squeezed false ((bodies.filter fun b => !isDirective b).map fun b => Text.trimPrefix b " ")
  let written := lines.map fun l =>
    if l = "" then "//" else if Text.startsWith l "\t" then "//" ++ l else "// " ++ typographic (Text.trimRight l Text.isBlank)
  if lines.isEmpty then texts
  else written ++ (if directives.isEmpty then [] else "//" :: directives.map ("//" ++ ·))

/-- the last comments of a list that stand on lines directly below each other -/
def lastGroup (rs : List Remark) : List Remark :=
  (rs.reverse.foldl (fun (acc : List Remark × Bool) r =>
    match acc with
    | ([], _) => ([r], true)
    | (next :: more, true) => if r.last + 1 == next.line then (r :: next :: more, true) else (next :: more, false)
    | (group, false) => (group, false)) ([], true)).1

/-- the texts of comments before a lexeme; those directly above one that starts a line are documentation -/
def remarkTexts (rs : List Remark) (t : Lexeme) : List (Remark × String) :=
  let group := lastGroup rs
  let above := group.all Remark.toLineEnd && (group.head?.any fun r => r.column == 1)
    && (group.getLast?.any fun r => r.last + 1 == t.line) && t.column == 1
  if above then
    let before := (rs.take (rs.length - group.length)).map fun r => (r, r.text)
    let anchor := group.getLast?.getD ⟨"", 0, 0, 0, 0⟩
    before ++ (documentation (group.map Remark.text)).map fun s => (anchor, s)
  else rs.map fun r => (r, Text.trimRight r.text Text.isBlank)

/-! ## Joining -/

/-- what was printed last: its text, and the line where it ended when it was read -/
structure Printed where
  text : String := ""
  line : Nat := 0

/-- the gap between a comment and the word behind it -/
def gapBehind (r : Remark) (opened : String) (w : Word) : Gap :=
  if r.toLineEnd || w.gap = .broken then .broken
  else if r.line == w.line && w.text ≠ "," && (w.text ≠ ")" || opened == "(") && (w.text ≠ "]" || opened == "[") then .blank
  else w.gap

/-- prints comments; before each stands a blank, or a line break if it started a line -/
def printRemarks (p : Printed) : List (Remark × String) → List String × Printed
  | [] => ([], p)
  | (r, s) :: rest =>
    let lead := if p.line = 0 then "" else if p.line < r.line || Text.startsWith p.text "//" then "\n" else " "
    let (more, p) := printRemarks { text := s, line := r.last } rest
    (lead :: s :: more, p)

/-- prints words, with comments where they belong -/
def printWords (lexemes : Array Lexeme) (p : Printed) (rs : List Remark) : Words → List String
  | [] =>
    let ending := lexemes.back?.getD default
    (printRemarks p (remarkTexts rs ending)).1
  | w :: ws =>
    let now := rs.takeWhile fun r => w.place.any (r.before ≤ ·)
    let later := rs.drop now.length
    let t := (w.place.bind (lexemes[·]?)).getD default
    let (comments, _) := printRemarks p (remarkTexts now t)
    let gap : Gap := match now.getLast? with
      | some r => gapBehind r p.text w
      | none => if p.line = 0 then .tight else w.gap
    comments ++ gap.text :: w.text :: printWords lexemes { text := w.text, line := max w.last (max p.line 1) } later ws

/-! ## Texts -/

/-- the words of a text: of a whole file, else of declarations, else of statements -/
def wordsOf? (lexemes : Array Lexeme) (rs : List Remark) : Option Words :=
  let start : Reading := { rest := lexemes.toList.zipIdx, remarked := rs.map Remark.before }
  let fuel := 64 * (lexemes.size + 4)
  match (fileWords fuel).run start with
  | .ok (ws, _) => some ws
  | .error .noPackage =>
    match (declarations fuel false true).run start with
    | .ok (ws, _) => some ws
    | .error .noDeclaration => ((statementWords fuel).run start).toOption.map (·.1)
    | .error _ => none
  | .error _ => none

/-- the canonical layout of a text; none if it is no source text -/
def canonical? (text : String) : Option String := do
  let (lexemes, rs) ← lex? text
  let ws ← wordsOf? lexemes rs
  if ws.isEmpty && rs.isEmpty then return text
  let printed := String.join (printWords lexemes {} rs ws) ++ "\n"
  return if Text.collapse printed = Text.collapse text then text else printed

end Schemata.Source
