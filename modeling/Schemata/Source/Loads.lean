import Schemata.Dict
import Schemata.Failure

/-!
Dynamic loads and imports.

A load `require("path").Name` names a package by its path where it is used. `bindLoads` gives every path one alias,
replaces each load by a selector on the alias, and lists the imports behind the package clause. Loads are found from
left to right and do not overlap.
-/

namespace Schemata.Source

/-- a part of a source text: plain text, or a load -/
inductive Piece where
  | words (s : String)
  | load (path name : String)
  deriving Repr, DecidableEq

def isIdentStart (c : Char) : Bool := c.isAlpha || c == '_'

def isIdentChar (c : Char) : Bool := c.isAlphanum || c == '_'

/-- a load at the start of a text, and the text behind it -/
def scanLoad? (cs : List Char) : Option (String × String × List Char) :=
  match Text.dropPrefix? "require(\"".toList cs with
  | none => none
  | some r =>
    let path := r.takeWhile (· != '"')
    match path.isEmpty, Text.dropPrefix? "\").".toList (r.dropWhile (· != '"')) with
    | false, some (c :: r2) =>
      if isIdentStart c then
        some (String.ofList path, String.ofList ((c :: r2).takeWhile isIdentChar), (c :: r2).dropWhile isIdentChar)
      else none
    | _, _ => none

/-- a source divided into loads and the text between them; `skip` characters belong to the current load -/
def pieces (acc : List Char) : Nat → List Char → List Piece
  | _, [] => if acc.isEmpty then [] else [.words (String.ofList acc.reverse)]
  | skip + 1, _ :: cs => pieces acc skip cs
  | 0, c :: cs =>
    if c == 'r' then
      match scanLoad? (c :: cs) with
      | some (path, name, rest) =>
        let before := if acc.isEmpty then [] else [Piece.words (String.ofList acc.reverse)]
        before ++ .load path name :: pieces [] (cs.length - rest.length) cs
      | none => pieces (c :: acc) 0 cs
    else pieces (c :: acc) 0 cs

/-- the paths that a source loads from, sorted and without repetition -/
def loadedPaths (ps : List Piece) : List String :=
  sortedSet (ps.filterMap fun | .load path _ => some path | .words _ => none)

/-- the name of a path: the letters, digits and underscores of its last element, without leading digits -/
def importName (path : String) : String :=
  let step (acc : List Char) (c : Char) : List Char :=
    if c == '_' || c.isAlpha || (c.isDigit && !acc.isEmpty) then c :: acc else acc
  let name := ((Text.lastElement path "/").toList.foldl step []).reverse
  if name.isEmpty then "dep" else String.ofList name

/-- the first of `base`, `base2`, `base3`, … that is not used; one of as many names as are used, and one more, is free -/
def freeName (used : List String) (base : String) : Nat → Nat → String
  | 0, i => base ++ toString i
  | fuel + 1, i =>
    let name := if i = 1 then base else base ++ toString i
    if used.contains name then freeName used base fuel (i + 1) else name

/-- an alias for every path, in order -/
def aliases (used : List String) : List String → List (String × String)
  | [] => []
  | p :: ps =>
    let a := freeName used (importName p) (used.length + 1) 1
    (p, a) :: aliases (a :: used) ps

def aliasOf (as : List (String × String)) (path : String) : String := (Dict.get? as path).getD ""

def Piece.text (as : List (String × String)) : Piece → String
  | words s => s
  | load path name => aliasOf as path ++ "." ++ name

def importBlock (as : List (String × String)) : String :=
  "import (\n" ++ String.join (as.map fun (p, a) => "\t" ++ a ++ " " ++ Text.quote p ++ "\n") ++ ")\n"

/-- is this the line of a package clause? -/
def isPackageClause (line : String) : Bool := Text.startsWith (Text.trimSpace line) "package "

/-- puts a text behind the first line that is a package clause; `none` without one -/
def insertAfterPackage (block : String) : List String → Option (List String)
  | [] => none
  | [line] => if isPackageClause line then some [line ++ block] else none
  | line :: rest =>
    if isPackageClause line then some ((line ++ "\n" ++ block ++ rest.headD "") :: rest.drop 1)
    else (insertAfterPackage block rest).map (line :: ·)

/-- replaces the loads of a source by imports; the paths that it imports are the second part -/
def bindLoads (src : String) : Outcome (String × List String) :=
  let ps := pieces [] 0 src.toList
  let paths := loadedPaths ps
  if paths.isEmpty then .ok (src, [])
  else
    let as := aliases [] paths
    let body := String.join (ps.map (Piece.text as))
    match insertAfterPackage ("\n" ++ importBlock as) (Text.splitOn body "\n") with
    | none => failWith (.unsupported "generated source has no package clause")
    | some lines => .ok ("\n".intercalate lines, paths)

end Schemata.Source
