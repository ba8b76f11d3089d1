import Schemata.FileTree
import Schemata.Pattern.Syntax

/-!
Finding input files in a tree.

Files are chosen by lists of path patterns. A pattern is put into the words of a regular expression: `*` stands for
any part of a name, `**` for any number of directories, a slash in front ties the pattern to the root, and what
matches a directory matches everything below it. Of several lines that match, the last one counts, and one that
starts with `!` takes back what those before it matched.
-/

namespace Schemata

/-- one line of a list of path patterns -/
structure PathRule where
  pattern : Pattern
  negated : Bool

namespace PathRule

/-- stands for a star of the expression while the stars of the line are replaced -/
def kept : String := "#$~"

/-- a directory before a name with an extension behind a star -/
def nestedStar : List Char → Bool
  | [] => false
  | [_] => false
  | c :: d :: rest =>
    (c != '/' && c != '+' && d == '/' && Text.contains (String.ofList (rest.takeWhile (· != '\n'))) "*.")
      || nestedStar (d :: rest)

/-- the expression of a line that is neither empty nor a comment, its negation taken off -/
def expression (line : String) : String :=
  let line := match line.toList with
    | '#' :: rest => String.ofList rest
    | '!' :: rest => String.ofList rest
    | _ => line
  let line := if nestedStar line.toList && !Text.startsWith line "/" then "/" ++ line else line
  let line := Text.replaceAll line "." "\\."
  let line := if Text.startsWith line "/**/" then String.ofList (line.toList.drop 1) else line
  let line := Text.replaceAll line "/**/" "(/|/.+/)"
  let line := Text.replaceAll line "**/" ("(|." ++ kept ++ "/)")
  let line := Text.replaceAll line "/**" ("(|/." ++ kept ++ ")")
  let line := Text.replaceAll line "\\*" ("\\" ++ kept)
  let line := Text.replaceAll line "*" "([^/]*)"
  let line := Text.replaceAll line "?" "\\?"
  let line := Text.replaceAll line kept "*"
  let whole := line ++ (if Text.endsWith line "/" then "(|.*)$" else "(|/.*)$")
  match whole.toList with
  | '/' :: rest => "^(|/)" ++ String.ofList rest
  | _ => "^(|.*/)" ++ whole

/-- the rule of a line; empty lines, comments and what is no expression give none -/
def ofLine? (line : String) : Option PathRule :=
  let line := Text.trimRight line (· == '\r')
  if Text.startsWith line "#" then none
  else
    let line := Text.trimChars line (· == ' ')
    if line = "" then none
    else
      let (line, negated) := match line.toList with
        | '!' :: rest => (String.ofList rest, true)
        | _ => (line, false)
      match Pattern.parse (expression line) with
      | .ok pattern => some { pattern, negated }
      | .error _ => none

end PathRule

/-- a list of path patterns -/
structure PathRules where
  rules : List PathRule := []

namespace PathRules

def ofLines (lines : List String) : PathRules := { rules := lines.filterMap PathRule.ofLine? }

/-- the patterns of a file, one to a line -/
def ofText (text : String) : PathRules := ofLines (Text.splitOn text "\n")

/-- is a path chosen? The last line that matches decides. -/
def choose (r : PathRules) (path : String) : Bool :=
  r.rules.foldl (fun chosen rule => if rule.pattern.search path then !rule.negated else chosen) false

end PathRules

/-- what to look for -/
structure Selection where
  includes : List String
  excludes : List String := []
  /-- obey the list of ignored files at the root -/
  ignoreFile : Bool := true
  deriving Repr, DecidableEq

/-- directories that are never searched -/
def skippedDirectories : List String := ["node_modules", "vendor", ".git", ".hg", ".svn", "testdata", "_examples"]

namespace FileTree

/-- the names of a file below a directory -/
def namesBelow? (root place : String) : Option (List String) :=
  match Path.dropCommon (Path.elements root) (Path.elements place) with
  | ([], names) => if Path.isAbsolute root == Path.isAbsolute place && !names.contains ".." then some names else none
  | _ => none

/-- is a directory searched, given its way from the root? -/
def isSearched (excluded : String → Bool) (way : List String) : Bool :=
  let name := way.getLast?.getD ""
  !skippedDirectories.contains name && !Text.startsWith name "." && !excluded ("/".intercalate way ++ "/")

/-- the files below a root that are chosen, as sorted ways from the root -/
def discover (t : FileTree) (root : String) (s : Selection) : Outcome (List String) := do
  if s.includes.isEmpty then failWith (.plain "discover: no include patterns")
  let included := (PathRules.ofLines s.includes).choose
  let exclusion := PathRules.ofLines s.excludes
  let ignored := match s.ignoreFile, t.read (Path.join [root, ".gitignore"]) with
    | true, .ok text => PathRules.ofText text
    | _, _ => {}
  let excluded (way : String) : Bool := exclusion.choose way || ignored.choose way
  let wanted (name way : String) : Bool := !Text.startsWith name "." && included way && !excluded way
  match t.look "lstat" root, t.locate root with
  | .error e, _ => failWith e.failure
  | _, .error fault => failWith (FileError.failure ⟨"lstat", root, fault⟩)
  | .ok (.file _), _ => return if wanted (Path.base root) "." then ["."] else []
  | .ok .directory, .ok place =>
    return sortStrings (t.entries.filterMap fun (p, e) =>
      match e, namesBelow? place p with
      | .file _, some names =>
        let way := "/".intercalate names
        let above := (List.range (names.length - 1)).map fun i => names.take (i + 1)
        if above.all (isSearched excluded) && wanted (names.getLast?.getD "") way then some way else none
      | _, _ => none)

end FileTree

end Schemata
