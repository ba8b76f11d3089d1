import Schemata.Text.Basic

/-!
Slash-separated paths: cleaning, joining and taking them apart.

`clean` gives the shortest path of the same meaning by rules on the text alone: empty and `.` elements go, `..`
takes the element before it along, and `..` at the root of an absolute path goes.
-/

namespace Schemata.Path

/-- elements of a clean path, reversed; `rooted` paths cannot leave their root -/
def cleanStep (rooted : Bool) (acc : List String) (e : String) : List String :=
  if e = "" ∨ e = "." then acc
  else if e = ".." then
    match acc with
    | [] => if rooted then [] else [".."]
    | top :: rest => if top = ".." then ".." :: acc else rest
  else e :: acc

def isAbsolute (p : String) : Bool := p.toList.head? == some '/'

/-- the shortest path of the same meaning; the empty path is the current directory -/
def clean (p : String) : String :=
  let rooted := isAbsolute p
  let elements := ((Text.splitOn p "/").foldl (cleanStep rooted) []).reverse
  let body := "/".intercalate elements
  if rooted then "/" ++ body else if body = "" then "." else body

/-- the names of a path, without empty ones and those that stay in place -/
def elements (p : String) : List String := (Text.splitOn p "/").filter fun e => e ≠ "" && e ≠ "."

/-- joins non-empty parts and cleans the result; of nothing but empty parts it is empty -/
def join (parts : List String) : String :=
  let parts := parts.filter (· ≠ "")
  if parts.isEmpty then "" else clean ("/".intercalate parts)

/-- everything before the last slash, cleaned -/
def dir (p : String) : String :=
  let parts := Text.splitOn p "/"
  if parts.length ≤ 1 then "." else clean ("/".intercalate parts.dropLast ++ "/")

/-- the last element; trailing slashes do not count -/
def base (p : String) : String :=
  if p = "" then "."
  else
    let p := Text.trimRight p (· == '/')
    if p = "" then "/" else Text.lastElement p "/"

/-- the end of the last element from its last point on -/
def ext (p : String) : String :=
  let parts := Text.splitOn (Text.lastElement p "/") "."
  if parts.length ≤ 1 then "" else "." ++ (parts.getLast?.getD "")

/-- what is left of two lists behind what they have in common -/
def dropCommon : List String → List String → List String × List String
  | a :: as, b :: bs => if a = b then dropCommon as bs else (a :: as, b :: bs)
  | as, bs => (as, bs)

/-- the way from one place to another: first up, then down -/
def relative (base target : String) : String :=
  let (up, down) := dropCommon (elements (clean base)) (elements (clean target))
  let way := up.map (fun _ => "..") ++ down
  if way.isEmpty then "." else "/".intercalate way

/-- does a way lead out of the place where it starts? -/
def leaves (way : String) : Bool := way = ".." || Text.startsWith way "../"

/-- a path below a place; one that is absolute or leads out of the place keeps its last name only -/
def confine (p : String) : String :=
  let p := clean p
  if isAbsolute p || leaves p then base p else p

end Schemata.Path
