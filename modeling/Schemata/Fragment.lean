import Schemata.Issue
import Schemata.Number.Integer
import Schemata.Uri
import Schemata.Value

/-!
Fragments: pointers from the root of a document to a value inside it.

A fragment is empty, which is the root, or a slash before each step. A step is a key or an index; in it `~1` stands
for a slash, `~0` for a tilde, and percent escapes are resolved first.
-/

namespace Schemata.Fragment

/-- the key that a step names -/
def unescape (step : String) : String :=
  let s := (Uri.unescape? step).getD step
  String.ofList (Text.replaceEach [("~1".toList, "/".toList), ("~0".toList, "~".toList)] 0 s.toList)

/-- the steps of a fragment that is not empty -/
def steps (fragment : String) : List String :=
  (Text.splitOn (String.ofList (fragment.toList.drop 1)) "/").map unescape

/-- an index: digits, possibly behind a sign -/
def indexOf? (step : String) : Option Nat :=
  match Number.signed64? (Number.naturalOf? 10) step.toList with
  | some n => if n < 0 then none else some n.toNat
  | none => none

/-- one step down -/
def step? (v : Value) (step : String) : Option Value :=
  match v with
  | .object fs => Dict.get? fs step
  | .array xs => (indexOf? step).bind fun i => xs[i]?
  | _ => none

def walk? (v : Value) : List String → Option Value
  | [] => some v
  | s :: rest => (step? v s).bind fun w => walk? w rest

/-- the value behind a fragment; a root that is null is none -/
def find? (root : Value) (fragment : String) : Option Value :=
  if fragment = "" then (if root.isNull then none else some root) else walk? root (steps fragment)

/-- the key of the last step -/
def lastKey (fragment : String) : String := unescape (Text.lastElement fragment "/")

/-- a fragment as it stands in messages -/
def display (fragment : String) : String := "#" ++ fragment

end Schemata.Fragment
