import Schemata.Dict

/-!
Files to be written.

A backend gives files with templates; later their names are filled in. A file may carry side files, which are
written next to it. A dependency is on the types of another file or on its values, and the stronger use counts.
-/

namespace Schemata

inductive FileKind where
  | schema | validator | declaration | unknown
  deriving Repr, DecidableEq, Inhabited

namespace FileKind

def name : FileKind → String
  | schema => "schema"
  | validator => "validator"
  | declaration => "declaration"
  | unknown => "unknown"

def ofCode : Int → FileKind
  | 0 => schema
  | 1 => validator
  | 2 => declaration
  | _ => unknown

end FileKind

/-- how a file uses another -/
inductive Dependency where
  | type | value
  deriving Repr, DecidableEq

namespace Dependency

def code : Dependency → Nat
  | type => 0
  | value => 1

def name : Dependency → String
  | type => "type"
  | value => "value"

/-- both uses together -/
def max (a b : Dependency) : Dependency := if a.code < b.code then b else a

end Dependency

structure OutputFile where
  path : String
  kind : FileKind := .schema
  /-- the names that the template is filled from; the empty scope is shared by all files -/
  scope : String := ""
  template : String := ""
  pretty : Bool := false
  text : String := ""
  /-- what the placeholders of the template became -/
  resolved : Dict String := []
  /-- the names that the file owns -/
  symbols : List String := []
  deps : Dict Dependency := []
  /-- a directory to be removed before anything is written -/
  clean : String := ""
  artifacts : List OutputFile := []
  deriving Inhabited

namespace OutputFile

/-- one more use of another file -/
def addDep (f : OutputFile) (path : String) (d : Dependency) : OutputFile :=
  { f with deps := f.deps.insert path (match f.deps.get? path with | some e => e.max d | none => d) }

mutual

/-- the file and its side files, depth first -/
def flatten (f : OutputFile) : List OutputFile :=
  match f with
  | ⟨path, kind, scope, template, pretty, text, resolved, symbols, deps, clean, artifacts⟩ =>
    ⟨path, kind, scope, template, pretty, text, resolved, symbols, deps, clean, artifacts⟩ :: flattenAll artifacts

def flattenAll : List OutputFile → List OutputFile
  | [] => []
  | f :: fs => f.flatten ++ flattenAll fs

end

end OutputFile

end Schemata
