import Schemata.Dialect
import Schemata.FileTree
import Schemata.Graph.Basic
import Schemata.Yaml.Record

/-!
Project settings.

Settings come from a YAML file over defaults; keys that do not exist are refused, and every setting without a
meaning is reported. Relative paths of a project start at the directory of its file.
-/

namespace Schemata

/-- how validators are generated -/
structure ValidatorConfig where
  formats : Bool := true
  coerce : Bool := false
  assert : Bool := false
  deriving Repr, DecidableEq

structure ImportConfig where
  /-- what objects do with keys that they do not declare, by name -/
  unknown : String := ""
  rules : Bool := true
  embedded : Bool := false
  deriving Repr, DecidableEq

structure FetchConfig where
  disabled : Bool := false
  root : String := ""
  deriving Repr, DecidableEq

structure Config where
  out : String := "gen"
  dialect : String := "jsonschema"
  validators : String := "none"
  includes : List String := ["*.schema.json", "*.schema.yaml", "*.crd.yaml"]
  excludes : List String := []
  pretty : Bool := true
  schemaUri : Bool := true
  /-- remove generated directories before writing -/
  clean : Bool := true
  strict : Bool := false
  validator : ValidatorConfig := {}
  imports : ImportConfig := {}
  fetch : FetchConfig := {}
  /-- where relative paths start -/
  root : String := "."
  deriving Repr, DecidableEq

namespace Config

open Yaml

def validatorFields : List (String × Slot ValidatorConfig) :=
  [("formats", boolSlot fun b r => { r with formats := b }),
   ("coerce", boolSlot fun b r => { r with coerce := b }),
   ("assert", boolSlot fun b r => { r with assert := b })]

def importFields : List (String × Slot ImportConfig) :=
  [("unknown", textSlot fun s r => { r with unknown := s }),
   ("cel", boolSlot fun b r => { r with rules := b }),
   ("embeddedChecks", boolSlot fun b r => { r with embedded := b })]

def fetchFields : List (String × Slot FetchConfig) :=
  [("disabled", boolSlot fun b r => { r with disabled := b }),
   ("root", textSlot fun s r => { r with root := s })]

def fields : List (String × Slot Config) :=
  [("out", textSlot fun s r => { r with out := s }),
   ("dialect", textSlot fun s r => { r with dialect := s }),
   ("validators", textSlot fun s r => { r with validators := s }),
   ("include", textsSlot fun ss r => { r with includes := ss }),
   ("exclude", textsSlot fun ss r => { r with excludes := ss }),
   ("pretty", boolSlot fun b r => { r with pretty := b }),
   ("schemaURI", boolSlot fun b r => { r with schemaUri := b }),
   ("clean", boolSlot fun b r => { r with clean := b }),
   ("strict", boolSlot fun b r => { r with strict := b }),
   ("validator", recordSlot Config.validator (fun v r => { r with validator := v }) validatorFields),
   ("import", recordSlot Config.imports (fun v r => { r with imports := v }) importFields),
   ("fetch", recordSlot Config.fetch (fun v r => { r with fetch := v }) fetchFields)]

/-- what a name says about keys that are not declared: the documents decide, or one rule for all -/
def unlistedOf? : String → Option (Option Unlisted)
  | "" => some none
  | "prune" => some (some .drop)
  | "strict" => some (some .reject)
  | "preserve" => some (some .keep)
  | _ => none

def unlisted (c : Config) : Option Unlisted := (unlistedOf? c.imports.unknown).getD none

def schemaDialect (c : Config) : Dialect := (Dialect.parse? c.dialect).getD .plain

/-- are validators emitted as source text? -/
def emitsValidators (c : Config) : Bool := c.validators == "source"

/-- settings without a meaning -/
def problems (c : Config) : List String :=
  (if c.out = "" then ["out must not be empty"] else [])
  ++ (if (Dialect.parse? c.dialect).isNone then ["unknown dialect " ++ Text.quote c.dialect] else [])
  ++ (if c.validators = "none" || c.validators = "source" then []
      else ["validators must be \"none\" or \"source\", got " ++ Text.quote c.validators])
  ++ (if (unlistedOf? c.imports.unknown).isNone then ["unknown import.unknown " ++ Text.quote c.imports.unknown] else [])
  ++ (if c.includes.isEmpty then ["include must list at least one pattern"] else [])
  ++ (if (c.includes ++ c.excludes).contains "" then ["empty include/exclude pattern"] else [])

/-- the settings, if all of them have a meaning -/
def validated (c : Config) : Outcome Config :=
  match Failure.join? (c.problems.map Failure.plain) with
  | some f => failWith f
  | none => .ok c

/-- the settings of a text over the defaults -/
def ofText (text : String) : Outcome Config :=
  match readOver fields text ({} : Config) with
  | .ok c => c.validated
  | .error e => failWith (.wrapped "failed to parse config file: " (.ofReader .yaml e.message) "")

/-- the names of settings files, the preferred one first -/
def fileNames : List String := ["skemac.yaml", "skemac.yml"]

/-- the settings of a file; relative paths start at its directory -/
def ofFile (t : FileTree) (path : String) : Outcome Config := do
  match t.look "open" path with
  | .error e => failWith (.wrapped "failed to read config file: " e.failure "")
  | .ok _ =>
    match t.read path with
    | .error e => failWith (.wrapped (path ++ ": failed to parse config file: ") (.ofReader .yaml e.message) "")
    | .ok text =>
      let c ← Outcome.mapFailure (ofText text) fun f => .wrapped (path ++ ": ") f ""
      return { c with root := Path.dir path }

/-- the settings at a path: of the file, of the settings file in the directory, or the defaults there -/
def load (t : FileTree) (path : String) : Outcome Config :=
  match t.look "stat" path with
  | .error e => failWith (.wrapped "failed to stat path: " e.failure "")
  | .ok (.file _) => ofFile t path
  | .ok .directory =>
    match (fileNames.map fun n => Path.join [path, n]).find? t.has with
    | some p => ofFile t p
    | none => .ok { root := path }

/-- a path of the project -/
def path (c : Config) (p : String) : String := if Path.isAbsolute p || c.root = "" then p else Path.join [c.root, p]

/-- where relative addresses of documents start -/
def fetchRoot (c : Config) : String := if c.fetch.root = "" then c.root else c.path c.fetch.root

end Config

end Schemata
