import Schemata.Cli.Flags
import Schemata.Compile
import Schemata.Config
import Schemata.Discover
import Schemata.Emit.Writers
import Schemata.Emit.Layout
import Schemata.Emit.SchemaBackend
import Schemata.Fetch
import Schemata.Import
import Schemata.Sample

/-!
The commands of the program.

A command works on a console: a tree of files, and two streams of text. What was printed or written before a failure
stays. `compile` imports the inputs into one graph and emits documents and validators, `check` tests data files
against a schema, and `sample` prints a value that a schema allows.
-/

namespace Schemata.Cli

/-- what a command sees and changes -/
structure Console where
  tree : FileTree
  stdout : String := ""
  stderr : String := ""

abbrev Command (α : Type) := ExceptT Stop (StateM Console) α

def print (s : String) : Command Unit := modify fun c => { c with stdout := c.stdout ++ s }

def complain (s : String) : Command Unit := modify fun c => { c with stderr := c.stderr ++ s }

def fail {α : Type} (f : Failure) : Command α := throw (.failed f)

def lift {α : Type} (o : Outcome α) : Command α := fun c => (o, c)

/-- the failure of a wrong command line -/
def misused {α : Type} : Command α := fail (.leaf (.usage "usage"))

def usage : String := "skemac

Usage:
  skemac compile [-config path] [-out dir] [-dialect jsonschema|openapi] [-validators none|source] [-v] [inputs...]
  skemac check -schema file [-export name] [-dialect d] data.json...
  skemac sample [-export name] [-depth n] file
  skemac version

Without inputs, compile selects files with the include/exclude patterns of skemac.yaml.
"

/-! ## Flags -/

def verbose : Flag := ⟨"v", .switch false, "enable debug logs"⟩

def compileFlags : FlagSet := {
  command := "compile"
  flags := [
    verbose,
    ⟨"config", .text ".", "config file or directory holding skemac.yaml"⟩,
    ⟨"out", .text "", "output directory (overrides config)"⟩,
    ⟨"dialect", .text "", "jsonschema or openapi (overrides config)"⟩,
    ⟨"validators", .text "", "none or source (overrides config)"⟩] }

def checkFlags : FlagSet := {
  command := "check"
  flags := [
    verbose,
    ⟨"schema", .text "", "schema document (JSON Schema, OpenAPI or CRD)"⟩,
    ⟨"export", .text "", "export to check against (default: the first)"⟩,
    ⟨"dialect", .text "", "jsonschema or openapi (default: from the input format)"⟩,
    ⟨"coerce", .switch false, "accept numeric and boolean strings"⟩] }

def sampleFlags : FlagSet := {
  command := "sample"
  flags := [
    verbose,
    ⟨"export", .text "", "export to sample (default: the first)"⟩,
    ⟨"depth", .number 2, "maximum recursion depth through references"⟩,
    ⟨"defaults", .switch false, "prefer declared defaults"⟩] }

/-- the flags of a command line; help is no failure, and the command goes on -/
def parseFlags (fs : FlagSet) (args : List String) : Command Parsed := do
  let p := fs.parse args
  match p.ending with
  | .done => return p
  | .help =>
    complain fs.usage
    return p
  | .wrong problem =>
    complain (problem ++ "\n" ++ fs.usage)
    misused

/-- prints the flags and gives up -/
def refuse {α : Type} (fs : FlagSet) : Command α := do
  complain fs.usage
  misused

/-! ## Inputs -/

/-- documents of addresses, with files below a root -/
def fetcherAt (root : String) : Command Fetcher := do return Fetch.standard Fetch.offline (← get).tree root

/-- imports a file; the path names the document in failures -/
def importFile (t : FileTree) (path : String) (o : Import.Options) : GraphM Import.Imported := fun g =>
  match t.read path with
  | .error e => (failWith (.wrapped "importer: " e.failure ""), g)
  | .ok text =>
    let (r, g) := (Import.ofText { o with baseUri := path, name := Import.baseName path } text).run g
    (Outcome.mapFailure r (·.withPath path), g)

/-- a schema ready for use: its graph, where it comes from, and the entry asked for, or the first -/
def loadSchema (path entry : String) : Command (Graph × Import.Imported × Option Nat) := do
  let fetcher ← fetcherAt "."
  let (r, g) := (importFile (← get).tree path { fetcher := some fetcher, rules := true }).run {}
  let imported ← lift r
  if entry = "" then
    match imported.entries with
    | (_, n) :: _ => return (g, imported, n)
    | [] => lift abort
  else
    match imported.entries.find? (·.1 == entry) with
    | some (_, n) => return (g, imported, n)
    | none => fail (.plain ("no export named " ++ entry))

/-! ## check -/

/-- tests one data file: is it valid? -/
def checkFile (t : Wording) (p : Predicate) (path : String) : Command Bool := do
  match (← get).tree.read path with
  | .error e => fail e.failure
  | .ok text =>
    match Json.parseValue text with
    | .error e => fail (.wrapped (path ++ ": ") (.ofReader .json e.message) "")
    | .ok v =>
      match ← lift (Outcome.mapFailure (p.issues t v) fun f => .wrapped (path ++ ": ") f "") with
      | [] =>
        print (path ++ ": ok\n")
        return true
      | issues =>
        print (String.join (issues.map fun i => path ++ ": " ++ i.path ++ " " ++ i.code.name ++ ": " ++ i.message ++ "\n"))
        return false

/-- tests data files: how many are invalid -/
def checkFiles (t : Wording) (p : Predicate) : List String → Command Nat
  | [] => return 0
  | path :: rest => do
    let valid ← checkFile t p path
    let others ← checkFiles t p rest
    return if valid then others else others + 1

def check (t : Wording) (args : List String) : Command Unit := do
  let p ← parseFlags checkFlags args
  if p.textOf "schema" = "" || p.rest.isEmpty then refuse checkFlags
  let (g, imported, node) ← loadSchema (p.textOf "schema") (p.textOf "export")
  let name := p.textOf "dialect"
  let dialect ← match name, Dialect.parse? name with
    | "", _ => pure imported.kind.dialect
    | _, some d => pure d
    | _, none => fail (.plain ("unknown dialect " ++ Text.quote name))
  let fetcher ← fetcherAt "."
  let (predicate, _) := (compileNode (node.getD 0) (some compileDocument) { dialect, fetcher := some fetcher }
    { formats := true, coerce := p.isOn "coerce" }).run g
  let invalid ← checkFiles t (← lift predicate) p.rest
  if invalid > 0 then
    fail (.plain (toString invalid ++ " of " ++ toString p.rest.length ++ " files invalid"))

/-! ## sample -/

def sample (args : List String) : Command Unit := do
  let p ← parseFlags sampleFlags args
  match p.rest with
  | [path] =>
    let (g, _, node) ← loadSchema path (p.textOf "export")
    let (text, _) :=
      (Sample.text { maxDepth := p.numberOf "depth", useDefaults := p.isOn "defaults" } (node.getD 0)).run g
    print ((← lift text) ++ "\n")
  | _ => refuse sampleFlags

/-! ## compile -/

/-- wraps each export into a validator -/
def wrapExports (v : ValidatorOptions) : List NamedNode → GraphM (List NamedNode)
  | [] => return []
  | e :: rest => do
    match e.node with
    | none => GraphM.lift abort
    | some n =>
      let w ← GraphM.add .validator (.validator v) [n] []
      return { e with node := some w } :: (← wrapExports v rest)

/-- imports an input and makes it ready for emission -/
def compileInput (cfg : Config) (t : FileTree) (fetcher : Option Fetcher) (root input : String) : GraphM Input := do
  let path := if root = "" then input else Path.join [root, input]
  let imported ← importFile t path
    { fetcher, unlisted := cfg.unlisted, rules := cfg.imports.rules, embedded := cfg.imports.embedded }
  let exports : List NamedNode := imported.entries.map fun (name, node) => { name, node }
  let exports ← if cfg.emitsValidators then
      wrapExports { mode := .source, formats := cfg.validator.formats, coerce := cfg.validator.coerce,
                    assert := cfg.validator.assert } exports
    else pure exports
  return { path := Path.confine input, exports }

/-- imports all inputs; those that fail are left out and reported -/
def compileInputs (cfg : Config) (t : FileTree) (fetcher : Option Fetcher) (root : String) :
    List String → GraphM (List Input × List Failure)
  | [] => return ([], [])
  | input :: rest => do
    let r ← fun g =>
      match (compileInput cfg t fetcher root input).run g with
      | (.ok i, g) => (.ok (Except.ok i), g)
      | (.error (.failed f), g) => (.ok (.error f), g)
      | (.error stop, g) => (.error stop, g)
    let (inputs, failures) ← compileInputs cfg t fetcher root rest
    match r with
    | .ok i => return (i :: inputs, failures)
    | .error f => return (inputs, f :: failures)

/-- emits inputs into the output directory: the files written, and every failure -/
def emitInputs (cfg : Config) (root : String) (inputs : List String) : Command (List OutputFile × List Failure) := do
  let fetcher ← if cfg.fetch.disabled then pure none else some <$> fetcherAt cfg.fetchRoot
  let (imported, g) := (compileInputs cfg (← get).tree fetcher root inputs).run {}
  let (ready, failures) ← lift imported
  let backend : SchemaBackend := {
    dialect := cfg.schemaDialect, schemaUri := cfg.schemaUri, strict := cfg.strict, pretty := cfg.pretty, fetcher,
    compiler := some compileDocument, validators := cfg.emitsValidators }
  let (emitted, _) := (Pipeline.emit backend.toBackend Naming.standard (some layout) ready).run g
  let result ← lift emitted
  let writer := (OutputRoot.mk (cfg.path cfg.out)).writer
  let (result, tree) := Pipeline.persist (if cfg.clean then writer else writer.keeping) result (← get).tree
  modify fun c => { c with tree }
  let result ← lift result
  return (result.files, failures ++ result.failure?.toList)

/-- the settings with what the command line says over them -/
def override (c : Config) (p : Parsed) : Config :=
  let chosen (flag own : String) : String := if p.textOf flag = "" then own else p.textOf flag
  { c with out := chosen "out" c.out, dialect := chosen "dialect" c.dialect, validators := chosen "validators" c.validators }

def compile (args : List String) : Command Unit := do
  let p ← parseFlags compileFlags args
  let cfg ← lift (Config.load (← get).tree (p.textOf "config"))
  let cfg ← lift (override cfg p).validated
  let (root, inputs) ← if p.rest.isEmpty then do
      let found ← lift ((← get).tree.discover cfg.root
        { includes := cfg.includes, excludes := cfg.excludes ++ [cfg.out ++ "/"] })
      pure (cfg.root, found)
    else pure ("", p.rest)
  if inputs.isEmpty then fail (.plain ("no inputs matched [" ++ " ".intercalate cfg.includes ++ "]"))
  let (files, failures) ← emitInputs cfg root inputs
  print (String.join (files.map fun f => Path.join [cfg.path cfg.out, f.path] ++ "\n"))
  match Failure.join? failures with
  | some f => fail f
  | none => pure ()

/-! ## All commands -/

/-- runs a command line -/
def run (t : Wording) : List String → Command Unit
  | [] => do
    complain usage
    misused
  | command :: args =>
    match command with
    | "compile" => compile args
    | "check" => check t args
    | "sample" => sample args
    | "version" => print "skemac dev\n"
    | "help" | "-h" | "-help" | "--help" => print usage
    | _ => do
      complain ("unknown command " ++ Text.quote command ++ "\n\n" ++ usage)
      misused

end Schemata.Cli
