import Schemata.Compile
import Schemata.Emit.Run
import Schemata.Path

/-!
The backend for schema documents.

Each export becomes a document with names of its own, below the directory of its input. An export that is a
validator in source mode also becomes a package with the compiled validator beside the document.
-/

namespace Schemata

/-- a name in lower case with underscores between its words, for files -/
def fileStem (name : String) : String :=
  let step (acc : List Char × Bool) (c : Char) : List Char × Bool :=
    let (out, afterLower) := acc
    if Text.Category.isUpper c then
      (Text.CaseMap.toLower c :: (if afterLower then '_' :: out else out), false)
    else if Text.Category.isLetter c || Text.Category.isDecimalDigit c then (c :: out, true)
    else (if out.isEmpty || out.head? == some '_' then out else '_' :: out, false)
  let s := Text.trimChars (String.ofList (name.toList.foldl step ([], false)).1.reverse) (· == '_')
  if s = "" then "schema" else s

/-- the ASCII letters and digits of a name in lower case, from the first letter on -/
def packageName (name : String) : String :=
  let isLower (c : Char) : Bool := 'a' ≤ c && c ≤ 'z'
  let cs := (name.toList.map Text.CaseMap.toLower).filter fun c => isLower c || c.isDigit
  String.ofList (cs.dropWhile (!isLower ·))

structure SchemaBackend where
  dialect : Dialect := .plain
  schemaUri : Bool := false
  strict : Bool := false
  pretty : Bool := false
  /-- the directory of all output -/
  dir : String := ""
  fetcher : Option Fetcher := none
  compiler : Option Compiler := none
  /-- compile exports that are validators -/
  validators : Bool := false

namespace SchemaBackend

/-- the attribute of an export that holds the path of its document -/
def pathAttr : String := "path"

/-- the directory of the output of an input -/
def baseDir (b : SchemaBackend) (input : String) : String := Path.join [b.dir, Path.dir input]

def documentPath (b : SchemaBackend) (input name : String) : String :=
  Path.join [b.baseDir input, fileStem name ++ ".schema.json"]

def validatorDir (b : SchemaBackend) (input name : String) : String :=
  Path.join [b.baseDir input, fileStem name ++ "_validator"]

/-- the compiled validator of an export -/
def validatorFile (b : SchemaBackend) (compile : Compiler) (input : Input) (name docPath template : String)
    (discriminator : Bool) (v : ValidatorOptions) : Outcome OutputFile := do
  let compiled ← compile template
    { dialect := b.dialect, mode := .source, coerce := v.coerce, formats := v.formats, assert := v.assert, discriminator,
      package := packageName name ++ "validator", funcName := "Validate" }
  let (source, loads) ← Source.bindLoads compiled.source
  let dir := b.validatorDir input.path name
  let file : OutputFile :=
    { path := Path.join [dir, "validator.go"], kind := .validator, scope := docPath, template := source, pretty := true, clean := dir }
  return (loads.foldl (fun f d => f.addDep d .value) file).addDep docPath .type

/-- the files of one export -/
def exportFile (b : SchemaBackend) (input : Input) (name : String) (id : Nat) : RunM OutputFile := do
  let proposed := b.documentPath input.path name
  let x ← RunM.onGraph (GraphM.exported id { target := Document.target, name, attrs := [(pathAttr, proposed)] })
  let docPath := match x.attrs.get? pathAttr with
    | some p => if p = "" then proposed else p
    | none => proposed
  RunM.declare docPath id docPath name true
  let g := (← get).graph
  let doc ← RunM.onRegistry docPath fun reg => Document.ofNode g id reg
    { dialect := b.dialect, schemaUri := b.schemaUri, strict := b.strict, fetcher := b.fetcher, path := docPath }
  let template ← RunM.lift doc.template
  let file : OutputFile := { path := docPath, scope := docPath, template, pretty := b.pretty }
  match g.validator? id with
  | none => return file
  | some n =>
    let v := n.validatorOptions
    if !b.validators || v.mode ≠ .source then return file
    match b.compiler with
    | none => RunM.fail (.fault .missingDependency (n.site "no validator compiler"))
    | some compile =>
      let vf ← RunM.lift (b.validatorFile compile input name docPath template doc.discriminator v)
      return { file with artifacts := [vf] }

def scanExports (b : SchemaBackend) (input : Input) : List NamedNode → RunM (List OutputFile)
  | [] => pure []
  | e :: rest => do
    let f ← b.exportFile input e.name (e.node.getD 0)
    return f :: (← scanExports b input rest)

def toBackend (b : SchemaBackend) : Backend where
  target := Document.target
  scan input := b.scanExports input input.exports

end SchemaBackend

end Schemata
