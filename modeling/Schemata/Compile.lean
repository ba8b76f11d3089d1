import Schemata.Program.Check
import Schemata.Source.Print
import Schemata.Source.Loads
import Schemata.Document.Render

/-!
Compiling schema documents and nodes into validators.

A compiler takes the text of a document and gives a predicate or source text, by the mode asked for.
`compileDocument` is the one of this library; a node is compiled by rendering it first.
-/

namespace Schemata

/-- a program together with how it reads numbers and truth values -/
structure Predicate where
  program : Program
  coerce : Bool := false

/-- everything that is wrong with a value -/
def Predicate.issues (p : Predicate) (t : Wording) (v : Value) : Outcome (List Issue) :=
  p.program.validate p.coerce t v

/-- a compiled document -/
structure Compiled where
  predicate : Option Predicate := none
  source : String := ""
  /-- string formats that the validator checks -/
  usedFormats : List String := []

abbrev Compiler := String → CompileOptions → Outcome Compiled

/-- compiles the text of a document -/
def compileDocument : Compiler := fun doc o => do
  let s ← match Schema.decode doc with
    | .ok s => pure s
    | .error e => failWith (.causedFault .unsupportedConstruct { detail := "decode document" } e.failure)
  let p ← Program.lower s o
  match o.mode with
  | .predicate =>
    p.verify
    return { predicate := some { program := p, coerce := o.coerce }, usedFormats := p.usedFormats }
  | .source =>
    let options : Source.Options :=
      { package := o.package, funcName := o.funcName, coerce := o.coerce, assert := o.assert }
    let text ← (Source.render p options).mapFailure fun f => .causedFault .unsupportedConstruct {} f
    return { source := text, usedFormats := p.usedFormats }

/-- the predicate of a node. A validator node around it decides on coercion and formats; a missing compiler, or one that gives no
predicate, is a failure. -/
def compileNode (id : Nat) (compiler : Option Compiler) (render : Document.Options) (o : CompileOptions) :
    GraphM Predicate := do
  match compiler with
  | none => GraphM.fail (.of .missingDependency "no validator compiler")
  | some compile =>
    GraphM.load (some id)
    let o : CompileOptions := match (← GraphM.graph).validator? id with
      | some n =>
        let v := n.validatorOptions
        { o with assert := v.assert, coerce := v.coerce, formats := v.formats }
      | none => o
    let (text, doc) ← Document.renderText (some id) render
    let o := { o with
      dialect := render.dialect, mode := .predicate, discriminator := o.discriminator || doc.discriminator }
    match (← GraphM.lift (compile text o)).predicate with
    | some p => return p
    | none => GraphM.fail (.of .missingDependency "compiler returned no predicate")

end Schemata
