import Schemata.Emit.Run

/-!
Emission in two phases.

First every input is scanned, which gives templates and declares names. Only then are the names made final, the
templates filled in, pretty files formatted, directories cleaned and files written. A failure inside one input drops
the output of that input and is reported with the others; the remaining inputs are still emitted.
-/

namespace Schemata

/-- puts a text of a path into its usual layout -/
abbrev Formatter := (path text : String) → Outcome String

/-- a place for files, with a state of its own -/
structure Writer (σ : Type) where
  write : (path text : String) → σ → Outcome Unit × σ
  /-- removes a directory; one that is missing is no failure -/
  clean : (dir : String) → σ → Outcome Unit × σ

namespace Pipeline

structure Result where
  /-- everything that was emitted, side files included, in order -/
  files : List OutputFile := []
  /-- inputs without output -/
  dropped : List String := []
  failures : List Failure := []

/-- one more failed input -/
def Result.drop (r : Result) (path : String) (f : Failure) : Result :=
  { r with dropped := r.dropped ++ [path], failures := r.failures ++ [f.withPath path] }

def Result.failure? (r : Result) : Option Failure := Failure.join? r.failures

/-- the first file of a path -/
def Result.file? (r : Result) (path : String) : Option OutputFile := r.files.find? (·.path == path)

/-- loads what an input exposes -/
def loadExports : List NamedNode → RunM Unit
  | [] => pure ()
  | e :: rest => do
    match e.node with
    | none => RunM.fail (.unsupported ("export " ++ e.name ++ " has no node"))
    | some id => RunM.onGraph (GraphM.load (some id))
    loadExports rest

/-- scans one input; a failed scan leaves no declarations behind -/
def scan (b : Backend) (input : Input) : RunM (List OutputFile) := do
  loadExports input.exports
  let c := (← get).checkpoint
  fun r =>
    match (b.scan input).run r with
    | (.error (.failed f), r) => (.error (.failed f), r.rollback c)
    | other => other

/-- scans all inputs: the files of each, and the result with what was dropped. Breaks off when a scan does. -/
def scanAll (b : Backend) : Result → List Input → RunM (List (String × List OutputFile) × Result)
  | res, [] => return ([], res)
  | res, i :: rest => do
    let outcome ← fun r =>
      match (scan b i).run r with
      | (.ok files, r) => (.ok (Except.ok files), r)
      | (.error (.failed f), r) => (.ok (.error f), r)
      | (.error stop, r) => (.error stop, r)
    match outcome with
    | .ok files =>
      let (batches, res) ← scanAll b res rest
      return ((i.path, files) :: batches, res)
    | .error f => scanAll b (res.drop i.path f) rest

/-- fills in one file -/
def resolveFile (run : Run) (format : Option Formatter) (f : OutputFile) : Outcome OutputFile := do
  match run.registryFor f.scope with
  | none => failWith (.fault .missingDependency { path := f.path, detail := "unknown registry scope " ++ f.scope })
  | some reg =>
    let (text, resolved) ← Outcome.mapFailure (reg.resolve f.template).2 (·.withPath f.path)
    let text ← match format with
      | some layout => if f.pretty then layout f.path text else pure text
      | none => pure text
    return { f with text, resolved, symbols := if f.symbols.isEmpty then reg.symbols f.path else f.symbols }

def resolveFiles (run : Run) (format : Option Formatter) : List OutputFile → Outcome (List OutputFile)
  | [] => .ok []
  | f :: fs => do
    let f ← resolveFile run format f
    return f :: (← resolveFiles run format fs)

/-- fills in all files; a failure drops the input it belongs to -/
def resolveAll (run : Run) (format : Option Formatter) : Result → List (String × List OutputFile) → Outcome Result
  | res, [] => .ok res
  | res, (path, files) :: rest =>
    match resolveFiles run format (OutputFile.flattenAll files) with
    | .ok fs => resolveAll run format { res with files := res.files ++ fs } rest
    | .error (.failed f) => resolveAll run format (res.drop path f) rest
    | .error stop => .error stop

/-- cleans each directory once -/
def cleanAll {σ : Type} (w : Writer σ) (res : Result) (done : List String) :
    List OutputFile → σ → Outcome Result × σ
  | [], s => (.ok res, s)
  | f :: fs, s =>
    if f.clean = "" || done.contains f.clean then cleanAll w res done fs s
    else
      match w.clean f.clean s with
      | (.ok (), s) => cleanAll w res (f.clean :: done) fs s
      | (.error (.failed e), s) =>
        cleanAll w { res with failures := res.failures ++ [e.withPath f.clean] } (f.clean :: done) fs s
      | (.error stop, s) => (.error stop, s)

/-- writes all files; those that cannot be written are left out of the result -/
def writeAll {σ : Type} (w : Writer σ) (res : Result) : List OutputFile → σ → Outcome Result × σ
  | [], s => (.ok res, s)
  | f :: fs, s =>
    match w.write f.path f.text s with
    | (.ok (), s) => writeAll w { res with files := res.files ++ [f] } fs s
    | (.error (.failed e), s) => writeAll w { res with failures := res.failures ++ [e.withPath f.path] } fs s
    | (.error stop, s) => (.error stop, s)

/-- emits inputs without writing them -/
def emit (b : Backend) (naming : Naming) (format : Option Formatter) (inputs : List Input) : GraphM Result := fun g =>
  match (scanAll b {} inputs).run (Run.start g b.target naming) with
  | (.ok (batches, res), run) => (resolveAll run.finalize format res batches, run.graph)
  | (.error stop, run) => (.error stop, run.graph)

/-- writes what was emitted -/
def persist {σ : Type} (w : Writer σ) (res : Result) (s : σ) : Outcome Result × σ :=
  match cleanAll w { res with files := [] } [] res.files s with
  | (.ok r, s) => writeAll w r res.files s
  | other => other

end Pipeline

end Schemata
