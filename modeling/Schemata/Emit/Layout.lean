import Schemata.Emit.Pipeline
import Schemata.Json.Indent
import Schemata.Path
import Schemata.Source.Canonical

/-!
The usual layout of emitted files: source text in its canonical form, JSON with two blanks for each level, and
everything else as it is.
-/

namespace Schemata

def layoutFailure (path : String) (cause : Failure) : Failure := .wrapped ("format " ++ path ++ ": ") cause ""

/-- lays out a text by the ending of its path -/
def layout : Formatter := fun path text =>
  match Path.ext path with
  | ".go" =>
    match Source.canonical? text with
    | some t => .ok t
    | none => failWith (layoutFailure path (.ofReader .source "not a source text"))
  | ".json" =>
    match Json.indent "  " text with
    | .ok t => .ok (t ++ "\n")
    | .error .malformed => failWith (layoutFailure path (.ofReader .json (Json.IndentError.message .malformed)))
    | .error e => failWith (layoutFailure path (.plain e.message))
  | _ => .ok text

end Schemata
