import Schemata.Emit.Pipeline
import Schemata.FileTree

/-!
Writers of files.

Files are kept in memory, or they are written below a directory: there paths stay below the root, which itself is never
removed; absolute paths, and all paths when there is no root, are taken as they are.
-/

namespace Schemata

/-! ## Memory -/

/-- what was written, by path, and the directories cleaned, in order -/
structure MemoryFiles where
  files : Dict String := []
  cleaned : List String := []
  deriving Repr, DecidableEq

namespace MemoryFiles

def write (path text : String) (m : MemoryFiles) : MemoryFiles := { m with files := m.files.insert path text }

/-- removes everything below a directory -/
def clean (dir : String) (m : MemoryFiles) : MemoryFiles :=
  let lead := Text.trimSuffix dir "/" ++ "/"
  { files := m.files.filter fun (p, _) => !Text.startsWith p lead, cleaned := m.cleaned ++ [dir] }

/-- a writer into memory that never fails -/
def writer : Writer MemoryFiles where
  write path text m := (.ok (), m.write path text)
  clean dir m := (.ok (), m.clean dir)

end MemoryFiles

/-! ## Directories -/

/-- a place to write to -/
structure OutputRoot where
  path : String
  deriving Repr, DecidableEq

namespace OutputRoot

/-- where a file goes -/
def target (r : OutputRoot) (p : String) : Outcome String :=
  if Path.isAbsolute p || r.path = "" then .ok (Path.clean p)
  else
    let full := Path.join [r.path, p]
    if Path.leaves (Path.relative r.path full) then
      failWith (.plain ("emit: path " ++ Text.quote p ++ " escapes " ++ Text.quote r.path))
    else .ok full

/-- the outcome of a file operation under a heading, and the tree after it -/
def done (heading : String) (t : FileTree) : Except FileError FileTree → Outcome Unit × FileTree
  | .ok t => (.ok (), t)
  | .error e => (failWith (.wrapped heading e.failure ""), t)

def write (r : OutputRoot) (p text : String) (t : FileTree) : Outcome Unit × FileTree :=
  match r.target p with
  | .error e => (.error e, t)
  | .ok full =>
    match t.makeDirs (Path.dir full) with
    | .error e => done "creating output dir: " t (.error e)
    | .ok t => done "writing output: " t (t.write full text)

def clean (r : OutputRoot) (dir : String) (t : FileTree) : Outcome Unit × FileTree :=
  match r.target dir with
  | .error e => (.error e, t)
  | .ok full =>
    if full = Path.clean r.path then
      (failWith (.plain ("emit: refusing to clean output root " ++ Text.quote r.path)), t)
    else done "" t (t.removeAll full)

def writer (r : OutputRoot) : Writer FileTree := { write := r.write, clean := r.clean }

end OutputRoot

/-- a writer that never removes anything -/
def Writer.keeping {σ : Type} (w : Writer σ) : Writer σ := { w with clean := fun _ s => (.ok (), s) }

end Schemata
