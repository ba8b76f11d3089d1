import Schemata.Cli

/-!
The program: takes a picture of the working directory, runs a command on it, and writes what the command changed.
-/

open Schemata

/-- the files below a directory entry, with their paths; what is no text is passed over -/
partial def collect (lead : String) (entry : IO.FS.DirEntry) : IO (List (String × String)) := do
  let path := lead ++ entry.fileName
  try
    return [(path, ← IO.FS.readFile entry.path)]
  catch _ =>
    if skippedDirectories.contains entry.fileName then return [(path ++ "/", "")]
    try
      let inner ← (← entry.path.readDir).toList.mapM (collect (path ++ "/"))
      return (path ++ "/", "") :: inner.flatten
    catch _ => return []

/-- files that arguments name outside the working directory -/
def outside (args : List String) : IO (List (String × String)) := do
  let paths := args.filter fun a => Path.isAbsolute a || Path.leaves (Path.clean a)
  let found ← paths.mapM fun (p : String) => do
    try return [(p, ← IO.FS.readFile p)] catch _ => return []
  return found.flatten

/-- writes the files that are new or changed, and removes those that are gone -/
def store (before after : FileTree) : IO Unit := do
  for (path, entry) in before.entries do
    match entry with
    | .file _ => unless after.has path do IO.FS.removeFile path
    | .directory => pure ()
  for (path, text) in before.changes after do
    IO.FS.createDirAll (Path.dir path)
    IO.FS.writeFile path text

def main (args : List String) : IO UInt32 := do
  let entries ← (← IO.currentDir).readDir
  let files ← entries.toList.mapM (collect "")
  let tree := FileTree.ofFiles (files.flatten ++ (← outside args))
  let (outcome, console) := (Cli.run Language.english.wording args).run.run { tree }
  store tree console.tree
  (← IO.getStdout).putStr console.stdout
  (← IO.getStderr).putStr console.stderr
  match outcome with
  | .ok () => return 0
  | .error (.failed f) =>
    if f.leaves.any fun | .usage _ => true | _ => false then return 2
    (← IO.getStderr).putStr ("skemac: " ++ f.message ++ "\n")
    return 1
  | .error (.aborted reason) =>
    (← IO.getStderr).putStr ("skemac: " ++ reason.getD "internal error" ++ "\n")
    return 2
