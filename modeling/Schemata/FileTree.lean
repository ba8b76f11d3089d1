import Schemata.Failure
import Schemata.Dict
import Schemata.Path

/-!
Directories and files as a value.

A tree has an entry for each directory and each file, under its clean path; the place where the tree starts and
everything above it are directories. A path is followed name by name: every name but the last must belong to a
directory that is there, so `a/..` is not the place where it starts unless `a` is a directory. An operation gives a
new tree or an error, never both.
-/

namespace Schemata

/-- why an operation on files fails -/
inductive FileFault where
  | missing | notDirectory | isDirectory | nameTooLong | invalid
  deriving Repr, DecidableEq

def FileFault.text : FileFault → String
  | missing => "no such file or directory"
  | notDirectory => "not a directory"
  | isDirectory => "is a directory"
  | nameTooLong => "file name too long"
  | invalid => "invalid argument"

/-- a failed operation, with the path it was given -/
structure FileError where
  operation : String
  path : String
  fault : FileFault
  deriving Repr, DecidableEq

def FileError.message (e : FileError) : String := e.operation ++ " " ++ e.path ++ ": " ++ e.fault.text

def FileError.failure (e : FileError) : Failure := .plain e.message

inductive FileEntry where
  | directory
  | file (text : String)
  deriving Repr, DecidableEq

structure FileTree where
  /-- by clean path, parents included -/
  entries : Dict FileEntry := []
  deriving Repr, DecidableEq

namespace FileTree

/-- what stands at a clean path; nothing but steps up is a directory -/
def at? (t : FileTree) (place : String) : Option FileEntry :=
  if (Path.elements place).all (· == "..") then some .directory else t.entries.get? place

/-- follows names from a place on; the last one need not exist -/
def follow (t : FileTree) (place : String) : List String → Except FileFault String
  | [] => .ok place
  | e :: rest =>
    match t.at? place with
    | none => .error .missing
    | some (.file _) => .error .notDirectory
    | some .directory =>
      if Text.byteLength e > 255 then .error .nameTooLong else t.follow (Path.join [place, e]) rest

/-- the clean path that a path leads to -/
def locate (t : FileTree) (path : String) : Except FileFault String :=
  if path = "" then .error .missing
  else if path.toList.contains '\x00' then .error .invalid
  else if Text.byteLength path ≥ 4096 then .error .nameTooLong
  else t.follow (if Path.isAbsolute path then "/" else ".") (Text.splitOn path "/")

/-- what a path leads to, for an operation of the given name -/
def look (t : FileTree) (operation path : String) : Except FileError FileEntry :=
  match t.locate path with
  | .error fault => .error ⟨operation, path, fault⟩
  | .ok place =>
    match t.at? place with
    | some e => .ok e
    | none => .error ⟨operation, path, .missing⟩

def has (t : FileTree) (path : String) : Bool := (t.look "stat" path).toOption.isSome

/-- the text of a file -/
def read (t : FileTree) (path : String) : Except FileError String :=
  match t.look "open" path with
  | .error e => .error e
  | .ok .directory => .error ⟨"read", path, .isDirectory⟩
  | .ok (.file text) => .ok text

/-- the steps down to a path, the path itself last -/
def ancestry (path : String) : List String :=
  let names := Path.elements path
  (List.range names.length).map fun i =>
    (if Path.isAbsolute path then "/" else "") ++ "/".intercalate (names.take (i + 1))

def makeDirsFrom (t : FileTree) : List String → Except FileError FileTree
  | [] => .ok t
  | p :: ps =>
    match t.look "mkdir" p with
    | .ok .directory => t.makeDirsFrom ps
    | .ok (.file _) => .error ⟨"mkdir", p, .notDirectory⟩
    | .error ⟨_, _, .missing⟩ => makeDirsFrom { entries := t.entries.insert p .directory } ps
    | .error e => .error e

/-- makes a directory and all above it; those that exist stay -/
def makeDirs (t : FileTree) (path : String) : Except FileError FileTree := t.makeDirsFrom (ancestry path)

/-- writes a file into a directory that exists -/
def write (t : FileTree) (path text : String) : Except FileError FileTree :=
  match t.locate path with
  | .error fault => .error ⟨"open", path, fault⟩
  | .ok place =>
    match t.at? place with
    | some .directory => .error ⟨"open", path, .isDirectory⟩
    | _ => .ok { entries := t.entries.insert place (.file text) }

/-- the tree without a place and all below it -/
def without (t : FileTree) (place : String) : FileTree :=
  { entries := t.entries.filter fun (p, _) => p ≠ place && !Text.startsWith p (place ++ "/") }

/-- removes whatever a clean path leads to; what is not there needs no removal -/
def removeAll (t : FileTree) (path : String) : Except FileError FileTree :=
  if path = "." then .error ⟨"RemoveAll", path, .invalid⟩
  else
    match t.locate path with
    | .ok place => .ok (t.without place)
    | .error .missing => .ok t
    | .error .notDirectory =>
      match t.look "open" (Path.dir path) with
      | .ok _ => .error ⟨"unlinkat", path, .notDirectory⟩
      | .error e => .error e
    | .error fault => .error ⟨"unlinkat", path, fault⟩

/-- a tree of files, given in any order; a path that ends in a slash is a directory -/
def ofFiles (files : List (String × String)) : FileTree :=
  { entries := files.foldl (fun d (path, text) =>
      let d := (ancestry (Path.dir path)).foldl (fun d p => d.insert p .directory) d
      d.insert (Path.clean path) (if Text.endsWith path "/" then .directory else .file text)) [] }

/-- the files that are new in `after`, or have another text there -/
def changes (before after : FileTree) : Dict String :=
  after.entries.filterMap fun (p, e) =>
    match e with
    | .file text => if before.entries.get? p = some e then none else some (p, text)
    | .directory => none

end FileTree

end Schemata
