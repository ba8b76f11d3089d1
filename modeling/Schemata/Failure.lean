import Schemata.Text.Quote

/-!
Failures of compilation as trees of causes.

A `Failure` is a leaf with a text of its own, a `fault` (one of six kinds, with the place it concerns and possibly a
cause), a cause wrapped in further words, or several failures joined. `message` is the only place that puts words
together. `mentions` looks for a kind or a leaf anywhere below, `category` groups the kinds, and `withPath` says
which file a failure is about.
-/

namespace Schemata

/-- the kinds of compile faults -/
inductive FaultKind where
  | unhandledNodeKind
  | unsupportedConstruct
  | unsupportedSchemaConstruct
  | referenceNotFound
  | fetch
  | missingDependency
  deriving Repr, DecidableEq

def FaultKind.all : List FaultKind :=
  [unhandledNodeKind, unsupportedConstruct, unsupportedSchemaConstruct, referenceNotFound, fetch, missingDependency]

def FaultKind.text : FaultKind → String
  | unhandledNodeKind => "unhandled node kind"
  | unsupportedConstruct => "unsupported construct"
  | unsupportedSchemaConstruct => "unsupported schema construct"
  | referenceNotFound => "reference not found"
  | fetch => "remote schema fetch failed"
  | missingDependency => "missing dependency"

/-- groups of faults, for reporting -/
inductive Category where
  | unknown | structural | reference | external
  deriving Repr, DecidableEq

def Category.all : List Category := [unknown, structural, reference, external]

def Category.name : Category → String
  | unknown => "unknown"
  | structural => "structural"
  | reference => "reference"
  | external => "external"

/-- the readers whose own wording a failure may carry -/
inductive Reader where
  | json | yaml | source
  deriving Repr, DecidableEq

/-- a key that stands twice in one mapping: in JSON with the pointer of the object, elsewhere with both positions -/
structure DuplicateKey where
  key : String
  path : String := ""
  firstLine : Nat := 0
  firstColumn : Nat := 0
  line : Nat := 0
  column : Nat := 0
  deriving Repr, DecidableEq

def DuplicateKey.message (d : DuplicateKey) : String :=
  if d.line = 0 then
    "duplicate JSON key " ++ Text.quote d.key ++ " in " ++ Text.quote ("#" ++ d.path)
  else
    "duplicate YAML key " ++ Text.quote d.key ++ " at " ++ toString d.line ++ ":" ++ toString d.column
      ++ " (first at " ++ toString d.firstLine ++ ":" ++ toString d.firstColumn ++ ")"

/-- what a fault is about; empty parts are not written -/
structure Site where
  node : Nat := 0
  kind : String := ""
  attr : String := ""
  path : String := ""
  detail : String := ""
  deriving Repr, DecidableEq

/-- failures that wrap nothing -/
inductive Leaf where
  | plain (text : String)
  | reader (r : Reader) (text : String)
  | duplicateKey (d : DuplicateKey)
  | usage (text : String)
  /-- a value would have to be nested without end -/
  | tooDeep
  /-- data stands inside itself: reading it uses up the stack -/
  | endless
  deriving Repr, DecidableEq

def Leaf.message : Leaf → String
  | plain t => t
  | reader _ t => t
  | duplicateKey d => d.message
  | usage t => t
  | tooDeep => "recursion limit reached"
  | endless => "stack overflow"

inductive Failure where
  | leaf (l : Leaf)
  | fault (kind : FaultKind) (site : Site)
  | causedFault (kind : FaultKind) (site : Site) (cause : Failure)
  | wrapped (before : String) (cause : Failure) (after : String)
  | joined (parts : List Failure)
  deriving Inhabited

namespace Failure

def plain (text : String) : Failure := .leaf (.plain text)

/-- a failure of a reader, in its words -/
def ofReader (r : Reader) (text : String) : Failure := .leaf (.reader r text)

/-- a fault without a cause -/
def of (kind : FaultKind) (detail : String) : Failure := .fault kind { detail }

def unsupported (detail : String) : Failure := .of .unsupportedConstruct detail

def siteText (kind : FaultKind) (s : Site) : String :=
  kind.text
    ++ (if s.node = 0 then "" else " node=" ++ toString s.node)
    ++ (if s.kind = "" then "" else " kind=" ++ s.kind)
    ++ (if s.attr = "" then "" else " attr=" ++ s.attr)
    ++ (if s.path = "" then "" else " path=" ++ s.path)
    ++ (if s.detail = "" then "" else ": " ++ s.detail)

mutual

/-- the words of a failure -/
def message : Failure → String
  | leaf l => l.message
  | fault kind site => siteText kind site
  | causedFault kind site cause => siteText kind site ++ ": " ++ cause.message
  | wrapped before cause after => before ++ cause.message ++ after
  | joined parts => "\n".intercalate (messages parts)

def messages : List Failure → List String
  | [] => []
  | f :: fs => f.message :: messages fs

end

mutual

/-- the leaves below a failure, in order -/
def leaves : Failure → List Leaf
  | leaf l => [l]
  | fault _ _ => []
  | causedFault _ _ cause => cause.leaves
  | wrapped _ cause _ => cause.leaves
  | joined parts => leavesOf parts

def leavesOf : List Failure → List Leaf
  | [] => []
  | f :: fs => f.leaves ++ leavesOf fs

end

/-- is one of the causes a nesting without end? -/
def isTooDeep (f : Failure) : Bool := f.leaves.contains .tooDeep

mutual

/-- the kinds of the faults of a failure, outermost first -/
def kinds : Failure → List FaultKind
  | leaf _ => []
  | fault kind _ => [kind]
  | causedFault kind _ cause => kind :: cause.kinds
  | wrapped _ cause _ => cause.kinds
  | joined parts => kindsOf parts

def kindsOf : List Failure → List FaultKind
  | [] => []
  | f :: fs => f.kinds ++ kindsOf fs

end

/-- does the failure hold a fault of the kind? -/
def isKind (f : Failure) (k : FaultKind) : Bool := f.kinds.contains k

/-- the first kind, in the order of `FaultKind.all`, that the failure holds -/
def kind? (f : Failure) : Option FaultKind := FaultKind.all.find? f.isKind

/-- structural faults come before reference faults, and those before external ones -/
def category (f : Failure) : Category :=
  if f.isKind .unhandledNodeKind || f.isKind .unsupportedConstruct || f.isKind .unsupportedSchemaConstruct then
    .structural
  else if f.isKind .referenceNotFound then .reference
  else if f.isKind .fetch || f.isKind .missingDependency then .external
  else .unknown

mutual

/-- the first fault of a failure, cut out of the words around it -/
def firstFault? : Failure → Option Failure
  | leaf _ => none
  | fault kind site => some (fault kind site)
  | causedFault kind site cause => some (causedFault kind site cause)
  | wrapped _ cause _ => cause.firstFault?
  | joined parts => firstFaultOf? parts

def firstFaultOf? : List Failure → Option Failure
  | [] => none
  | f :: fs => match f.firstFault? with
    | some x => some x
    | none => firstFaultOf? fs

end

/-- names the file: the first fault takes the path if it has none, a failure without faults is wrapped -/
def withPath (f : Failure) (path : String) : Failure :=
  match f.firstFault? with
  | some (fault kind site) => if site.path = "" then fault kind { site with path } else f
  | some (causedFault kind site cause) => if site.path = "" then causedFault kind { site with path } cause else f
  | _ => wrapped (path ++ ": ") f ""

/-- several failures as one; none is none, and a single one stays as it is inside the joint -/
def join? (parts : List Failure) : Option Failure := if parts.isEmpty then none else some (joined parts)

end Failure

/-- why an operation gave no result: a failure, or a break of its contract that ends it on the spot -/
inductive Stop where
  | failed (f : Failure)
  | aborted (reason : Option String)
  deriving Inhabited

/-- the outcome of an operation that may fail or break off -/
abbrev Outcome (α : Type) := Except Stop α

def failWith {α : Type} (f : Failure) : Outcome α := .error (.failed f)

/-- breaks off without a reason -/
def abort {α : Type} : Outcome α := .error (.aborted none)

def abortWith {α : Type} (reason : String) : Outcome α := .error (.aborted (some reason))

/-- the outcome with a failure changed; an abort stays -/
def Outcome.mapFailure {α : Type} (o : Outcome α) (f : Failure → Failure) : Outcome α :=
  match o with
  | .error (.failed e) => .error (.failed (f e))
  | o => o

end Schemata
