import Schemata.Graph.Basic
import Schemata.Placeholder

/-!
Names of declared nodes.

Nodes are declared one by one, each under the file that owns it, and take their final names together at the end:
within a file, nodes that want the same name keep the order of their first declaration, and all but the first get a
number. Until then a placeholder stands for a name. A link fixes the name of a node and may itself hold
placeholders. Every change notes how to take it back, so all changes after a mark can be discarded, the last one first.
-/

namespace Schemata

/-! ## Identifiers -/

def isIdentChar (c : Char) : Bool := c == '_' || Text.Category.isLetter c || Text.Category.isDecimalDigit c

/-- the words of a text run together, each but the first capitalised; `upper` tells that a word starts here -/
def identChars (upper started : Bool) : List Char → List Char
  | [] => []
  | c :: cs =>
    if isIdentChar c then (if upper && started then Text.CaseMap.toUpper c else c) :: identChars false true cs
    else identChars true started cs

/-- an identifier must not start with a digit -/
def guardDigit : List Char → List Char
  | [] => []
  | c :: cs => if c.isDigit then '_' :: c :: cs else c :: cs

/-- the identifier that a text gives; empty when nothing in it can be part of one -/
def sanitize (s : String) : String := String.ofList (guardDigit (identChars false false s.toList))

/-- a link text with the words between its tokens made identifiers; only words at the very start are kept from starting with a
digit -/
def sanitizeLink (s : String) : String :=
  let rec go (first : Bool) : List Placeholder.Piece → List String
    | [] => []
    | .words w :: rest =>
      (if first then sanitize w else String.ofList (identChars false false w.toList)) :: go false rest
    | .token t _ :: rest => t :: go false rest
  String.join (go true (Placeholder.split s))

/-! ## Registries -/

/-- a declared node -/
structure Declaration where
  id : Nat
  file : String
  /-- the name it wants -/
  base : String
  explicit : Bool
  /-- its place in the order of first declarations -/
  seq : Nat
  deriving Repr, DecidableEq

/-- how names are made where the graph gives none, and which further attributes follow from a name and its file -/
structure Naming where
  fallback : Nat → String
  derived : List (String × (String → String → String))

def symbolAttr : String := "symbol"
def refAttr : String := "ref"
def uniqueAttr : String := "unique"
def fileAttr : String := "file"

/-- positions as names; a reference is the symbol, and the file makes it unique -/
def Naming.standard : Naming where
  fallback := fun pos => "Schema" ++ toString pos
  derived := [(refAttr, fun symbol _ => symbol), (uniqueAttr, fun symbol file => file ++ "#" ++ symbol)]

/-- a rule for one attribute added or replaced -/
def Naming.derive (n : Naming) (attr : String) (f : String → String → String) : Naming :=
  { n with derived := n.derived.filter (·.1 != attr) ++ [(attr, f)] }

/-- what is declared and linked -/
structure Declarations where
  /-- in the order of first declaration -/
  entries : List Declaration := []
  links : List (Nat × String) := []
  deriving Repr, DecidableEq

/-- how one change is taken back -/
inductive Undo where
  /-- the node gets the link that it had, if it had one -/
  | relink (id : Nat) (previous : Option String)
  /-- the declaration is again what it was -/
  | restore (previous : Declaration)
  /-- the node is no longer declared -/
  | forget (id : Nat)
  deriving Repr, DecidableEq

def Undo.apply : Undo → Declarations → Declarations
  | .relink id previous, d => { d with links := previous.toList.map (id, ·) ++ d.links.filter (·.1 != id) }
  | .restore e, d => { d with entries := d.entries.map fun x => if x.id = e.id then e else x }
  | .forget id, d => { d with entries := d.entries.filter (·.id != id) }

/-- final names -/
structure Names where
  values : List (Placeholder × String) := []
  symbols : Dict (List String) := []
  deriving Repr, DecidableEq

structure Registry where
  target : String
  naming : Naming := Naming.standard
  now : Declarations := {}
  /-- how to take back each change, oldest first -/
  journal : List Undo := []
  /-- first declarations so far, discarded ones included -/
  count : Nat := 0
  names : Option Names := none

namespace Registry

def find? (r : Registry) (id : Nat) : Option Declaration := r.now.entries.find? (·.id == id)

def linkOf? (r : Registry) (id : Nat) : Option String := (r.now.links.find? (·.1 == id)).map (·.2)

/-- a change that can be discarded -/
def record (r : Registry) (d : Declarations) (undo : Undo) : Registry := { r with now := d, journal := r.journal ++ [undo] }

/-- fixes the name of a node; a text that gives no name is passed over -/
def link (r : Registry) (id : Nat) (text : String) : Registry :=
  let s := sanitizeLink text
  if s = "" then r
  else r.record { r.now with links := (id, s) :: r.now.links.filter (·.1 != id) } (.relink id (r.linkOf? id))

/-- the name that a node wants: its own, the given hint, the hint of the graph, or one made from its position -/
def baseName (r : Registry) (g : Graph) (id : Nat) (hint : String) (pos : Nat) : String :=
  let n := g.get? id
  let wishes := [(n.map Node.name).getD "", hint, (n.map Node.hint).getD ""].map sanitize
  (wishes.find? (· ≠ "")).getD (r.naming.fallback pos)

/-- declares a node as owned by a file. The first declaration counts, but an explicit one takes over from one that is not. Tells whether
the owner changed; no declaration is taken once the names are final. -/
def declare (r : Registry) (g : Graph) (id : Nat) (file hint : String) (explicit : Bool) : Outcome (Registry × Bool) :=
  if r.names.isSome then abortWith "registry: Declare after Finalize"
  else
    match r.find? id with
    | some e =>
      if !explicit || e.explicit then .ok (r, false)
      else
        let wish := r.baseName g id hint e.seq
        let e' := { e with file, explicit := true, base := if wish = "" then e.base else wish }
        .ok (r.record { r.now with entries := r.now.entries.map fun d => if d.id = id then e' else d } (.restore e), true)
    | none =>
      let seq := r.count + 1
      let e := { id, file, base := r.baseName g id hint seq, explicit, seq }
      .ok ({ r.record { r.now with entries := r.now.entries ++ [e] } (.forget id) with count := seq }, true)

def declared (r : Registry) (id : Nat) : Bool := (r.find? id).isSome

def owner? (r : Registry) (id : Nat) : Option String := (r.find? id).map Declaration.file

/-- the placeholder of an attribute -/
def reference (_ : Registry) (id : Nat) (attr : String) : String := Placeholder.text ⟨id, attr⟩

/-- a point to come back to -/
def mark (r : Registry) : Nat := r.journal.length

/-- takes back every change made after a mark, the last one first -/
def discard (r : Registry) (m : Nat) : Registry :=
  { r with now := (r.journal.drop m).foldr Undo.apply r.now, journal := r.journal.take m }

/-! ## Final names -/

/-- a file's declarations while they are being named -/
structure Assignment where
  used : List String := []
  /-- the next number to try for a base name -/
  next : List (String × Nat) := []
  /-- in order -/
  symbols : List (Nat × String) := []

/-- the first number from `start` that gives a free name, and the number behind it -/
def freeNumber (taken : List String) (base : String) : Nat → Nat → String × Nat
  | 0, start => (base ++ toString start, start + 1)
  | fuel + 1, start =>
    let cand := base ++ toString start
    if taken.contains cand then freeNumber taken base fuel (start + 1) else (cand, start + 1)

/-- names one declaration: a link as it is, otherwise the base name or, when that is used, the base name with a number -/
def Assignment.name (taken : List String) (a : Assignment) (e : Declaration) (link : Option String) : Assignment :=
  match link with
  | some s => { a with used := s :: a.used, symbols := a.symbols ++ [(e.id, s)] }
  | none =>
    if a.used.contains e.base then
      let start := ((a.next.find? (·.1 == e.base)).map (·.2)).getD 0
      let busy := taken ++ a.used
      let (s, n) := freeNumber busy e.base (busy.length + 1) start
      { used := s :: a.used, next := (e.base, n) :: a.next.filter (·.1 != e.base), symbols := a.symbols ++ [(e.id, s)] }
    else { a with used := e.base :: a.used, symbols := a.symbols ++ [(e.id, e.base)] }

/-- the symbols of the declarations of one file, which come in order of first declaration -/
def assign (r : Registry) (group : List Declaration) : List (Nat × String) :=
  let taken := group.map fun e => (r.linkOf? e.id).getD e.base
  (group.foldl (fun (a : Assignment) e => a.name taken e (r.linkOf? e.id)) {}).symbols

/-- all attributes of a named node; a derived one may replace the symbol or the file -/
def attributes (r : Registry) (file : String) (id : Nat) (symbol : String) : List (Placeholder × String) :=
  (r.naming.derived.map fun (attr, f) => (⟨id, attr⟩, f symbol file))
    ++ [(⟨id, symbolAttr⟩, symbol), (⟨id, fileAttr⟩, file)]

/-- the files that own something, in order of their paths -/
def files (r : Registry) : List String := sortedSet (r.now.entries.map Declaration.file)

def computeNames (r : Registry) : Names :=
  let groups := r.files.map fun f =>
    (f, r.assign ((r.now.entries.filter (·.file == f)).mergeSort fun a b => a.seq ≤ b.seq))
  { values := groups.flatMap fun (f, ss) => ss.flatMap fun (id, s) => r.attributes f id s
    symbols := Dict.ofList (groups.map fun (f, ss) => (f, ss.map (·.2))) }

/-- makes the names final; a second time changes nothing -/
def finalize (r : Registry) : Registry :=
  if r.names.isSome then r else { r with names := some r.computeNames }

def lookup? (r : Registry) (p : Placeholder) : Option String :=
  (r.names.bind fun n => n.values.find? (·.1 == p)).map (·.2)

/-- the final symbols of a file in order -/
def symbols (r : Registry) (file : String) : List String :=
  (r.names.bind fun n => n.symbols.get? file).getD []

/-! ## Resolving -/

/-- the value of a token, if it has one -/
def valueOf? (r : Registry) (p : Option Placeholder) : Option String := p.bind r.lookup?

/-- one pass: every known token replaced by its value -/
def pass (r : Registry) (text : String) : String :=
  String.join ((Placeholder.split text).map fun
    | .words w => w
    | .token t p => (r.valueOf? p).getD t)

/-- the tokens that a pass replaces, with their values -/
def applied (r : Registry) (text : String) : List (String × String) :=
  (Placeholder.split text).filterMap fun
    | .words _ => none
    | .token t p => (r.valueOf? p).map (t, ·)

/-- names may lead to further names, this many times -/
def maxPasses : Nat := 3

def passes (r : Registry) : Nat → String → List (String × String) → String × List (String × String)
  | 0, text, seen => (text, seen)
  | n + 1, text, seen => passes r n (r.pass text) (seen ++ r.applied text)

/-- the text with all tokens replaced, and the values that were put in; fails on a token that is left over -/
def resolve (r : Registry) (text : String) : Registry × Outcome (String × Dict String) :=
  let r := r.finalize
  let (out, seen) := r.passes maxPasses text []
  let left := (Placeholder.split out).findSome? fun
    | .words _ => none
    | .token _ p => some (p.getD ⟨0, ""⟩)
  match left with
  | some p =>
    (r, failWith (.fault .referenceNotFound { node := p.node, attr := p.attr, detail := "target " ++ r.target }))
  | none => (r, .ok (out, Dict.ofList seen))

end Registry

end Schemata
