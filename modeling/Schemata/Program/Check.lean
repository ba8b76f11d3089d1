import Schemata.Program.Lower
import Schemata.Issue

/-!
Checking values against programs.

`Program.verify` says whether a program can be run at all: its patterns and rules can be read and its references
lead somewhere. `Check.issues` then walks a shape and a value together and lists what is wrong, in order. A walk
through references does not shrink the shape, so the walk carries a budget of nested steps; `Program.validate`
computes one that only a cycle of references without progress in the value can use up.
-/

namespace Schemata

namespace Verify

def patternRuns (p : String) : Outcome Unit :=
  if p = "" then .ok ()
  else
    match Pattern.parse p with
    | .ok _ => .ok ()
    | .error e => failWith (.unsupported e.message)

def rulesRun : List Rule → Outcome Unit
  | [] => .ok ()
  | r :: rs =>
    match Rule.compile r.expr with
    | .ok _ => rulesRun rs
    | .error e => failWith (.plain e.message)

def mappingRuns (variants : Nat) (d : Dispatch) : Outcome Unit :=
  if d.property = "" then .ok ()
  else if (d.mapping.getD []).all fun (_, i) => 0 ≤ i && i < variants then .ok ()
  else abort

mutual

/-- can the checks of a shape be run? what is below a shape comes before its own rules -/
def shape (p : Program) : Shape → Outcome Unit
  | .absent => abort
  | .foreign _ => failWith (.unsupported "ir node unknown")
  | .any b => rulesRun b.rules
  | .primitive b q => do
    match q.type with
    | .string => patternRuns q.pattern
    | .other n => failWith (.unsupported ("primitive " ++ n))
    | _ => pure ()
    rulesRun b.rules
  | .array b i _ => do
    if !i.isAbsent then shape p i
    rulesRun b.rules
  | .tuple b is r _ => do
    shapes p is
    if !r.isAbsent then shape p r
    rulesRun b.rules
  | .object b fs a q => do
    fields p fs
    if q.unknown = .checked && !a.isAbsent then shape p a
    patternRuns q.keyPattern
    rulesRun b.rules
  | .oneOf b vs d => do
    shapes p vs
    mappingRuns vs.length d
    rulesRun b.rules
  | .anyOf b vs => do
    shapes p vs
    rulesRun b.rules
  | .allOf b ps => do
    shapes p ps
    rulesRun b.rules
  | .enum b _ => rulesRun b.rules
  | .ref b n => do
    if (p.target? n).isNone then failWith (.of .referenceNotFound ("definition " ++ n))
    rulesRun b.rules

def shapes (p : Program) : List Shape → Outcome Unit
  | [] => .ok ()
  | s :: ss => do
    shape p s
    shapes p ss

def fields (p : Program) : List (String × Shape) → Outcome Unit
  | [] => .ok ()
  | (_, s) :: ss => do
    shape p s
    fields p ss

end

end Verify

/-- can the program be run? the definitions are looked at before the root -/
def Program.verify (p : Program) : Outcome Unit := do
  Verify.shapes p (p.order.map p.definition)
  Verify.shape p p.root

namespace Check

/-- what all checks of a run share -/
structure Context where
  program : Program
  coerce : Bool
  wording : Wording

variable (cx : Context)

def report (p : Pointer) (code : Code) (params : List (String × Value)) : Issue :=
  .report cx.wording p code params

def invalidType (p : Pointer) (expected : String) (v : Value) : List Issue :=
  [report cx p .invalidType [("expected", .string expected), ("got", .string v.typeName)]]

/-- an issue, when the condition holds -/
def issueIf (c : Bool) (i : Issue) : List Issue := if c then [i] else []

/-! ## Scalars -/

def length (p : Pointer) (unit : String) (got : Nat) (min max : Option Int) : List Issue :=
  let params (n : Int) : List (String × Value) :=
    [("limit", .ofInt n), ("got", .nat got), ("unit", .string unit)]
  (match min with
   | some n => issueIf (got < n) (report cx p .tooShort (params n))
   | none => [])
  ++ (match max with
   | some n => issueIf (got > n) (report cx p .tooLong (params n))
   | none => [])

def matchesText (pattern s : String) : Bool :=
  match Pattern.parse pattern with
  | .ok r => r.search s
  | .error _ => false

def string (q : Primitive) (v : Value) (p : Pointer) : List Issue :=
  match v with
  | .string s =>
    length cx p "characters" s.length q.minLength q.maxLength
      ++ issueIf (q.pattern ≠ "" && !matchesText q.pattern s) (report cx p .pattern [("pattern", .string q.pattern)])
      ++ (match Format.ofName? q.format with
          | some f => issueIf (!f.holds s) (report cx p .invalidFormat [("format", .string q.format)])
          | none => [])
  | v => invalidType cx p "string" v

/-- the number a value stands for; with coercion also the number a text spells -/
def numberOf (v : Value) : Option Float :=
  match v.number? with
  | some x => some x
  | none =>
    match cx.coerce, v with
    | true, .string s => Number.parse? s
    | _, _ => none

/-- a text that spells no finite number is no number; values of other kinds may be infinite -/
def asNumber (v : Value) : Option Float :=
  match v.number? with
  | some x => some x
  | none => (numberOf cx v).filter Number.isFinite

def asInteger (v : Value) : Option Float := (numberOf cx v).filter Number.isWhole

/-- is the quotient an integer, but for rounding? -/
def isMultiple (x m : Float) : Bool :=
  let q := x / m
  !((q - q.round).abs > 1e-9)

def bounds (q : Primitive) (p : Pointer) (x : Float) : List Issue :=
  let params (op : String) (limit : Float) : List (String × Value) :=
    [("op", .string op), ("limit", .float limit), ("got", .float x)]
  (match q.min with
   | some m =>
     if q.exclusiveMin then issueIf (x ≤ m) (report cx p .tooSmall (params ">" m))
     else issueIf (x < m) (report cx p .tooSmall (params ">=" m))
   | none => [])
  ++ (match q.max with
   | some m =>
     if q.exclusiveMax then issueIf (x ≥ m) (report cx p .tooBig (params "<" m))
     else issueIf (x > m) (report cx p .tooBig (params "<=" m))
   | none => [])
  ++ (match q.multipleOf with
   | some m => issueIf (!isMultiple x m) (report cx p .notMultiple [("limit", .float m), ("got", .float x)])
   | none => [])

def boolean (v : Value) (p : Pointer) : List Issue :=
  match v with
  | .bool _ => []
  | .string s => if cx.coerce && (s = "true" || s = "false") then [] else invalidType cx p "boolean" v
  | v => invalidType cx p "boolean" v

def primitive (q : Primitive) (v : Value) (p : Pointer) : List Issue :=
  match q.type with
  | .string => string cx q v p
  | .number =>
    match asNumber cx v with
    | some x => bounds cx q p x
    | none => invalidType cx p "number" v
  | .integer =>
    match asInteger cx v with
    | some x => bounds cx q p x
    | none => invalidType cx p "integer" v
  | .boolean => boolean cx v p
  | .null => if v.isNull then [] else invalidType cx p "null" v
  | .other _ => []

/-! ## Lists and keys -/

/-- the first item that equals an earlier one, with the first such earlier one; `i` is the index of the next item -/
def duplicate? (earlier : List Value) (i : Nat) : List Value → Option (Nat × Nat)
  | [] => none
  | x :: xs =>
    match earlier.findIdx? fun y => Value.equal x y with
    | some j => some (i, j)
    | none => duplicate? (earlier ++ [x]) (i + 1) xs

def unique (items : List Value) (p : Pointer) : List Issue :=
  match duplicate? [] 0 items with
  | some (i, j) => [report cx (p.index i) .notUnique [("duplicateOf", .nat j)]]
  | none => []

def enum (values : List Value) (v : Value) (p : Pointer) : List Issue :=
  issueIf (!values.any fun want => Value.equal v want) (report cx p .invalidEnum [("allowed", .nat values.length)])

def missing (fields : Dict Value) (p : Pointer) (keys : List String) : List Issue :=
  (keys.filter fun k => !Dict.has fields k).map fun k => report cx (p.field k) .required [("key", .string k)]

/-- the entries whose keys are not known, in order -/
def unknownEntries (fields : Dict Value) (known : List String) : List (String × Value) :=
  fields.filter fun (k, _) => !known.contains k

def unknownKeys (fields : Dict Value) (known : List String) (p : Pointer) : List Issue :=
  (unknownEntries fields known).map fun (k, _) => report cx (p.field k) .unknownKey [("key", .string k)]

def keyPattern (pattern : String) (fields : Dict Value) (p : Pointer) : List Issue :=
  if pattern = "" then []
  else (fields.filter fun (k, _) => !matchesText pattern k).map fun (k, _) =>
    report cx (p.field k) .pattern [("pattern", .string pattern), ("key", .string k)]

/-! ## Rules -/

/-- the issue of a rule that does not hold; its own message comes before the one of its code -/
def ruleIssue (r : Rule) (v : Value) (p : Pointer) : List Issue :=
  let issue (params : List (String × Value)) : List Issue :=
    let i := report cx p .rule params
    [if r.message = "" then i else { i with message := r.message }]
  match Rule.compile r.expr with
  | .error _ => []
  | .ok prog =>
    match prog.holds v with
    | .ok true => []
    | .ok false => issue [("rule", .string r.expr)]
    | .error e => issue [("rule", .string r.expr), ("error", .string e)]

/-- the rules of a shape, which run only where its own checks found nothing -/
def rules (b : Base) (v : Value) (p : Pointer) (own : List Issue) : List Issue :=
  if own.isEmpty then b.rules.flatMap fun r => ruleIssue cx r v p else own

/-! ## Shapes -/

/-- the issues of a list of checks, one after the other -/
def concat : List (Option (List Issue)) → Option (List Issue)
  | [] => some []
  | x :: xs =>
    match x, concat xs with
    | some a, some b => some (a ++ b)
    | _, _ => none

/-- tries one variant after the other and stops at the first that finds nothing wrong -/
def firstMatch (check : Shape → Option (List Issue)) (otherwise : Issue) : List Shape → Option (List Issue)
  | [] => some [otherwise]
  | s :: ss =>
    match check s with
    | none => none
    | some [] => some []
    | some _ => firstMatch check otherwise ss

/-- some variant must hold; a single variant speaks for itself -/
def anyOf (check : Shape → Option (List Issue)) (p : Pointer) : List Shape → Option (List Issue)
  | [s] => check s
  | ss => firstMatch check (report cx p .unionNoMatch [("variants", .nat ss.length)]) ss

def oneOf (count : Nat) (p : Pointer) (results : List (Option (List Issue))) : Option (List Issue) :=
  match results.mapM id with
  | none => none
  | some rs =>
    let matched := (rs.filter List.isEmpty).length
    some (if matched = 0 then [report cx p .unionNoMatch [("variants", .nat count)]]
      else if matched > 1 then [report cx p .unionAmbiguous [("matched", .nat matched)]]
      else [])

/-- the variant that the discriminator of a value selects, or the issue that it selects none -/
def select (d : Dispatch) (variants : List Shape) (v : Value) (p : Pointer) : Except (List Issue) Shape :=
  match v with
  | .object fs =>
    match Dict.get? fs d.property with
    | none => .error [report cx (p.field d.property) .discriminatorMissing [("key", .string d.property)]]
    | some tag =>
      match (Dict.get? (d.mapping.getD []) tag.display).bind fun i => variants[i.toNat]? with
      | some s => .ok s
      | none =>
        .error [report cx (p.field d.property) .discriminatorUnknown [("key", .string d.property), ("value", tag)]]
  | v => .error (invalidType cx p "object" v)

/-- everything that is wrong with a value, in order; `none` when the budget of nested steps does not suffice -/
def issues : Nat → Shape → Value → Pointer → Option (List Issue)
  | 0, _, _, _ => none
  | fuel + 1, s, v, p =>
    if s.base.nullable && v.isNull then some []
    else
      let items (xs : List Value) (start : Nat) (shape : Shape) : List (Option (List Issue)) :=
        xs.zipIdx.map fun (x, i) => issues fuel shape x (p.index (start + i : Nat))
      let own : Option (List Issue) :=
        match s with
        | .absent => some []
        | .foreign _ => some []
        | .any _ => some []
        | .primitive _ q => some (primitive cx q v p)
        | .array _ item l =>
          match v with
          | .array xs =>
            let flat := length cx p "items" xs.length l.minItems l.maxItems
              ++ (if l.unique then unique cx xs p else [])
            if item.isAbsent then some flat else concat (some flat :: items xs 0 item)
          | v => some (invalidType cx p "array" v)
        | .tuple _ positions rest l =>
          match v with
          | .array xs =>
            let n := positions.length
            let flat := length cx p "items" xs.length none l.maxItems
              ++ (if l.unique then unique cx xs p else [])
              ++ length cx p "items" xs.length (some l.minItems) (if l.closed then some n else none)
            let listed := (xs.zip positions).zipIdx.map fun ((x, shape), i) => issues fuel shape x (p.index i)
            let beyond := if rest.isAbsent then [] else items (xs.drop n) n rest
            concat (some flat :: (listed ++ beyond))
          | v => some (invalidType cx p "array" v)
        | .object _ fields additional q =>
          match v with
          | .object fs =>
            let known := fields.map (·.1)
            let listed := fields.map fun (k, shape) =>
              match Dict.get? fs k with
              | some x => issues fuel shape x (p.field k)
              | none => some []
            let beyond :=
              if q.unknown = .strict then [some (unknownKeys cx fs known p)]
              else if q.unknown = .checked && !additional.isAbsent then
                (unknownEntries fs known).map fun (k, x) => issues fuel additional x (p.field k)
              else []
            concat (some (missing cx fs p (q.requiredKeys fields)) :: (listed ++ beyond)
              ++ [some (keyPattern cx q.keyPattern fs p)])
          | v => some (invalidType cx p "object" v)
        | .oneOf _ variants d =>
          if d.property = "" then oneOf cx variants.length p (variants.map fun s => issues fuel s v p)
          else
            match select cx d variants v p with
            | .ok s => issues fuel s v p
            | .error is => some is
        | .anyOf _ variants => anyOf cx (fun s => issues fuel s v p) p variants
        | .allOf _ parts => concat (parts.map fun s => issues fuel s v p)
        | .enum _ values => some (enum cx values v p)
        | .ref _ name =>
          match cx.program.target? name with
          | some s => issues fuel s v p
          | none => some []
      own.map (rules cx s.base v p)

end Check

mutual

/-- how deep a value is nested -/
def Value.depth : Value → Nat
  | .array xs => depths xs + 1
  | .object fs => fieldDepths fs + 1
  | _ => 0

def Value.depths : List Value → Nat
  | [] => 0
  | x :: xs => max x.depth (depths xs)

def Value.fieldDepths : List (String × Value) → Nat
  | [] => 0
  | (_, x) :: xs => max x.depth (fieldDepths xs)

end

/-- the nested steps that a check of the value can take: at most every node of the program at each level of the value -/
def Program.budget (p : Program) (v : Value) : Nat := (v.depth + 1) * (p.size + 1) + 1

/-- everything that is wrong with a value; breaks off on references that lead in a circle -/
def Program.validate (p : Program) (coerce : Bool) (t : Wording) (v : Value) : Outcome (List Issue) :=
  match Check.issues ⟨p, coerce, t⟩ (p.budget v) p.root v Pointer.root with
  | some is => .ok is
  | none => abort

end Schemata
