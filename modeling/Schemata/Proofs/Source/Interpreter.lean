import Schemata.Program.Check
import Schemata.Proofs.Source.Constant

/-!
Running generated validators.

A function of a file runs its statements one after the other, each on the issues found so far, and at the end the rules
that it has deferred. Functions and variables are found by their names, constants are what their text stands for. A call
takes a budget of nested calls; `none` says that the budget does not suffice, or that the text is no code.
-/

namespace Schemata.Source

/-- a check in a generated file: it adds to the issues so far -/
abbrev Action := Value → Pointer → List Issue → Option (List Issue)

/-- what a function has bound -/
inductive Subject where
  | nothing
  | text (s : String)
  | number (x : Float)
  | items (xs : List Value)
  | fields (fs : Dict Value)

/-- helpers read the wording, and the flag of coercion that they are called with -/
def helpers (w : Wording) (coerce : Bool) : Check.Context := ⟨default, coerce, w⟩

/-- the asserted value, or the issues of a value of another kind -/
def Assertion.apply (w : Wording) (v : Value) (p : Pointer) : Assertion → Except (List Issue) Subject
  | string =>
    match v with
    | .string s => .ok (.text s)
    | v => .error (Check.invalidType (helpers w false) p "string" v)
  | number c =>
    match Check.asNumber (helpers w c) v with
    | some x => .ok (.number x)
    | none => .error (Check.invalidType (helpers w c) p "number" v)
  | integer c =>
    match Check.asInteger (helpers w c) v with
    | some x => .ok (.number x)
    | none => .error (Check.invalidType (helpers w c) p "integer" v)
  | boolean c =>
    match Check.boolean (helpers w c) v p with
    | [] => .ok .nothing
    | is => .error is
  | null => if v.isNull then .ok .nothing else .error (Check.invalidType (helpers w false) p "null" v)
  | array =>
    match v with
    | .array xs => .ok (.items xs)
    | v => .error (Check.invalidType (helpers w false) p "array" v)
  | object =>
    match v with
    | .object fs => .ok (.fields fs)
    | v => .error (Check.invalidType (helpers w false) p "object" v)

/-! ## Variables -/

def File.variable? (file : File) (name : String) : Option Initial :=
  (file.vars.find? (·.name == name)).map (·.initial)

/-- a compiled pattern with its text -/
def File.pattern? (file : File) (v : Variable) : Option (String × Pattern) :=
  match file.variable? v.name with
  | some (.pattern t) => (textConstant t).bind fun t => (Pattern.parse t).toOption.map (t, ·)
  | _ => none

def File.values? (file : File) (v : Variable) : Option (List Value) :=
  match file.variable? v.name with
  | some (.values ts) => readValues ts
  | _ => none

def File.rule? (file : File) (v : Variable) : Option Rule :=
  match file.variable? v.name with
  | some (.rule r) =>
    (textConstant r.expr).bind fun expr => (textConstant r.message).bind fun message =>
      (Rule.compile expr).toOption.map fun _ => ⟨expr, message⟩
  | _ => none

/-! ## Helpers that call functions -/

/-- actions one after the other -/
def inTurn (actions : List (List Issue → Option (List Issue))) (iss : List Issue) : Option (List Issue) :=
  actions.foldlM (fun iss action => action iss) iss

variable (w : Wording) (calls : Nat → Action)

/-- tries functions one after the other, each with a list of its own, and stops at the first that adds nothing -/
def tryEach (v : Value) (p : Pointer) (otherwise : Issue) (iss : List Issue) : List Nat → Option (List Issue)
  | [] => some (iss ++ [otherwise])
  | n :: ns =>
    match calls n v p [] with
    | none => none
    | some [] => some iss
    | some _ => tryEach v p otherwise iss ns

def anyOf (v : Value) (p : Pointer) (iss : List Issue) : List Nat → Option (List Issue)
  | [n] => calls n v p iss
  | ns => tryEach calls v p (Check.report (helpers w false) p .unionNoMatch [("variants", .nat ns.length)]) iss ns

def oneOf (v : Value) (p : Pointer) (iss : List Issue) (ns : List Nat) : Option (List Issue) :=
  (ns.mapM fun n => calls n v p []).map fun rs =>
    let matched := (rs.filter List.isEmpty).length
    iss ++ if matched = 0 then [Check.report (helpers w false) p .unionNoMatch [("variants", .nat ns.length)]]
      else if matched > 1 then [Check.report (helpers w false) p .unionAmbiguous [("matched", .nat matched)]]
      else []

def tagged (v : Value) (p : Pointer) (iss : List Issue) (key : String) (variants : Dict Nat) : Option (List Issue) :=
  match v with
  | .object fs =>
    match Dict.get? fs key with
    | none => some (iss ++ [Check.report (helpers w false) (p.field key) .discriminatorMissing [("key", .string key)]])
    | some tag =>
      match Dict.get? variants tag.display with
      | some n => calls n v p iss
      | none => some (iss ++
          [Check.report (helpers w false) (p.field key) .discriminatorUnknown [("key", .string key), ("value", tag)]])
  | v => some (iss ++ Check.invalidType (helpers w false) p "object" v)

/-- the check of one position; one beyond the listed positions goes to `rest` -/
def tupleItem (p : Pointer) (rest : Option Nat) (ns : List Nat) :
    Value × Nat → Option (List Issue → Option (List Issue))
  | (x, i) =>
    match ns[i]?, rest with
    | some n, _ => some (calls n x (p.index i))
    | none, some n => some (calls n x (p.index i))
    | none, none => none

/-! ## Statements and functions -/

/-- the functions by tag, with the tags that their texts stand for -/
def tagConstants (variants : List (String × Nat)) : Option (Dict Nat) :=
  variants.mapM fun e => (textConstant e.1).map fun t => (t, e.2)

/-- a statement that binds nothing, on what the function has bound -/
def Statement.act (file : File) (v : Value) (p : Pointer) : Statement → Subject → List Issue → Option (List Issue)
  | assert a, _, iss =>
    match a.apply w v p with
    | .ok _ => some iss
    | .error is => some (iss ++ is)
  | minLength n, .text s, iss =>
    (intConstant n).map fun n => iss ++ Check.length (helpers w false) p "characters" s.length (some n) none
  | maxLength n, .text s, iss =>
    (intConstant n).map fun n => iss ++ Check.length (helpers w false) p "characters" s.length none (some n)
  | pattern r, .text s, iss =>
    (file.pattern? r).map fun (t, re) =>
      iss ++ Check.issueIf (!re.search s) (Check.report (helpers w false) p .pattern [("pattern", .string t)])
  | format name f, .text s, iss =>
    (textConstant name).map fun name =>
      iss ++ Check.issueIf (!f.holds s) (Check.report (helpers w false) p .invalidFormat [("format", .string name)])
  | minimum m e, .number x, iss =>
    (numberConstant (boundLiteral m)).map fun m =>
      iss ++ Check.bounds (helpers w false) { type := .number, min := some m, exclusiveMin := e } p x
  | maximum m e, .number x, iss =>
    (numberConstant (boundLiteral m)).map fun m =>
      iss ++ Check.bounds (helpers w false) { type := .number, max := some m, exclusiveMax := e } p x
  | multipleOf m, .number x, iss =>
    (numberConstant (boundLiteral m)).map fun m =>
      iss ++ Check.bounds (helpers w false) { type := .number, multipleOf := some m } p x
  | minItems n, .items xs, iss =>
    (intConstant n).map fun n => iss ++ Check.length (helpers w false) p "items" xs.length (some n) none
  | maxItems n, .items xs, iss =>
    (intConstant n).map fun n => iss ++ Check.length (helpers w false) p "items" xs.length none (some n)
  | unique, .items xs, iss => some (iss ++ Check.unique (helpers w false) xs p)
  | items n, .items xs, iss => inTurn (xs.zipIdx.map fun (x, i) => calls n x (p.index i)) iss
  | tuple n closed rest ns, .items xs, iss =>
    (intConstant n).bind fun n =>
      inTurn (xs.zipIdx.filterMap (tupleItem calls p rest ns))
        (iss ++ Check.length (helpers w false) p "items" xs.length (some n) (if closed then some ns.length else none))
  | required keys, .fields fs, iss =>
    (textConstants keys).map fun keys => iss ++ Check.missing (helpers w false) fs p keys
  | field key n, .fields fs, iss =>
    (textConstant key).bind fun key =>
      match Dict.get? fs key with
      | some x => calls n x (p.field key) iss
      | none => some iss
  | unknown known, .fields fs, iss =>
    (textConstants known).map fun known => iss ++ Check.unknownKeys (helpers w false) fs known p
  | additional n known, .fields fs, iss =>
    (textConstants known).bind fun known =>
      inTurn ((Check.unknownEntries fs known).map fun (k, x) => calls n x (p.field k)) iss
  | keyPattern r, .fields fs, iss =>
    (file.pattern? r).map fun (t, re) =>
      iss ++ (fs.filter fun (k, _) => !re.search k).map fun (k, _) =>
        Check.report (helpers w false) (p.field k) .pattern [("pattern", .string t), ("key", .string k)]
  | anyOf ns, _, iss => Source.anyOf w calls v p iss ns
  | oneOf ns, _, iss => Source.oneOf w calls v p iss ns
  | tagged key variants, _, iss =>
    (textConstant key).bind fun key => (tagConstants variants).bind fun variants =>
      Source.tagged w calls v p iss key variants
  | enum r, _, iss => (file.values? r).map fun values => iss ++ Check.enum (helpers w false) values v p
  | call n, _, iss => calls n v p iss
  | _, _, _ => none

/-- statements in order; a function returns where a binding fails -/
def runBody (file : File) (v : Value) (p : Pointer) : List Statement → Subject → List Issue → Option (List Issue)
  | [], _, iss => some iss
  | .bind a :: ss, _, iss =>
    match a.apply w v p with
    | .ok x => runBody file v p ss x iss
    | .error is => some (iss ++ is)
  | s :: ss, x, iss => (s.act w calls file v p x iss).bind (runBody file v p ss x)

/-- deferred rules, which run where nothing was added since the mark -/
def runRules (file : File) (v : Value) (p : Pointer) (mark : Nat) (rules : List Variable) (iss : List Issue) :
    Option (List Issue) :=
  if iss.length > mark then some iss
  else
    (rules.mapM file.rule?).map fun rs => iss ++ rs.flatMap fun r => Check.ruleIssue (helpers w false) r v p

/-- a call of a function by its number -/
def File.call (file : File) : Nat → Nat → Action
  | 0, _ => fun _ _ _ => none
  | fuel + 1, n => fun v p iss =>
    match file.functions.find? (·.number == n) with
    | none => none
    | some f =>
      if f.nullable && v.isNull then some iss
      else
        (runBody w (file.call fuel) file v p f.body .nothing iss).bind fun found =>
          if f.rules.isEmpty then some found else runRules w file v p iss.length f.rules found

/-- the entry function -/
def File.run (file : File) (fuel : Nat) (v : Value) : Option (List Issue) :=
  file.call w fuel file.entry v Pointer.root []

end Schemata.Source
