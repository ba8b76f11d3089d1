import Schemata.Uri
import Schemata.Yaml.Resolve

/-!
YAML documents as records of known fields.

Each field of a record has a reader for what stands there. A field that is null keeps its value, a list that is null
becomes empty, and a key that no field has is an error. A merge key adds the fields of other mappings behind those
of the mapping itself: what was set before stays.

Binary scalars are written in the standard alphabet of 64 characters: four characters stand for three bytes, and the
last group may be filled up with `=`.
-/

namespace Schemata.Text.Base64

/-- the six bits of a character -/
def digit? (c : Char) : Option Nat :=
  if 'A' ≤ c && c ≤ 'Z' then some (c.toNat - 65)
  else if 'a' ≤ c && c ≤ 'z' then some (c.toNat - 71)
  else if c.isDigit then some (c.toNat + 4)
  else if c == '+' then some 62
  else if c == '/' then some 63
  else none

/-- the first `count` bytes of 24 bits -/
def bytes (count bits : Nat) : List UInt8 :=
  ([bits / 65536, bits / 256, bits].take count).map fun n => UInt8.ofNat (n % 256)

/-- the bytes of a text; only the last group may be filled up -/
def decode? : List Char → Option (List UInt8)
  | [] => some []
  | [a, b, '=', '='] => do return bytes 1 ((← digit? a) * 262144 + (← digit? b) * 4096)
  | [a, b, c, '='] => do return bytes 2 ((← digit? a) * 262144 + (← digit? b) * 4096 + (← digit? c) * 64)
  | a :: b :: c :: d :: rest => do
    let group := (← digit? a) * 262144 + (← digit? b) * 4096 + (← digit? c) * 64 + (← digit? d)
    return bytes 3 group ++ (← decode? rest)
  | _ => none

/-- the text whose bytes are written; bytes that are no text become replacement characters -/
def decodeText? (s : String) : Option String :=
  (decode? (s.toList.filter fun c => c != '\n' && c != '\r')).map fun bs =>
    String.ofList (Uri.decodeBytes (bs.length + 1) bs)

end Schemata.Text.Base64

namespace Schemata.Yaml

/-- what a scalar is to a reader that knows the type it wants -/
inductive Typed where
  | null
  | bool (b : Bool)
  /-- a number, with nothing but its text of interest -/
  | number
  | text (s : String)
  deriving Repr, DecidableEq

/-- a node that does not fit -/
def mismatch {α : Type} (n : Node) (problem : String) : Read α := .error { line := n.mark.line + 1, problem }

/-- a scalar by its tag, its style and its text; a tag must fit the text -/
def typed (n : Node) (tag : String) (style : Style) (text : String) : Read Typed :=
  let tag := shortTag tag
  let plain : Typed := match Scalar.ofPlain text with
    | .null => .null
    | .bool b => .bool b
    | .int _ => .number
    | .float _ => .number
    | .text => .text text
  if tag = "" || tag = "!" then .ok (if style ≠ .plain then .text text else plain)
  else
    match tag, Scalar.ofPlain text with
    | "!!str", _ => .ok (.text text)
    | "!!binary", _ => match Text.Base64.decodeText? text with
      | some s => .ok (.text s)
      | none => mismatch n "!!binary value contains invalid base64 data"
    | "!!null", .null => .ok .null
    | "!!bool", .bool b => .ok (.bool b)
    | "!!int", .int _ => .ok .number
    | "!!float", .int k => if k < (Nat.pow 2 63 : Int) then .ok .number else mismatch n "cannot decode !!int as a !!float"
    | "!!float", .float _ => .ok .number
    | "!!merge", .text => if text = "<<" then .ok plain else mismatch n "cannot decode !!str as a !!merge"
    | _, _ => mismatch n ("cannot decode " ++ text ++ " as a " ++ tag)

/-- the node that an alias names -/
def Node.target (table : Array Node) : Node → Node
  | reference m _ i => (table[i]?).getD (.empty m)
  | n => n

/-- reads what stands at a field into a record -/
abbrev Slot (ρ : Type) := (table : Array Node) → Node → ρ → Read ρ

/-- the text of a scalar; null gives none -/
def textOf (table : Array Node) (n : Node) : Read (Option String) :=
  match n.target table with
  | .scalar m tag style text => do
    match ← typed (.scalar m tag style text) tag style text with
    | .null => return none
    | .text s => return some s
    | _ => return some text
  | other => mismatch other "cannot unmarshal into string"

/-- a field that holds a text; numbers and booleans count as written -/
def textSlot {ρ : Type} (set : String → ρ → ρ) : Slot ρ := fun table n r => do
  match ← textOf table n with
  | some s => return set s r
  | none => return r

/-- a field that is on or off, also in words of older versions -/
def boolSlot {ρ : Type} (set : Bool → ρ → ρ) : Slot ρ := fun table n r => do
  match n.target table with
  | .scalar m tag style text =>
    match ← typed (.scalar m tag style text) tag style text with
    | .null => return r
    | .bool b => return set b r
    | .text s =>
      if ["y", "Y", "yes", "on"].contains s then return set true r
      else if ["n", "N", "no", "off"].contains s then return set false r
      else mismatch n "cannot unmarshal into bool"
    | .number => mismatch n "cannot unmarshal into bool"
  | other => mismatch other "cannot unmarshal into bool"

/-- a field that holds texts; nulls among them are left out -/
def textsSlot {ρ : Type} (set : List String → ρ → ρ) : Slot ρ := fun table n r => do
  match n.target table with
  | .sequence _ items => return set ((← items.mapM (textOf table)).filterMap id) r
  | .scalar m tag style text =>
    match ← typed (.scalar m tag style text) tag style text with
    | .null => return set [] r
    | _ => mismatch n "cannot unmarshal into list"
  | other => mismatch other "cannot unmarshal into list"

/-! ## Records -/

/-- keys are the same if they are of one sort and have one text -/
def Node.sameKey : Node → Node → Bool
  | scalar _ _ _ a, scalar _ _ _ b => a == b
  | reference _ a _, reference _ b _ => a == b
  | sequence _ _, sequence _ _ => true
  | mapping _ _, mapping _ _ => true
  | _, _ => false

def hasTwice : List Node → Bool
  | [] => false
  | k :: ks => ks.any k.sameKey || hasTwice ks

/-- does a key stand for the fields of other mappings? -/
def Node.isMergeKey : Node → Bool
  | scalar _ tag style text =>
    text == "<<" && (shortTag tag == "!!merge" || ((tag == "" || tag == "!") && style == .plain))
  | _ => false

/-- fields set so far: by the mapping itself, and by all mappings that take part in a merge -/
structure Taken where
  here : List String := []
  merged : Option (List String) := none

/-- one entry of a mapping -/
def readEntry {ρ : Type} (fields : List (String × Slot ρ)) (table : Array Node) (key value : Node) (acc : ρ × Taken) :
    Read (ρ × Taken) := do
  match ← textOf table key with
  | none => return acc
  | some name =>
    let (r, taken) := acc
    if (taken.merged.getD []).contains name then return acc
    let taken := { taken with merged := taken.merged.map (name :: ·) }
    match fields.find? (·.1 == name) with
    | none => mismatch key ("field " ++ name ++ " not found")
    | some (_, slot) =>
      if taken.here.contains name then mismatch key ("field " ++ name ++ " already set")
      return (← slot table value r, { taken with here := name :: taken.here })

def readEntries {ρ : Type} (fields : List (String × Slot ρ)) (table : Array Node) :
    List (Node × Node) → ρ × Taken → Read (ρ × Taken)
  | [], acc => .ok acc
  | (key, value) :: rest, acc => do
    if key.isMergeKey then readEntries fields table rest acc
    else readEntries fields table rest (← readEntry fields table key value acc)

mutual

/-- the fields of a mapping, and of those that it merges; `depth` bounds how far merges lead -/
def readMapping {ρ : Type} (fields : List (String × Slot ρ)) (table : Array Node) :
    (depth : Nat) → List (Node × Node) → ρ → (merged : Option (List String)) → Read (ρ × Option (List String))
  | 0, _, _, _ => .error { problem := "anchor value contains itself" }
  | depth + 1, entries, r, merged => do
    let keys := entries.map (·.1)
    if hasTwice keys then .error { problem := "mapping key already defined" }
    else
      let (r, taken) ← readEntries fields table entries (r, { merged })
      match entries.find? (·.1.isMergeKey) with
      | none => return (r, taken.merged)
      | some (_, source) =>
        let sources := match source with
          | .sequence _ items => items
          | n => [n]
        let inner := taken.merged.getD (keys.map Node.keyText)
        let (r, inner) ← readMerged fields table depth sources r inner
        return (r, merged.map fun _ => inner)

/-- the mappings behind a merge key, in order -/
def readMerged {ρ : Type} (fields : List (String × Slot ρ)) (table : Array Node) :
    (depth : Nat) → List Node → ρ → List String → Read (ρ × List String)
  | _, [], r, merged => .ok (r, merged)
  | 0, _, _, _ => .error { problem := "anchor value contains itself" }
  | depth + 1, n :: ns, r, merged => do
    match n.target table with
    | .mapping _ entries =>
      let (r, merged') ← readMapping fields table depth entries r (some merged)
      readMerged fields table depth ns r (merged'.getD merged)
    | _ => mismatch n "map merge requires map or sequence of maps as the value"

end

/-- a record at a node; null leaves it as it is -/
def readRecord {ρ : Type} (fields : List (String × Slot ρ)) : Slot ρ := fun table n r => do
  match n.target table with
  | .mapping m entries =>
    let bound := depthBound table (.mapping m entries)
    return (← readMapping fields table (2 * bound + 2) entries r none).1
  | .scalar m tag style text =>
    match ← typed (.scalar m tag style text) tag style text with
    | .null => return r
    | _ => mismatch n "cannot unmarshal into record"
  | other => mismatch other "cannot unmarshal into record"

/-- a field that holds a record of its own -/
def recordSlot {ρ σ : Type} (get : ρ → σ) (set : σ → ρ → ρ) (fields : List (String × Slot σ)) : Slot ρ :=
  fun table n r => do return set (← readRecord fields table n (get r)) r

/-- reads the first document of a text over a record; without any document the record stays -/
def readOver {ρ : Type} (fields : List (String × Slot ρ)) (text : String) (r : ρ) : Read ρ := do
  let stream ← Stream.ofText text
  match ← nextDocument true stream with
  | (none, _) => return r
  | (some n, s) => readRecord fields s.table n r

end Schemata.Yaml
