import Mathlib.Tactic
import Schemata.Schema.Text
import Schemata.Proofs.Dict
import Schemata.Proofs.Json.Text
import Schemata.Proofs.Schema.Tree

/-!
The text of a schema as a document.

`Json.ofData` is the document of a value and `Schema.json` the document of a schema: its keywords with their values, in
the order of `Keyword.all`, and everything empty left out. `text_json` says that the text of a schema is the text of
this document, whose numbers are all spelled out.
-/

namespace Schemata

theorem except_bind_ok {ε α β : Type} {x : Except ε α} {f : α → Except ε β} {b : β} (h : (x >>= f) = .ok b) :
    ∃ a, x = .ok a ∧ f a = .ok b := by
  cases x with
  | error e => cases h
  | ok a => exact ⟨a, rfl, h⟩

theorem except_map_ok {ε α β : Type} {x : Except ε α} {f : α → β} {b : β} (h : x.map f = .ok b) :
    ∃ a, x = .ok a ∧ f a = b := by
  cases x with
  | error e => cases h
  | ok a => exact ⟨a, rfl, by simpa [Except.map] using h⟩

/-- what is found out about a result can be said of the outcome -/
theorem ok_of_any {ε α : Type} {o : Except ε α} {P : α → Bool} (h : o.toOption.any P = true) : ∃ a, o = .ok a ∧ P a = true := by
  cases o with
  | error e => cases h
  | ok a => exact ⟨a, rfl, h⟩

/-! ## Numbers -/

namespace Json

theorem isNumberChar_digit {c : Char} (h : c.isDigit = true) : isNumberChar c = true := by
  simp [isNumberChar, h]

/-- does a text consist of number characters? -/
def Numeric (s : String) : Prop := ∀ c ∈ s.toList, isNumberChar c = true

theorem Numeric.append {s t : String} (hs : Numeric s) (ht : Numeric t) : Numeric (s ++ t) := by
  intro c hc
  rw [String.toList_append] at hc
  exact (List.mem_append.1 hc).elim (hs c) (ht c)

theorem Spelled.append {s t : String} (hs : Spelled s) (ht : Numeric t) : Spelled (s ++ t) := by
  refine ⟨fun h => hs.1 ?_, Numeric.append hs.2 ht⟩
  have := congrArg String.toList h
  rw [String.toList_append] at this
  exact String.toList_eq_nil_iff.1 (List.append_eq_nil_iff.1 this).1

theorem spelled_nat (n : Nat) : Spelled (toString n) := by
  rw [← String.ofList_toList (s := toString n), Text.toList_toString_nat]
  exact spelled_ofList Nat.toDigits_ne_nil fun c hc =>
    isNumberChar_digit (Nat.isDigit_of_mem_toDigits (by decide) (by decide) hc)

theorem spelled_int (n : Int) : Spelled (toString n) := by
  rw [← String.ofList_toList (s := toString n), Text.toList_toString_int]
  refine spelled_ofList (fun h => Nat.toDigits_ne_nil (List.append_eq_nil_iff.1 h).2) fun c hc => ?_
  rcases List.mem_append.1 hc with hc | hc
  · split at hc
    · obtain rfl : c = '-' := by simpa using hc
      decide
    · cases hc
  · exact isNumberChar_digit (Nat.isDigit_of_mem_toDigits (by decide) (by decide) hc)

theorem numeric_zeros (n : Nat) : Numeric (Number.zeros n) := by
  intro c hc
  rw [Number.zeros, String.toList_ofList] at hc
  obtain rfl := List.eq_of_mem_replicate hc
  decide

theorem numeric_exponentText (e : Int) : Numeric (Number.exponentText e) := by
  rw [Number.exponentText]
  refine Numeric.append ?_ ?_
  · split <;> simp [Numeric, isNumberChar]
  · split
    · exact Numeric.append (by simp [Numeric, isNumberChar]) (spelled_nat _).2
    · exact (spelled_nat _).2

theorem spelled_digits (n : Number.Layout) (d : Number.Decimal) : Spelled (n.digits d) := by
  have hdigits := spelled_nat d.coefficient
  have htake {k : Nat} (hk : 0 < k) : Spelled (String.ofList ((toString d.coefficient).toList.take k)) :=
    spelled_ofList (by simp [hk.ne']) fun c hc => hdigits.2 c (List.mem_of_mem_take hc)
  have hdrop (k : Nat) : Numeric (String.ofList ((toString d.coefficient).toList.drop k)) := by
    intro c hc
    rw [String.toList_ofList] at hc
    exact hdigits.2 c (List.mem_of_mem_drop hc)
  have hpoint : Numeric "." := by simp [Numeric, isNumberChar]
  have he : Numeric "e" := by simp [Numeric, isNumberChar]
  unfold Number.Layout.digits
  split
  · exact spelled_nat 0
  · simp only
    split
    · split
      · refine Spelled.append (Spelled.append ⟨by decide, by simp [isNumberChar]⟩ (numeric_zeros _)) ?_
        rw [String.ofList_toList]
        exact hdigits.2
      · split
        · rw [String.ofList_toList]
          exact hdigits.append (numeric_zeros _)
        · rename_i h _
          exact ((htake (by omega)).append hpoint).append (hdrop _)
    · refine (((htake (by decide)).append ?_).append he).append (numeric_exponentText _)
      split
      · simp [Numeric]
      · exact hpoint.append (hdrop _)

theorem spelled_wire (f : Number.BinaryFormat) {x : Float} (h : Number.isFinite x = true) :
    Spelled (Number.Layout.wire.text f x) := by
  unfold Number.isFinite at h
  split at h
  · rename_i negative d hx
    simp only [Number.Layout.text, hx]
    cases negative with
    | true => exact (@spelled_ofList ['-'] (by simp) (by simp [isNumberChar])).append (spelled_digits _ _).2
    | false => simpa using spelled_digits _ _
  · cases h

theorem mem_numeralsIn {fs : List (String × Json)} {n : String} : n ∈ numeralsIn fs ↔ ∃ f ∈ fs, n ∈ f.2.numerals := by
  induction fs with
  | nil => simp [numeralsIn]
  | cons f fs ih => simp [numeralsIn, ih]

/-! ## Values -/

mutual

/-- the document of a value -/
def ofData : Value → Json
  | .null => .null
  | .bool b => .bool b
  | .float x => .number (Number.Layout.wire.text Number.double x)
  | .single x => .number (Number.Layout.wire.text Number.single x)
  | .int _ _ n => .number (toString n)
  | .literal t => .number (if t.isEmpty then "0" else t)
  | .string s => .string s
  | .array xs => .array (ofDataItems xs)
  | .object fs => .object (ofDataFields fs)

def ofDataItems : List Value → List Json
  | [] => []
  | x :: xs => ofData x :: ofDataItems xs

def ofDataFields : List (String × Value) → List (String × Json)
  | [] => []
  | (k, x) :: fs => (k, ofData x) :: ofDataFields fs

end

theorem ofDataItems_eq (xs : List Value) : ofDataItems xs = xs.map ofData := by
  induction xs with
  | nil => rfl
  | cons x xs ih => rw [ofDataItems, ih, List.map_cons]

theorem ofDataFields_eq (fs : List (String × Value)) : ofDataFields fs = fs.map fun e => (e.1, ofData e.2) := by
  induction fs with
  | nil => rfl
  | cons e fs ih => rw [ofDataFields, ih, List.map_cons]

/-- a text is that of a document whose numbers are spelled out -/
def Writes (t : String) (j : Json) : Prop := t = j.text ∧ ∀ n ∈ j.numerals, Spelled n

theorem floatText_writes {f : Number.BinaryFormat} {x : Float} {t : String} (h : floatText f x = .ok t) :
    Writes t (.number (Number.Layout.wire.text f x)) := by
  unfold floatText at h
  split at h
  · rename_i hx
    cases h
    exact ⟨rfl, by simpa [numerals] using spelled_wire f hx⟩
  · cases h

theorem literalText_writes {t u : String} (h : literalText t = .ok u) :
    Writes u (.number (if t.isEmpty then "0" else t)) := by
  unfold literalText at h
  split at h
  · rename_i ht
    cases h
    refine ⟨by rw [if_pos ht]; rfl, fun n hn => ?_⟩
    obtain rfl : n = "0" := by simpa [numerals, ht] using hn
    exact ⟨by decide, by simp [isNumberChar]⟩
  · rename_i ht
    split at h
    · rename_i hc
      cases h
      refine ⟨by rw [if_neg ht]; rfl, ?_⟩
      have : Spelled t := ⟨by simpa using ht, by simpa using hc⟩
      simpa [numerals, ht] using this
    · cases h

mutual

/-- the text of a value is the text of its document -/
theorem compact_writes : ∀ {v : Value} {t : String}, compact v = .ok t → Writes t (ofData v)
  | .null, t, h => by cases h; exact ⟨rfl, by simp [ofData, numerals]⟩
  | .bool b, t, h => by cases h; exact ⟨rfl, by simp [ofData, numerals]⟩
  | .float x, t, h => floatText_writes h
  | .single x, t, h => floatText_writes h
  | .int s w n, t, h => by cases h; exact ⟨rfl, by simpa [ofData, numerals] using spelled_int n⟩
  | .literal u, t, h => literalText_writes h
  | .string s, t, h => by cases h; exact ⟨rfl, by simp [ofData, numerals]⟩
  | .array xs, t, h => by
    obtain ⟨ts, hts, rfl⟩ := except_map_ok h
    obtain ⟨h1, h2⟩ := compactItems_writes hts
    exact ⟨by rw [h1]; rfl, h2⟩
  | .object fs, t, h => by
    obtain ⟨ts, hts, rfl⟩ := except_map_ok h
    obtain ⟨h1, h2⟩ := compactFields_writes hts
    exact ⟨by rw [h1]; rfl, h2⟩

theorem compactItems_writes : ∀ {xs : List Value} {ts : List String}, compactItems xs = .ok ts →
    ts = textItems (ofDataItems xs) ∧ ∀ n ∈ numeralsOf (ofDataItems xs), Spelled n
  | [], ts, h => by cases h; exact ⟨rfl, by simp [ofDataItems, numeralsOf]⟩
  | x :: xs, ts, h => by
    obtain ⟨t, ht, h⟩ := except_bind_ok h
    obtain ⟨us, hus, h⟩ := except_bind_ok h
    cases h
    obtain ⟨rfl, h1⟩ := compact_writes ht
    obtain ⟨rfl, h2⟩ := compactItems_writes hus
    refine ⟨rfl, fun n hn => ?_⟩
    rw [ofDataItems, numeralsOf] at hn
    exact (List.mem_append.1 hn).elim (h1 n) (h2 n)

theorem compactFields_writes : ∀ {fs : List (String × Value)} {ts : List String}, compactFields fs = .ok ts →
    ts = textFields (ofDataFields fs) ∧ ∀ n ∈ numeralsIn (ofDataFields fs), Spelled n
  | [], ts, h => by cases h; exact ⟨rfl, by simp [ofDataFields, numeralsIn]⟩
  | (k, x) :: fs, ts, h => by
    obtain ⟨t, ht, h⟩ := except_bind_ok h
    obtain ⟨us, hus, h⟩ := except_bind_ok h
    cases h
    obtain ⟨rfl, h1⟩ := compact_writes ht
    obtain ⟨rfl, h2⟩ := compactFields_writes hus
    refine ⟨rfl, fun n hn => ?_⟩
    rw [ofDataFields, numeralsIn] at hn
    exact (List.mem_append.1 hn).elim (h1 n) (h2 n)

end

end Json

namespace Schema

open Json (Writes Spelled)

/-! ## Keywords -/

/-- the keywords of fixed meaning, in the order in which they are written -/
inductive Keyword where
  | schemaUri | ref | title | description | type | format | default | examples | readOnly | deprecated | nullable
  | enum | const | minLength | maxLength | pattern | minimum | maximum | exclusiveMinimum | exclusiveMaximum | multipleOf
  | properties | required | additional | propertyNames | items | additionalItems | minItems | maxItems | uniqueItems
  | anyOf | oneOf | allOf | discriminator | definitions | defs | rules
  deriving DecidableEq

namespace Keyword

def all : List Keyword :=
  [schemaUri, ref, title, description, type, format, default, examples, readOnly, deprecated, nullable, enum, const,
   minLength, maxLength, pattern, minimum, maximum, exclusiveMinimum, exclusiveMaximum, multipleOf, properties, required,
   additional, propertyNames, items, additionalItems, minItems, maxItems, uniqueItems, anyOf, oneOf, allOf, discriminator,
   definitions, defs, rules]

def name : Keyword → String
  | schemaUri => "$schema"
  | ref => "$ref"
  | title => "title"
  | description => "description"
  | type => "type"
  | format => "format"
  | default => "default"
  | examples => "examples"
  | readOnly => "readOnly"
  | deprecated => "deprecated"
  | nullable => "nullable"
  | enum => "enum"
  | const => "const"
  | minLength => "minLength"
  | maxLength => "maxLength"
  | pattern => "pattern"
  | minimum => "minimum"
  | maximum => "maximum"
  | exclusiveMinimum => "exclusiveMinimum"
  | exclusiveMaximum => "exclusiveMaximum"
  | multipleOf => "multipleOf"
  | properties => "properties"
  | required => "required"
  | additional => "additionalProperties"
  | propertyNames => "propertyNames"
  | items => "items"
  | additionalItems => "additionalItems"
  | minItems => "minItems"
  | maxItems => "maxItems"
  | uniqueItems => "uniqueItems"
  | anyOf => "anyOf"
  | oneOf => "oneOf"
  | allOf => "allOf"
  | discriminator => "discriminator"
  | definitions => "definitions"
  | defs => "$defs"
  | rules => "x-rules"

theorem mem_all (w : Keyword) : w ∈ all := by
  cases w <;> decide

theorem nodup_names : (all.map name).Nodup := by
  decide +kernel

theorem name_injective : Function.Injective name := by
  intro a b h
  exact List.inj_on_of_nodup_map nodup_names (mem_all a) (mem_all b) h

end Keyword

/-! ## Documents -/

def wordJson (s : String) : Option Json := if s = "" then none else some (.string s)

def flagJson (b : Bool) : Option Json := if b then some (.bool true) else none

def intJson (n : Option Int) : Option Json := n.map fun n => .number (toString n)

def floatJson (x : Option Float) : Option Json := x.map fun x => .number (Number.Layout.wire.text Number.double x)

def valueJson (v : Option Value) : Option Json := v.map Json.ofData

def listJson (xs : List Json) : Option Json := if xs.isEmpty then none else some (.array xs)

def mapJson (fs : List (String × Json)) : Option Json := if fs.isEmpty then none else some (.object fs)

def discriminatorJson (d : Discriminator) : Json :=
  .object ([("propertyName", .string d.propertyName)] ++
    (mapJson (d.mapping.map fun e => (e.1, .string e.2))).toList.map ("mapping", ·))

def ruleJson (r : Rule) : Json := .object ([("rule", .string r.expr)] ++ (wordJson r.message).toList.map ("message", ·))

def Beyond.json : Beyond Json → Option Json
  | .unset => none
  | .flag b => some (.bool b)
  | .sub j => some j

/-- a missing schema for all items is written as one without keywords -/
def Elements.json : Elements Json → Option Json
  | .unset => none
  | .single .null => some (.object [])
  | .single j => some j
  | .tuple js => some (.array js)

/-- a missing schema is left out -/
def namesJson : Json → Option Json
  | .null => none
  | j => some j

/-- the written value of a keyword, unless it is left out -/
def Parts.member (p : Parts Json) : Keyword → Option Json
  | .schemaUri => wordJson p.own.schemaUri
  | .ref => wordJson p.own.ref
  | .title => wordJson p.own.title
  | .description => wordJson p.own.description
  | .type => valueJson p.own.type
  | .format => wordJson p.own.format
  | .default => valueJson p.own.default
  | .examples => listJson (p.own.examples.map Json.ofData)
  | .readOnly => flagJson p.own.readOnly
  | .deprecated => flagJson p.own.deprecated
  | .nullable => flagJson p.own.nullable
  | .enum => listJson ((p.own.enum.getD []).map Json.ofData)
  | .const => valueJson p.own.const
  | .minLength => intJson p.own.minLength
  | .maxLength => intJson p.own.maxLength
  | .pattern => wordJson p.own.pattern
  | .minimum => floatJson p.own.minimum
  | .maximum => floatJson p.own.maximum
  | .exclusiveMinimum => valueJson p.own.exclusiveMinimum
  | .exclusiveMaximum => valueJson p.own.exclusiveMaximum
  | .multipleOf => floatJson p.own.multipleOf
  | .properties => mapJson (p.properties.getD [])
  | .required => listJson (p.own.required.map .string)
  | .additional => p.additional.json
  | .propertyNames => namesJson p.propertyNames
  | .items => p.items.json
  | .additionalItems => p.additionalItems.json
  | .minItems => intJson p.own.minItems
  | .maxItems => intJson p.own.maxItems
  | .uniqueItems => flagJson p.own.uniqueItems
  | .anyOf => listJson (p.anyOf.getD [])
  | .oneOf => listJson (p.oneOf.getD [])
  | .allOf => listJson (p.allOf.getD [])
  | .discriminator => p.own.discriminator.map discriminatorJson
  | .definitions => mapJson p.definitions
  | .defs => mapJson p.defs
  | .rules => listJson (p.own.rules.map ruleJson)

/-- a keyword with its value, unless it is left out -/
def Parts.entry (p : Parts Json) (w : Keyword) : List (String × Json) := (p.member w).toList.map (w.name, ·)

/-- the keywords with their values, in the order of all keywords -/
def Parts.members (p : Parts Json) : List (String × Json) := Keyword.all.flatMap p.entry

/-- the keywords of no fixed meaning with their values -/
def Parts.further (p : Parts Json) : List (String × Json) := p.own.extra.map fun e => (e.1, Json.ofData e.2)

/-- the members of the document: as soon as there are further keywords, in the order of all names -/
def Parts.fields (p : Parts Json) : List (String × Json) :=
  if p.own.extra.isEmpty then p.members else Dict.ofList (p.further ++ p.members)

theorem mem_members {p : Parts Json} {e : String × Json} :
    e ∈ p.members ↔ ∃ w j, p.member w = some j ∧ e = (w.name, j) := by
  simp only [Parts.members, Parts.entry, List.mem_flatMap, List.mem_map, Option.mem_toList]
  constructor
  · rintro ⟨w, -, j, hj, rfl⟩
    exact ⟨w, j, hj, rfl⟩
  · rintro ⟨w, j, hj, rfl⟩
    exact ⟨w, Keyword.mem_all w, j, hj, rfl⟩

theorem mem_fields {p : Parts Json} {e : String × Json} (he : e ∈ p.fields) : e ∈ p.further ∨ e ∈ p.members := by
  unfold Parts.fields at he
  split at he
  · exact .inr he
  · exact List.mem_append.1 (Dict.mem_ofList he)

/-- the document of a schema -/
def json : Schema → Json := fold .null fun p => .object p.fields

theorem json_ofBody (b : Body) : (ofBody b).json = .object (b.parts json).fields := fold_ofBody _ _ b

/-! ## Texts -/

/-- texts are those of documents -/
def WritesList (ts : List String) (js : List Json) : Prop := List.Forall₂ Writes ts js

/-- entries with texts are those of members of a document -/
def WritesAll (es : List Entry) (fs : List (String × Json)) : Prop :=
  List.Forall₂ (fun e f => e.1 = f.1 ∧ Writes e.2 f.2) es fs

theorem WritesList.items {ts : List String} {js : List Json} (h : WritesList ts js) :
    ts = Json.textItems js ∧ ∀ n ∈ Json.numeralsOf js, Spelled n := by
  induction h with
  | nil => exact ⟨rfl, by simp [Json.numeralsOf]⟩
  | cons h _ ih =>
    refine ⟨by rw [h.1, ih.1]; rfl, fun n hn => ?_⟩
    rw [Json.numeralsOf] at hn
    exact (List.mem_append.1 hn).elim (h.2 n) (ih.2 n)

theorem WritesAll.members {es : List Entry} {fs : List (String × Json)} (h : WritesAll es fs) :
    es.map (fun e => Text.jsonString e.1 ++ ":" ++ e.2) = Json.textFields fs ∧ ∀ n ∈ Json.numeralsIn fs, Spelled n := by
  induction h with
  | nil => exact ⟨rfl, by simp [Json.numeralsIn]⟩
  | @cons e f es fs h _ ih =>
    obtain ⟨k, j⟩ := f
    refine ⟨by rw [List.map_cons, ih.1, h.1, h.2.1]; rfl, fun n hn => ?_⟩
    rw [Json.numeralsIn] at hn
    exact (List.mem_append.1 hn).elim (h.2.2 n) (ih.2 n)

theorem brackets_writes {ts : List String} {js : List Json} (h : WritesList ts js) : Writes (brackets ts) (.array js) :=
  ⟨by rw [brackets, h.items.1]; rfl, h.items.2⟩

theorem braces_writes {es : List Entry} {fs : List (String × Json)} (h : WritesAll es fs) :
    Writes (braces es) (.object fs) :=
  ⟨by rw [braces, h.members.1]; rfl, h.members.2⟩

theorem WritesAll.append {es es' : List Entry} {fs fs' : List (String × Json)} (h : WritesAll es fs)
    (h' : WritesAll es' fs') : WritesAll (es ++ es') (fs ++ fs') :=
  List.rel_append h h'

theorem writes_string (s : String) : Writes (Text.jsonString s) (.string s) := ⟨rfl, by simp [Json.numerals]⟩

theorem writes_bool (b : Bool) : Writes (if b then "true" else "false") (.bool b) := ⟨rfl, by simp [Json.numerals]⟩

theorem writesAll_nil : WritesAll [] [] := .nil

theorem writesAll_single {key t : String} {j : Json} (h : Writes t j) : WritesAll [(key, t)] [(key, j)] :=
  .cons ⟨rfl, h⟩ .nil

/-! ## One keyword -/

section

variable {key : String}

theorem textEntry_writes (s : String) : WritesAll (textEntry key s) ((wordJson s).toList.map (key, ·)) := by
  unfold textEntry wordJson
  split
  · exact writesAll_nil
  · exact writesAll_single (writes_string s)

theorem boolEntry_writes (b : Bool) : WritesAll (boolEntry key b) ((flagJson b).toList.map (key, ·)) := by
  cases b
  · exact writesAll_nil
  · exact writesAll_single (writes_bool true)

theorem intEntry_writes (n : Option Int) : WritesAll (intEntry key n) ((intJson n).toList.map (key, ·)) := by
  cases n with
  | none => exact writesAll_nil
  | some n => exact writesAll_single ⟨rfl, by simpa [Json.numerals] using Json.spelled_int n⟩

theorem valueEntry_writes {v : Option Value} {es : List Entry} (h : valueEntry key v = .ok es) :
    WritesAll es ((valueJson v).toList.map (key, ·)) := by
  cases v with
  | none => cases h; exact writesAll_nil
  | some v =>
    obtain ⟨t, ht, rfl⟩ := except_map_ok h
    exact writesAll_single (Json.compact_writes ht)

theorem floatEntry_writes {x : Option Float} {es : List Entry} (h : floatEntry key x = .ok es) :
    WritesAll es ((floatJson x).toList.map (key, ·)) := by
  cases x with
  | none => cases h; exact writesAll_nil
  | some x =>
    obtain ⟨t, ht, rfl⟩ := except_map_ok h
    exact writesAll_single (Json.floatText_writes ht)

theorem valuesEntry_writes {vs : List Value} {es : List Entry} (h : valuesEntry key vs = .ok es) :
    WritesAll es ((listJson (vs.map Json.ofData)).toList.map (key, ·)) := by
  unfold valuesEntry at h
  cases vs with
  | nil => cases h; exact writesAll_nil
  | cons v vs =>
    obtain ⟨t, ht, rfl⟩ := except_map_ok h
    have := Json.compact_writes ht
    rw [Json.ofData, Json.ofDataItems_eq] at this
    exact writesAll_single this

theorem listEntry_writes {ts : List String} {js : List Json} (h : WritesList ts js) :
    WritesAll (listEntry key ts) ((listJson js).toList.map (key, ·)) := by
  cases h with
  | nil => exact writesAll_nil
  | cons h hs => exact writesAll_single (brackets_writes (.cons h hs))

theorem mapEntry_writes {es : List Entry} {fs : List (String × Json)} (h : WritesAll es fs) :
    WritesAll (mapEntry key es) ((mapJson fs).toList.map (key, ·)) := by
  cases h with
  | nil => exact writesAll_nil
  | cons h hs => exact writesAll_single (braces_writes (.cons h hs))

end

theorem writesList_map {α : Type} {t : α → String} {j : α → Json} (h : ∀ a, Writes (t a) (j a)) (as : List α) :
    WritesList (as.map t) (as.map j) :=
  List.forall₂_map_left_iff.2 (List.forall₂_map_right_iff.2 (List.forall₂_same.2 fun a _ => h a))

theorem discriminatorText_writes (d : Discriminator) : Writes (discriminatorText d) (discriminatorJson d) := by
  refine braces_writes (.append (writesAll_single (writes_string _)) ?_)
  have hmap : WritesAll (d.mapping.map fun e => (e.1, Text.jsonString e.2)) (d.mapping.map fun e => (e.1, .string e.2)) :=
    List.forall₂_map_left_iff.2 (List.forall₂_map_right_iff.2 (List.forall₂_same.2 fun e _ => ⟨rfl, writes_string _⟩))
  have := @mapEntry_writes "mapping" _ _ hmap
  rw [mapEntry, List.isEmpty_map] at this
  exact this

theorem ruleText_writes (r : Rule) : Writes (ruleText r) (ruleJson r) :=
  braces_writes (.append (writesAll_single (writes_string _)) (textEntry_writes _))

/-! ## One level -/

/-- the texts below a schema are those of the documents below it -/
structure BelowWrites (b : Below) (p : Parts Json) : Prop where
  properties : WritesAll b.properties (p.entry .properties)
  additional : WritesAll b.additional (p.entry .additional)
  propertyNames : WritesAll b.propertyNames (p.entry .propertyNames)
  items : WritesAll b.items (p.entry .items)
  additionalItems : WritesAll b.additionalItems (p.entry .additionalItems)
  composition : WritesAll b.composition (p.entry .anyOf ++
    p.entry .oneOf ++ p.entry .allOf)
  definitions : WritesAll b.definitions (p.entry .definitions ++
    p.entry .defs)

theorem entries_writes {p : Parts Json} {b : Below} (hb : BelowWrites b p) {es : List Entry}
    (h : entries p.own b = .ok es) : WritesAll es p.members := by
  obtain ⟨type, htype, h⟩ := except_bind_ok h
  obtain ⟨default, hdefault, h⟩ := except_bind_ok h
  obtain ⟨examples, hexamples, h⟩ := except_bind_ok h
  obtain ⟨enum, henum, h⟩ := except_bind_ok h
  obtain ⟨const, hconst, h⟩ := except_bind_ok h
  obtain ⟨minimum, hminimum, h⟩ := except_bind_ok h
  obtain ⟨maximum, hmaximum, h⟩ := except_bind_ok h
  obtain ⟨exclusiveMinimum, hexclusiveMinimum, h⟩ := except_bind_ok h
  obtain ⟨exclusiveMaximum, hexclusiveMaximum, h⟩ := except_bind_ok h
  obtain ⟨multipleOf, hmultipleOf, h⟩ := except_bind_ok h
  obtain rfl := Except.ok.inj h
  have hrequired : WritesAll
      (if p.own.required.isEmpty then [] else [("required", brackets (p.own.required.map Text.jsonString))])
      (p.entry .required) := by
    have := @listEntry_writes "required" _ _ (writesList_map writes_string p.own.required)
    rw [listEntry, List.isEmpty_map] at this
    exact this
  have hrules : WritesAll (if p.own.rules.isEmpty then [] else [("x-rules", brackets (p.own.rules.map ruleText))])
      (p.entry .rules) := by
    have := @listEntry_writes "x-rules" _ _ (writesList_map ruleText_writes p.own.rules)
    rw [listEntry, List.isEmpty_map] at this
    exact this
  have hmembers : p.members =
      p.entry .schemaUri ++ p.entry .ref ++ p.entry .title ++ p.entry .description ++ p.entry .type ++ p.entry .format
      ++ p.entry .default ++ p.entry .examples ++ p.entry .readOnly ++ p.entry .deprecated ++ p.entry .nullable
      ++ p.entry .enum ++ p.entry .const ++ p.entry .minLength ++ p.entry .maxLength ++ p.entry .pattern
      ++ p.entry .minimum ++ p.entry .maximum ++ p.entry .exclusiveMinimum ++ p.entry .exclusiveMaximum
      ++ p.entry .multipleOf ++ p.entry .properties ++ p.entry .required ++ p.entry .additional ++ p.entry .propertyNames
      ++ p.entry .items ++ p.entry .additionalItems ++ p.entry .minItems ++ p.entry .maxItems ++ p.entry .uniqueItems
      ++ (p.entry .anyOf ++ p.entry .oneOf ++ p.entry .allOf) ++ p.entry .discriminator
      ++ (p.entry .definitions ++ p.entry .defs) ++ p.entry .rules := by
    simp only [Parts.members, Keyword.all, List.flatMap_cons, List.flatMap_nil, List.append_nil, List.append_assoc]
  rw [hmembers]
  refine textEntry_writes _ |>.append (textEntry_writes _) |>.append (textEntry_writes _) |>.append (textEntry_writes _)
    |>.append (valueEntry_writes htype) |>.append (textEntry_writes _) |>.append (valueEntry_writes hdefault)
    |>.append (valuesEntry_writes hexamples) |>.append (boolEntry_writes _) |>.append (boolEntry_writes _)
    |>.append (boolEntry_writes _) |>.append (valuesEntry_writes henum) |>.append (valueEntry_writes hconst)
    |>.append (intEntry_writes _) |>.append (intEntry_writes _) |>.append (textEntry_writes _)
    |>.append (floatEntry_writes hminimum) |>.append (floatEntry_writes hmaximum)
    |>.append (valueEntry_writes hexclusiveMinimum) |>.append (valueEntry_writes hexclusiveMaximum)
    |>.append (floatEntry_writes hmultipleOf) |>.append hb.properties |>.append hrequired |>.append hb.additional
    |>.append hb.propertyNames |>.append hb.items |>.append hb.additionalItems |>.append (intEntry_writes _)
    |>.append (intEntry_writes _) |>.append (boolEntry_writes _) |>.append hb.composition |>.append ?_
    |>.append hb.definitions |>.append hrules
  rw [Parts.entry, Parts.member]
  cases p.own.discriminator with
  | none => exact writesAll_nil
  | some d => exact writesAll_single (discriminatorText_writes d)

/-- further keywords and the others together, in the order of their names -/
theorem sorted_writes {es : List Entry} {fs : List (String × Json)} (h : WritesAll es fs) :
    Writes ("\x7b" ++ ",".intercalate ((Dict.ofList (es.map fun e => (e.1, Text.jsonString e.1 ++ ":" ++ e.2))).map (·.2))
      ++ "\x7d") (.object (Dict.ofList fs)) := by
  have hes : es.map (fun e => (e.1, Text.jsonString e.1 ++ ":" ++ e.2)) =
      fs.map fun f => (f.1, Text.jsonString f.1 ++ ":" ++ f.2.text) := by
    induction h with
    | nil => rfl
    | cons h _ ih => rw [List.map_cons, List.map_cons, ih, h.1, h.2.1]
  have hfields (d : List (String × Json)) :
      d.map (fun f => Text.jsonString f.1 ++ ":" ++ f.2.text) = Json.textFields d := by
    induction d with
    | nil => rfl
    | cons f d ih => rw [List.map_cons, ih]; rfl
  refine ⟨?_, fun n hn => ?_⟩
  · rw [hes, Dict.ofList_map fun f : String × Json => Text.jsonString f.1 ++ ":" ++ f.2.text, List.map_map]
    simp only [Function.comp_def, hfields]
    rfl
  · rw [Json.numerals, Json.mem_numeralsIn] at hn
    obtain ⟨f, hf, hn⟩ := hn
    exact h.members.2 n (Json.mem_numeralsIn.2 ⟨f, Dict.mem_ofList hf, hn⟩)

/-! ## Whole schemas -/

/-- a text of the schema, if it has one, is that of its document -/
def Written (s : Schema) : Prop := ∀ t, text s = .ok t → Writes t s.json

theorem textList_writes {ss : List Schema} (hs : ∀ s ∈ ss, Written s) {ts : List String} (h : textList ss = .ok ts) :
    WritesList ts (ss.map json) := by
  induction ss generalizing ts with
  | nil => cases h; exact .nil
  | cons s ss ih =>
    obtain ⟨t, ht, h⟩ := except_bind_ok h
    obtain ⟨us, hus, h⟩ := except_bind_ok h
    cases h
    exact .cons (hs s (by simp) t ht) (ih (fun s h => hs s (List.mem_cons_of_mem _ h)) hus)

theorem textGiven_writes {o : Option (List Schema)} (hs : ∀ s ∈ o.getD [], Written s) {ts : List String}
    (h : textGiven o = .ok ts) : WritesList ts ((o.map (·.map json)).getD []) := by
  cases o with
  | none => cases h; exact .nil
  | some ss => exact textList_writes hs h

theorem textFields_writes {fs : List (String × Schema)} (hs : ∀ e ∈ fs, Written e.2) {es : List Entry}
    (h : textFields fs = .ok es) : WritesAll es (fs.map fun e => (e.1, json e.2)) := by
  induction fs generalizing es with
  | nil => cases h; exact .nil
  | cons e fs ih =>
    obtain ⟨t, ht, h⟩ := except_bind_ok h
    obtain ⟨us, hus, h⟩ := except_bind_ok h
    cases h
    exact .cons ⟨rfl, hs e (by simp) t ht⟩ (ih (fun e h => hs e (List.mem_cons_of_mem _ h)) hus)

theorem textOptional_writes {o : Option (List (String × Schema))} (hs : ∀ e ∈ o.getD [], Written e.2) {es : List Entry}
    (h : textOptional o = .ok es) : WritesAll es ((o.map fun fs => fs.map fun e => (e.1, json e.2)).getD []) := by
  cases o with
  | none => cases h; exact .nil
  | some fs => exact textFields_writes hs h

theorem textExtent_writes {x : Extent} (hs : ∀ s ∈ Extent.toList x, Written s) {ts : List String}
    (h : textExtent x = .ok ts) (key : String) :
    WritesAll (ts.map fun t => (key, t)) ((Beyond.ofExtent json x).json.toList.map (key, ·)) := by
  cases x with
  | unset => cases h; exact .nil
  | flag b => cases h; exact writesAll_single (writes_bool b)
  | sub s =>
    obtain ⟨t, ht, rfl⟩ := except_map_ok h
    exact writesAll_single (hs s (by simp [Extent.toList, Beyond.ofExtent, Beyond.toList]) t ht)

theorem json_node (b : Body) : ∃ fs, (ofBody b).json = .object fs := ⟨_, json_ofBody b⟩

theorem textItems_writes {x : Items} (hs : ∀ s ∈ Items.toList x, Written s) {ts : List String}
    (h : textItems x = .ok ts) (key : String) :
    WritesAll (ts.map fun t => (key, t)) ((Elements.ofItems json x).json.toList.map (key, ·)) := by
  cases x with
  | unset => cases h; exact .nil
  | single s =>
    obtain rfl | ⟨b, rfl⟩ := eq_absent_or_ofBody s
    · cases h
      exact writesAll_single ⟨rfl, by simp [Json.numerals, Json.numeralsIn]⟩
    · obtain ⟨t, ht, rfl⟩ := except_map_ok h
      have hw := hs (ofBody b) (by simp [Items.toList, Elements.ofItems, Elements.toList]) t ht
      obtain ⟨fs, hfs⟩ := json_node b
      rw [Elements.ofItems, hfs]
      rw [hfs] at hw
      exact writesAll_single hw
  | tuple ss =>
    obtain ⟨us, hus, rfl⟩ := except_map_ok h
    refine writesAll_single (brackets_writes (textList_writes (fun s h => hs s ?_) hus))
    simpa [Items.toList, Elements.ofItems, Elements.toList] using h

theorem names_writes {s : Schema} {t : String} (h : Writes t s.json) (key : String) :
    WritesAll (if s.isAbsent then [] else [(key, t)]) ((namesJson s.json).toList.map (key, ·)) := by
  obtain rfl | ⟨b, rfl⟩ := eq_absent_or_ofBody s
  · exact .nil
  · obtain ⟨fs, hfs⟩ := json_node b
    rw [hfs] at h ⊢
    exact writesAll_single h

theorem further_writes {extra : Dict Value} {ts : List String} (h : Json.compactFields extra = .ok ts) :
    ∃ es, WritesAll es (extra.map fun e => (e.1, Json.ofData e.2)) ∧
      (extra.map (·.1)).zip ts = es.map fun e => (e.1, Text.jsonString e.1 ++ ":" ++ e.2) := by
  induction extra generalizing ts with
  | nil => cases h; exact ⟨[], .nil, rfl⟩
  | cons e extra ih =>
    obtain ⟨t, ht, h⟩ := except_bind_ok h
    obtain ⟨us, hus, h⟩ := except_bind_ok h
    cases h
    obtain ⟨es, hes, hzip⟩ := ih hus
    exact ⟨(e.1, t) :: es, .cons ⟨rfl, Json.compact_writes ht⟩ hes, by simp [hzip]⟩

theorem text_node {b : Body} (hb : b.Below Written) : Written (ofBody b) := by
  intro t h
  rw [ofBody, text] at h
  obtain ⟨ps, hps, h⟩ := except_bind_ok h
  obtain ⟨add, hadd, h⟩ := except_bind_ok h
  obtain ⟨names, hnames, h⟩ := except_bind_ok h
  obtain ⟨its, hits, h⟩ := except_bind_ok h
  obtain ⟨addItems, haddItems, h⟩ := except_bind_ok h
  obtain ⟨anys, hanys, h⟩ := except_bind_ok h
  obtain ⟨ones, hones, h⟩ := except_bind_ok h
  obtain ⟨alls, halls, h⟩ := except_bind_ok h
  obtain ⟨ds1, hds1, h⟩ := except_bind_ok h
  obtain ⟨ds2, hds2, h⟩ := except_bind_ok h
  obtain ⟨es, hes, h⟩ := except_bind_ok h
  have hbelow := entries_writes (p := b.parts json) ⟨mapEntry_writes (textOptional_writes hb.properties hps),
    textExtent_writes hb.additional hadd _, names_writes (hb.propertyNames _ hnames) _,
    textItems_writes hb.items hits _, textExtent_writes hb.additionalItems haddItems _,
    ((listEntry_writes (textGiven_writes hb.anyOf hanys)).append
      (listEntry_writes (textGiven_writes hb.oneOf hones))).append (listEntry_writes (textGiven_writes hb.allOf halls)),
    (mapEntry_writes (textFields_writes hb.definitions hds1)).append
      (mapEntry_writes (textFields_writes hb.defs hds2))⟩ hes
  rw [json_ofBody, Parts.fields]
  have hown : (b.parts json).own = b.own := rfl
  rw [hown]
  split at h
  · rename_i hempty
    rw [if_pos hempty]
    obtain rfl := Except.ok.inj h
    exact braces_writes hbelow
  · rename_i hempty
    rw [if_neg hempty]
    obtain ⟨-, -, h⟩ := except_bind_ok h
    obtain ⟨ts, hts, h⟩ := except_bind_ok h
    obtain rfl := Except.ok.inj h
    obtain ⟨fs, hfs, hzip⟩ := further_writes hts
    simp only [hzip, ← List.map_append]
    exact sorted_writes (hfs.append hbelow)

/-- **The text of a schema is the text of its document.** -/
theorem text_writes {s : Schema} {t : String} (h : text s = .ok t) : Writes t s.json := by
  refine treeInduction (P := Written) ?_ (fun b hb => text_node hb) s t h
  intro t h
  cases h
  exact ⟨rfl, by simp [json, Json.numerals]⟩

end Schema

end Schemata
