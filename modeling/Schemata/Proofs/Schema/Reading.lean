import Mathlib.Tactic
import Schemata.Schema.Decode
import Schemata.Proofs.Schema.Text

/-!
Documents of schemas read back.

A schema that is written and read again, with a function applied to all its strings on the way, is not the same
schema: numbers come back as 64-bit floats, empty lists as none, and members in the order of their keys.
`Schema.reread` says what it is, and `ofJson_json` that nothing else is read. A document is read keyword by keyword in
any order; the invariant of the reader is that it holds the keywords it has seen (`Body.restrict`).
-/

namespace Schemata

/-- a value that is written and read again -/
def Value.reread (f : String → String) (v : Value) : Value := ((Json.ofData v).mapStrings f).toValue

namespace Schema

/-! ## What is read -/

/-- `null` is the same as leaving a keyword out -/
def rereadValue (f : String → String) : Option Value → Option Value
  | none => none
  | some .null => none
  | some v => some (v.reread f)

def rereadInt (n : Option Int) : Option Int := n.map (·.bmod (Nat.pow 2 64))

def rereadFloat (x : Option Float) : Option Float :=
  x.bind fun x => Number.parse? (Number.Layout.wire.text Number.double x)

def nonEmpty {α : Type} (xs : List α) : Option (List α) := if xs.isEmpty then none else some xs

def rereadMap {α : Type} (f : String → String) (fs : List (String × α)) : Dict α :=
  Dict.ofList (fs.map fun e => (f e.1, e.2))

def Discriminator.reread (f : String → String) (d : Discriminator) : Discriminator where
  propertyName := f d.propertyName
  mapping := rereadMap f (d.mapping.map fun e => (e.1, f e.2))

def Keywords.reread (f : String → String) (k : Keywords) : Keywords where
  schemaUri := f k.schemaUri
  ref := f k.ref
  title := f k.title
  description := f k.description
  type := rereadValue f k.type
  format := f k.format
  default := rereadValue f k.default
  examples := k.examples.map (·.reread f)
  readOnly := k.readOnly
  deprecated := k.deprecated
  nullable := k.nullable
  enum := nonEmpty ((k.enum.getD []).map (·.reread f))
  const := rereadValue f k.const
  minLength := rereadInt k.minLength
  maxLength := rereadInt k.maxLength
  pattern := f k.pattern
  minimum := rereadFloat k.minimum
  maximum := rereadFloat k.maximum
  exclusiveMinimum := rereadValue f k.exclusiveMinimum
  exclusiveMaximum := rereadValue f k.exclusiveMaximum
  multipleOf := rereadFloat k.multipleOf
  required := k.required.map f
  minItems := rereadInt k.minItems
  maxItems := rereadInt k.maxItems
  uniqueItems := k.uniqueItems
  discriminator := k.discriminator.map (Discriminator.reread f)
  rules := k.rules.map fun r => ⟨f r.expr, f r.message⟩
  extra := rereadMap f (k.extra.map fun e => (e.1, e.2.reread f))

/-- a missing schema beyond the listed ones is no schema at all -/
def Beyond.reread : Beyond Schema → Extent
  | .unset => .unset
  | .flag b => .flag b
  | .sub s => if s.isAbsent then .unset else .sub s

/-- a missing schema for all items becomes one without keywords -/
def Elements.reread : Elements Schema → Items
  | .unset => .unset
  | .single s => .single (if s.isAbsent then .empty else s)
  | .tuple ss => .tuple ss

def Parts.reread (f : String → String) (p : Parts Schema) : Body where
  own := Keywords.reread f p.own
  properties := (nonEmpty (p.properties.getD [])).map (rereadMap f)
  additional := p.additional.reread
  propertyNames := p.propertyNames
  items := p.items.reread
  additionalItems := p.additionalItems.reread
  anyOf := nonEmpty (p.anyOf.getD [])
  oneOf := nonEmpty (p.oneOf.getD [])
  allOf := nonEmpty (p.allOf.getD [])
  definitions := rereadMap f p.definitions
  defs := rereadMap f p.defs

/-- a schema that is written and read again -/
def reread (f : String → String) : Schema → Schema := fold .absent fun p => ofBody (p.reread f)

theorem reread_ofBody (f : String → String) (b : Body) :
    (ofBody b).reread f = ofBody ((b.parts (Schema.reread f)).reread f) := fold_ofBody _ _ b

@[simp] theorem reread_absent (f : String → String) : (Schema.absent).reread f = .absent := rfl

theorem isAbsent_reread (f : String → String) (s : Schema) : (s.reread f).isAbsent = s.isAbsent := by
  obtain rfl | ⟨b, rfl⟩ := eq_absent_or_ofBody s
  · rfl
  · rw [reread_ofBody]
    rfl

/-! ## Keyword by keyword -/

/-- the keywords of a schema that are in a set, with further keywords of its own -/
def Body.restrict (B : Body) (K : Keyword → Bool) (extra : Dict Value) : Body where
  own := {
    schemaUri := if K .schemaUri then B.own.schemaUri else ""
    ref := if K .ref then B.own.ref else ""
    title := if K .title then B.own.title else ""
    description := if K .description then B.own.description else ""
    type := if K .type then B.own.type else none
    format := if K .format then B.own.format else ""
    default := if K .default then B.own.default else none
    examples := if K .examples then B.own.examples else []
    readOnly := if K .readOnly then B.own.readOnly else false
    deprecated := if K .deprecated then B.own.deprecated else false
    nullable := if K .nullable then B.own.nullable else false
    enum := if K .enum then B.own.enum else none
    const := if K .const then B.own.const else none
    minLength := if K .minLength then B.own.minLength else none
    maxLength := if K .maxLength then B.own.maxLength else none
    pattern := if K .pattern then B.own.pattern else ""
    minimum := if K .minimum then B.own.minimum else none
    maximum := if K .maximum then B.own.maximum else none
    exclusiveMinimum := if K .exclusiveMinimum then B.own.exclusiveMinimum else none
    exclusiveMaximum := if K .exclusiveMaximum then B.own.exclusiveMaximum else none
    multipleOf := if K .multipleOf then B.own.multipleOf else none
    required := if K .required then B.own.required else []
    minItems := if K .minItems then B.own.minItems else none
    maxItems := if K .maxItems then B.own.maxItems else none
    uniqueItems := if K .uniqueItems then B.own.uniqueItems else false
    discriminator := if K .discriminator then B.own.discriminator else none
    rules := if K .rules then B.own.rules else []
    extra }
  properties := if K .properties then B.properties else none
  additional := if K .additional then B.additional else .unset
  propertyNames := if K .propertyNames then B.propertyNames else .absent
  items := if K .items then B.items else .unset
  additionalItems := if K .additionalItems then B.additionalItems else .unset
  anyOf := if K .anyOf then B.anyOf else none
  oneOf := if K .oneOf then B.oneOf else none
  allOf := if K .allOf then B.allOf else none
  definitions := if K .definitions then B.definitions else []
  defs := if K .defs then B.defs else []

/-! ## Values of keywords -/

/-- what the function must not change: the empty text and the names of keywords -/
structure Keeps (f : String → String) : Prop where
  empty : f "" = ""
  keyword : ∀ w : Keyword, f w.name = w.name
  member : ∀ s ∈ ["propertyName", "mapping", "rule", "message"], f s = s

variable {f : String → String} {key : String} {j : Json}

theorem wordJson_some {s : String} (h : wordJson s = some j) : j = .string s := by
  unfold wordJson at h
  split at h <;> simp_all

theorem flagJson_some {b : Bool} (h : flagJson b = some j) : j = .bool b := by
  unfold flagJson at h
  split at h <;> simp_all

theorem listJson_some {js : List Json} (h : listJson js = some j) : js ≠ [] ∧ j = .array js := by
  unfold listJson at h
  split at h <;> simp_all

theorem mapJson_some {fs : List (String × Json)} (h : mapJson fs = some j) : fs ≠ [] ∧ j = .object fs := by
  unfold mapJson at h
  split at h <;> simp_all

theorem mapStrings_list {js : List Json} (h : listJson js = some j) : j.mapStrings f ≠ .null := by
  obtain ⟨-, rfl⟩ := listJson_some h
  exact nofun

theorem nonEmpty_of_ne {α : Type} {xs : List α} (h : xs ≠ []) : nonEmpty xs = some xs := by
  simp [nonEmpty, h]

theorem mapStrings_ofData_eq_null {v : Value} (h : (Json.ofData v).mapStrings f = .null) : v = .null := by
  cases v <;> first | rfl | simp [Json.ofData, Json.mapStrings] at h

theorem valueJson_some {v : Option Value} (h : valueJson v = some j) :
    (j.mapStrings f = .null ∧ rereadValue f v = none) ∨
      (j.mapStrings f ≠ .null ∧ rereadValue f v = some (j.mapStrings f).toValue) := by
  obtain ⟨v, rfl, rfl⟩ := Option.map_eq_some_iff.1 h
  by_cases hv : v = .null
  · subst hv
    exact .inl ⟨rfl, rfl⟩
  · refine .inr ⟨fun hn => hv (mapStrings_ofData_eq_null hn), ?_⟩
    cases v <;> first | rfl | exact absurd rfl hv

theorem foldl_digits {ds : List Char} (h : ∀ c ∈ ds, c.isDigit = true) (n : Nat) :
    ds.foldl (fun (n : Int) c => n * 10 + ((c.toNat : Int) - 48)) n = Nat.ofDigitChars 10 ds n := by
  induction ds generalizing n with
  | nil => rfl
  | cons c ds ih =>
    have hc : 48 ≤ c.toNat := by
      have := h c (by simp)
      simp only [Char.isDigit, Bool.and_eq_true, decide_eq_true_eq] at this
      exact this.1
    rw [List.foldl_cons, Nat.ofDigitChars_cons, ← ih fun d hd => h d (List.mem_cons_of_mem c hd)]
    congr 1
    have : '0'.toNat = 48 := rfl
    omega

theorem asInt_read {n m : Option Int} (hj : intJson n = some j) (h : asInt key (j.mapStrings f) = .ok m) :
    m = rereadInt n := by
  obtain ⟨n, rfl, rfl⟩ := Option.map_eq_some_iff.1 hj
  have hdigits : ∀ c ∈ Nat.toDigits 10 n.natAbs, c.isDigit = true := fun c hc =>
    Nat.isDigit_of_mem_toDigits (by decide) (by decide) hc
  have hvalue : (Nat.toDigits 10 n.natAbs).foldl (fun (n : Int) c => n * 10 + ((c.toNat : Int) - 48)) 0 = n.natAbs := by
    have := foldl_digits hdigits 0
    rwa [Nat.ofDigitChars_ten_toDigits] at this
  change asInt key (.number (toString n)) = .ok m at h
  rw [asInt, Text.toList_toString_int] at h
  have hresult (negative : Bool) (hn : negative = decide (n < 0)) :
      some ((if negative then -(n.natAbs : Int) else n.natAbs).bmod (Nat.pow 2 64)) = rereadInt (some n) := by
    have : (if negative then -(n.natAbs : Int) else n.natAbs) = n := by
      rw [hn]
      split
      · rename_i h
        rw [decide_eq_true_eq] at h
        omega
      · rename_i h
        rw [decide_eq_true_eq] at h
        omega
    rw [this]
    rfl
  by_cases hn : n < 0
  · simp only [hn, if_true, List.singleton_append, hvalue] at h
    split at h
    · rw [← Except.ok.inj h]
      exact hresult true (by simp [hn])
    · cases h
  · rw [if_neg hn, List.nil_append] at h
    have hhead : ∀ r, Nat.toDigits 10 n.natAbs ≠ '-' :: r := by
      intro r heq
      exact absurd (hdigits '-' (by simp [heq])) (by decide)
    simp only at h
    split at h
    · rw [hvalue] at h
      rw [← Except.ok.inj h]
      exact hresult false (by simp [hn])
    · cases h

theorem asFloat_read {x y : Option Float} (hj : floatJson x = some j) (h : asFloat key (j.mapStrings f) = .ok y) :
    y = rereadFloat x := by
  obtain ⟨x, rfl, rfl⟩ := Option.map_eq_some_iff.1 hj
  exact (Except.ok.inj h).symm

theorem toValues_eq (js : List Json) : Json.toValues js = js.map Json.toValue := by
  induction js with
  | nil => rfl
  | cons j js ih => rw [Json.toValues, ih, List.map_cons]

theorem asValues_read {vs ws : List Value} (hj : listJson (vs.map Json.ofData) = some j)
    (h : asValues key (j.mapStrings f) = .ok ws) : ws = vs.map (·.reread f) := by
  obtain ⟨-, rfl⟩ := listJson_some hj
  rw [Json.mapStrings, Json.mapItems_eq, asValues, toValues_eq] at h
  rw [← Except.ok.inj h, List.map_map, List.map_map]
  rfl

theorem asTexts_read {ss ts : List String} (hj : listJson (ss.map .string) = some j)
    (h : asTexts key (j.mapStrings f) = .ok ts) : ts = ss.map f := by
  obtain ⟨-, rfl⟩ := listJson_some hj
  rw [Json.mapStrings, Json.mapItems_eq, asTexts, List.map_map] at h
  clear hj
  induction ss generalizing ts with
  | nil => exact (Except.ok.inj h).symm
  | cons s ss ih =>
    rw [List.map_cons, List.mapM_cons] at h
    obtain ⟨t, ht, h⟩ := except_bind_ok h
    obtain ⟨us, hus, h⟩ := except_bind_ok h
    obtain rfl := Except.ok.inj h
    rw [List.map_cons, ih hus]
    exact congrArg (· :: _) (Except.ok.inj ht).symm

theorem asMapping_texts (fs : List (String × String)) (acc : Dict String) :
    asMapping key acc (.object (fs.map fun e => (e.1, Json.string e.2))) =
      .ok (fs.foldl (fun d e => Dict.insert d e.1 e.2) acc) := by
  induction fs generalizing acc with
  | nil => rfl
  | cons e fs ih =>
    rw [List.foldl_cons, ← ih]
    rfl

theorem asDiscriminator_read (hf : Keeps f) {d d' : Discriminator}
    (h : asDiscriminator key { propertyName := "" } ((discriminatorJson d).mapStrings f) = .ok d') :
    d' = Discriminator.reread f d := by
  have hname : f "propertyName" = "propertyName" := hf.member _ (by simp)
  have hmapping : f "mapping" = "mapping" := hf.member _ (by simp)
  rw [discriminatorJson, Json.mapStrings, Json.mapMembers_eq] at h
  cases hm : d.mapping with
  | nil =>
    simp only [hm, List.map_nil, mapJson, List.isEmpty_nil, if_true, Option.toList_none, List.append_nil, List.map_cons,
      hname, Json.mapStrings] at h
    obtain rfl := Except.ok.inj h
    simp [Discriminator.reread, hm, rereadMap, Dict.ofList]
  | cons e es =>
    have hne : mapJson (d.mapping.map fun e => (e.1, Json.string e.2)) =
        some (.object (d.mapping.map fun e => (e.1, Json.string e.2))) := by simp [mapJson, hm]
    have hentries : (d.mapping.map fun e => (e.1, Json.string e.2)).map (fun e => (f e.1, e.2.mapStrings f)) =
        (d.mapping.map fun e => (f e.1, f e.2)).map fun e => (e.1, Json.string e.2) := by
      simp [Json.mapStrings]
    simp only [hne, Option.toList_some, List.map_cons, List.map_nil, hname, hmapping, Json.mapStrings,
      Json.mapMembers_eq, hentries, List.singleton_append] at h
    change (asMapping key [] (.object ((d.mapping.map fun e => (f e.1, f e.2)).map fun e => (e.1, Json.string e.2)))).map
      (fun m => { propertyName := f d.propertyName, mapping := m : Discriminator }) >>= _ = .ok d' at h
    rw [asMapping_texts] at h
    obtain rfl := Except.ok.inj h
    simp [Discriminator.reread, rereadMap, Dict.ofList, Function.comp_def]

theorem asRule_read (hf : Keeps f) (r : Rule) :
    asRule key ((ruleJson r).mapStrings f) = .ok ⟨f r.expr, f r.message⟩ := by
  have hrule : f "rule" = "rule" := hf.member _ (by simp)
  have hmessage : f "message" = "message" := hf.member _ (by simp)
  rw [ruleJson, Json.mapStrings, Json.mapMembers_eq]
  by_cases hm : r.message = ""
  · simp [wordJson, hm, hrule, hf.empty, Json.mapStrings, asRule, textOf, lastOf, asText]
    rfl
  · simp [wordJson, hm, hrule, hmessage, Json.mapStrings, asRule, textOf, lastOf, asText]
    rfl

theorem asRules_read (hf : Keeps f) {rs rs' : List Rule} (hj : listJson (rs.map ruleJson) = some j)
    (h : asRules key (j.mapStrings f) = .ok rs') : rs' = rs.map fun r => ⟨f r.expr, f r.message⟩ := by
  obtain ⟨-, rfl⟩ := listJson_some hj
  rw [Json.mapStrings, Json.mapItems_eq, asRules, List.map_map] at h
  clear hj
  induction rs generalizing rs' with
  | nil => exact (Except.ok.inj h).symm
  | cons r rs ih =>
    rw [List.map_cons, List.mapM_cons] at h
    obtain ⟨r', hr, h⟩ := except_bind_ok h
    obtain ⟨us, hus, h⟩ := except_bind_ok h
    obtain rfl := Except.ok.inj h
    rw [List.map_cons, ih hus]
    refine congrArg (· :: _) ?_
    rw [Function.comp_apply, asRule_read hf] at hr
    exact (Except.ok.inj hr).symm

/-! ## Schemas below -/

/-- nothing but the reread schema is read from the document of a schema -/
def Reads (f : String → String) (s : Schema) : Prop :=
  ∀ s', ofJson {} (s.json.mapStrings f) = .ok s' → s' = s.reread f

theorem Reads.members {b b' : Body} (hs : Reads f (ofBody b))
    (h : ofMembers {} (Json.mapMembers f (b.parts json).fields) = .ok b') : ofBody b' = (ofBody b).reread f := by
  refine hs (ofBody b') ?_
  rw [json_ofBody, Json.mapStrings, ofJson, h]
  rfl

theorem ofList_read {ss ss' : List Schema} (hs : ∀ s ∈ ss, Reads f s)
    (h : ofList ((ss.map json).map (Json.mapStrings f)) = .ok ss') : ss' = ss.map (Schema.reread f) := by
  induction ss generalizing ss' with
  | nil => exact (Except.ok.inj h).symm
  | cons s ss ih =>
    obtain ⟨t, ht, h⟩ := except_bind_ok h
    obtain ⟨ts, hts, h⟩ := except_bind_ok h
    obtain rfl := Except.ok.inj h
    rw [List.map_cons, ih (fun s h => hs s (List.mem_cons_of_mem _ h)) hts, hs s (by simp) t ht]

theorem ofArray_read {o : Option (List Schema)} {ss' : List Schema} (hs : ∀ s ∈ o.getD [], Reads f s)
    (hj : listJson ((o.map (·.map json)).getD []) = some j) (h : ofArray (j.mapStrings f) = .ok ss') :
    nonEmpty ((o.map (·.map (Schema.reread f))).getD []) = some ss' := by
  obtain ⟨hne, rfl⟩ := listJson_some hj
  cases o with
  | none => exact absurd rfl hne
  | some ss =>
    simp only [Option.map_some, Option.getD_some] at *
    rw [Json.mapStrings, Json.mapItems_eq] at h
    rw [ofList_read hs h]
    exact nonEmpty_of_ne (by simpa using hne)

theorem ofNamed_read {fs : List (String × Schema)} {acc m : List (String × Schema)} (hs : ∀ e ∈ fs, Reads f e.2)
    (h : ofNamed acc (Json.mapMembers f (fs.map fun e => (e.1, json e.2))) = .ok m) :
    m = (fs.map fun e => (f e.1, e.2.reread f)).foldl (fun d e => Dict.insert d e.1 e.2) acc := by
  induction fs generalizing acc with
  | nil => exact (Except.ok.inj h).symm
  | cons e fs ih =>
    obtain ⟨t, ht, h⟩ := except_bind_ok h
    obtain rfl := hs e (by simp) t ht
    exact ih (fun e h => hs e (List.mem_cons_of_mem _ h)) h

theorem ofMap_read {fs : List (String × Schema)} {m : List (String × Schema)} (hs : ∀ e ∈ fs, Reads f e.2)
    (hj : mapJson (fs.map fun e => (e.1, json e.2)) = some j) (h : ofMap [] (j.mapStrings f) = .ok m) :
    m = rereadMap f (fs.map fun e => (e.1, e.2.reread f)) := by
  obtain ⟨-, rfl⟩ := mapJson_some hj
  rw [ofNamed_read hs h, rereadMap, Dict.ofList, List.map_map]
  rfl

theorem ofExtent_read {x : Extent} {y : Extent} (hs : ∀ s ∈ Extent.toList x, Reads f s)
    (hj : (Beyond.ofExtent json x).json = some j) (h : ofExtent (j.mapStrings f) = .ok y) :
    y = (Beyond.ofExtent (Schema.reread f) x).reread := by
  cases x with
  | unset => cases hj
  | flag b => cases hj; exact (Except.ok.inj h).symm
  | sub s =>
    cases hj
    obtain rfl | ⟨b, rfl⟩ := eq_absent_or_ofBody s
    · cases h
    · have hb := hs (ofBody b) (by simp [Extent.toList, Beyond.ofExtent, Beyond.toList])
      rw [json_ofBody, Json.mapStrings] at h
      obtain ⟨b', hb', rfl⟩ := except_map_ok h
      rw [Beyond.ofExtent, Beyond.reread, isAbsent_reread, ← hb.members hb']
      rfl

theorem ofItems_read {x : Items} {y : Items} (hs : ∀ s ∈ Items.toList x, Reads f s)
    (hj : (Elements.ofItems json x).json = some j) (h : ofItems (j.mapStrings f) = .ok y) :
    y = (Elements.ofItems (Schema.reread f) x).reread := by
  cases x with
  | unset => cases hj
  | single s =>
    obtain rfl | ⟨b, rfl⟩ := eq_absent_or_ofBody s
    · cases hj
      exact (Except.ok.inj h).symm
    · have hb := hs (ofBody b) (by simp [Items.toList, Elements.ofItems, Elements.toList])
      rw [Elements.ofItems, json_ofBody] at hj
      cases hj
      obtain ⟨b', hb', rfl⟩ := except_map_ok h
      rw [Elements.ofItems, Elements.reread, isAbsent_reread, ← hb.members hb']
      rfl
  | tuple ss =>
    cases hj
    rw [Json.mapStrings, Json.mapItems_eq] at h
    obtain ⟨ss', hss, rfl⟩ := except_map_ok h
    rw [ofList_read (fun s hs' => hs s (by simpa [Items.toList, Elements.ofItems, Elements.toList] using hs')) hss]
    rfl

/-! ## One keyword -/

section

variable {cur b' : Body} {rest : List (String × Json)}

/-- a plain keyword is set, and reading goes on -/
theorem ofMembers_plain {d : Decoded Keywords} (hj : j ≠ .null) (hset : setKeyword cur.own key j = some d)
    (h : ofMembers cur ((key, j) :: rest) = .ok b') :
    ∃ own, d = .ok own ∧ ofMembers { cur with own } rest = .ok b' := by
  unfold ofMembers at h
  cases j with
  | null => exact absurd rfl hj
  | _ =>
    simp only [hset] at h
    cases d with
    | error e => cases h
    | ok own => exact ⟨own, rfl, h⟩

/-- a keyword that takes any value is set to it, and `null` takes it back -/
theorem ofMembers_value (set : Option Value → Body)
    (hnull : ofMembers cur ((key, .null) :: rest) = ofMembers (set none) rest)
    (hset : ∀ j, j ≠ .null → ofMembers cur ((key, j) :: rest) = ofMembers (set (some j.toValue)) rest) {v : Option Value}
    (hj : valueJson v = some j) (h : ofMembers cur ((key, j.mapStrings f) :: rest) = .ok b') :
    ofMembers (set (rereadValue f v)) rest = .ok b' := by
  rcases valueJson_some hj with ⟨hn, hv⟩ | ⟨hn, hv⟩
  · rw [hv, ← hnull, ← hn, h]
  · rw [hv, ← hset _ hn, h]

end

theorem mapStrings_json_ne_null {s : Schema} (h : s.isAbsent = false) : s.json.mapStrings f ≠ .null := by
  obtain rfl | ⟨b, rfl⟩ := eq_absent_or_ofBody s
  · cases h
  · rw [json_ofBody]
    exact nofun

/-- what may stand beyond the listed members is read alone -/
theorem ofMembers_extent {cur b' : Body} {rest : List (String × Json)} (set : Extent → Body)
    (hnull : ofMembers cur ((key, .null) :: rest) = ofMembers (set .unset) rest)
    (hset : ∀ j, j ≠ .null → ofMembers cur ((key, j) :: rest) = ofExtent j >>= fun x => ofMembers (set x) rest)
    {x : Extent} (hs : ∀ s ∈ Extent.toList x, Reads f s) (hj : (Beyond.ofExtent json x).json = some j)
    (h : ofMembers cur ((key, j.mapStrings f) :: rest) = .ok b') :
    ofMembers (set (Beyond.ofExtent (Schema.reread f) x).reread) rest = .ok b' := by
  by_cases hne : j.mapStrings f = .null
  · have hx : (Beyond.ofExtent (Schema.reread f) x).reread = .unset := by
      cases x with
      | unset => cases hj
      | flag b => cases hj; cases hne
      | sub s =>
        cases hj
        cases hs : s.isAbsent with
        | false => exact absurd hne (mapStrings_json_ne_null hs)
        | true => simp [Beyond.ofExtent, Beyond.reread, isAbsent_reread, hs]
    rw [hx, ← hnull, ← hne, h]
  · rw [hset _ hne] at h
    obtain ⟨y, hy, h⟩ := except_bind_ok h
    rw [← ofExtent_read hs hj hy]
    exact h

theorem elements_ne_null {x : Items} (hj : (Elements.ofItems json x).json = some j) : j.mapStrings f ≠ .null := by
  cases x with
  | unset => cases hj
  | single s =>
    obtain rfl | ⟨b, rfl⟩ := eq_absent_or_ofBody s
    · cases hj
      intro h
      cases h
    · rw [Elements.ofItems, json_ofBody] at hj
      cases hj
      intro h
      cases h
  | tuple ss =>
    cases hj
    intro h
    cases h

theorem namesJson_some {s : Schema} (h : namesJson s.json = some j) : j = s.json := by
  obtain rfl | ⟨b, rfl⟩ := eq_absent_or_ofBody s
  · cases h
  · rw [json_ofBody] at h ⊢
    cases h
    rfl

theorem optional_read {o : Option (List (String × Schema))} {m : List (String × Schema)}
    (hs : ∀ e ∈ o.getD [], Reads f e.2)
    (hj : mapJson ((o.map fun fs => fs.map fun e => (e.1, json e.2)).getD []) = some j)
    (h : ofMap [] (j.mapStrings f) = .ok m) :
    (nonEmpty ((o.map fun fs => fs.map fun e => (e.1, e.2.reread f)).getD [])).map (rereadMap f) = some m := by
  cases o with
  | none => exact absurd rfl (mapJson_some hj).1
  | some fs =>
    simp only [Option.map_some, Option.getD_some] at *
    rw [ofMap_read hs hj h, nonEmpty_of_ne (by simpa using (mapJson_some hj).1), Option.map_some]

/-- the parts of a schema that is written and read again -/
abbrev Body.reread (f : String → String) (b : Body) : Body := (b.parts (Schema.reread f)).reread f

/-- **One keyword is read.** A reader that holds some keywords of the reread schema, and then meets another one of the
written schema, holds that one too. -/
theorem ofMembers_keyword (hf : Keeps f) {b b' : Body} (hb : b.Below (Reads f)) {K : Keyword → Bool} {E : Dict Value}
    {w : Keyword} (hK : K w = false) (hj : (b.parts json).member w = some j) {rest : List (String × Json)}
    (h : ofMembers ((b.reread f).restrict K E) ((w.name, j.mapStrings f) :: rest) = .ok b') :
    ofMembers ((b.reread f).restrict (fun x => x == w || K x) E) rest = .ok b' := by
  let cur := (b.reread f).restrict K E
  cases w with
  | schemaUri | ref | title | description | format | pattern =>
    obtain rfl := wordJson_some hj
    exact h
  | readOnly | deprecated | nullable | uniqueItems =>
    obtain rfl := flagJson_some hj
    exact h
  | type =>
    refine ofMembers_value (fun v => { cur with own := { cur.own with type := v } }) rfl (fun j hj => ?_) hj h
    cases j with
    | null => exact absurd rfl hj
    | _ => rfl
  | default =>
    refine ofMembers_value (fun v => { cur with own := { cur.own with default := v } }) rfl (fun j hj => ?_) hj h
    cases j with
    | null => exact absurd rfl hj
    | _ => rfl
  | const =>
    refine ofMembers_value (fun v => { cur with own := { cur.own with const := v } }) rfl (fun j hj => ?_) hj h
    cases j with
    | null => exact absurd rfl hj
    | _ => rfl
  | exclusiveMinimum =>
    refine ofMembers_value (fun v => { cur with own := { cur.own with exclusiveMinimum := v } }) rfl (fun j hj => ?_) hj h
    cases j with
    | null => exact absurd rfl hj
    | _ => rfl
  | exclusiveMaximum =>
    refine ofMembers_value (fun v => { cur with own := { cur.own with exclusiveMaximum := v } }) rfl (fun j hj => ?_) hj h
    cases j with
    | null => exact absurd rfl hj
    | _ => rfl
  | minLength | maxLength | minItems | maxItems =>
    have hne : j.mapStrings f ≠ .null := by
      obtain ⟨n, -, rfl⟩ := Option.map_eq_some_iff.1 hj
      exact nofun
    obtain ⟨own, hown, h⟩ := ofMembers_plain hne rfl h
    obtain ⟨n, hn, rfl⟩ := except_map_ok hown
    obtain rfl := asInt_read hj hn
    exact h
  | minimum | maximum | multipleOf =>
    have hne : j.mapStrings f ≠ .null := by
      obtain ⟨n, -, rfl⟩ := Option.map_eq_some_iff.1 hj
      exact nofun
    obtain ⟨own, hown, h⟩ := ofMembers_plain hne rfl h
    obtain ⟨n, hn, rfl⟩ := except_map_ok hown
    obtain rfl := asFloat_read hj hn
    exact h
  | examples =>
    obtain ⟨own, hown, h⟩ := ofMembers_plain (mapStrings_list hj) rfl h
    obtain ⟨vs, hvs, rfl⟩ := except_map_ok hown
    obtain rfl := asValues_read hj hvs
    exact h
  | enum =>
    obtain ⟨own, hown, h⟩ := ofMembers_plain (mapStrings_list hj) rfl h
    obtain ⟨vs, hvs, rfl⟩ := except_map_ok hown
    have hread : (b.reread f).own.enum = some vs := by
      rw [asValues_read hj hvs]
      exact nonEmpty_of_ne (fun h => (listJson_some hj).1 (List.map_eq_nil_iff.2 (List.map_eq_nil_iff.1 h)))
    unfold Body.restrict
    rw [hread]
    exact h
  | required =>
    obtain ⟨own, hown, h⟩ := ofMembers_plain (mapStrings_list hj) rfl h
    obtain ⟨ss, hss, rfl⟩ := except_map_ok hown
    obtain rfl := asTexts_read hj hss
    exact h
  | rules =>
    obtain ⟨own, hown, h⟩ := ofMembers_plain (mapStrings_list hj) rfl h
    obtain ⟨rs, hrs, rfl⟩ := except_map_ok hown
    obtain rfl := asRules_read hf hj hrs
    exact h
  | discriminator =>
    obtain ⟨d, hd, rfl⟩ := Option.map_eq_some_iff.1 hj
    have hcur : ((b.reread f).restrict K E).own.discriminator = none := by simp [Body.restrict, hK]
    have hne : (discriminatorJson d).mapStrings f ≠ .null := nofun
    obtain ⟨own, hown, h⟩ := ofMembers_plain hne rfl h
    rw [hcur] at hown
    obtain ⟨d', hd', rfl⟩ := except_map_ok hown
    have hread : (b.reread f).own.discriminator = some d' := by
      rw [asDiscriminator_read hf hd']
      exact congrArg (Option.map _) hd
    unfold Body.restrict
    rw [hread]
    exact h
  | properties =>
    have hcur : ((b.reread f).restrict K E).properties = none := by simp [Body.restrict, hK]
    obtain ⟨hne, rfl⟩ := mapJson_some hj
    obtain ⟨m, hm, h⟩ := except_bind_ok (f := fun m =>
      ofMembers { (b.reread f).restrict K E with properties := some m } rest) h
    rw [hcur] at hm
    have hread : (b.reread f).properties = some m := optional_read hb.properties hj hm
    unfold Body.restrict
    rw [hread]
    exact h
  | definitions =>
    have hcur : ((b.reread f).restrict K E).definitions = [] := by simp [Body.restrict, hK]
    obtain ⟨hne, rfl⟩ := mapJson_some hj
    obtain ⟨m, hm, h⟩ := except_bind_ok (f := fun m =>
      ofMembers { (b.reread f).restrict K E with definitions := m } rest) h
    rw [hcur] at hm
    obtain rfl := ofMap_read hb.definitions hj hm
    exact h
  | defs =>
    have hcur : ((b.reread f).restrict K E).defs = [] := by simp [Body.restrict, hK]
    obtain ⟨hne, rfl⟩ := mapJson_some hj
    obtain ⟨m, hm, h⟩ := except_bind_ok (f := fun m => ofMembers { (b.reread f).restrict K E with defs := m } rest) h
    rw [hcur] at hm
    obtain rfl := ofMap_read hb.defs hj hm
    exact h
  | anyOf =>
    obtain ⟨hne, rfl⟩ := listJson_some hj
    obtain ⟨ss, hss, h⟩ := except_bind_ok (f := fun ss =>
      ofMembers { (b.reread f).restrict K E with anyOf := some ss } rest) h
    have hread : (b.reread f).anyOf = some ss := ofArray_read hb.anyOf hj hss
    unfold Body.restrict
    rw [hread]
    exact h
  | oneOf =>
    obtain ⟨hne, rfl⟩ := listJson_some hj
    obtain ⟨ss, hss, h⟩ := except_bind_ok (f := fun ss =>
      ofMembers { (b.reread f).restrict K E with oneOf := some ss } rest) h
    have hread : (b.reread f).oneOf = some ss := ofArray_read hb.oneOf hj hss
    unfold Body.restrict
    rw [hread]
    exact h
  | allOf =>
    obtain ⟨hne, rfl⟩ := listJson_some hj
    obtain ⟨ss, hss, h⟩ := except_bind_ok (f := fun ss =>
      ofMembers { (b.reread f).restrict K E with allOf := some ss } rest) h
    have hread : (b.reread f).allOf = some ss := ofArray_read hb.allOf hj hss
    unfold Body.restrict
    rw [hread]
    exact h
  | additional =>
    have hcur : ((b.reread f).restrict K E).additional = .unset := by simp [Body.restrict, hK]
    refine ofMembers_extent (fun x => { (b.reread f).restrict K E with additional := x }) rfl (fun j hj => ?_)
      hb.additional hj h
    have : ofMembers ((b.reread f).restrict K E) (("additionalProperties", j) :: rest) = ofExtent j >>= fun x =>
        ofMembers { (b.reread f).restrict K E with
          additional := Extent.then ((b.reread f).restrict K E).additional x } rest := by
      cases j <;> first | rfl | exact absurd rfl hj
    rw [hcur] at this
    exact this
  | additionalItems =>
    have hcur : ((b.reread f).restrict K E).additionalItems = .unset := by simp [Body.restrict, hK]
    refine ofMembers_extent (fun x => { (b.reread f).restrict K E with additionalItems := x }) rfl (fun j hj => ?_)
      hb.additionalItems hj h
    have : ofMembers ((b.reread f).restrict K E) (("additionalItems", j) :: rest) = ofExtent j >>= fun x =>
        ofMembers { (b.reread f).restrict K E with
          additionalItems := Extent.then ((b.reread f).restrict K E).additionalItems x } rest := by
      cases j <;> first | rfl | exact absurd rfl hj
    rw [hcur] at this
    exact this
  | items =>
    have hcur : ((b.reread f).restrict K E).items = .unset := by simp [Body.restrict, hK]
    have hstep : ofMembers ((b.reread f).restrict K E) (("items", j.mapStrings f) :: rest) =
        ofItems (j.mapStrings f) >>= fun x =>
          ofMembers { (b.reread f).restrict K E with items := Items.then ((b.reread f).restrict K E).items x } rest := by
      have hne := elements_ne_null (f := f) hj
      cases hj' : j.mapStrings f <;> first | rfl | exact absurd hj' hne
    rw [hcur] at hstep
    obtain ⟨x, hx, h⟩ := except_bind_ok (hstep.symm.trans h)
    obtain rfl := ofItems_read hb.items hj hx
    exact h
  | propertyNames =>
    have hcur : ((b.reread f).restrict K E).propertyNames = .absent := by simp [Body.restrict, hK]
    have hjson := namesJson_some hj
    have hstep : ofMembers ((b.reread f).restrict K E) (("propertyNames", j.mapStrings f) :: rest) =
        ofJson ((b.reread f).restrict K E).propertyNames.body (j.mapStrings f) >>= fun s =>
          ofMembers { (b.reread f).restrict K E with propertyNames := s } rest := by
      cases j.mapStrings f <;> rfl
    rw [hcur] at hstep
    obtain ⟨s, hs, h⟩ := except_bind_ok (hstep.symm.trans h)
    rw [hjson] at hs
    obtain rfl := hb.propertyNames s hs
    exact h

/-! ## All keywords -/

section

variable {α : Type}

theorem ite_word (hf : Keeps f) (s : String) : (if (wordJson s).isNone then f s else "") = "" := by
  unfold wordJson
  split <;> simp_all [hf.empty]

theorem ite_flag (b : Bool) : (if (flagJson b).isNone then b else false) = false := by
  cases b <;> rfl

theorem ite_map {β γ : Type} (g : α → β) (h : α → γ) (o : Option α) :
    (if (o.map g).isNone then o.map h else none) = none := by
  cases o <;> rfl

theorem ite_float (x : Option Float) : (if (floatJson x).isNone then rereadFloat x else none) = none := by
  cases x <;> rfl

theorem ite_value (v : Option Value) : (if (valueJson v).isNone then rereadValue f v else none) = none := by
  cases v <;> rfl

theorem ite_list {β : Type} (g : α → Json) (h : α → β) (xs : List α) :
    (if (listJson (xs.map g)).isNone then xs.map h else []) = [] := by
  cases xs <;> rfl

theorem ite_nonEmpty {β : Type} (g : α → Json) (h : α → β) (xs : List α) :
    (if (listJson (xs.map g)).isNone then nonEmpty (xs.map h) else none) = none := by
  cases xs <;> rfl

theorem ite_given {β : Type} (g : α → Json) (h : α → β) (o : Option (List α)) :
    (if (listJson ((o.map (·.map g)).getD [])).isNone then nonEmpty ((o.map (·.map h)).getD []) else none) = none := by
  cases o with
  | none => rfl
  | some xs => exact ite_nonEmpty g h xs

theorem ite_fields {β : Type} (g : α → Json) (h : α → β) (fs : List (String × α)) :
    (if (mapJson (fs.map fun e => (e.1, g e.2))).isNone then rereadMap f (fs.map fun e => (e.1, h e.2)) else []) = [] := by
  cases fs <;> rfl

theorem ite_optional {β : Type} (g : α → Json) (h : α → β) (o : Option (List (String × α))) :
    (if (mapJson ((o.map fun fs => fs.map fun e => (e.1, g e.2)).getD [])).isNone then
      (nonEmpty ((o.map fun fs => fs.map fun e => (e.1, h e.2)).getD [])).map (rereadMap f) else none) = none := by
  rcases o with _ | _ | _ <;> rfl

theorem ite_extent (x : Extent) : (if (Beyond.ofExtent json x).json.isNone then
    (Beyond.ofExtent (Schema.reread f) x).reread else .unset) = .unset := by
  cases x <;> rfl

theorem ite_items (x : Items) : (if (Elements.ofItems json x).json.isNone then
    (Elements.ofItems (Schema.reread f) x).reread else .unset) = .unset := by
  cases x with
  | unset => rfl
  | single s =>
    obtain rfl | ⟨b, rfl⟩ := eq_absent_or_ofBody s
    · rfl
    · simp [Elements.ofItems, json_ofBody, Elements.json]
  | tuple ss => rfl

theorem ite_names (s : Schema) : (if (namesJson s.json).isNone then s.reread f else .absent) = .absent := by
  obtain rfl | ⟨b, rfl⟩ := eq_absent_or_ofBody s
  · rfl
  · simp [json_ofBody, namesJson]

end

/-- what is left out is read as if it was never there -/
theorem restrict_absent (hf : Keeps f) (b : Body) :
    (b.reread f).restrict (fun w => ((b.parts json).member w).isNone) [] = {} := by
  dsimp only [Body.restrict, Parts.member, Body.reread, Parts.reread, Keywords.reread, Body.parts, intJson, rereadInt]
  simp only [ite_word hf, ite_flag, ite_map, ite_float, ite_value, ite_list, ite_nonEmpty, ite_given, ite_fields, ite_optional, ite_extent, ite_items,
    ite_names]

theorem isKnown_name (w : Keyword) : isKnown w.name = true := by
  cases w <;> rfl

theorem setKeyword_eq_none (k : Keywords) (j : Json) (h : isKnown key = false) : setKeyword k key j = none := by
  unfold setKeyword
  split <;> first | rfl | exact absurd h (by decide)

/-- a keyword of no fixed meaning is kept -/
theorem ofMembers_further (h : isKnown key = false) {B : Body} {K : Keyword → Bool} {E : Dict Value}
    {rest : List (String × Json)} :
    ofMembers (B.restrict K E) ((key, j) :: rest) = ofMembers (B.restrict K (Dict.insert E key j.toValue)) rest := by
  have hset (k : Keywords) (j : Json) := setKeyword_eq_none k j h
  conv_lhs => unfold ofMembers
  cases j with
  | null =>
    rw [h]
    rfl
  | _ =>
    simp only [hset]
    split <;> first | rfl | exact absurd h (by decide)

/-! ## Whole schemas -/

/-- further keywords are put in order of their keys -/
def keepFurther (L : List (String × Json)) (E : Dict Value) : Dict Value :=
  (L.filter fun e => !isKnown e.1).foldl (fun d e => Dict.insert d e.1 e.2.toValue) E

/-- **All keywords are read.** From a reader that holds all keywords but those still to come, to one that holds all. -/
theorem ofMembers_run (hf : Keeps f) {b b' : Body} (hb : b.Below (Reads f)) {L : List (String × Json)}
    (hnodup : (L.map (·.1)).Nodup)
    (hL : ∀ e ∈ L, (∃ w j, (b.parts json).member w = some j ∧ e = (w.name, j.mapStrings f)) ∨ isKnown e.1 = false)
    {E : Dict Value} (h : ofMembers ((b.reread f).restrict (fun w => !(L.any (·.1 == w.name))) E) L = .ok b') :
    b' = (b.reread f).restrict (fun _ => true) (keepFurther L E) := by
  induction L generalizing E with
  | nil => exact (Except.ok.inj h).symm
  | cons e L ih =>
    rw [List.map_cons, List.nodup_cons] at hnodup
    obtain ⟨hnot, hnodup⟩ := hnodup
    have hfresh (x : String) (hx : e.1 = x) : L.any (·.1 == x) = false := by
      subst hx
      rw [List.any_eq_false]
      intro d hd heq
      exact hnot (List.mem_map.2 ⟨d, hd, by simpa using heq⟩)
    have hrest := fun d hd => hL d (List.mem_cons_of_mem e hd)
    rcases hL e (by simp) with ⟨w, j, hj, rfl⟩ | hunknown
    · have h := ofMembers_keyword hf hb (by simp) hj h
      have hset : (fun x : Keyword => x == w || !(((w.name, j.mapStrings f) :: L).any (·.1 == x.name))) =
          fun x => !(L.any (·.1 == x.name)) := by
        funext x
        by_cases hx : x = w
        · subst hx
          simp [hfresh _ rfl]
        · have hname : (w.name == x.name) = false := beq_eq_false_iff_ne.2 fun h => hx (Keyword.name_injective h).symm
          have hword : (x == w) = false := beq_eq_false_iff_ne.2 hx
          simp [hword, hname]
      rw [hset] at h
      rw [ih hnodup hrest h, keepFurther, keepFurther, List.filter_cons_of_neg (by simp [isKnown_name])]
    · have hset : (fun x : Keyword => !((e :: L).any (·.1 == x.name))) = fun x => !(L.any (·.1 == x.name)) := by
        funext x
        have hname : ¬ e.1 = x.name := fun h => by rw [h, isKnown_name] at hunknown; cases hunknown
        simp [hname]
      rw [hset] at h
      obtain ⟨key, j⟩ := e
      rw [ofMembers_further hunknown] at h
      rw [ih hnodup hrest h, keepFurther, keepFurther, List.filter_cons_of_pos (by simp [hunknown])]
      rfl

theorem nodup_members (p : Parts Json) : (p.members.map (·.1)).Nodup := by
  have hsub (ws : List Keyword) : ((ws.flatMap p.entry).map (·.1)).Sublist (ws.map Keyword.name) := by
    induction ws with
    | nil => exact .refl _
    | cons w ws ih =>
      rw [List.flatMap_cons, List.map_append, Parts.entry]
      cases p.member w with
      | none => exact ih.cons _
      | some j => exact ih.cons_cons _
  exact Keyword.nodup_names.sublist (hsub Keyword.all)

/-- the further keywords of a schema are none of fixed meaning, and the function leaves their names -/
def Plain (f : String → String) (k : Keywords) : Prop := ∀ e ∈ k.extra, isKnown e.1 = false ∧ f e.1 = e.1

section

variable {b : Body}

theorem nodup_fields (p : Parts Json) : (p.fields.map (·.1)).Nodup := by
  unfold Parts.fields
  split
  · exact nodup_members p
  · exact (Dict.sorted_ofList _).nodup

theorem any_fields {p : Parts Json} (hp : ∀ e ∈ p.own.extra, isKnown e.1 = false) (w : Keyword) :
    p.fields.any (·.1 == w.name) = (p.member w).isSome := by
  have hkeys : w.name ∈ p.fields.map (·.1) ↔ w.name ∈ p.members.map (·.1) := by
    unfold Parts.fields
    split
    · rfl
    · rw [Dict.mem_keys_ofList, List.map_append, List.mem_append, or_iff_right]
      intro hmem
      simp only [Parts.further, List.map_map, List.mem_map, Function.comp_apply] at hmem
      obtain ⟨e, he, heq⟩ := hmem
      have := hp e he
      rw [heq, isKnown_name] at this
      cases this
  have hmember : w.name ∈ p.members.map (·.1) ↔ (p.member w).isSome := by
    rw [List.mem_map, Option.isSome_iff_exists]
    constructor
    · rintro ⟨e, he, hname⟩
      obtain ⟨w', j, hj, rfl⟩ := mem_members.1 he
      obtain rfl := Keyword.name_injective hname
      exact ⟨j, hj⟩
    · rintro ⟨j, hj⟩
      exact ⟨_, mem_members.2 ⟨w, j, hj, rfl⟩, rfl⟩
  rw [Bool.eq_iff_iff, ← hmember, ← hkeys]
  simp [List.mem_map]

theorem keepFurther_eq (L : List (String × Json)) :
    keepFurther L [] = Dict.ofList ((L.filter fun e => !isKnown e.1).map fun e => (e.1, e.2.toValue)) := by
  rw [keepFurther, Dict.ofList, List.foldl_map]

theorem filter_fields {p : Parts Json} (hp : ∀ e ∈ p.own.extra, isKnown e.1 = false) :
    (p.fields.filter fun e => !isKnown e.1) = Dict.ofList p.further := by
  have hmembers : ∀ e ∈ p.members, (!isKnown e.1) = false := by
    intro e he
    obtain ⟨w, j, -, rfl⟩ := mem_members.1 he
    simp [isKnown_name]
  have hfurther : ∀ e ∈ p.further, (!isKnown e.1) = true := by
    intro e he
    obtain ⟨d, hd, rfl⟩ := List.mem_map.1 he
    simp [hp d hd]
  unfold Parts.fields
  split
  · rename_i hempty
    rw [List.filter_eq_nil_iff.2 fun e he => by simp [hmembers e he], Parts.further, List.isEmpty_iff.1 hempty]
    rfl
  · exact Dict.filter_ofList_append (P := fun k => !isKnown k) hfurther hmembers

/-- the keywords of a schema stay the keywords of its document -/
theorem mapMembers_fields (hf : Keeps f) (hp : Plain f b.own) :
    Json.mapMembers f (b.parts json).fields = (b.parts json).fields.map fun e => (e.1, e.2.mapStrings f) := by
  rw [Json.mapMembers_eq]
  refine List.map_congr_left fun e he => ?_
  have hkey : f e.1 = e.1 := by
    rcases mem_fields he with he | he
    · obtain ⟨d, hd, rfl⟩ := List.mem_map.1 he
      exact (hp d hd).2
    · obtain ⟨w, j, -, rfl⟩ := mem_members.1 he
      exact hf.keyword w
  rw [hkey]

theorem ofMembers_fields (hf : Keeps f) (hp : Plain f b.own) (hb : b.Below (Reads f)) {b' : Body}
    (h : ofMembers {} (Json.mapMembers f (b.parts json).fields) = .ok b') : b' = b.reread f := by
  have hknown : ∀ e ∈ (b.parts json).own.extra, isKnown e.1 = false := fun e he => (hp e he).1
  rw [mapMembers_fields hf hp] at h
  have hany (w : Keyword) : (!(((b.parts json).fields.map fun e => (e.1, e.2.mapStrings f)).any (·.1 == w.name))) =
      ((b.parts json).member w).isNone := by
    rw [List.any_map]
    simp only [Function.comp_def, any_fields hknown w]
    cases (b.parts json).member w <;> rfl
  have hstart : ({} : Body) = (b.reread f).restrict
      (fun w => !(((b.parts json).fields.map fun e => (e.1, e.2.mapStrings f)).any (·.1 == w.name))) [] := by
    simp only [hany]
    exact (restrict_absent hf b).symm
  rw [hstart] at h
  have hcases : ∀ e ∈ (b.parts json).fields.map fun e => (e.1, e.2.mapStrings f),
      (∃ w j, (b.parts json).member w = some j ∧ e = (w.name, j.mapStrings f)) ∨ isKnown e.1 = false := by
    intro e he
    obtain ⟨d, hd, rfl⟩ := List.mem_map.1 he
    rcases mem_fields hd with hd | hd
    · obtain ⟨c, hc, rfl⟩ := List.mem_map.1 hd
      exact .inr (hp c hc).1
    · obtain ⟨w, j, hj, rfl⟩ := mem_members.1 hd
      exact .inl ⟨w, j, hj, rfl⟩
  have hextra : keepFurther ((b.parts json).fields.map fun e => (e.1, e.2.mapStrings f)) [] = (b.reread f).own.extra := by
    rw [keepFurther_eq, List.filter_map, List.map_map]
    change Dict.ofList (((b.parts json).fields.filter fun e => !isKnown e.1).map fun e => (e.1, (e.2.mapStrings f).toValue))
      = rereadMap f (b.own.extra.map fun e => (e.1, e.2.reread f))
    rw [filter_fields hknown, ← Dict.ofList_map fun e : String × Json => (e.2.mapStrings f).toValue,
      Dict.ofList_of_sorted (Dict.sorted_ofList _), rereadMap, Parts.further, List.map_map, List.map_map]
    refine congrArg Dict.ofList (List.map_congr_left fun e he => ?_)
    simp only [Function.comp_apply, (hp e he).2]
    rfl
  have hnodup : (((b.parts json).fields.map fun e => (e.1, e.2.mapStrings f)).map (·.1)).Nodup := by
    rw [List.map_map]
    exact nodup_fields _
  rw [ofMembers_run hf hb hnodup hcases h, hextra]
  rfl

end

/-- **A schema read back.** Nothing but the reread schema is read from the document of a schema. -/
theorem ofJson_json (hf : Keeps f) {s s' : Schema} (hp : ∀ k ∈ s.keywords, Plain f k)
    (h : ofJson {} (s.json.mapStrings f) = .ok s') : s' = s.reread f := by
  refine treeInduction (P := fun s => (∀ k ∈ s.keywords, Plain f k) → Reads f s) ?_ (fun b hb hp => ?_) s hp s' h
  · intro _ s' h
    exact (Except.ok.inj h).symm
  · intro s' h
    obtain ⟨hown, hbelow⟩ := forall_keywords.1 hp
    rw [json_ofBody, Json.mapStrings, ofJson] at h
    obtain ⟨b', hb', rfl⟩ := except_map_ok h
    rw [ofMembers_fields hf hown ((hb.and hbelow).imp fun s hs => hs.1 hs.2) hb', reread_ofBody]

/-! ### Characters

A text that is known can be read from its characters, without decoding it first. -/

/-- the schema read from the characters of a text -/
def readChars (cs : List Char) : Option Schema :=
  match Json.value 0 (3 * cs.length + 3) cs with
  | .ok (j, []) => (ofJson {} j).toOption.map fun s => if s.isAbsent then .empty else s
  | _ => none

theorem decode_chars {text : String} {S : Schema} (h : readChars text.toList = some S) : decode text = .ok S := by
  unfold readChars at h
  split at h
  · rename_i j hj
    have hparse : Json.parse text = .ok j := by
      unfold Json.parse
      simp only [hj]
      rfl
    obtain ⟨s, hs, rfl⟩ := Option.map_eq_some_iff.1 h
    have hof : ofJson {} j = .ok s := by
      cases hd : ofJson {} j with
      | error e => simp [hd, Except.toOption] at hs
      | ok t => simpa [hd, Except.toOption] using hs
    unfold decode
    rw [hparse]
    change (ofJson {} j >>= _) = _
    rw [hof]
    rfl
  · cases h

/-- a text that is given by its characters is read and passes a check -/
theorem decode_ofList {text : String} {cs : List Char} (htext : text = String.ofList cs) {P : Schema → Bool}
    (h : (readChars cs).any P = true) : ∃ S, decode text = .ok S ∧ P S = true := by
  obtain ⟨S, hS, hP⟩ := (Option.any_eq_true _ _).1 h
  exact ⟨S, decode_chars (by rwa [htext, String.toList_ofList]), hP⟩

/-- a text that is put together has the characters of both parts -/
theorem ofList_append {s t : String} {cs ds : List Char} (hs : s = String.ofList cs) (ht : t = String.ofList ds) :
    s ++ t = String.ofList (cs ++ ds) := by
  rw [hs, ht, String.ofList_append]

end Schema

end Schemata
