import Mathlib.Tactic
import Schemata.Proofs.Schema.Text

/-!
The strings of a schema's document.

Every string of the document of a schema is a text of the schema (`Schema.texts`) or one of the words that the format
itself brings along (`Schema.words`).
-/

namespace Schemata

namespace Json

theorem mem_stringsOf {js : List Json} {s : String} : s ∈ stringsOf js ↔ ∃ j ∈ js, s ∈ j.strings := by
  induction js with
  | nil => simp [stringsOf]
  | cons j js ih => simp [stringsOf, ih]

theorem mem_stringsIn {fs : List (String × Json)} {s : String} :
    s ∈ stringsIn fs ↔ ∃ f ∈ fs, s = f.1 ∨ s ∈ f.2.strings := by
  induction fs with
  | nil => simp [stringsIn]
  | cons f fs ih => simp [stringsIn, ih, or_assoc]

end Json

/-- the strings and keys of a value -/
def Value.texts (v : Value) : List String := (Json.ofData v).strings

namespace Schema

/-- the values among the keywords -/
def Keywords.values (k : Keywords) : List Value :=
  k.type.toList ++ k.default.toList ++ k.examples ++ k.enum.getD [] ++ k.const.toList ++ k.exclusiveMinimum.toList
    ++ k.exclusiveMaximum.toList ++ k.extra.map (·.2)

def Keywords.texts (k : Keywords) : List String :=
  [k.schemaUri, k.ref, k.title, k.description, k.format, k.pattern] ++ k.required
    ++ (Keywords.values k).flatMap Value.texts ++ k.extra.map (·.1) ++ k.rules.flatMap (fun r => [r.expr, r.message])
    ++ k.discriminator.toList.flatMap fun d => d.propertyName :: d.mapping.flatMap fun e => [e.1, e.2]

/-- the names of properties and definitions -/
def Parts.names {α : Type} (p : Parts α) : List String :=
  (p.properties.getD []).map (·.1) ++ p.definitions.map (·.1) ++ p.defs.map (·.1)

/-- all texts of a schema -/
def texts : Schema → List String := fold [] fun p => Keywords.texts p.own ++ p.names ++ p.toList.flatten

theorem names_parts {α β : Type} (b : Body) (g : Schema → α) (h : Schema → β) :
    (b.parts g).names = (b.parts h).names := by
  cases hp : b.properties <;> simp [Parts.names, Body.parts, hp, Function.comp_def]

def Body.names (b : Body) : List String := (b.parts id).names

theorem texts_ofBody (b : Body) : (ofBody b).texts = Keywords.texts b.own ++ b.names ++ b.below.flatMap texts := by
  rw [texts, fold_ofBody, Body.toList_parts, List.flatMap_def, names_parts b _ id]
  rfl

/-- the words of the format -/
def words : List String := Keyword.all.map Keyword.name ++ ["propertyName", "mapping", "rule", "message"]

/-- the strings of a document are texts or words -/
def Spoken (texts : List String) (j : Json) : Prop := ∀ s ∈ j.strings, s ∈ texts ∨ s ∈ words

variable {ts : List String} {j : Json}

theorem Spoken.mono {ts' : List String} (h : Spoken ts j) (hsub : ts ⊆ ts') : Spoken ts' j :=
  fun s hs => (h s hs).imp (fun h => hsub h) id

theorem spoken_list {js : List Json} (h : ∀ j ∈ js, Spoken ts j) (hj : listJson js = some j) : Spoken ts j := by
  unfold listJson at hj
  split at hj
  · cases hj
  · cases hj
    intro s hs
    obtain ⟨i, hi, hs⟩ := Json.mem_stringsOf.1 hs
    exact h i hi s hs

theorem spoken_map {fs : List (String × Json)} (h : ∀ e ∈ fs, e.1 ∈ ts ∧ Spoken ts e.2) (hj : mapJson fs = some j) :
    Spoken ts j := by
  unfold mapJson at hj
  split at hj
  · cases hj
  · cases hj
    intro s hs
    obtain ⟨e, he, rfl | hs⟩ := Json.mem_stringsIn.1 hs
    · exact .inl (h e he).1
    · exact (h e he).2 s hs

theorem spoken_word {t : String} (ht : t ∈ ts) (hj : wordJson t = some j) : Spoken ts j := by
  unfold wordJson at hj
  split at hj
  · cases hj
  · cases hj
    intro s hs
    obtain rfl : s = t := by simpa [Json.strings] using hs
    exact .inl ht

theorem spoken_value {v : Option Value} (h : ∀ x ∈ v, x.texts ⊆ ts) (hj : valueJson v = some j) : Spoken ts j := by
  obtain ⟨x, rfl, rfl⟩ := Option.map_eq_some_iff.1 hj
  exact fun s hs => .inl (h x rfl hs)

theorem spoken_flag {b : Bool} (hj : flagJson b = some j) : Spoken ts j := by
  unfold flagJson at hj
  split at hj
  · cases hj; intro s hs; simp [Json.strings] at hs
  · cases hj

theorem spoken_number {α : Type} {g : α → String} {o : Option α} (hj : o.map (fun a => Json.number (g a)) = some j) :
    Spoken ts j := by
  obtain ⟨a, -, rfl⟩ := Option.map_eq_some_iff.1 hj
  intro s hs
  simp [Json.strings] at hs

theorem spoken_discriminator {d : Discriminator} (h : d.propertyName ∈ ts) (hm : ∀ e ∈ d.mapping, e.1 ∈ ts ∧ e.2 ∈ ts) :
    Spoken ts (discriminatorJson d) := by
  have hmap (s : String) (hs : s ∈ Json.stringsIn (d.mapping.map fun e => (e.1, Json.string e.2))) : s ∈ ts := by
    obtain ⟨f, hf, hs⟩ := Json.mem_stringsIn.1 hs
    obtain ⟨e, he, rfl⟩ := List.mem_map.1 hf
    rcases hs with rfl | hs
    · exact (hm e he).1
    · obtain rfl : s = e.2 := by simpa [Json.strings] using hs
      exact (hm e he).2
  intro s hs
  unfold discriminatorJson mapJson at hs
  split at hs
  · simp [Json.strings, Json.stringsIn] at hs
    rcases hs with rfl | rfl
    · exact .inr (by decide)
    · exact .inl h
  · simp [Json.strings, Json.stringsIn] at hs
    rcases hs with rfl | rfl | rfl | hs
    · exact .inr (by decide)
    · exact .inl h
    · exact .inr (by decide)
    · exact .inl (hmap s hs)

theorem spoken_rule {r : Rule} (h : r.expr ∈ ts) (hm : r.message ∈ ts) : Spoken ts (ruleJson r) := by
  intro s hs
  unfold ruleJson wordJson at hs
  split at hs
  · simp [Json.strings, Json.stringsIn] at hs
    rcases hs with rfl | rfl
    · exact .inr (by decide)
    · exact .inl h
  · simp [Json.strings, Json.stringsIn] at hs
    rcases hs with rfl | rfl | rfl | rfl
    · exact .inr (by decide)
    · exact .inl h
    · exact .inr (by decide)
    · exact .inl hm

theorem texts_value {k : Keywords} {v : Value} (h : v ∈ Keywords.values k) : v.texts ⊆ Keywords.texts k := by
  intro s hs
  have : s ∈ (Keywords.values k).flatMap Value.texts := List.mem_flatMap.2 ⟨v, h, hs⟩
  simp [Keywords.texts, this]

theorem spoken_below {b : Body} {s : Schema} (hs : s ∈ b.below) (h : Spoken s.texts s.json) :
    Spoken (ofBody b).texts s.json := by
  refine h.mono fun t ht => ?_
  rw [texts_ofBody]
  exact List.mem_append_right _ (List.mem_flatMap.2 ⟨s, hs, ht⟩)

theorem spoken_extent {x : Extent} (h : ∀ s ∈ Extent.toList x, Spoken ts s.json)
    (hj : (Beyond.ofExtent json x).json = some j) : Spoken ts j := by
  cases x with
  | unset => cases hj
  | flag b => cases hj; intro s hs; simp [Json.strings] at hs
  | sub s => cases hj; exact h s (by simp [Extent.toList, Beyond.ofExtent, Beyond.toList])

theorem spoken_items {x : Items} (h : ∀ s ∈ Items.toList x, Spoken ts s.json)
    (hj : (Elements.ofItems json x).json = some j) : Spoken ts j := by
  cases x with
  | unset => cases hj
  | single s =>
    have hs := h s (by simp [Items.toList, Elements.ofItems, Elements.toList])
    obtain rfl | ⟨b, rfl⟩ := eq_absent_or_ofBody s
    · cases hj; intro s hs; simp [Json.strings, Json.stringsIn] at hs
    · rw [json_ofBody] at hs
      rw [Elements.ofItems, json_ofBody] at hj
      cases hj
      exact hs
  | tuple ss =>
    cases hj
    intro s hs
    obtain ⟨i, hi, hs⟩ := Json.mem_stringsOf.1 hs
    obtain ⟨t, ht, rfl⟩ := List.mem_map.1 hi
    exact h t (by simpa [Items.toList, Elements.ofItems, Elements.toList] using ht) s hs

theorem spoken_given {o : Option (List Schema)} (h : ∀ s ∈ o.getD [], Spoken ts s.json)
    (hj : listJson ((o.map (·.map json)).getD []) = some j) : Spoken ts j := by
  refine spoken_list (fun i hi => ?_) hj
  cases o with
  | none => cases hi
  | some ss =>
    obtain ⟨s, hs, rfl⟩ := List.mem_map.1 (show i ∈ ss.map json from hi)
    exact h s hs

theorem spoken_fields {fs : List (String × Schema)} (h : ∀ e ∈ fs, e.1 ∈ ts ∧ Spoken ts e.2.json)
    (hj : mapJson (fs.map fun e => (e.1, json e.2)) = some j) : Spoken ts j := by
  refine spoken_map (fun e he => ?_) hj
  obtain ⟨d, hd, rfl⟩ := List.mem_map.1 he
  exact h d hd

theorem mem_names {b : Body} {t : String} : t ∈ b.names ↔
    (∃ e ∈ b.properties.getD [], e.1 = t) ∨ (∃ e ∈ b.definitions, e.1 = t) ∨ ∃ e ∈ b.defs, e.1 = t := by
  cases hp : b.properties <;> simp [Body.names, Parts.names, Body.parts, hp]

/-- **One keyword.** -/
theorem spoken_member {b : Body} (hb : b.Below fun s => Spoken (ofBody b).texts s.json) (w : Keyword)
    (hj : (b.parts json).member w = some j) : Spoken (ofBody b).texts j := by
  have hown : Keywords.texts b.own ⊆ (ofBody b).texts := by
    rw [texts_ofBody]
    exact fun s hs => List.mem_append_left _ (List.mem_append_left _ hs)
  have hname : b.names ⊆ (ofBody b).texts := by
    rw [texts_ofBody]
    exact fun s hs => List.mem_append_left _ (List.mem_append_right _ hs)
  cases w with
  | schemaUri | ref | title | description | format | pattern =>
    exact spoken_word (hown (by simp [Keywords.texts, Body.parts])) hj
  | readOnly | deprecated | nullable | uniqueItems => exact spoken_flag hj
  | minLength | maxLength | minItems | maxItems => exact spoken_number hj
  | minimum | maximum | multipleOf => exact spoken_number hj
  | type | default | const | exclusiveMinimum | exclusiveMaximum =>
    exact spoken_value (fun v hv s hs => hown (texts_value (by simp_all [Keywords.values, Body.parts]) hs)) hj
  | examples | enum =>
    refine spoken_list (fun i hi s hs => ?_) hj
    obtain ⟨v, hv, rfl⟩ := List.mem_map.1 hi
    exact .inl (hown (texts_value (by simp_all [Keywords.values, Body.parts]) hs))
  | required =>
    refine spoken_list (fun i hi s hs => ?_) hj
    obtain ⟨t, ht, rfl⟩ := List.mem_map.1 hi
    obtain rfl : s = t := by simpa [Json.strings] using hs
    exact .inl (hown (by simp_all [Keywords.texts, Body.parts]))
  | rules =>
    refine spoken_list (fun i hi => ?_) hj
    obtain ⟨r, hr, rfl⟩ := List.mem_map.1 hi
    have hr (t : String) (ht : t ∈ [r.expr, r.message]) : t ∈ Keywords.texts b.own :=
      List.mem_append_left _ (List.mem_append_right _ (List.mem_flatMap.2 ⟨r, hr, ht⟩))
    exact spoken_rule (hown (hr _ (by simp))) (hown (hr _ (by simp)))
  | discriminator =>
    obtain ⟨d, hd, rfl⟩ := Option.map_eq_some_iff.1 hj
    have hd (t : String) (ht : t ∈ d.propertyName :: d.mapping.flatMap fun e => [e.1, e.2]) :
        t ∈ Keywords.texts b.own :=
      List.mem_append_right _ (List.mem_flatMap.2 ⟨d, Option.mem_toList.2 hd, ht⟩)
    have he (e : String × String) (he : e ∈ d.mapping) (t : String) (ht : t ∈ [e.1, e.2]) : t ∈ Keywords.texts b.own :=
      hd t (List.mem_cons_of_mem _ (List.mem_flatMap.2 ⟨e, he, ht⟩))
    exact spoken_discriminator (hown (hd _ (by simp))) fun e hm => ⟨hown (he e hm _ (by simp)), hown (he e hm _ (by simp))⟩
  | properties =>
    have hfields : mapJson ((b.properties.getD []).map fun e => (e.1, json e.2)) = some j := by
      cases hp : b.properties <;> simpa [Parts.member, Body.parts, hp] using hj
    refine spoken_fields (fun e he => ⟨hname ?_, hb.properties e he⟩) hfields
    rw [mem_names]
    exact .inl ⟨e, he, rfl⟩
  | definitions =>
    refine spoken_fields (fun e he => ⟨hname ?_, hb.definitions e he⟩) hj
    rw [mem_names]
    exact .inr (.inl ⟨e, he, rfl⟩)
  | defs =>
    refine spoken_fields (fun e he => ⟨hname ?_, hb.defs e he⟩) hj
    rw [mem_names]
    exact .inr (.inr ⟨e, he, rfl⟩)
  | additional => exact spoken_extent hb.additional hj
  | additionalItems => exact spoken_extent hb.additionalItems hj
  | items => exact spoken_items hb.items hj
  | propertyNames =>
    obtain hp | ⟨c, hp⟩ := eq_absent_or_ofBody b.propertyNames
    · rw [Parts.member, Body.parts, hp] at hj
      cases hj
    · have hs := hb.propertyNames
      rw [Parts.member, Body.parts, hp, json_ofBody] at hj
      rw [hp, json_ofBody] at hs
      cases hj
      exact hs
  | anyOf => exact spoken_given hb.anyOf hj
  | oneOf => exact spoken_given hb.oneOf hj
  | allOf => exact spoken_given hb.allOf hj

/-- **The strings of a document.** Every string and key of the document of a schema is a text of the schema or a word
of the format. -/
theorem spoken_json (s : Schema) : Spoken s.texts s.json := by
  induction s using treeInduction with
  | absent => simp [Spoken, json, fold, Json.strings]
  | node b hb =>
    have hb : b.Below fun s => Spoken (ofBody b).texts s.json :=
      Body.forall_below.1 fun s hs => spoken_below hs (Body.forall_below.2 hb s hs)
    intro t ht
    rw [json_ofBody] at ht
    obtain ⟨e, he, ht⟩ := Json.mem_stringsIn.1 ht
    rcases mem_fields he with he | he
    · obtain ⟨x, hx, rfl⟩ := List.mem_map.1 he
      have hx : x ∈ b.own.extra := hx
      refine .inl ?_
      rw [texts_ofBody]
      refine List.mem_append_left _ (List.mem_append_left _ ?_)
      rcases ht with rfl | ht
      · exact List.mem_append_left _ (List.mem_append_left _ (List.mem_append_right _ (List.mem_map_of_mem hx)))
      · exact texts_value (by simp [Keywords.values, List.mem_map_of_mem hx]) ht
    · obtain ⟨w, j, hj, rfl⟩ := mem_members.1 he
      rcases ht with rfl | ht
      · exact .inr (List.mem_append_left _ (List.mem_map_of_mem (Keyword.mem_all w)))
      · exact spoken_member hb w hj t ht

end Schema

end Schemata
