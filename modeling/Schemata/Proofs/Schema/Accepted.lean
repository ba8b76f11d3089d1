import Schemata.Proofs.Schema.Neat

/-!
Documents of schemas that are read again.

The document of a neat schema holds no member that the reader refuses, whatever the reader has met before (`Passes`): so
the reader comes to its end (`readable_json`). Its numbers are numbers that the reader takes (`numbered_json`).
-/

namespace Schemata.Schema

open Json (IsNumber)
open Document (IsWord)

/-! ## Values of keywords -/

/-- no zero stands before other digits -/
theorem head_toDigits {n : Nat} (hn : 0 < n) : (Nat.toDigits 10 n).head? ≠ some '0' := by
  induction n using Nat.strong_induction_on with
  | _ n ih =>
    by_cases hsmall : n < 10
    · rw [Nat.toDigits_of_lt_base hsmall]
      interval_cases n <;> decide
    · rw [Nat.toDigits_of_base_le (by decide) (by omega), List.head?_append_of_ne_nil _ Nat.toDigits_ne_nil]
      exact ih (n / 10) (by omega) (by omega)

/-- a word of 64 bits has as many digits as the reader takes -/
theorem asInt_word (key : String) {n : Int} (hn : IsWord n) : ∃ m, asInt key (.number (toString n)) = .ok m := by
  obtain ⟨hlow, hhigh⟩ := hn
  have hdigits : ∀ c ∈ Nat.toDigits 10 n.natAbs, c.isDigit = true := fun c hc =>
    Nat.isDigit_of_mem_toDigits (by decide) (by decide) hc
  have hall : (Nat.toDigits 10 n.natAbs).all Char.isDigit = true := List.all_eq_true.2 hdigits
  have hempty : (Nat.toDigits 10 n.natAbs).isEmpty = false := by simp [Nat.toDigits_ne_nil]
  have hlength : (Nat.toDigits 10 n.natAbs).length ≤ 19 := by
    rw [Nat.length_toDigits_le_iff (by decide) (by decide)]
    omega
  rw [asInt, Text.toList_toString_int]
  by_cases hneg : n < 0
  · rw [if_pos hneg, List.singleton_append]
    simp only [hempty, hall, hlength, decide_true, Bool.not_false, Bool.and_self, Bool.or_true, if_true]
    exact ⟨_, rfl⟩
  · have hhead : ((Nat.toDigits 10 n.natAbs).head? != some '0' || (Nat.toDigits 10 n.natAbs).length == 1) = true := by
      by_cases hzero : n = 0
      · subst hzero
        rfl
      · rw [Bool.or_eq_true]
        exact .inl (bne_iff_ne.2 (head_toDigits (by omega)))
    have hminus : ∀ r, Nat.toDigits 10 n.natAbs ≠ '-' :: r := by
      intro r heq
      exact absurd (hdigits '-' (by simp [heq])) (by decide)
    rw [if_neg hneg, List.nil_append]
    simp only [hempty, hall, hlength, hhead, decide_true, Bool.not_false, Bool.and_self, Bool.true_or, if_true]
    exact ⟨_, rfl⟩

theorem asTexts_ok (key : String) (ss : List String) : ∃ ts, asTexts key (.array (ss.map .string)) = .ok ts := by
  induction ss with
  | nil => exact ⟨_, rfl⟩
  | cons s ss ih =>
    obtain ⟨ts, hts⟩ := ih
    rw [asTexts] at hts ⊢
    exact ⟨_, by rw [List.map_cons, List.mapM_cons, hts]; rfl⟩

theorem asRule_ok (key : String) (r : Rule) : ∃ r', asRule key (ruleJson r) = .ok r' := by
  unfold ruleJson wordJson
  split
  · exact ⟨_, rfl⟩
  · exact ⟨_, rfl⟩

theorem asRules_ok (key : String) (rs : List Rule) : ∃ rs', asRules key (.array (rs.map ruleJson)) = .ok rs' := by
  induction rs with
  | nil => exact ⟨_, rfl⟩
  | cons r rs ih =>
    obtain ⟨r', hr⟩ := asRule_ok key r
    obtain ⟨rs', hrs⟩ := ih
    rw [asRules] at hrs ⊢
    exact ⟨_, by rw [List.map_cons, List.mapM_cons, hr, hrs]; rfl⟩

theorem asDiscriminator_ok (key : String) (earlier d : Discriminator) :
    ∃ d', asDiscriminator key earlier (discriminatorJson d) = .ok d' := by
  unfold discriminatorJson
  cases hm : d.mapping with
  | nil => exact ⟨_, rfl⟩
  | cons e es =>
    have hmapping : asMapping key earlier.mapping (.object ((e :: es).map fun e => (e.1, Json.string e.2))) = .ok _ :=
      asMapping_texts (e :: es) earlier.mapping
    refine ⟨{ propertyName := d.propertyName, mapping := (e :: es).foldl (fun d e => Dict.insert d e.1 e.2) earlier.mapping }, ?_⟩
    change (asMapping key earlier.mapping (.object ((e :: es).map fun e => (e.1, Json.string e.2)))).map
      (fun m => { propertyName := d.propertyName, mapping := m : Discriminator }) >>= _ = _
    rw [hmapping]
    rfl

/-! ## Schemas below -/

/-- a document is read, whatever keywords are there already -/
def Readable (j : Json) : Prop := ∀ earlier, ∃ s, ofJson earlier j = .ok s

/-- a member is read, whatever keywords are there already, and reading goes on -/
def Passes (e : String × Json) : Prop := ∀ b rest, ∃ c, ofMembers b (e :: rest) = ofMembers c rest

theorem ofMembers_passes {fs : List (String × Json)} (h : ∀ e ∈ fs, Passes e) (b : Body) : ∃ c, ofMembers b fs = .ok c := by
  induction fs generalizing b with
  | nil => exact ⟨b, rfl⟩
  | cons e fs ih =>
    obtain ⟨c, hc⟩ := h e (by simp) b fs
    rw [hc]
    exact ih (fun d hd => h d (by simp [hd])) c

section

variable {j : Json}

theorem ofList_readable {js : List Json} (h : ∀ j ∈ js, Readable j) : ∃ ss, ofList js = .ok ss := by
  induction js with
  | nil => exact ⟨_, rfl⟩
  | cons j js ih =>
    obtain ⟨s, hs⟩ := h j (by simp) {}
    obtain ⟨ss, hss⟩ := ih fun i hi => h i (by simp [hi])
    exact ⟨_, by rw [ofList, hs, hss]; rfl⟩

theorem ofNamed_readable {fs : List (String × Json)} (h : ∀ e ∈ fs, Readable e.2) (acc : List (String × Schema)) :
    ∃ m, ofNamed acc fs = .ok m := by
  induction fs generalizing acc with
  | nil => exact ⟨_, rfl⟩
  | cons e fs ih =>
    obtain ⟨s, hs⟩ := h e (by simp) {}
    obtain ⟨m, hm⟩ := ih (fun d hd => h d (by simp [hd])) (Dict.insert acc e.1 s)
    exact ⟨m, by rw [ofNamed, hs]; exact hm⟩

theorem Readable.members {fs : List (String × Json)} (h : Readable (.object fs)) (b : Body) : ∃ c, ofMembers b fs = .ok c := by
  obtain ⟨s, hs⟩ := h b
  obtain ⟨c, hc, -⟩ := except_map_ok hs
  exact ⟨c, hc⟩

theorem ofExtent_readable {x : Extent} (h : ∀ s ∈ Extent.toList x, Readable s.json) (hj : (Beyond.ofExtent json x).json = some j)
    (hne : j ≠ .null) : ∃ y, ofExtent j = .ok y := by
  cases x with
  | unset => cases hj
  | flag b =>
    cases hj
    exact ⟨_, rfl⟩
  | sub s =>
    cases hj
    obtain rfl | ⟨b, rfl⟩ := eq_absent_or_ofBody s
    · exact absurd rfl hne
    · have hs := h (ofBody b) (by simp [Extent.toList, Beyond.ofExtent, Beyond.toList])
      rw [json_ofBody] at hs ⊢
      obtain ⟨c, hc⟩ := hs.members {}
      exact ⟨_, by rw [ofExtent, hc]; rfl⟩

theorem ofItems_readable {x : Items} (h : ∀ s ∈ Items.toList x, Readable s.json) (hj : (Elements.ofItems json x).json = some j) :
    ∃ y, ofItems j = .ok y := by
  cases x with
  | unset => cases hj
  | single s =>
    obtain rfl | ⟨b, rfl⟩ := eq_absent_or_ofBody s
    · cases hj
      exact ⟨_, rfl⟩
    · have hs := h (ofBody b) (by simp [Items.toList, Elements.ofItems, Elements.toList])
      rw [Elements.ofItems, json_ofBody] at hj
      cases hj
      rw [json_ofBody] at hs
      obtain ⟨c, hc⟩ := hs.members {}
      exact ⟨_, by rw [ofItems, hc]; rfl⟩
  | tuple ss =>
    cases hj
    have hss : ∀ j ∈ ss.map json, Readable j := by
      intro j hj
      obtain ⟨s, hs, rfl⟩ := List.mem_map.1 hj
      exact h s (by simpa [Items.toList, Elements.ofItems, Elements.toList] using hs)
    obtain ⟨ts, hts⟩ := ofList_readable hss
    exact ⟨_, by rw [ofItems, hts]; rfl⟩

theorem ofArray_readable {o : Option (List Schema)} (h : ∀ s ∈ o.getD [], Readable s.json)
    (hj : listJson ((o.map (·.map json)).getD []) = some j) : ∃ ss, ofArray j = .ok ss := by
  obtain ⟨-, rfl⟩ := listJson_some hj
  refine ofList_readable fun i hi => ?_
  cases o with
  | none => cases hi
  | some ss =>
    obtain ⟨s, hs, rfl⟩ := List.mem_map.1 (show i ∈ ss.map json from hi)
    exact h s hs

theorem ofMap_readable {fs : List (String × Schema)} (h : ∀ e ∈ fs, Readable e.2.json)
    (hj : mapJson (fs.map fun e => (e.1, json e.2)) = some j) (acc : List (String × Schema)) : ∃ m, ofMap acc j = .ok m := by
  obtain ⟨-, rfl⟩ := mapJson_some hj
  refine ofNamed_readable (fun e he => ?_) acc
  obtain ⟨d, hd, rfl⟩ := List.mem_map.1 he
  exact h d hd

/-! ## One keyword -/

/-- a plain keyword passes, if it can be set -/
theorem passes_set {key : String} (hj : j ≠ .null) (hset : ∀ k, ∃ own, setKeyword k key j = some (.ok own)) : Passes (key, j) := by
  intro b rest
  obtain ⟨own, hown⟩ := hset b.own
  refine ⟨{ b with own }, ?_⟩
  conv_lhs => unfold ofMembers
  cases j with
  | null => exact absurd rfl hj
  | _ => simp only [hown]

/-- a plain keyword passes, if its value is read -/
theorem passes_plain {α : Type} {key : String} (as : Keywords → Decoded α) (set : Keywords → α → Keywords) (hj : j ≠ .null)
    (hset : ∀ k, setKeyword k key j = some ((as k).map (set k))) (has : ∀ k, ∃ a, as k = .ok a) : Passes (key, j) := by
  refine passes_set hj fun k => ?_
  obtain ⟨a, ha⟩ := has k
  exact ⟨set k a, by rw [hset, ha]; rfl⟩

/-- a keyword with schemas passes, if they are read -/
theorem passes_below {α : Type} {key : String} (read : Body → Decoded α) (set : Body → α → Body)
    (hset : ∀ b rest, ofMembers b ((key, j) :: rest) = read b >>= fun a => ofMembers (set b a) rest)
    (hread : ∀ b, ∃ a, read b = .ok a) : Passes (key, j) := by
  intro b rest
  obtain ⟨a, ha⟩ := hread b
  refine ⟨set b a, ?_⟩
  rw [hset, ha]
  rfl

theorem passes_null {key : String} (h : isKnown key = true) : Passes (key, .null) := by
  intro b rest
  refine ⟨clear b key, ?_⟩
  conv_lhs => unfold ofMembers
  simp only [h, if_true]

theorem passes_further {key : String} (h : isKnown key = false) (j : Json) : Passes (key, j) := by
  intro b rest
  exact ⟨_, ofMembers_further (B := b) (K := fun _ => true) (E := b.own.extra) h⟩

/-- **One keyword passes.** -/
theorem passes_member {b : Body} (hneat : NeatKeywords b.own) (hb : b.Below fun s => Readable s.json) {w : Keyword}
    (hj : (b.parts json).member w = some j) : Passes (w.name, j) := by
  by_cases hnull : j = .null
  · subst hnull
    exact passes_null (isKnown_name w)
  have hint {o : Option Int} (ho : ∀ n ∈ o, IsWord n) (hj : intJson o = some j) (key : String) : ∃ m, asInt key j = .ok m := by
    obtain ⟨n, hn, rfl⟩ := Option.map_eq_some_iff.1 hj
    exact asInt_word key (ho n hn)
  cases w with
  | schemaUri | ref | title | description | format | pattern =>
    obtain rfl := wordJson_some hj
    exact passes_plain (fun _ => asText _ _) _ hnull (fun _ => rfl) fun _ => ⟨_, rfl⟩
  | readOnly | deprecated | nullable | uniqueItems =>
    obtain rfl := flagJson_some hj
    exact passes_plain (fun _ => asBool _ _) _ hnull (fun _ => rfl) fun _ => ⟨_, rfl⟩
  | type | default | const | exclusiveMinimum | exclusiveMaximum =>
    exact passes_set hnull fun _ => ⟨_, rfl⟩
  | minLength => exact passes_plain (fun _ => asInt _ j) _ hnull (fun _ => rfl) fun _ => hint hneat.minLength hj _
  | maxLength => exact passes_plain (fun _ => asInt _ j) _ hnull (fun _ => rfl) fun _ => hint hneat.maxLength hj _
  | minItems => exact passes_plain (fun _ => asInt _ j) _ hnull (fun _ => rfl) fun _ => hint hneat.minItems hj _
  | maxItems => exact passes_plain (fun _ => asInt _ j) _ hnull (fun _ => rfl) fun _ => hint hneat.maxItems hj _
  | minimum | maximum | multipleOf =>
    obtain ⟨x, -, rfl⟩ := Option.map_eq_some_iff.1 hj
    exact passes_plain (fun _ => asFloat _ _) _ hnull (fun _ => rfl) fun _ => ⟨_, rfl⟩
  | examples | enum =>
    obtain ⟨-, rfl⟩ := listJson_some hj
    exact passes_plain (fun _ => asValues _ _) _ hnull (fun _ => rfl) fun _ => ⟨_, rfl⟩
  | required =>
    obtain ⟨-, rfl⟩ := listJson_some hj
    exact passes_plain (fun _ => asTexts _ _) _ hnull (fun _ => rfl) fun _ => asTexts_ok _ _
  | rules =>
    obtain ⟨-, rfl⟩ := listJson_some hj
    exact passes_plain (fun _ => asRules _ _) _ hnull (fun _ => rfl) fun _ => asRules_ok _ _
  | discriminator =>
    obtain ⟨d, -, rfl⟩ := Option.map_eq_some_iff.1 hj
    exact passes_plain (fun k => asDiscriminator _ (k.discriminator.getD { propertyName := "" }) _) _ hnull (fun _ => rfl)
      fun _ => asDiscriminator_ok _ _ d
  | properties =>
    have hfields : mapJson ((b.properties.getD []).map fun e => (e.1, json e.2)) = some j := by
      cases hp : b.properties <;> simpa [Parts.member, Body.parts, hp] using hj
    obtain ⟨-, rfl⟩ := mapJson_some hfields
    exact passes_below (fun b => ofMap (b.properties.getD []) _) (fun b m => { b with properties := some m }) (fun _ _ => rfl)
      fun _ => ofMap_readable hb.properties hfields _
  | definitions =>
    obtain ⟨-, rfl⟩ := mapJson_some hj
    exact passes_below (fun b => ofMap b.definitions _) (fun b m => { b with definitions := m }) (fun _ _ => rfl)
      fun _ => ofMap_readable hb.definitions hj _
  | defs =>
    obtain ⟨-, rfl⟩ := mapJson_some hj
    exact passes_below (fun b => ofMap b.defs _) (fun b m => { b with defs := m }) (fun _ _ => rfl)
      fun _ => ofMap_readable hb.defs hj _
  | anyOf =>
    obtain ⟨-, rfl⟩ := listJson_some hj
    exact passes_below (fun _ => ofArray _) (fun b ss => { b with anyOf := some ss }) (fun _ _ => rfl)
      fun _ => ofArray_readable hb.anyOf hj
  | oneOf =>
    obtain ⟨-, rfl⟩ := listJson_some hj
    exact passes_below (fun _ => ofArray _) (fun b ss => { b with oneOf := some ss }) (fun _ _ => rfl)
      fun _ => ofArray_readable hb.oneOf hj
  | allOf =>
    obtain ⟨-, rfl⟩ := listJson_some hj
    exact passes_below (fun _ => ofArray _) (fun b ss => { b with allOf := some ss }) (fun _ _ => rfl)
      fun _ => ofArray_readable hb.allOf hj
  | additional =>
    refine passes_below (fun _ => ofExtent j) (fun b x => { b with additional := Extent.then b.additional x }) (fun _ _ => ?_)
      fun _ => ofExtent_readable hb.additional hj hnull
    cases j <;> first | rfl | exact absurd rfl hnull
  | additionalItems =>
    refine passes_below (fun _ => ofExtent j) (fun b x => { b with additionalItems := Extent.then b.additionalItems x })
      (fun _ _ => ?_) fun _ => ofExtent_readable hb.additionalItems hj hnull
    cases j <;> first | rfl | exact absurd rfl hnull
  | items =>
    refine passes_below (fun _ => ofItems j) (fun b x => { b with items := Items.then b.items x }) (fun _ _ => ?_)
      fun _ => ofItems_readable hb.items hj
    cases j <;> first | rfl | exact absurd rfl hnull
  | propertyNames =>
    obtain rfl := namesJson_some hj
    refine passes_below (fun b => ofJson b.propertyNames.body _) (fun b s => { b with propertyNames := s }) (fun _ _ => ?_)
      fun b => hb.propertyNames b.propertyNames.body
    cases json b.propertyNames <;> rfl

end

/-- **Schemas that were read are read again**, whatever stands before them. -/
theorem readable_json {s : Schema} (h : s.Everywhere Neat) : Readable s.json := by
  induction s using treeInduction with
  | absent => exact fun _ => ⟨_, rfl⟩
  | node b hb =>
    obtain ⟨hneat, hbelow⟩ := everywhere_below.1 h
    have hreadable : b.Below fun s => Readable s.json := (hb.and hbelow).imp fun s hs => hs.1 hs.2
    have hfields : ∀ e ∈ (b.parts json).fields, Passes e := by
      intro e he
      rcases mem_fields he with he | he
      · obtain ⟨d, hd, rfl⟩ := List.mem_map.1 he
        exact passes_further (hneat.own.extra d hd).1 _
      · obtain ⟨w, j, hj, rfl⟩ := mem_members.1 he
        exact passes_member hneat.own hreadable hj
    intro earlier
    obtain ⟨c, hc⟩ := ofMembers_passes hfields earlier
    exact ⟨_, by rw [json_ofBody, ofJson, hc]; rfl⟩

/-! ## Numbers -/

/-- the reader takes all numbers of a document -/
def Numbered (j : Json) : Prop := ∀ t ∈ j.numerals, IsNumber t

theorem numbered_array {js : List Json} (h : ∀ j ∈ js, Numbered j) : Numbered (.array js) := by
  intro t ht
  obtain ⟨j, hj, ht⟩ := Json.mem_numeralsOf.1 ht
  exact h j hj t ht

theorem numbered_object {fs : List (String × Json)} (h : ∀ e ∈ fs, Numbered e.2) : Numbered (.object fs) := by
  intro t ht
  obtain ⟨e, he, ht⟩ := Json.mem_numeralsIn.1 ht
  exact h e he t ht

theorem numbered_string (s : String) : Numbered (.string s) := nofun

theorem numbered_int {n : Int} (hn : IsWord n) : Numbered (.number (toString n)) := by
  intro t ht
  obtain rfl := List.mem_singleton.1 ht
  obtain ⟨hlow, hhigh⟩ := hn
  refine ⟨?_, Json.spelled_int n, ?_⟩
  · rw [Text.toList_toString_int]
    by_cases hneg : n < 0
    · exact ⟨'-', _, by rw [if_pos hneg]; rfl, rfl⟩
    · obtain ⟨c, cs, hcs⟩ := List.exists_cons_of_ne_nil (Nat.toDigits_ne_nil (b := 10) (n := n.natAbs))
      have hc : c.isDigit = true := Nat.isDigit_of_mem_toDigits (b := 10) (n := n.natAbs) (by decide) (by decide) (by simp [hcs])
      exact ⟨c, cs, by rw [if_neg hneg, List.nil_append, hcs], by simp [hc]⟩
  · rw [Number.parse?, Number.read_int (by omega)]
    rfl

theorem numbered_float {x : Float} (hx : Number.isFinite x = true) :
    Numbered (.number (Number.Layout.wire.text Number.double x)) := by
  intro t ht
  obtain rfl := List.mem_singleton.1 ht
  exact Json.isNumber_wire hx

section

variable {j : Json}

theorem numbered_value {v : Option Value} (hv : ∀ x ∈ v, x.Decoded) (hj : valueJson v = some j) : Numbered j := by
  obtain ⟨x, hx, rfl⟩ := Option.map_eq_some_iff.1 hj
  exact Json.isNumber_ofData (hv x hx)

theorem numbered_values {vs : List Value} (hvs : ∀ v ∈ vs, v.Decoded) (hj : listJson (vs.map Json.ofData) = some j) : Numbered j := by
  obtain ⟨-, rfl⟩ := listJson_some hj
  refine numbered_array fun i hi => ?_
  obtain ⟨v, hv, rfl⟩ := List.mem_map.1 hi
  exact Json.isNumber_ofData (hvs v hv)

theorem numbered_fields {fs : List (String × Schema)} (h : ∀ e ∈ fs, Numbered e.2.json)
    (hj : mapJson (fs.map fun e => (e.1, json e.2)) = some j) : Numbered j := by
  obtain ⟨-, rfl⟩ := mapJson_some hj
  refine numbered_object fun e he => ?_
  obtain ⟨d, hd, rfl⟩ := List.mem_map.1 he
  exact h d hd

theorem numbered_given {o : Option (List Schema)} (h : ∀ s ∈ o.getD [], Numbered s.json)
    (hj : listJson ((o.map (·.map json)).getD []) = some j) : Numbered j := by
  obtain ⟨-, rfl⟩ := listJson_some hj
  refine numbered_array fun i hi => ?_
  cases o with
  | none => cases hi
  | some ss =>
    obtain ⟨s, hs, rfl⟩ := List.mem_map.1 (show i ∈ ss.map json from hi)
    exact h s hs

theorem numbered_extent {x : Extent} (h : ∀ s ∈ Extent.toList x, Numbered s.json) (hj : (Beyond.ofExtent json x).json = some j) :
    Numbered j := by
  cases x with
  | unset => cases hj
  | flag b =>
    cases hj
    nofun
  | sub s =>
    cases hj
    exact h s (by simp [Extent.toList, Beyond.ofExtent, Beyond.toList])

theorem numbered_items {x : Items} (h : ∀ s ∈ Items.toList x, Numbered s.json) (hj : (Elements.ofItems json x).json = some j) :
    Numbered j := by
  cases x with
  | unset => cases hj
  | single s =>
    obtain rfl | ⟨b, rfl⟩ := eq_absent_or_ofBody s
    · cases hj
      exact numbered_object nofun
    · have hs := h (ofBody b) (by simp [Items.toList, Elements.ofItems, Elements.toList])
      rw [Elements.ofItems, json_ofBody] at hj
      cases hj
      rwa [json_ofBody] at hs
  | tuple ss =>
    cases hj
    refine numbered_array fun j hj => ?_
    obtain ⟨s, hs, rfl⟩ := List.mem_map.1 hj
    exact h s (by simpa [Items.toList, Elements.ofItems, Elements.toList] using hs)

theorem numbered_discriminator (d : Discriminator) : Numbered (discriminatorJson d) := by
  refine numbered_object fun e he => ?_
  rcases List.mem_append.1 he with he | he
  · obtain rfl := List.mem_singleton.1 he
    exact numbered_string _
  · obtain ⟨j, hj, rfl⟩ := List.mem_map.1 he
    obtain ⟨-, rfl⟩ := mapJson_some (Option.mem_toList.1 hj)
    refine numbered_object fun e he => ?_
    obtain ⟨d, -, rfl⟩ := List.mem_map.1 he
    exact numbered_string _

theorem numbered_rule (r : Rule) : Numbered (ruleJson r) := by
  refine numbered_object fun e he => ?_
  rcases List.mem_append.1 he with he | he
  · obtain rfl := List.mem_singleton.1 he
    exact numbered_string _
  · obtain ⟨j, hj, rfl⟩ := List.mem_map.1 he
    rw [wordJson_some (Option.mem_toList.1 hj)]
    exact numbered_string _

/-- the numbers of one keyword -/
theorem numbered_member {b : Body} (hneat : NeatKeywords b.own) (hb : b.Below fun s => Numbered s.json) {w : Keyword}
    (hj : (b.parts json).member w = some j) : Numbered j := by
  have hint {o : Option Int} (ho : ∀ n ∈ o, IsWord n) (hj : intJson o = some j) : Numbered j := by
    obtain ⟨n, hn, rfl⟩ := Option.map_eq_some_iff.1 hj
    exact numbered_int (ho n hn)
  have hfloat {o : Option Float} (ho : ∀ x, o = some x → Number.isFinite x = true) (hj : floatJson o = some j) : Numbered j := by
    obtain ⟨x, hx, rfl⟩ := Option.map_eq_some_iff.1 hj
    exact numbered_float (ho x hx)
  have hgiven {o : Option Value} (ho : Given o) (hj : valueJson o = some j) : Numbered j :=
    numbered_value (fun v hv => (ho v hv).1) hj
  cases w with
  | schemaUri | ref | title | description | format | pattern =>
    obtain rfl := wordJson_some hj
    exact numbered_string _
  | readOnly | deprecated | nullable | uniqueItems =>
    obtain rfl := flagJson_some hj
    nofun
  | type => exact hgiven hneat.type hj
  | default => exact hgiven hneat.default hj
  | const => exact hgiven hneat.const hj
  | exclusiveMinimum => exact hgiven hneat.exclusiveMinimum hj
  | exclusiveMaximum => exact hgiven hneat.exclusiveMaximum hj
  | examples => exact numbered_values hneat.examples hj
  | enum => exact numbered_values hneat.enum hj
  | minLength => exact hint hneat.minLength hj
  | maxLength => exact hint hneat.maxLength hj
  | minItems => exact hint hneat.minItems hj
  | maxItems => exact hint hneat.maxItems hj
  | minimum => exact hfloat hneat.bounds.minimum hj
  | maximum => exact hfloat hneat.bounds.maximum hj
  | multipleOf => exact hfloat hneat.bounds.multipleOf hj
  | required =>
    obtain ⟨-, rfl⟩ := listJson_some hj
    refine numbered_array fun i hi => ?_
    obtain ⟨t, -, rfl⟩ := List.mem_map.1 hi
    exact numbered_string t
  | rules =>
    obtain ⟨-, rfl⟩ := listJson_some hj
    refine numbered_array fun i hi => ?_
    obtain ⟨r, -, rfl⟩ := List.mem_map.1 hi
    exact numbered_rule r
  | discriminator =>
    obtain ⟨d, -, rfl⟩ := Option.map_eq_some_iff.1 hj
    exact numbered_discriminator d
  | properties =>
    have hfields : mapJson ((b.properties.getD []).map fun e => (e.1, json e.2)) = some j := by
      cases hp : b.properties <;> simpa [Parts.member, Body.parts, hp] using hj
    exact numbered_fields hb.properties hfields
  | definitions => exact numbered_fields hb.definitions hj
  | defs => exact numbered_fields hb.defs hj
  | additional => exact numbered_extent hb.additional hj
  | additionalItems => exact numbered_extent hb.additionalItems hj
  | items => exact numbered_items hb.items hj
  | propertyNames =>
    obtain rfl := namesJson_some hj
    exact hb.propertyNames
  | anyOf => exact numbered_given hb.anyOf hj
  | oneOf => exact numbered_given hb.oneOf hj
  | allOf => exact numbered_given hb.allOf hj

end

/-- the reader takes all numbers of a schema that was read -/
theorem numbered_json {s : Schema} (h : s.Everywhere Neat) : Numbered s.json := by
  induction s using treeInduction with
  | absent => nofun
  | node b hb =>
    obtain ⟨hneat, hbelow⟩ := everywhere_below.1 h
    have hnumbered : b.Below fun s => Numbered s.json := (hb.and hbelow).imp fun s hs => hs.1 hs.2
    rw [json_ofBody]
    refine numbered_object fun e he => ?_
    rcases mem_fields he with he | he
    · obtain ⟨d, hd, rfl⟩ := List.mem_map.1 he
      exact Json.isNumber_ofData (hneat.own.extra d hd).2
    · obtain ⟨w, j, hj, rfl⟩ := mem_members.1 he
      exact numbered_member hneat.own hnumbered hj

end Schemata.Schema
