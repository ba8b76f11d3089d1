import Mathlib.Tactic
import Schemata.Schema.Decode
import Schemata.Proofs.Json.Nesting
import Schemata.Proofs.Number.Whole
import Schemata.Proofs.Schema.Bounds

/-!
What holds on every level of a schema that was read.

A document is read member by member, and a member makes one change to its level (`Change`). So what every change keeps,
holds on all levels of a schema that was read (`decode_steady`). The reader lets only runs of number characters pass as
numbers, and these spell finite numbers: the bounds in a schema that was read are finite (`decode_finite`).
-/

namespace Schemata

namespace Number

/-! ## Runs of number characters -/

theorem finite_ofDyadic {negative : Bool} {d : Dyadic} (h : Canonical double d) : isFinite (ofDyadic negative d) = true := by
  rw [isFinite, parts_ofDyadic h]

theorem finite_zero (negative : Bool) : isFinite (signed negative 0.0) = true := by
  cases negative <;> decide

theorem finite_ofParts {negative : Bool} {num den : ℕ} (hd : 0 < den) {x : Float} (h : ofParts negative num den = .number x) :
    isFinite x = true := by
  unfold ofParts at h
  split at h
  · rename_i y hy
    cases h
    obtain ⟨d, hround, rfl⟩ := Option.map_eq_some_iff.1 hy
    exact finite_ofDyadic (round_canonical (by decide) (by decide) hd hround)
  · cases h

theorem finite_ofDecimal {negative : Bool} {value : ℕ} {exponent : ℤ} {x : Float}
    (h : ofDecimal negative value exponent = .number x) : isFinite x = true := by
  unfold ofDecimal at h
  simp only at h
  split at h
  · cases h
    exact finite_zero negative
  · split at h
    · cases h
    · split at h
      · cases h
        exact finite_zero negative
      · exact finite_ofParts (scale_den_pos (by norm_num) Nat.one_pos _) h

/-- no case turns a number character into a letter other than that of the exponent -/
theorem toLower_numberChar {c : Char} (h : Json.isNumberChar c = true) : Json.isNumberChar c.toLower = true := by
  by_cases hE : c = 'E'
  · subst hE
    decide
  · have hlower : c.toLower = c := by
      unfold Char.toLower
      rw [dif_neg]
      rintro ⟨h1, h2⟩
      simp only [Json.isNumberChar, Bool.or_eq_true, beq_iff_eq, Char.isDigit, Bool.and_eq_true, decide_eq_true_eq] at h
      have h65 : 65 ≤ c.val.toNat := h1
      rcases h with ((((h | rfl) | rfl) | rfl) | rfl) | rfl
      · have h57 : c.val.toNat ≤ 57 := h.2
        omega
      all_goals first | exact hE rfl | (revert h1 h2; decide)
    rwa [hlower]

theorem readSpecial_numberChars {negative signedText : Bool} {cs : List Char} (h : ∀ c ∈ cs, Json.isNumberChar c = true) :
    readSpecial negative signedText cs = .malformed := by
  -- the special names hold a letter that stands in no number
  have hchars {name : String} (hname : ∃ c ∈ name.toList, Json.isNumberChar c = false) : lowered cs ≠ name := by
    rintro rfl
    obtain ⟨c, hc, hno⟩ := hname
    rw [lowered, String.toList_ofList] at hc
    obtain ⟨d, hd, rfl⟩ := List.mem_map.1 hc
    rw [toLower_numberChar (h d hd)] at hno
    cases hno
  unfold readSpecial
  rw [if_neg (not_or.2 ⟨hchars ⟨'i', by decide, by decide⟩, hchars ⟨'i', by decide, by decide⟩⟩),
    if_neg fun hnan => hchars ⟨'n', by decide, by decide⟩ hnan.1]

theorem finite_readUnsigned {negative signedText : Bool} {cs : List Char} (h : ∀ c ∈ cs, Json.isNumberChar c = true)
    {x : Float} (hx : readUnsigned negative signedText cs = .number x) : isFinite x = true := by
  have hdecimal : readUnsigned negative signedText cs = readUnsigned.decimal negative signedText cs := by
    unfold readUnsigned
    split
    · rename_i c rest
      refine if_neg fun hmark => ?_
      have hlower := toLower_numberChar (h c (by simp))
      rw [hmark.1] at hlower
      revert hlower
      decide
    · rfl
  rw [hdecimal] at hx
  unfold readUnsigned.decimal at hx
  simp only at hx
  split at hx
  · rw [readSpecial_numberChars h] at hx
    cases hx
  · split at hx
    · split at hx
      · cases hx
      · exact finite_ofDecimal hx
    · cases hx

/-- **Numbers of documents.** A run of number characters is no number that is not finite. -/
theorem finite_parse? {s : String} (h : Json.Numeric s) {x : Float} (hx : parse? s = some x) :
    isFinite x = true := by
  obtain ⟨y, hread, rfl⟩ : ∃ y, read s = .number y ∧ y = x := by
    unfold parse? at hx
    split at hx
    · exact ⟨_, by assumption, Option.some.inj hx⟩
    · cases hx
  unfold read at hread
  split at hread
  · rename_i cs hs
    exact finite_readUnsigned (fun c hc => h c (by simp [hs, hc])) hread
  · rename_i cs hs
    exact finite_readUnsigned (fun c hc => h c (by simp [hs, hc])) hread
  · exact finite_readUnsigned h hread

end Number

namespace Json

theorem finite_toValue {j : Json} (hj : AllSpelled j) {x : Float} (h : j.toValue = .float x) : Number.isFinite x = true := by
  cases j with
  | number t =>
    cases h
    cases hx : Number.parse? t with
    | none => exact Number.finite_zero false
    | some x => exact Number.finite_parse? (hj t (by simp [numerals])).2 hx
  | _ => cases h

end Json

namespace Schema

open Json (AllSpelled allSpelled_array allSpelled_object)

/-! ## One member -/

/-- the change that a member makes to the level it stands on -/
inductive Change (b : Body) (key : String) : Json → Body → Prop
  | clear : Change b key .null (clear b key)
  | further (j : Json) (h : isKnown key = false) : Change b key j { b with own := { b.own with extra := Dict.insert b.own.extra key j.toValue } }
  | keyword {j : Json} {own : Keywords} (hj : j ≠ .null) (h : setKeyword b.own key j = some (.ok own)) : Change b key j { b with own }
  | properties {j : Json} {fs : List (String × Schema)} (h : ofMap (b.properties.getD []) j = .ok fs) :
      Change b key j { b with properties := some fs }
  | additional {j : Json} {x : Extent} (h : ofExtent j = .ok x) :
      Change b key j { b with additional := Extent.then b.additional x }
  | propertyNames {j : Json} {s : Schema} (h : ofJson b.propertyNames.body j = .ok s) :
      Change b key j { b with propertyNames := s }
  | items {j : Json} {x : Items} (h : ofItems j = .ok x) : Change b key j { b with items := Items.then b.items x }
  | additionalItems {j : Json} {x : Extent} (h : ofExtent j = .ok x) :
      Change b key j { b with additionalItems := Extent.then b.additionalItems x }
  | anyOf {j : Json} {ss : List Schema} (h : ofArray j = .ok ss) : Change b key j { b with anyOf := some ss }
  | oneOf {j : Json} {ss : List Schema} (h : ofArray j = .ok ss) : Change b key j { b with oneOf := some ss }
  | allOf {j : Json} {ss : List Schema} (h : ofArray j = .ok ss) : Change b key j { b with allOf := some ss }
  | definitions {j : Json} {fs : List (String × Schema)} (h : ofMap b.definitions j = .ok fs) :
      Change b key j { b with definitions := fs }
  | defs {j : Json} {fs : List (String × Schema)} (h : ofMap b.defs j = .ok fs) : Change b key j { b with defs := fs }

/-- whether a keyword is a plain one does not depend on its value or on the other keywords -/
theorem setKeyword_isNone {k k' : Keywords} {key : String} {j j' : Json} (h : setKeyword k key j = none) :
    setKeyword k' key j' = none := by
  unfold setKeyword at h ⊢
  split at h
  case h_28 => rfl
  all_goals cases h

theorem ofMembers_cons {b b' : Body} {key : String} {j : Json} {rest : List (String × Json)}
    (h : ofMembers b ((key, j) :: rest) = .ok b') : ∃ c, Change b key j c ∧ ofMembers c rest = .ok b' := by
  unfold ofMembers at h
  split at h
  · split at h
    · exact ⟨_, .clear, h⟩
    · rename_i hunknown
      exact ⟨_, .further .null (by simpa using hunknown), h⟩
  · rename_i hj
    split at h
    · rename_i hset
      exact ⟨_, .keyword hj hset, h⟩
    · cases h
    · split at h
      case h_11 hset _ _ _ _ _ _ _ _ _ _ _ =>
        refine ⟨_, .further _ ?_, h⟩
        rw [isKnown, setKeyword_isNone hset]
        simp_all [structural]
      all_goals obtain ⟨x, hx, h⟩ := except_bind_ok h
      · exact ⟨_, .properties hx, h⟩
      · exact ⟨_, .additional hx, h⟩
      · exact ⟨_, .propertyNames hx, h⟩
      · exact ⟨_, .items hx, h⟩
      · exact ⟨_, .additionalItems hx, h⟩
      · exact ⟨_, .anyOf hx, h⟩
      · exact ⟨_, .oneOf hx, h⟩
      · exact ⟨_, .allOf hx, h⟩
      · exact ⟨_, .definitions hx, h⟩
      · exact ⟨_, .defs hx, h⟩

/-! ## What every change keeps -/

/-- what holds of a level without keywords, and after every member if it held before -/
structure Steady (Q : Body → Prop) : Prop where
  empty : Q {}
  change : ∀ {b c : Body} {key : String} {j : Json}, AllSpelled j → Change b key j c → Q b → Q c

/-- what holds of no keywords, and after every member that sets or takes back a plain keyword -/
structure Kept (Q : Keywords → Prop) : Prop where
  empty : Q {}
  set : ∀ {k own : Keywords} {key : String} {j : Json}, AllSpelled j → setKeyword k key j = some (.ok own) → Q k → Q own
  clear : ∀ {k : Keywords} (key : String), Q k → Q (clearKeyword k key)
  further : ∀ {k : Keywords} (fs : Dict Value), Q k → Q { k with extra := fs }

theorem own_clear (b : Body) (key : String) : (clear b key).own = b.own ∨ (clear b key).own = clearKeyword b.own key := by
  unfold clear
  split
  case h_11 => exact .inr rfl
  all_goals exact .inl rfl

/-- what plain keywords keep, levels keep -/
theorem Kept.steady {Q : Keywords → Prop} (hQ : Kept Q) : Steady fun b => Q b.own where
  empty := hQ.empty
  change {b c key j} hj h hb := by
    cases h with
    | clear =>
      rcases own_clear b key with h | h <;> rw [h]
      · exact hb
      · exact hQ.clear key hb
    | further => exact hQ.further _ hb
    | keyword _ h => exact hQ.set hj h hb
    | _ => exact hb

section

variable {Q : Body → Prop} {b c : Body} {key : String} {j : Json}

theorem everywhere_below : (ofBody b).Everywhere Q ↔ Q b ∧ b.Below (·.Everywhere Q) := by
  rw [everywhere_ofBody, Body.forall_below]

theorem everywhere_empty (hQ : Steady Q) : (ofBody {}).Everywhere Q := everywhere_ofKeywords.2 hQ.empty

theorem everywhere_body (hQ : Steady Q) {s : Schema} (hs : s.Everywhere Q) : (ofBody s.body).Everywhere Q := by
  obtain rfl | ⟨b, rfl⟩ := eq_absent_or_ofBody s
  · exact everywhere_empty hQ
  · exact hs

/-- what is read from a document, wherever it stands in a schema -/
structure Yields (Q : Body → Prop) (j : Json) : Prop where
  schema : ∀ {earlier s}, (ofBody earlier).Everywhere Q → ofJson earlier j = .ok s → s.Everywhere Q
  map : ∀ {earlier fs}, (∀ e ∈ earlier, e.2.Everywhere Q) → ofMap earlier j = .ok fs → ∀ e ∈ fs, e.2.Everywhere Q
  array : ∀ {ss}, ofArray j = .ok ss → ∀ s ∈ ss, s.Everywhere Q
  extent : ∀ {x}, ofExtent j = .ok x → ∀ s ∈ Extent.toList x, s.Everywhere Q
  items : ∀ {x}, ofItems j = .ok x → ∀ s ∈ Items.toList x, s.Everywhere Q

theorem below_clear {P : Schema → Prop} (hP : P .absent) (hb : b.Below P) (key : String) : (clear b key).Below P := by
  unfold clear
  split
  · exact { hb with properties := by simp }
  · exact { hb with additional := by simp [Extent.toList, Beyond.ofExtent, Beyond.toList] }
  · exact { hb with propertyNames := hP }
  · exact { hb with items := by simp [Items.toList, Elements.ofItems, Elements.toList] }
  · exact { hb with additionalItems := by simp [Extent.toList, Beyond.ofExtent, Beyond.toList] }
  · exact { hb with anyOf := by simp }
  · exact { hb with oneOf := by simp }
  · exact { hb with allOf := by simp }
  · exact { hb with definitions := by simp }
  · exact { hb with defs := by simp }
  · exact { hb with }

theorem then_cases (x y : Extent) : Extent.then x y = x ∨ Extent.then x y = y := by
  unfold Extent.then
  split
  · exact .inl rfl
  · exact .inr rfl

theorem then_items_cases (x y : Items) : Items.then x y = x ∨ Items.then x y = y := by
  unfold Items.then
  split
  · exact .inl rfl
  · exact .inr rfl

/-- one member -/
theorem everywhere_change (hQ : Steady Q) (hj : AllSpelled j) (hy : Yields Q j) (hb : (ofBody b).Everywhere Q)
    (h : Change b key j c) : (ofBody c).Everywhere Q := by
  obtain ⟨hown, hbelow⟩ := everywhere_below.1 hb
  have hthen {x y : Extent} (hx : ∀ s ∈ Extent.toList x, s.Everywhere Q) (hy : ∀ s ∈ Extent.toList y, s.Everywhere Q) :
      ∀ s ∈ Extent.toList (Extent.then x y), s.Everywhere Q := by
    rcases then_cases x y with h | h <;> rw [h]
    · exact hx
    · exact hy
  have hitems {x y : Items} (hx : ∀ s ∈ Items.toList x, s.Everywhere Q) (hy : ∀ s ∈ Items.toList y, s.Everywhere Q) :
      ∀ s ∈ Items.toList (Items.then x y), s.Everywhere Q := by
    rcases then_items_cases x y with h | h <;> rw [h]
    · exact hx
    · exact hy
  refine everywhere_below.2 ⟨hQ.change hj h hown, ?_⟩
  cases h with
  | clear => exact below_clear .absent hbelow key
  | further => exact { hbelow with }
  | keyword _ h => exact { hbelow with }
  | properties h => exact { hbelow with properties := hy.map hbelow.properties h }
  | additional h => exact { hbelow with additional := hthen hbelow.additional (hy.extent h) }
  | propertyNames h => exact { hbelow with propertyNames := hy.schema (everywhere_body hQ hbelow.propertyNames) h }
  | items h => exact { hbelow with items := hitems hbelow.items (hy.items h) }
  | additionalItems h => exact { hbelow with additionalItems := hthen hbelow.additionalItems (hy.extent h) }
  | anyOf h => exact { hbelow with anyOf := hy.array h }
  | oneOf h => exact { hbelow with oneOf := hy.array h }
  | allOf h => exact { hbelow with allOf := hy.array h }
  | definitions h => exact { hbelow with definitions := hy.map hbelow.definitions h }
  | defs h => exact { hbelow with defs := hy.map hbelow.defs h }

/-! ## Documents -/

/-- all members of a level, one after the other -/
theorem everywhere_members (hQ : Steady Q) {fs : List (String × Json)} (hfs : ∀ e ∈ fs, AllSpelled e.2 ∧ Yields Q e.2)
    (hb : (ofBody b).Everywhere Q) (h : ofMembers b fs = .ok c) : (ofBody c).Everywhere Q := by
  induction fs generalizing b with
  | nil =>
    obtain rfl := Except.ok.inj h
    exact hb
  | cons e fs ih =>
    obtain ⟨d, hd, h⟩ := ofMembers_cons h
    obtain ⟨hj, hy⟩ := hfs e List.mem_cons_self
    exact ih (fun e he => hfs e (List.mem_cons_of_mem _ he)) (everywhere_change hQ hj hy hb hd) h

theorem yields_object (hQ : Steady Q) {fs : List (String × Json)} (hfs : ∀ e ∈ fs, AllSpelled e.2 ∧ Yields Q e.2) :
    Yields Q (.object fs) where
  schema hb h := by
    obtain ⟨c, hc, rfl⟩ := except_map_ok h
    exact everywhere_members hQ hfs hb hc
  map := by
    intro earlier gs hearlier h
    change ofNamed earlier fs = .ok gs at h
    induction fs generalizing earlier with
    | nil =>
      obtain rfl := Except.ok.inj h
      exact hearlier
    | cons e fs ih =>
      obtain ⟨s, hs, h⟩ := except_bind_ok h
      refine ih (fun e he => hfs e (List.mem_cons_of_mem _ he)) (fun e' he' => ?_) h
      rcases Dict.mem_insert he' with rfl | he'
      · exact (hfs e List.mem_cons_self).2.schema (everywhere_empty hQ) hs
      · exact hearlier e' he'
  array h := by cases h
  extent h := by
    obtain ⟨c, hc, rfl⟩ := except_map_ok h
    simpa [Extent.toList, Beyond.ofExtent, Beyond.toList] using everywhere_members hQ hfs (everywhere_empty hQ) hc
  items h := by
    obtain ⟨c, hc, rfl⟩ := except_map_ok h
    simpa [Items.toList, Elements.ofItems, Elements.toList] using everywhere_members hQ hfs (everywhere_empty hQ) hc

theorem everywhere_list (hQ : Steady Q) {xs : List Json} (hxs : ∀ x ∈ xs, Yields Q x) {ss : List Schema}
    (h : ofList xs = .ok ss) : ∀ s ∈ ss, s.Everywhere Q := by
  induction xs generalizing ss with
  | nil =>
    obtain rfl := Except.ok.inj h
    simp
  | cons x xs ih =>
    obtain ⟨s, hs, h⟩ := except_bind_ok h
    obtain ⟨ts, hts, h⟩ := except_bind_ok h
    obtain rfl := Except.ok.inj h
    exact List.forall_mem_cons.2 ⟨(hxs x List.mem_cons_self).schema (everywhere_empty hQ) hs,
      ih (fun y hy => hxs y (List.mem_cons_of_mem _ hy)) hts⟩

theorem yields_array (hQ : Steady Q) {xs : List Json} (hxs : ∀ x ∈ xs, Yields Q x) : Yields Q (.array xs) where
  schema _ h := by cases h
  map _ h := by cases h
  array h := everywhere_list hQ hxs h
  extent h := by cases h
  items h := by
    obtain ⟨ss, hss, rfl⟩ := except_map_ok h
    simpa [Items.toList, Elements.ofItems, Elements.toList] using everywhere_list hQ hxs hss

theorem yields_flag {a : Bool} {x : Extent} (h : ofExtent (.bool a) = .ok x) : ∀ s ∈ Extent.toList x, s.Everywhere Q := by
  obtain rfl := Except.ok.inj h
  simp [Extent.toList, Beyond.ofExtent, Beyond.toList]

mutual

theorem yields (hQ : Steady Q) : ∀ {j : Json}, AllSpelled j → Yields Q j
  | .null, _ => ⟨fun _ h => Except.ok.inj h ▸ .absent, fun _ h => (by cases h), nofun, nofun, nofun⟩
  | .bool _, _ => ⟨fun _ h => (by cases h), fun _ h => (by cases h), nofun, yields_flag, nofun⟩
  | .number _, _ => ⟨fun _ h => (by cases h), fun _ h => (by cases h), nofun, nofun, nofun⟩
  | .string _, _ => ⟨fun _ h => (by cases h), fun _ h => (by cases h), nofun, nofun, nofun⟩
  | .array xs, h => yields_array hQ (yieldsItems hQ (allSpelled_array.1 h))
  | .object fs, h => yields_object hQ fun e he => ⟨allSpelled_object.1 h e he, yieldsFields hQ (allSpelled_object.1 h) e he⟩

theorem yieldsItems (hQ : Steady Q) : ∀ {xs : List Json}, (∀ x ∈ xs, AllSpelled x) → ∀ x ∈ xs, Yields Q x
  | [], _ => nofun
  | _ :: _, h =>
    List.forall_mem_cons.2 ⟨yields hQ (h _ List.mem_cons_self), yieldsItems hQ fun y hy => h y (List.mem_cons_of_mem _ hy)⟩

theorem yieldsFields (hQ : Steady Q) : ∀ {fs : List (String × Json)}, (∀ e ∈ fs, AllSpelled e.2) → ∀ e ∈ fs, Yields Q e.2
  | [], _ => nofun
  | (_, _) :: _, h =>
    List.forall_mem_cons.2 ⟨yields hQ (h _ List.mem_cons_self), yieldsFields hQ fun e he => h e (List.mem_cons_of_mem _ he)⟩

end

/-- a document that was read as a schema -/
theorem decode_cases {text : String} {s : Schema} (h : decode text = .ok s) :
    ∃ j, Json.parse text = .ok j ∧ (s = .empty ∨ ofJson {} j = .ok s) := by
  obtain ⟨j, hj, h⟩ := except_bind_ok h
  obtain ⟨t, ht, h⟩ := except_bind_ok h
  obtain rfl := Except.ok.inj h
  refine ⟨j, ?_, ?_⟩
  · cases hparse : Json.parse text with
    | error e => rw [hparse] at hj; cases hj
    | ok j' => rw [hparse] at hj; exact congrArg Except.ok (Except.ok.inj hj)
  · split
    · exact .inl rfl
    · exact .inr ht

/-- **Documents that were read.** What every member keeps, holds on all levels. -/
theorem decode_steady (hQ : Steady Q) {text : String} {s : Schema} (h : decode text = .ok s) : s.Everywhere Q := by
  obtain ⟨j, hj, rfl | hs⟩ := decode_cases h
  · exact everywhere_empty hQ
  · exact (yields hQ (Json.allSpelled_parse hj)).schema (everywhere_empty hQ) hs

end

/-! ## Bounds -/

theorem asFloat_finite {key : String} {j : Json} (hj : AllSpelled j) {o : Option Float} (h : asFloat key j = .ok o) :
    ∀ x, o = some x → Number.isFinite x = true := by
  cases j with
  | number t =>
    cases h
    exact fun x hx => Number.finite_parse? (hj t (by simp [Json.numerals])).2 hx
  | _ => cases h

theorem kept_finiteBounds : Kept FiniteBounds where
  empty := ⟨nofun, nofun, nofun, nofun, nofun⟩
  set := by
    intro k own key j hj h hk
    have hvalue : ∀ x, some j.toValue = some (.float x) → Number.isFinite x = true :=
      fun x hx => Json.finite_toValue hj (Option.some.inj hx)
    unfold setKeyword at h
    split at h
    case h_28 => cases h
    all_goals first
      | (obtain ⟨o, ho, rfl⟩ := except_map_ok (Option.some.inj h))
      | (obtain rfl := Except.ok.inj (Option.some.inj h))
    case h_17 => exact { hk with minimum := asFloat_finite hj ho }
    case h_18 => exact { hk with maximum := asFloat_finite hj ho }
    case h_19 => exact { hk with exclusiveMinimum := hvalue }
    case h_20 => exact { hk with exclusiveMaximum := hvalue }
    case h_21 => exact { hk with multipleOf := asFloat_finite hj ho }
    all_goals exact { hk with }
  clear := by
    intro k key hk
    unfold clearKeyword
    split
    case h_8 => exact { hk with minimum := nofun }
    case h_9 => exact { hk with maximum := nofun }
    case h_10 => exact { hk with exclusiveMinimum := nofun }
    case h_11 => exact { hk with exclusiveMaximum := nofun }
    case h_12 => exact { hk with multipleOf := nofun }
    all_goals exact { hk with }
  further _ hk := { hk with }

/-- **Bounds of documents that were read are finite.** -/
theorem decode_finite {text : String} {s : Schema} (h : decode text = .ok s) : s.Everywhere fun b => FiniteBounds b.own :=
  decode_steady kept_finiteBounds.steady h

end Schema

end Schemata
