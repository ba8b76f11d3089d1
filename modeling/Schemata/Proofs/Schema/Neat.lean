import Schemata.Proofs.Document.Shapes
import Schemata.Proofs.Document.Constants
import Schemata.Proofs.Schema.Decoded

/-!
What the levels of a schema that was read look like.

Reading leaves a level neat (`Neat`): values are data with their keys in order and are not null where null takes a keyword
back, numbers are words or finite, members are in the order of their keys, and nothing is missing where a missing schema
has no meaning of its own. Every member keeps this (`steady_neat`), so every schema that was read is neat on all levels
(`decode_neat`).
-/

namespace Schemata.Schema

open Json (AllSpelled allSpelled_array allSpelled_object)
open Document (IsWord)

/-! ## Data that was read -/

mutual

theorem decoded_toValue : ∀ {j : Json}, AllSpelled j → (j.toValue).Decoded
  | .null, _ => .null
  | .bool b, _ => .bool b
  | .number t, h => .float (Json.finite_toValue h rfl)
  | .string s, _ => .string s
  | .array xs, h => .array (decoded_toValues (allSpelled_array.1 h))
  | .object fs, h => by
    rw [Json.toValue, Value.toFields_eq]
    refine .object (Dict.sorted_foldl_insert _ List.Pairwise.nil) fun e he => ?_
    obtain ⟨f, hf, rfl⟩ := List.mem_map.1 (Dict.mem_ofList he)
    exact decoded_toFields (allSpelled_object.1 h) f hf

theorem decoded_toValues : ∀ {xs : List Json}, (∀ x ∈ xs, AllSpelled x) → ∀ v ∈ Json.toValues xs, v.Decoded
  | [], _ => nofun
  | _ :: _, h =>
    List.forall_mem_cons.2 ⟨decoded_toValue (h _ List.mem_cons_self), decoded_toValues fun y hy => h y (List.mem_cons_of_mem _ hy)⟩

theorem decoded_toFields : ∀ {fs : List (String × Json)}, (∀ e ∈ fs, AllSpelled e.2) → ∀ e ∈ fs, e.2.toValue.Decoded
  | [], _ => nofun
  | (_, _) :: _, h =>
    List.forall_mem_cons.2 ⟨decoded_toValue (h _ List.mem_cons_self), decoded_toFields fun e he => h e (List.mem_cons_of_mem _ he)⟩

end

/-- a value that a keyword was given: data, and not null -/
def Given (o : Option Value) : Prop := ∀ v ∈ o, v.Decoded ∧ v ≠ .null

/-- plain keywords as reading leaves them -/
structure NeatKeywords (k : Keywords) : Prop where
  type : Given k.type
  default : Given k.default
  const : Given k.const
  exclusiveMinimum : Given k.exclusiveMinimum
  exclusiveMaximum : Given k.exclusiveMaximum
  examples : ∀ v ∈ k.examples, v.Decoded
  enum : ∀ v ∈ k.enum.getD [], v.Decoded
  minLength : ∀ n ∈ k.minLength, IsWord n
  maxLength : ∀ n ∈ k.maxLength, IsWord n
  minItems : ∀ n ∈ k.minItems, IsWord n
  maxItems : ∀ n ∈ k.maxItems, IsWord n
  bounds : FiniteBounds k
  mapping : ∀ d ∈ k.discriminator, Dict.Sorted d.mapping
  sorted : Dict.Sorted k.extra
  extra : ∀ e ∈ k.extra, isKnown e.1 = false ∧ e.2.Decoded

/-- a level as reading leaves it: members in order, and nothing missing where a missing schema has no meaning of its own -/
structure Neat (b : Body) : Prop where
  own : NeatKeywords b.own
  properties : ∀ fs ∈ b.properties, Dict.Sorted fs
  definitions : Dict.Sorted b.definitions
  defs : Dict.Sorted b.defs
  additional : b.additional ≠ .sub .absent
  additionalItems : b.additionalItems ≠ .sub .absent
  items : b.items ≠ .single .absent

theorem given_none : Given none := nofun

theorem given_toValue {j : Json} (hj : AllSpelled j) (hnull : j ≠ .null) : Given (some j.toValue) := by
  rintro v hv
  obtain rfl := Option.some.inj hv
  refine ⟨decoded_toValue hj, fun h => hnull ?_⟩
  cases j <;> first | rfl | cases h

theorem decoded_asValues {key : String} {j : Json} (hj : AllSpelled j) {vs : List Value} (h : asValues key j = .ok vs) :
    ∀ v ∈ vs, v.Decoded := by
  cases j with
  | array xs =>
    obtain rfl := Except.ok.inj h
    exact decoded_toValues (allSpelled_array.1 hj)
  | _ => cases h

theorem isWord_bmod (n : Int) : IsWord (n.bmod (Nat.pow 2 64)) := by
  have h1 := Int.le_bmod (x := n) (m := Nat.pow 2 64) (by decide)
  have h2 := Int.bmod_lt (x := n) (m := Nat.pow 2 64) (by decide)
  constructor
  · refine le_trans ?_ h1
    decide
  · refine lt_of_lt_of_le h2 ?_
    decide

theorem isWord_asInt {key : String} {j : Json} {o : Option Int} (h : asInt key j = .ok o) : ∀ n ∈ o, IsWord n := by
  have hword (m : Int) : ∀ n ∈ some (m.bmod (Nat.pow 2 64)), IsWord n := by
    rintro n hn
    obtain rfl := Option.some.inj hn
    exact isWord_bmod m
  cases j with
  | number t =>
    simp only [asInt] at h
    split at h <;> split at h <;> cases h
    · exact hword _
    · exact hword _
  | _ => cases h

/-- what every step of a fold keeps, the fold keeps -/
theorem foldlM_keeps {ε α β : Type} {f : β → α → Except ε β} (P : β → Prop) (hf : ∀ b a c, P b → f b a = .ok c → P c)
    {l : List α} {b c : β} (hb : P b) (h : l.foldlM f b = .ok c) : P c := by
  induction l generalizing b with
  | nil => exact Except.ok.inj h ▸ hb
  | cons a l ih =>
    rw [List.foldlM_cons] at h
    obtain ⟨d, hd, h⟩ := except_bind_ok h
    exact ih (hf b a d hb hd) h

theorem sorted_asMapping {key : String} {earlier m : Dict String} {j : Json} (he : Dict.Sorted earlier)
    (h : asMapping key earlier j = .ok m) : Dict.Sorted m := by
  cases j with
  | object fs =>
    refine foldlM_keeps Dict.Sorted ?_ he h
    rintro d ⟨k, x⟩ d' hd h
    cases x with
    | null => exact Except.ok.inj h ▸ Dict.sorted_insert hd _ _
    | _ =>
      obtain ⟨t, -, rfl⟩ := except_map_ok h
      exact Dict.sorted_insert hd _ _
  | _ => cases h

theorem sorted_asDiscriminator {key : String} {earlier d : Discriminator} {j : Json} (he : Dict.Sorted earlier.mapping)
    (h : asDiscriminator key earlier j = .ok d) : Dict.Sorted d.mapping := by
  cases j with
  | object fs =>
    refine foldlM_keeps (fun d : Discriminator => Dict.Sorted d.mapping) ?_ he h
    rintro d ⟨k, x⟩ d' hd h
    dsimp only at h
    split at h
    · exact Except.ok.inj h ▸ hd
    · obtain ⟨t, -, rfl⟩ := except_map_ok h
      exact hd
    · exact Except.ok.inj h ▸ List.Pairwise.nil
    · obtain ⟨m, hm, rfl⟩ := except_map_ok h
      exact sorted_asMapping hd hm
    · exact Except.ok.inj h ▸ hd
  | _ => cases h

/-! ## Every member leaves levels neat -/

theorem neat_set {k own : Keywords} {key : String} {j : Json} (hj : AllSpelled j) (hnull : j ≠ .null)
    (h : setKeyword k key j = some (.ok own)) (hk : NeatKeywords k) : NeatKeywords own := by
  have hbounds : FiniteBounds own := kept_finiteBounds.set hj h hk.bounds
  have hgiven := given_toValue hj hnull
  unfold setKeyword at h
  split at h
  case h_28 => cases h
  all_goals first
    | (obtain ⟨o, ho, rfl⟩ := except_map_ok (Option.some.inj h))
    | (obtain rfl := Except.ok.inj (Option.some.inj h))
  case h_5 => exact { hk with type := hgiven, bounds := hbounds }
  case h_7 => exact { hk with default := hgiven, bounds := hbounds }
  case h_8 => exact { hk with examples := decoded_asValues hj ho, bounds := hbounds }
  case h_12 => exact { hk with enum := decoded_asValues hj ho, bounds := hbounds }
  case h_13 => exact { hk with const := hgiven, bounds := hbounds }
  case h_14 => exact { hk with minLength := isWord_asInt ho, bounds := hbounds }
  case h_15 => exact { hk with maxLength := isWord_asInt ho, bounds := hbounds }
  case h_19 => exact { hk with exclusiveMinimum := hgiven, bounds := hbounds }
  case h_20 => exact { hk with exclusiveMaximum := hgiven, bounds := hbounds }
  case h_23 => exact { hk with minItems := isWord_asInt ho, bounds := hbounds }
  case h_24 => exact { hk with maxItems := isWord_asInt ho, bounds := hbounds }
  case h_26 =>
    refine { hk with mapping := ?_, bounds := hbounds }
    rintro d hd
    obtain rfl := Option.some.inj hd
    refine sorted_asDiscriminator ?_ ho
    cases hd : k.discriminator with
    | none => exact List.Pairwise.nil
    | some d => exact hk.mapping d hd
  all_goals exact { hk with bounds := hbounds }

theorem neat_clearKeyword {k : Keywords} (key : String) (hk : NeatKeywords k) : NeatKeywords (clearKeyword k key) := by
  have hbounds : FiniteBounds (clearKeyword k key) := kept_finiteBounds.clear key hk.bounds
  revert hbounds
  unfold clearKeyword
  split <;> intro hbounds
  case h_1 => exact { hk with type := given_none, bounds := hbounds }
  case h_2 => exact { hk with default := given_none, bounds := hbounds }
  case h_3 => exact { hk with examples := by simp, bounds := hbounds }
  case h_4 => exact { hk with enum := by simp, bounds := hbounds }
  case h_5 => exact { hk with const := given_none, bounds := hbounds }
  case h_6 => exact { hk with minLength := by simp, bounds := hbounds }
  case h_7 => exact { hk with maxLength := by simp, bounds := hbounds }
  case h_10 => exact { hk with exclusiveMinimum := given_none, bounds := hbounds }
  case h_11 => exact { hk with exclusiveMaximum := given_none, bounds := hbounds }
  case h_14 => exact { hk with minItems := by simp, bounds := hbounds }
  case h_15 => exact { hk with maxItems := by simp, bounds := hbounds }
  case h_16 => exact { hk with mapping := by simp, bounds := hbounds }
  all_goals exact { hk with bounds := hbounds }

theorem neat_further {k : Keywords} {key : String} {j : Json} (hj : AllSpelled j) (hkey : isKnown key = false)
    (hk : NeatKeywords k) : NeatKeywords { k with extra := Dict.insert k.extra key j.toValue } where
  __ := hk
  bounds := kept_finiteBounds.further _ hk.bounds
  sorted := Dict.sorted_insert hk.sorted _ _
  extra := by
    intro e he
    rcases Dict.mem_insert he with rfl | he
    · exact ⟨hkey, decoded_toValue hj⟩
    · exact hk.extra e he

theorem neat_clear {b : Body} (hb : Neat b) (key : String) : Neat (clear b key) := by
  have hnone : ∀ fs ∈ (none : Option (List (String × Schema))), Dict.Sorted fs := nofun
  unfold clear
  split
  · exact { hb with properties := hnone }
  · exact { hb with additional := nofun }
  · exact { hb with }
  · exact { hb with items := nofun }
  · exact { hb with additionalItems := nofun }
  · exact { hb with }
  · exact { hb with }
  · exact { hb with }
  · exact { hb with definitions := List.Pairwise.nil }
  · exact { hb with defs := List.Pairwise.nil }
  · exact { hb with own := neat_clearKeyword _ hb.own }

theorem sorted_ofMap {earlier fs : List (String × Schema)} {j : Json} (he : Dict.Sorted earlier) (h : ofMap earlier j = .ok fs) :
    Dict.Sorted fs := by
  cases j with
  | object gs =>
    change ofNamed earlier gs = .ok fs at h
    induction gs generalizing earlier with
    | nil => exact Except.ok.inj h ▸ he
    | cons e gs ih =>
      obtain ⟨s, -, h⟩ := except_bind_ok h
      exact ih (Dict.sorted_insert he _ _) h
  | _ => cases h

theorem ofExtent_ne {j : Json} {x : Extent} (h : ofExtent j = .ok x) : x ≠ .sub .absent := by
  cases j with
  | bool b => exact Except.ok.inj h ▸ nofun
  | object fs =>
    obtain ⟨b, -, rfl⟩ := except_map_ok h
    exact nofun
  | _ => cases h

theorem ofItems_ne {j : Json} {x : Items} (h : ofItems j = .ok x) : x ≠ .single .absent := by
  cases j with
  | array xs =>
    obtain ⟨ss, -, rfl⟩ := except_map_ok h
    exact nofun
  | object fs =>
    obtain ⟨b, -, rfl⟩ := except_map_ok h
    exact nofun
  | _ => cases h

theorem steady_neat : Steady Neat where
  empty := by
    have hbounds : FiniteBounds {} := kept_finiteBounds.empty
    refine ⟨⟨?_, ?_, ?_, ?_, ?_, ?_, ?_, ?_, ?_, ?_, ?_, hbounds, ?_, ?_, ?_⟩, ?_, ?_, ?_, ?_, ?_, ?_⟩ <;>
      simp [Given, Dict.Sorted]
  change {b c key j} hj h hb := by
    have hthen {x y : Extent} (hx : x ≠ .sub .absent) (hy : y ≠ .sub .absent) : Extent.then x y ≠ .sub .absent := by
      rcases then_cases x y with h | h <;> rw [h] <;> assumption
    cases h with
    | clear => exact neat_clear hb key
    | further _ hkey => exact { hb with own := neat_further hj hkey hb.own }
    | keyword hnull h => exact { hb with own := neat_set hj hnull h hb.own }
    | properties h =>
      refine { hb with properties := ?_ }
      rintro fs hfs
      obtain rfl := Option.some.inj hfs
      refine sorted_ofMap ?_ h
      cases hp : b.properties with
      | none => exact List.Pairwise.nil
      | some fs => exact hb.properties fs hp
    | additional h => exact { hb with additional := hthen hb.additional (ofExtent_ne h) }
    | additionalItems h => exact { hb with additionalItems := hthen hb.additionalItems (ofExtent_ne h) }
    | items h =>
      refine { hb with items := ?_ }
      rcases then_items_cases b.items _ with h' | h' <;> rw [h']
      · exact hb.items
      · exact ofItems_ne h
    | definitions h => exact { hb with definitions := sorted_ofMap hb.definitions h }
    | defs h => exact { hb with defs := sorted_ofMap hb.defs h }
    | _ => exact { hb with }

/-- **Schemas that were read are neat** on all levels. -/
theorem decode_neat {text : String} {s : Schema} (h : decode text = .ok s) : s.Everywhere Neat :=
  decode_steady steady_neat h

end Schemata.Schema
