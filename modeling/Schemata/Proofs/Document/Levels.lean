import Mathlib.Tactic
import Schemata.Proofs.Document.Roots
import Schemata.Proofs.Schema.Links

/-!
What stands on the levels of a rendered document.

Every text of a rendering is one that a node of the graph brings along (`Node.texts`), a pointer, or a word of the
format (`vocabulary`); keywords of no fixed meaning are extensions; and only the root has definitions. `Tidy` says this
of one level, `Renders.tidy` of every level of a rendering.
-/

namespace Schemata

/-- the texts of annotations -/
def Meta.texts (m : Meta) : List String :=
  [m.title, m.description] ++ (m.default.toList ++ m.examples).flatMap Value.texts
    ++ (m.extensions ++ m.openapi).flatMap (fun e => e.1 :: e.2.texts) ++ m.rules.flatMap fun r => [r.expr, r.message]

/-- the texts that a node brings into a document; a constant also as it is displayed -/
def Node.texts (n : Node) : List String :=
  n.info.texts ++ [n.textOptions.pattern, n.textOptions.format, n.keyPattern, n.discriminator] ++ n.objectOptions.keys
    ++ (n.constValue :: n.enumValues).flatMap fun v => v.display :: v.texts

/-- the texts of a node as they stand -/
def Node.ownTexts (n : Node) : List String :=
  n.info.texts ++ [n.textOptions.pattern, n.textOptions.format, n.keyPattern, n.discriminator] ++ n.objectOptions.keys
    ++ (n.constValue :: n.enumValues).flatMap Value.texts

theorem Node.ownTexts_subset (n : Node) : n.ownTexts ⊆ n.texts := by
  intro t ht
  rcases List.mem_append.1 ht with ht | ht
  · exact List.mem_append_left _ ht
  · obtain ⟨v, hv, ht⟩ := List.mem_flatMap.1 ht
    exact List.mem_append_right _ (List.mem_flatMap.2 ⟨v, hv, List.mem_cons_of_mem _ ht⟩)

namespace Document

open Schema (Body ofBody ofKeywords Everywhere everywhere_ofBody everywhere_ofKeywords links plainTexts mem_plainTexts)

/-- the words that rendering brings along -/
def vocabulary : List String :=
  ["", "#", "string", "number", "integer", "boolean", "null", "object", "array", "example", "x-key-pattern", draftUri]

/-- conditions on the texts of documents -/
structure Diction where
  /-- on references and the targets of mappings -/
  link : String → Prop
  /-- on all other texts -/
  text : String → Prop
  /-- on the names of keywords without a fixed meaning -/
  extra : String → Prop

/-- one level of a rendering meets the conditions, lists its properties in order, and has no definitions -/
structure Tidy (V : Diction) (b : Body) : Prop where
  links : ∀ t ∈ links b.own, V.link t
  texts : ∀ t ∈ plainTexts b.own, V.text t
  keys : ∀ e ∈ b.properties.getD [], V.text e.1
  sorted : Dict.Sorted (b.properties.getD [])
  extra : ∀ e ∈ b.own.extra, V.extra e.1
  definitions : b.definitions = []
  defs : b.defs = []

/-- the words of the format meet the conditions -/
structure Diction.Words (V : Diction) : Prop where
  texts : ∀ t ∈ vocabulary, V.text t
  link : V.link ""

/-- all that comes into a document from a graph meets the conditions -/
structure Speaks (g : Graph) (V : Diction) : Prop where
  words : V.Words
  root : V.link "#"
  texts : ∀ id n, g.get? id = some n → ∀ t ∈ n.ownTexts, V.text t
  /-- constants are displayed as the tags of a union with a discriminator -/
  tags : (∃ id n, g.get? id = some n ∧ n.kind = .union ∧ n.discriminator ≠ "") →
    ∀ id n, g.get? id = some n → ∀ v ∈ n.constValue :: n.enumValues, V.text v.display
  own : V.extra "example" ∧ V.extra "x-key-pattern"
  extensions : ∀ id n, g.get? id = some n → ∀ e ∈ n.info.extensions ++ n.info.openapi, V.extra e.1

/-- no conditions at all -/
def Diction.any : Diction := ⟨fun _ => True, fun _ => True, fun _ => True⟩

theorem speaks_any (g : Graph) : Speaks g .any := by
  refine ⟨⟨?_, ?_⟩, ?_, ?_, ?_, ?_, ?_⟩ <;> intros <;> trivial

variable {P : String → Prop} {V : Diction}

/-! ## Keywords -/

section Keywords

open Schema.Keywords (values)

theorem texts_string (s : String) : (Value.string s).texts = [s] := rfl

theorem texts_null : Value.null.texts = [] := rfl

theorem texts_bool (b : Bool) : (Value.bool b).texts = [] := rfl

theorem texts_float (x : Float) : (Value.float x).texts = [] := rfl

theorem links_none {k : Keywords} (hr : k.ref = "") (hd : k.discriminator = none) (h : V.link "") : ∀ t ∈ links k, V.link t := by
  simp [links, hr, hd, h]

/-- a level of plain keywords -/
theorem tidy_own {k : Keywords} (hl : ∀ t ∈ links k, V.link t) (ht : ∀ t ∈ plainTexts k, V.text t)
    (hx : ∀ e ∈ k.extra, V.extra e.1) : Tidy V { own := k } :=
  ⟨hl, ht, by simp, .nil, hx, rfl, rfl⟩

/-! ## Annotations -/

theorem mem_putAll {d more : Dict Value} {e : String × Value} (h : e ∈ putAll d more) : e ∈ more ∨ e ∈ d :=
  Dict.mem_foldl_insert h

/-- what annotating adds to the keywords of no fixed meaning -/
theorem mem_extra_annotate {d : Dialect} {m : Meta} {extra : Dict Value} {e : String × Value}
    (h : e ∈ (let first := if d = .openapi then
          (match m.examples with | v :: _ => Dict.insert extra "example" v | [] => extra) else extra
        let all := putAll first m.extensions
        if d = .openapi then putAll all m.openapi else all)) :
    e ∈ extra ∨ (e.1 = "example" ∧ e.2 ∈ m.examples) ∨ e ∈ m.extensions ++ m.openapi := by
  have hplain {extra : Dict Value} (h : e ∈ putAll extra m.extensions) : e ∈ extra ∨ e ∈ m.extensions ++ m.openapi := by
    rcases mem_putAll h with h | h
    · exact .inr (List.mem_append_left _ h)
    · exact .inl h
  cases d with
  | plain => exact (hplain h).imp_right .inr
  | openapi =>
    rcases mem_putAll h with h | h
    · exact .inr (.inr (List.mem_append_right _ h))
    · rcases hplain h with h | h
      · rw [if_pos rfl] at h
        split at h
        · rename_i v vs hv
          rcases Dict.mem_insert h with rfl | h
          · exact .inr (.inl ⟨rfl, by simp [hv]⟩)
          · exact .inl h
        · exact .inl h
      · exact .inr (.inr h)

theorem mem_texts_meta {m : Meta} {t : String} : t ∈ m.texts ↔
    t = m.title ∨ t = m.description ∨ (∃ v ∈ m.default.toList ++ m.examples, t ∈ v.texts) ∨
      (∃ e ∈ m.extensions ++ m.openapi, t = e.1 ∨ t ∈ e.2.texts) ∨ ∃ r ∈ m.rules, t = r.expr ∨ t = r.message := by
  simp only [Meta.texts, List.mem_append, List.mem_cons, List.mem_flatMap, List.not_mem_nil, or_false, or_assoc]

theorem tidy_annotate {d : Dialect} {m : Meta} (hword : V.text "example") (htexts : ∀ t ∈ m.texts, V.text t) (hown : V.extra "example")
    (hext : ∀ e ∈ m.extensions ++ m.openapi, V.extra e.1) {s : Schema} (hs : s.Everywhere (Tidy V)) :
    (annotate d m s).Everywhere (Tidy V) := by
  refine hs.mapOwn fun b hb => ⟨hb.links, fun t ht => ?_, hb.keys, hb.sorted, fun e he => ?_, hb.definitions, hb.defs⟩
  · have hk := fun t ht => hb.texts t (mem_plainTexts.2 ht)
    have hm := fun t ht => htexts t (mem_texts_meta.2 ht)
    rcases mem_plainTexts.1 ht with ht | ht | ⟨v, hv, ht⟩ | ht | ⟨r, hr, ht⟩ | ht
    · simp only [List.mem_cons, List.not_mem_nil, or_false] at ht
      rcases ht with rfl | rfl | rfl | rfl | rfl | rfl
      · exact hk _ (by simp)
      · exact hk _ (by simp)
      · split
        · exact hk _ (by simp)
        · exact hm _ (by simp)
      · split
        · exact hk _ (by simp)
        · exact hm _ (by simp)
      · exact hk _ (by simp)
      · exact hk _ (by simp)
    · exact hk t (.inr (.inl ht))
    · have hkv := fun hv => hk t (.inr (.inr (.inl ⟨v, hv, ht⟩)))
      have hmv := fun hv => hm t (.inr (.inr (.inl ⟨v, hv, ht⟩)))
      simp only [values, List.mem_append, or_assoc] at hv hkv hmv
      rcases hv with hv | hv | hv | hv | hv | hv | hv | hv
      · exact hkv (.inl hv)
      · cases hd : m.default with
        | none =>
          rw [hd] at hv
          exact hkv (.inr (.inl hv))
        | some w =>
          rw [hd] at hv hmv
          exact hmv (.inl hv)
      · cases d with
        | openapi => exact hkv (.inr (.inr (.inl hv)))
        | plain =>
          rcases List.mem_append.1 hv with hv | hv
          · exact hkv (.inr (.inr (.inl hv)))
          · exact hmv (.inr hv)
      · exact hkv (.inr (.inr (.inr (.inl hv))))
      · exact hkv (.inr (.inr (.inr (.inr (.inl hv)))))
      · exact hkv (.inr (.inr (.inr (.inr (.inr (.inl hv))))))
      · exact hkv (.inr (.inr (.inr (.inr (.inr (.inr (.inl hv)))))))
      · obtain ⟨e, he, rfl⟩ := List.mem_map.1 hv
        rcases mem_extra_annotate he with he | ⟨-, he⟩ | he
        · exact hkv (.inr (.inr (.inr (.inr (.inr (.inr (.inr (List.mem_map_of_mem he))))))))
        · exact hmv (.inr he)
        · exact hm t (.inr (.inr (.inr (.inl ⟨e, he, .inr ht⟩))))
    · obtain ⟨e, he, rfl⟩ := List.mem_map.1 ht
      rcases mem_extra_annotate he with he | ⟨he, -⟩ | he
      · exact hk _ (.inr (.inr (.inr (.inl (List.mem_map_of_mem he)))))
      · rw [he]
        exact hword
      · exact hm _ (.inr (.inr (.inr (.inl ⟨e, he, .inl rfl⟩))))
    · rcases List.mem_append.1 hr with hr | hr
      · exact hk t (.inr (.inr (.inr (.inr (.inl ⟨r, hr, ht⟩)))))
      · exact hm t (.inr (.inr (.inr (.inr ⟨r, hr, ht⟩))))
    · exact hk t (.inr (.inr (.inr (.inr (.inr ht)))))
  · rcases mem_extra_annotate he with he | ⟨he, -⟩ | he
    · exact hb.extra e he
    · rw [he]
      exact hown
    · exact hext e he

end Keywords

/-! ## Null -/

section Null

variable (hP : V.Words)

include hP

theorem tidy_nullBranch : nullBranch.Everywhere (Tidy V) := by
  have htexts : ∀ t ∈ ["", "null"], V.text t := fun t ht => hP.texts t (by revert t; decide)
  refine everywhere_ofKeywords.2 (tidy_own (links_none rfl rfl hP.link) (fun t ht => htexts t ?_) (by simp))
  simpa [plainTexts, Schema.Keywords.relink, Schema.Keywords.texts, Schema.Keywords.values, texts_string] using ht

theorem tidy_orNull {s : Schema} (hs : s.Everywhere (Tidy V)) : (orNull s).Everywhere (Tidy V) := by
  refine everywhere_ofBody.2 ⟨⟨links_none rfl rfl hP.link, fun t ht => ?_, by simp, .nil, by simp, rfl, rfl⟩, fun t ht => ?_⟩
  · obtain rfl : t = "" := by simpa [plainTexts, Schema.Keywords.relink, Schema.Keywords.texts, Schema.Keywords.values] using ht
    exact hP.texts "" (by decide)
  · have : t = .absent ∨ t = s ∨ t = nullBranch := by
      simpa [Schema.mem_below, Schema.Extent.toList, Schema.Items.toList, Schema.Beyond.ofExtent, Schema.Beyond.toList,
        Schema.Elements.ofItems, Schema.Elements.toList] using ht
    rcases this with rfl | rfl | rfl
    · exact .absent
    · exact hs
    · exact tidy_nullBranch hP

omit hP in
/-- other listed values and types -/
theorem texts_values {k : Keywords} (hk : ∀ t ∈ plainTexts k, P t) {T C : Option Value} {E : Option (List Value)}
    (hv : ∀ v ∈ T.toList ++ E.getD [] ++ C.toList, ∀ t ∈ v.texts, P t) :
    ∀ t ∈ plainTexts { k with type := T, enum := E, const := C }, P t := by
  intro t ht
  have hk := fun h => hk t (mem_plainTexts.2 h)
  rcases mem_plainTexts.1 ht with h | h | ⟨v, h, ht⟩ | h
  · exact hk (.inl h)
  · exact hk (.inr (.inl h))
  · have hkv := fun h => hk (.inr (.inr (.inl ⟨v, h, ht⟩)))
    have hv := fun h => hv v h t ht
    simp only [Schema.Keywords.values, List.mem_append, or_assoc] at h hv hkv
    rcases h with h | h | h | h | h | h
    · exact hv (.inl h)
    · exact hkv (.inr (.inl h))
    · exact hkv (.inr (.inr (.inl h)))
    · exact hv (.inr (.inl h))
    · exact hv (.inr (.inr h))
    · exact hkv (.inr (.inr (.inr (.inr (.inr h)))))
  · exact hk (.inr (.inr (.inr h)))

omit hP in
theorem texts_value {k : Keywords} (hk : ∀ t ∈ plainTexts k, P t) {v : Value}
    (hv : v ∈ k.type.toList ++ k.enum.getD [] ++ k.const.toList) : ∀ t ∈ v.texts, P t := by
  intro t ht
  refine hk t (mem_plainTexts.2 (.inr (.inr (.inl ⟨v, ?_, ht⟩))))
  simp only [Schema.Keywords.values, List.mem_append] at hv ⊢
  tauto

theorem texts_widen {o : Option Value} (ho : ∀ v ∈ o.toList, ∀ t ∈ v.texts, V.text t) :
    ∀ v ∈ (widen o).toList, ∀ t ∈ v.texts, V.text t := by
  unfold widen
  split
  · rename_i w
    have hw : V.text w := ho (.string w) (by simp) w (by simp [texts_string])
    split
    · simpa [texts_string] using hw
    · simp [Value.texts, Json.ofData, Json.strings, Json.ofDataItems, Json.stringsOf, hw, hP.texts "null" (by decide)]
  · exact ho

theorem tidy_plainNullable {s s' : Schema} (hs : s.Everywhere (Tidy V)) (h : plainNullable s = .ok s') :
    s'.Everywhere (Tidy V) := by
  obtain rfl | ⟨b, rfl⟩ := Schema.eq_absent_or_ofBody s
  · cases h
    exact .absent
  · obtain ⟨level, below⟩ := everywhere_ofBody.1 hs
    have hchanged {k : Keywords} (hk : ∀ t ∈ plainTexts k, V.text t) (hl : links k = links b.own)
        (hx : k.extra = b.own.extra) : (ofBody { b with own := k }).Everywhere (Tidy V) :=
      .node ⟨hl ▸ level.links, hk, level.keys, level.sorted, hx ▸ level.extra, level.definitions, level.defs⟩ below
    have htype : ∀ v ∈ (widen b.own.type).toList, ∀ t ∈ v.texts, V.text t :=
      texts_widen hP fun v hv => texts_value level.texts (by simp [hv])
    have hbranches {ss ss' : List Schema} (h : withNull ss = .ok ss') {t : Schema} (ht : t ∈ ss') :
        t ∈ ss ∨ t.Everywhere (Tidy V) := by
      obtain ⟨found, -, h⟩ := except_bind_ok h
      cases h
      split at ht
      · exact .inl ht
      · rcases List.mem_append.1 ht with ht | ht
        · exact .inl ht
        · obtain rfl := List.mem_singleton.1 ht
          exact .inr (tidy_nullBranch hP)
    have hlevel {b' : Body} (hown : b'.own = b.own) (hp : b'.properties = b.properties)
        (hd : b'.definitions = b.definitions) (hd' : b'.defs = b.defs)
        (hbelow : ∀ t ∈ b'.below, t ∈ b.below ∨ t.Everywhere (Tidy V)) : (ofBody b').Everywhere (Tidy V) :=
      hs.top ⟨hown ▸ level.links, hown ▸ level.texts, hp ▸ level.keys, hp ▸ level.sorted, hown ▸ level.extra, hd ▸ level.definitions,
        hd' ▸ level.defs⟩ hbelow
    unfold plainNullable at h
    change (if b.own.ref ≠ "" then .ok (orNull (ofBody b)) else _) = Except.ok s' at h
    split at h
    · cases h
      exact tidy_orNull hP hs
    · split at h
      · cases h
        exact hs
      · rename_i hc
        have hc : b.own.const = some _ := hc
        cases h
        refine hchanged (texts_values level.texts fun w hw => ?_) rfl rfl
        simp only [Option.getD_some, Option.toList_none, List.append_nil, List.mem_append, List.mem_cons,
          List.not_mem_nil, or_false] at hw
        rcases hw with hw | rfl | rfl
        · exact texts_value level.texts (List.mem_append_left _ (List.mem_append_left _ hw))
        · exact texts_value level.texts (by simp [hc])
        · simp [texts_null]
      · rename_i hc he
        have he : b.own.enum = some _ := he
        have hc : b.own.const = none := hc
        cases h
        refine hchanged (texts_values level.texts fun w hw => ?_) rfl rfl
        simp only [Schema.ofBody_body, hc, Option.getD_some, Option.toList_none, List.append_nil, List.mem_append] at hw
        rcases hw with hw | hw
        · exact htype w hw
        · unfold withNullValue at hw
          split at hw
          · exact texts_value level.texts (by simp [he, hw])
          · rcases List.mem_append.1 hw with hw | hw
            · exact texts_value level.texts (by simp [he, hw])
            · obtain rfl := List.mem_singleton.1 hw
              simp [texts_null]
      · split at h
        · cases h
          refine hchanged (texts_values level.texts fun w hw => ?_) rfl rfl
          rw [List.append_assoc, List.mem_append] at hw
          rcases hw with hw | hw
          · exact htype w hw
          · exact texts_value level.texts (by rw [List.append_assoc]; exact List.mem_append_right _ hw)
        · rename_i hany
          have hany : b.anyOf = some _ := hany
          obtain ⟨ss, hss, h⟩ := except_bind_ok h
          cases h
          refine hlevel rfl rfl rfl rfl fun t ht => ?_
          have hnew := fun h => hbranches hss (t := t) h
          simp only [Schema.ofBody_body, Schema.mem_below, hany, Option.getD_some] at ht ⊢
          grind
        · rename_i hone
          have hone : b.oneOf = some _ := hone
          obtain ⟨ss, hss, h⟩ := except_bind_ok h
          cases h
          refine hlevel rfl rfl rfl rfl fun t ht => ?_
          have hnew := fun h => hbranches hss (t := t) h
          simp only [Schema.ofBody_body, Schema.mem_below, hone, Option.getD_some] at ht ⊢
          grind
        · cases h
          exact tidy_orNull hP hs
        · cases h
          exact hs

theorem tidy_openapiNullable {s : Schema} (hs : s.Everywhere (Tidy V)) : (openapiNullable s).Everywhere (Tidy V) := by
  unfold openapiNullable
  split
  · refine everywhere_ofBody.2 ⟨⟨links_none rfl rfl hP.link, fun t ht => ?_, by simp, .nil, by simp, rfl, rfl⟩, fun t ht => ?_⟩
    · obtain rfl : t = "" := by simpa [plainTexts, Schema.Keywords.relink, Schema.Keywords.texts, Schema.Keywords.values] using ht
      exact hP.texts "" (by decide)
    · obtain rfl | rfl : t = .absent ∨ t = s := by
        simpa [Schema.mem_below, Schema.Extent.toList, Schema.Items.toList, Schema.Beyond.ofExtent, Schema.Beyond.toList,
          Schema.Elements.ofItems, Schema.Elements.toList] using ht
      · exact .absent
      · exact hs
  · exact hs.mapOwn fun b hb => ⟨hb.links, hb.texts, hb.keys, hb.sorted, hb.extra, hb.definitions, hb.defs⟩

theorem tidy_widened {d : Dialect} {ws : List Node} {s s' : Schema} (hs : s.Everywhere (Tidy V))
    (h : widened d ws s = .ok s') : s'.Everywhere (Tidy V) := by
  unfold widened at h
  split at h
  · cases d with
    | plain => exact tidy_plainNullable hP hs h
    | openapi =>
      cases h
      exact tidy_openapiNullable hP hs
  · cases h
    exact hs

end Null

/-! ## Nodes -/

section Nodes

variable {cx : Context} {n : Node} {s : Schema} {ss : List Schema}

/-- a level above others that has no properties -/
theorem tidy_above {b : Body} (hl : ∀ t ∈ links b.own, V.link t) (ht : ∀ t ∈ plainTexts b.own, V.text t) (hx : ∀ e ∈ b.own.extra, V.extra e.1)
    (hp : b.properties = none) (hd : b.definitions = []) (hd' : b.defs = [])
    (hbelow : ∀ s ∈ b.below, s.Everywhere (Tidy V)) : (ofBody b).Everywhere (Tidy V) :=
  everywhere_ofBody.2 ⟨⟨hl, ht, by simp [hp], by rw [hp]; exact .nil, hx, hd, hd'⟩, hbelow⟩

attribute [local simp] Schema.mem_below Schema.Extent.toList Schema.Items.toList Schema.Beyond.ofExtent
  Schema.Beyond.toList Schema.Elements.ofItems Schema.Elements.toList

/-- the texts of the few keywords that most nodes set -/
theorem texts_typed (hP : ∀ t ∈ vocabulary, P t) {t : String} (ht : t ∈ vocabulary) {k : Keywords}
    (hk : plainTexts k ⊆ ["", t]) : ∀ t ∈ plainTexts k, P t := by
  intro w hw
  have := hk hw
  simp only [List.mem_cons, List.not_mem_nil, or_false] at this
  rcases this with rfl | rfl
  · exact hP "" (by decide)
  · exact hP w ht

theorem tidy_reference {r : String} (hempty : V.text "") (hr : V.link r) : (Schema.reference r).Everywhere (Tidy V) := by
  refine everywhere_ofKeywords.2 (tidy_own (by simpa [links] using hr) (fun t ht => ?_) (by simp))
  obtain rfl : t = "" := by simpa [plainTexts, Schema.Keywords.relink, Schema.Keywords.texts, Schema.Keywords.values] using ht
  exact hempty

theorem tidy_number (hP : V.Words) {d : Dialect} {type : String} (ht : type ∈ vocabulary) (o : NumberOptions) :
    (numberSchema d type o).Everywhere (Tidy V) := by
  refine everywhere_ofKeywords.2 (tidy_own (links_none ?_ ?_ hP.link) (texts_typed hP.texts ht ?_) ?_)
  · cases d <;> rfl
  · cases d <;> rfl
  · rcases o with ⟨_, _, _ | _, _ | _, _⟩ <;> cases d <;>
      simp [typed, plainTexts, Schema.Keywords.relink, Schema.Keywords.texts, Schema.Keywords.values, texts_string, texts_bool, texts_float]
  · cases d <;> simp [typed]

theorem tidy_null (hP : V.Words) (d : Dialect) : (nullSchema d).Everywhere (Tidy V) := by
  cases d with
  | plain => exact tidy_nullBranch hP
  | openapi =>
    exact everywhere_ofKeywords.2 (tidy_own (links_none rfl rfl hP.link) (texts_typed hP.texts (t := "string") (by decide)
      (by simp [plainTexts, Schema.Keywords.relink, Schema.Keywords.texts, Schema.Keywords.values, texts_string, texts_null])) (by simp))

theorem texts_literalType {s : String} (hs : s ∈ vocabulary) (vs : List Value) :
    literalType s vs ∈ vocabulary := by
  induction vs generalizing s with
  | nil => exact hs
  | cons v vs ih =>
    rw [literalType]
    split
    · exact ih hs
    · decide
    · rename_i t ht
      have ht : t ∈ vocabulary := by
        unfold literalTypeOf at ht
        have hnumber (x : Float) : numberType x ∈ vocabulary := by
          unfold numberType
          split <;> decide
        split at ht <;> cases ht <;> first | decide | exact hnumber _
      split
      · exact ih ht
      · split
        · exact ih (by decide)
        · decide

theorem tidy_tuple (hP : V.Words) {d : Dialect} {k : Nat} {rest : Option Schema}
    (hss : ∀ s ∈ ss, s.Everywhere (Tidy V)) (hrest : ∀ s ∈ rest, s.Everywhere (Tidy V)) :
    (tupleSchema d k ss rest).Everywhere (Tidy V) := by
  have hown : ∀ t ∈ plainTexts { typed "array" with
      minItems := if k > 0 then some (k : Int) else none
      maxItems := if rest.isNone then some (ss.length : Int) else none }, V.text t :=
    texts_typed hP.texts (t := "array") (by decide)
      (by simp [typed, plainTexts, Schema.Keywords.relink, Schema.Keywords.texts, Schema.Keywords.values, texts_string])
  cases d with
  | plain =>
    refine tidy_above (links_none rfl rfl hP.link) hown (by simp [typed]) rfl rfl rfl ?_
    cases rest with
    | none => simpa using ⟨.absent, hss⟩
    | some r =>
      refine fun T hT => ?_
      obtain rfl | hT | rfl : T = .absent ∨ T ∈ ss ∨ T = r := by simpa using hT
      · exact .absent
      · exact hss T hT
      · exact hrest T rfl
  | openapi =>
    have hany : (ofBody { anyOf := some (ss ++ rest.toList) }).Everywhere (Tidy V) := by
      refine tidy_above (links_none rfl rfl hP.link) (texts_typed hP.texts (t := "") (by decide) (by simp [plainTexts, Schema.Keywords.relink, Schema.Keywords.texts, Schema.Keywords.values]))
        (by simp) rfl rfl rfl fun T hT => ?_
      obtain rfl | hT | hT : T = .absent ∨ T ∈ ss ∨ rest = some T := by simpa using hT
      · exact .absent
      · exact hss T hT
      · exact hrest T hT
    refine tidy_above (links_none rfl rfl hP.link) hown (by simp [typed]) rfl rfl rfl ?_
    simpa using ⟨.absent, hany⟩

theorem texts_withType {vs : List Value} (hvs : ∀ v ∈ vs, ∀ t ∈ v.texts, P t) (hP : ∀ t ∈ vocabulary, P t) {type : String}
    (ht : type ∈ vocabulary) : ∀ t ∈ plainTexts (withType { enum := some vs } type), P t := by
  have hbase : ∀ t ∈ plainTexts {}, P t :=
    texts_typed hP (t := "") (by decide) (by simp [plainTexts, Schema.Keywords.relink, Schema.Keywords.texts, Schema.Keywords.values])
  unfold withType
  split
  · exact texts_values hbase (by simpa using hvs)
  · refine texts_values hbase ?_
    rintro v hv t htext
    obtain rfl | hv : v = .string type ∨ v ∈ vs := by simpa using hv
    · obtain rfl := List.mem_singleton.1 htext
      exact hP _ ht
    · exact hvs v hv t htext

theorem tidy_enum (hP : V.Words) {d : Dialect} (hvs : ∀ v ∈ n.enumValues, ∀ t ∈ v.texts, V.text t)
    (h : enumSchema d n = .ok s) : s.Everywhere (Tidy V) := by
  have hk := texts_withType hvs hP.texts (texts_literalType (s := "") (by decide) n.enumValues)
  have hlinks (k : Keywords) (h : links k = [""]) : ∀ t ∈ links k, V.link t := by simp [h, hP.link]
  have hnone : links (withType { enum := some n.enumValues } (literalType "" n.enumValues)) = [""] := by
    unfold withType
    split <;> rfl
  have hextra : (withType { enum := some n.enumValues } (literalType "" n.enumValues)).extra = [] := by
    unfold withType
    split <;> rfl
  unfold enumSchema at h
  simp only at h
  split at h
  · cases h
  · split at h
    · cases h
      exact tidy_null hP .openapi
    · cases h
      refine everywhere_ofKeywords.2 ?_
      split
      · cases d with
        | openapi => exact tidy_own (hlinks _ hnone) hk (by simp [hextra])
        | plain =>
          refine tidy_own (hlinks _ hnone) (texts_values hk fun v hv => ?_) (by simp [hextra])
          rw [List.append_assoc, List.mem_append] at hv
          rcases hv with hv | hv
          · exact texts_widen hP (fun w hw => texts_value hk (by simp [hw])) v hv
          · exact texts_value hk (by rw [List.append_assoc]; exact List.mem_append_right _ hv)
      · exact tidy_own (hlinks _ hnone) hk (by simp [hextra])

theorem tidy_const (hP : V.Words) {d : Dialect} {v : Value} (hv : ∀ t ∈ v.texts, V.text t) :
    (constSchema d v).Everywhere (Tidy V) := by
  cases d with
  | plain =>
    refine everywhere_ofKeywords.2 (tidy_own (links_none rfl rfl hP.link) (fun t ht => ?_) (by simp))
    obtain rfl | ht : t = "" ∨ t ∈ v.texts := by simpa [plainTexts, Schema.Keywords.relink, Schema.Keywords.texts, Schema.Keywords.values] using ht
    · exact hP.texts _ (by decide)
    · exact hv t ht
  | openapi =>
    unfold constSchema
    simp only
    split
    · exact tidy_null hP .openapi
    · refine everywhere_ofKeywords.2 (tidy_own (links_none ?_ ?_ hP.link) (texts_withType (by simpa using hv) hP.texts
        (texts_literalType (s := "") (by decide) [v])) ?_)
      all_goals
        unfold withType
        split <;> simp

/-- tags of variants are displayed constants of the graph -/
theorem unwrap_mem {g : Graph} {id : Nat} {n : Node} (h : g.unwrap id = some n) : ∃ i, g.get? i = some n := by
  have key (acc : List Node) (fuel : Nat) (id : Option Nat) (h : (g.chainFrom acc fuel id).2 = some n) :
      ∃ i, g.get? i = some n := by
    induction fuel generalizing acc id with
    | zero => cases h
    | succ fuel ih =>
      rw [Graph.chainFrom] at h
      cases hm : id.bind g.get? with
      | none => rw [hm] at h; cases h
      | some m =>
        rw [hm] at h
        simp only at h
        split at h
        · cases h
          obtain ⟨i, -, hi⟩ := Option.bind_eq_some_iff.1 hm
          exact ⟨i, hi⟩
        · split at h
          · split at h
            · cases h
            · exact ih _ _ h
          · cases h
  exact key _ _ _ h

theorem constantText_mem {tag : String} (h : constantText n = some tag) :
    ∃ v ∈ n.constValue :: n.enumValues, tag = v.display := by
  unfold constantText at h
  split at h
  · exact ⟨_, List.mem_cons_self, (Option.some.inj h).symm⟩
  · split at h
    · rename_i hv
      exact ⟨_, by simp [hv], (Option.some.inj h).symm⟩
    · cases h
  · cases h

theorem discriminatorValue_mem {g : Graph} {id : Nat} {prop tag : String} (h : discriminatorValue g id prop = some tag) :
    ∃ i n, g.get? i = some n ∧ ∃ v ∈ n.constValue :: n.enumValues, tag = v.display := by
  have key (fs : List (String × Nat)) (h : constantIn g prop fs = some tag) :
      ∃ i n, g.get? i = some n ∧ ∃ v ∈ n.constValue :: n.enumValues, tag = v.display := by
    induction fs with
    | nil => cases h
    | cons f fs ih =>
      rw [constantIn] at h
      split at h
      · exact ih h
      · split at h
        · cases h
        · rename_i m hm
          obtain ⟨i, hi⟩ := unwrap_mem hm
          cases ht : constantText m with
          | none =>
            rw [ht] at h
            exact ih h
          | some t =>
            rw [ht] at h
            cases h
            exact ⟨i, m, hi, constantText_mem ht⟩
  unfold discriminatorValue at h
  split at h
  · split at h
    · exact key _ h
    · cases h
  · cases h

/-- the discriminator of a union: its property, and a mapping from tags to the references of variants -/
theorem discriminatorOf_mem {prop : String} {i : Nat} {mapping : Dict String} {variants : List (Nat × Schema)}
    {disc : Discriminator} (h : discriminatorOf cx n prop i mapping variants = .ok disc) :
    disc.propertyName = prop ∧ ∀ e ∈ disc.mapping, e ∈ mapping ∨
      ∃ v ∈ variants, discriminatorValue cx.graph v.1 prop = some e.1 ∧ e.2 = v.2.own.ref := by
  induction variants generalizing i mapping with
  | nil =>
    cases h
    exact ⟨rfl, fun e he => .inl he⟩
  | cons v variants ih =>
    rw [discriminatorOf] at h
    cases hv : discriminatorValue cx.graph v.1 prop with
    | none => rw [hv] at h; cases h
    | some tag =>
      rw [hv] at h
      obtain ⟨hprop, hmap⟩ := ih h
      refine ⟨hprop, fun e he => ?_⟩
      rcases hmap e he with he | ⟨w, hw, he⟩
      · split at he
        · rcases Dict.mem_insert he with rfl | he
          · exact .inr ⟨v, by simp, hv, rfl⟩
          · exact .inl he
        · exact .inl he
      · exact .inr ⟨w, List.mem_cons_of_mem v hw, he⟩

/-- the reference of a schema is one of its texts -/
theorem Tidy.ref (hP : V.link "") (hs : s.Everywhere (Tidy V)) : V.link s.own.ref := by
  obtain rfl | ⟨b, rfl⟩ := Schema.eq_absent_or_ofBody s
  · exact hP
  · exact (everywhere_ofBody.1 hs).1.links _ List.mem_cons_self

theorem forms_tidy (hg : Speaks cx.graph V) {O : List Nat} (hO : ∀ t ∈ O, V.link (pointer t)) {R : Nat → Schema → Prop}
    (hn : cx.graph.get? n.id = some n) (hk : n.kind ≠ .custom) (hR : ∀ c T, R c T → T.Everywhere (Tidy V))
    (h : Forms cx O R n s) : s.Everywhere (Tidy V) := by
  have hP := hg.words
  have hempty : V.text "" := hP.texts _ (by decide)
  have htexts := hg.texts _ _ hn
  have hall {cs : List Nat} {ss : List Schema} (hss : List.Forall₂ R cs ss) : ∀ T ∈ ss, T.Everywhere (Tidy V) := by
    intro T hT
    obtain ⟨c, -, hc⟩ := exists_of_forall₂ hss hT
    exact hR c T hc
  have hvalues {v : Value} (hv : v ∈ n.constValue :: n.enumValues) : ∀ t ∈ v.texts, V.text t := fun t ht =>
    htexts t (List.mem_append_right _ (List.mem_flatMap.2 ⟨v, hv, ht⟩))
  cases h with
  | string hk =>
    refine everywhere_ofKeywords.2 (tidy_own (links_none rfl rfl hP.link) (fun t ht => ?_) (by simp [typed]))
    obtain rfl | rfl | rfl | rfl : t = "" ∨ t = n.textOptions.format ∨ t = n.textOptions.pattern ∨ t = "string" := by
      simpa [typed, plainTexts, Schema.Keywords.relink, Schema.Keywords.texts, Schema.Keywords.values, texts_string] using ht
    · exact hempty
    · exact htexts _ (by simp [Node.ownTexts])
    · exact htexts _ (by simp [Node.ownTexts])
    · exact hP.texts _ (by decide)
  | number hk => exact tidy_number hP (by decide) _
  | integer hk => exact tidy_number hP (by decide) _
  | boolean hk =>
    exact everywhere_ofKeywords.2 (tidy_own (links_none rfl rfl hP.link) (texts_typed hP.texts (t := "boolean") (by decide)
      (by simp [typed, plainTexts, Schema.Keywords.relink, Schema.Keywords.texts, Schema.Keywords.values, texts_string])) (by simp [typed]))
  | null hk => exact tidy_null hP _
  | unknown hk =>
    exact everywhere_ofKeywords.2 (tidy_own (links_none rfl rfl hP.link) (by simpa [plainTexts, Schema.Keywords.relink, Schema.Keywords.texts, Schema.Keywords.values] using hempty) (by simp))
  | @object fs hk hlen hfs =>
    have hkey {e : String × Schema} (he : e ∈ fs) : e.1 ∈ n.objectOptions.keys ∧ ∃ c, R c e.2 := by
      obtain ⟨f, hf, hname, hR⟩ := exists_of_forall₂ hfs he
      exact ⟨hname ▸ (List.of_mem_zip hf).1, f.2, hR⟩
    have hname {key : String} (h : key ∈ n.objectOptions.keys) : V.text key := htexts _ (by simp [Node.ownTexts, h])
    refine everywhere_ofBody.2 ⟨⟨links_none rfl rfl hP.link, fun t ht => ?_, fun e he => ?_, Dict.sorted_ofList fs, by simp [typed], rfl, rfl⟩, ?_⟩
    · obtain rfl | ht | rfl : t = "" ∨ t ∈ sortStrings (requiredKeys cx.graph (n.objectOptions.keys.zip n.children)) ∨
          t = "object" := by
        simpa [typed, plainTexts, Schema.Keywords.relink, Schema.Keywords.texts, Schema.Keywords.values, texts_string] using ht
      · exact hempty
      · rw [sortStrings, List.mem_mergeSort, requiredKeys] at ht
        obtain ⟨f, hf, rfl⟩ := List.mem_map.1 ht
        exact hname (List.of_mem_zip (List.mem_filter.1 hf).1).1
      · exact hP.texts _ (by decide)
    · have hkeys := (hkey (Dict.mem_ofList he)).1
      exact hname hkeys
    · intro T hT
      obtain ⟨key, hT⟩ | rfl : (∃ key, (key, T) ∈ Dict.ofList fs) ∨ T = .absent := by simpa using hT
      · obtain ⟨-, c, hc⟩ := hkey (Dict.mem_ofList hT)
        exact hR c _ hc
      · exact .absent
  | array hk hc hs =>
    refine tidy_above (links_none rfl rfl hP.link) (texts_typed hP.texts (t := "array") (by decide) (by simp [typed, plainTexts, Schema.Keywords.relink, Schema.Keywords.texts, Schema.Keywords.values, texts_string])) (by simp [typed]) rfl rfl rfl ?_
    simpa using ⟨.absent, hR _ _ hs⟩
  | @tuple ss hk hss hrest =>
    have hall := hall hss
    unfold restSchema
    split
    · refine tidy_tuple hP (fun T hT => hall T (List.mem_of_mem_dropLast hT)) fun T hT => hall T ?_
      exact List.mem_of_getLast? hT
    · exact tidy_tuple hP hall (by simp)
  | @record c T hk hc hs =>
    have hpattern : V.text n.keyPattern := htexts _ (by simp [Node.ownTexts])
    refine tidy_above (links_none rfl rfl hP.link) (fun t ht => ?_) (fun e he => ?_) rfl rfl rfl fun U hU => ?_
    · have : t = "" ∨ t = "object" ∨ t = "x-key-pattern" ∨ t = n.keyPattern := by
        simp only [plainTexts, Schema.Keywords.relink, Schema.Keywords.texts, Schema.Keywords.values, typed] at ht
        split at ht <;> simp [texts_string] at ht <;> tauto
      rcases this with rfl | rfl | rfl | rfl
      · exact hempty
      · exact hP.texts _ (by decide)
      · exact hP.texts _ (by decide)
      · exact hpattern
    · simp only at he
      split at he
      · obtain rfl := List.mem_singleton.1 he
        exact hg.own.2
      · cases he
    · obtain rfl | rfl | rfl : U = T ∨ U = .absent ∨ U = ofKeywords { pattern := n.keyPattern } := by
        simp only [Schema.mem_below] at hU
        split at hU <;> simp at hU <;> tauto
      · exact hR c _ hs
      · exact .absent
      · refine everywhere_ofKeywords.2 (tidy_own (links_none rfl rfl hP.link) (fun t ht => ?_) (by simp))
        obtain rfl | rfl : t = "" ∨ t = n.keyPattern := by
          simpa [plainTexts, Schema.Keywords.relink, Schema.Keywords.texts, Schema.Keywords.values] using ht
        · exact hempty
        · exact hpattern
  | union hk hd hss =>
    refine tidy_above (links_none rfl rfl hP.link) (by simpa [plainTexts, Schema.Keywords.relink, Schema.Keywords.texts, Schema.Keywords.values] using hempty) (by simp) rfl rfl rfl ?_
    simpa using ⟨.absent, hall hss⟩
  | @choice ss disc hk hd hss hdisc =>
    obtain ⟨hprop, hmap⟩ := discriminatorOf_mem hdisc
    have hmem {e : String × String} (he : e ∈ disc.mapping) : V.text e.1 ∧ V.link e.2 := by
      obtain he | ⟨v, hv, htag, href⟩ := hmap e he
      · cases he
      · obtain ⟨i, m, hm, w, hw, htag⟩ := discriminatorValue_mem htag
        rw [href, htag]
        exact ⟨hg.tags ⟨_, n, hn, hk, hd⟩ i m hm w hw, Tidy.ref hP.link (hall hss _ (List.of_mem_zip hv).2)⟩
    refine tidy_above (fun t ht => ?_) (fun t ht => ?_) (by simp) rfl rfl rfl (by simpa using ⟨.absent, hall hss⟩)
    · obtain rfl | ⟨key, he⟩ : t = "" ∨ ∃ key, (key, t) ∈ disc.mapping := by simpa [links] using ht
      · exact hP.link
      · exact (hmem he).2
    · obtain rfl | rfl | ⟨key, target, he, rfl | rfl⟩ : t = "" ∨ t = disc.propertyName ∨
          ∃ key target, (key, target) ∈ disc.mapping ∧ (t = key ∨ t = "") := by
        simpa [plainTexts, Schema.Keywords.relink, Schema.Discriminator.relink, Schema.Keywords.texts, Schema.Keywords.values] using ht
      · exact hempty
      · rw [hprop]
        exact htexts _ (by simp [Node.ownTexts])
      · exact (hmem he).1
      · exact hempty
  | intersection hk hss =>
    refine tidy_above (links_none rfl rfl hP.link) (by simpa [plainTexts, Schema.Keywords.relink, Schema.Keywords.texts, Schema.Keywords.values] using hempty) (by simp) rfl rfl rfl ?_
    simpa using ⟨.absent, hall hss⟩
  | enum hk hs => exact tidy_enum hP (fun v hv => hvalues (List.mem_cons_of_mem _ hv)) hs
  | const hk => exact tidy_const hP (hvalues List.mem_cons_self)
  | self hk hc ht => exact tidy_reference hempty hg.root
  | definition hk hc ht ho => exact tidy_reference hempty (hO _ ho)
  | validator hk hc hs => exact hR _ _ hs
  | custom hk' hs => exact absurd hk' hk

/-! ## Documents -/

theorem tidy_annotated (hg : Speaks cx.graph V) {ns : List Node} (hns : ∀ m ∈ ns, ∃ id, cx.graph.get? id = some m)
    {d : Dialect} (hs : s.Everywhere (Tidy V)) : (annotated d ns s).Everywhere (Tidy V) := by
  induction ns generalizing s with
  | nil => exact hs
  | cons m ns ih =>
    obtain ⟨id, hm⟩ := hns m (by simp)
    refine ih (fun k hk => hns k (List.mem_cons_of_mem m hk)) ?_
    refine tidy_annotate (hg.words.texts _ (by decide)) (fun t ht => hg.texts id m hm t ?_) hg.own.1 (hg.extensions id m hm) hs
    simp [Node.ownTexts, ht]

theorem localChain_nodes {g : Graph} {id : Nat} {ws : List Node} {last : Node} (h : g.localChain id = (ws, some last)) :
    ∀ m ∈ ws ++ [last], ∃ i, g.get? i = some m := by
  induction ws generalizing id with
  | nil =>
    obtain ⟨n, hn, ⟨-, -, rfl⟩ | ⟨c, ws', -, -, -, hws, -⟩⟩ := localChain_cases h
    · simpa using ⟨id, hn⟩
    · cases hws
  | cons w ws ih =>
    obtain ⟨n, hn, ⟨-, hws, -⟩ | ⟨c, ws', -, -, -, hws, hchain⟩⟩ := localChain_cases h
    · cases hws
    · cases hws
      intro m hm
      rcases List.mem_cons.1 hm with rfl | hm
      · exact ⟨id, hn⟩
      · exact ih hchain m hm

/-- **Levels of a rendering.** -/
theorem Renders.tidy (hnum : cx.graph.Numbered) (hc : NoCustom cx.graph) (hg : Speaks cx.graph V) {O : List Nat}
    (hO : ∀ t ∈ O, V.link (pointer t)) {d id : Nat} (h : Renders cx O d id s) : s.Everywhere (Tidy V) := by
  induction d generalizing id s with
  | zero => exact h.elim
  | succ d ih =>
    obtain ⟨hchain, hnode, hwide⟩ := h
    have hmem := localChainFrom_mem hnum hchain
    have hforms := forms_tidy hg hO hmem (hc _ _ hmem) (fun c T hT => ih hT) hnode
    exact tidy_annotated hg (localChain_nodes hchain) (tidy_widened hg.words hforms hwide)

theorem Heads.tidy (hnum : cx.graph.Numbered) (hc : NoCustom cx.graph) (hg : Speaks cx.graph V) {O : List Nat}
    (hO : ∀ t ∈ O, V.link (pointer t)) {hoist : Option Nat} {id : Nat} (h : Heads cx O hoist id s) :
    s.Everywhere (Tidy V) := by
  induction h with
  | whole h => exact h.tidy hnum hc hg hO
  | hoisted hb chain _ wide =>
    exact tidy_annotated hg (localChain_nodes chain) (tidy_widened hg.words
      (tidy_reference (hg.words.texts _ (by decide)) (hO _ hb)) wide)
  | under chain _ _ _ wide ih => exact tidy_annotated hg (localChain_nodes chain) (tidy_widened hg.words ih wide)

/-! ## Definitions -/

/-- the body of a definition -/
def bodyOf (st : State) (t : Nat) : Schema := ((st.bodies.find? (·.1 == t)).map (·.2)).getD .empty

/-- the definitions of a document -/
def entries (st : State) : List (String × Schema) :=
  Dict.ofList (st.order.map fun t => (Placeholder.text ⟨t, symbolAttr⟩, bodyOf st t))

/-- one level of a document: that of a rendering, and the definitions `D` or none -/
structure Laid (V : Diction) (D : List (String × Schema)) (b : Body) : Prop where
  tidy : Tidy V { b with definitions := [] }
  definitions : b.definitions = [] ∨ b.definitions = D

theorem Tidy.laid {D : List (String × Schema)} {b : Body} (h : Tidy V b) : Laid V D b :=
  ⟨⟨h.links, h.texts, h.keys, h.sorted, h.extra, rfl, h.defs⟩, .inl h.definitions⟩

theorem widened_isAbsent {d : Dialect} {ws : List Node} {s' : Schema} (h : widened d ws s = .ok s')
    (hs : s.isAbsent = false) : s'.isAbsent = false := by
  obtain rfl | ⟨b, rfl⟩ := Schema.eq_absent_or_ofBody s
  · cases hs
  · unfold widened at h
    split at h
    · cases d with
      | openapi =>
        cases h
        unfold openapiNullable
        split <;> rfl
      | plain =>
        change plainNullable (ofBody b) = Except.ok s' at h
        unfold plainNullable at h
        simp only at h
        split at h
        · cases h; rfl
        · split at h
          · cases h; rfl
          · cases h; rfl
          · cases h; rfl
          · split at h
            · cases h; rfl
            · obtain ⟨ss, -, h⟩ := except_bind_ok h
              cases h; rfl
            · obtain ⟨ss, -, h⟩ := except_bind_ok h
              cases h; rfl
            · cases h; rfl
            · cases h; rfl
    · cases h
      exact hs

theorem annotated_isAbsent {d : Dialect} (ns : List Node) : (annotated d ns s).isAbsent = s.isAbsent := by
  induction ns generalizing s with
  | nil => rfl
  | cons n ns ih =>
    refine (ih (s := annotate d n.info s)).trans ?_
    cases s <;> rfl

theorem forms_isAbsent {O : List Nat} {R : Nat → Schema → Prop} (hk : n.kind ≠ .custom)
    (hR : ∀ c T, R c T → T.isAbsent = false) (h : Forms cx O R n s) : s.isAbsent = false := by
  cases h with
  | validator _ _ hs => exact hR _ _ hs
  | custom hk' _ => exact absurd hk' hk
  | tuple =>
    have htuple (d : Dialect) (k : Nat) (ss : List Schema) (rest : Option Schema) :
        (tupleSchema d k ss rest).isAbsent = false := by cases d <;> rfl
    unfold restSchema
    split <;> exact htuple _ _ _ _
  | null =>
    cases hd : cx.options.dialect <;> rfl
  | enum _ hs =>
    unfold enumSchema at hs
    simp only at hs
    split at hs
    · cases hs
    · split at hs <;> cases hs <;> rfl
  | const =>
    unfold constSchema
    split
    · rfl
    · split <;> rfl
  | _ => rfl

/-- a rendering is never missing -/
theorem Renders.isAbsent (hnum : cx.graph.Numbered) (hc : NoCustom cx.graph) {O : List Nat} {d id : Nat}
    (h : Renders cx O d id s) : s.isAbsent = false := by
  induction d generalizing id s with
  | zero => exact h.elim
  | succ d ih =>
    obtain ⟨hchain, hnode, hwide⟩ := h
    have hmem := localChainFrom_mem hnum hchain
    rw [annotated_isAbsent]
    exact widened_isAbsent hwide (forms_isAbsent (hc _ _ hmem) (fun c T hT => ih hT) hnode)

theorem Heads.isAbsent (hnum : cx.graph.Numbered) (hc : NoCustom cx.graph) {O : List Nat} {hoist : Option Nat} {id : Nat}
    (h : Heads cx O hoist id s) : s.isAbsent = false := by
  induction h with
  | whole h => exact h.isAbsent hnum hc
  | hoisted _ _ _ wide =>
    rw [annotated_isAbsent]
    exact widened_isAbsent wide rfl
  | under _ _ _ _ wide ih =>
    rw [annotated_isAbsent]
    exact widened_isAbsent wide ih

theorem Outline.body_rendered {hoist : Option Nat} {root : Nat} {head : Schema} {st : State}
    (h : Outline cx hoist root head st) {t : Nat} (ht : t ∈ st.order) :
    (t, bodyOf st t) ∈ st.bodies ∧ ∃ d, Renders cx st.order d t (bodyOf st t) := by
  obtain ⟨e, he, rfl⟩ := List.mem_map.1 (h.keys.mem_iff.2 ht)
  cases hf : st.bodies.find? (·.1 == e.1) with
  | none => exact absurd (List.find?_eq_none.1 hf e he) (by simp)
  | some f =>
    have hmem := List.mem_of_find?_eq_some hf
    have hid : f.1 = e.1 := by simpa using List.find?_some hf
    have hbody : bodyOf st e.1 = f.2 := by
      rw [bodyOf, hf]
      rfl
    rw [hbody, ← hid]
    exact ⟨hmem, h.rendered f hmem⟩

theorem Outline.mem_entries {hoist : Option Nat} {root : Nat} {head : Schema} {st : State}
    (h : Outline cx hoist root head st) {e : String × Schema} (he : e ∈ entries st) :
    ∃ t ∈ st.order, ∃ d, e.1 = Placeholder.text ⟨t, symbolAttr⟩ ∧ Renders cx st.order d t e.2 := by
  obtain ⟨t, ht, rfl⟩ := List.mem_map.1 (Dict.mem_ofList he)
  obtain ⟨-, d, hd⟩ := h.body_rendered ht
  exact ⟨t, ht, d, rfl, hd⟩

/-- **Levels of a document.** The root of a document has the definitions; all else is as in renderings. -/
theorem Outline.top (hnum : cx.graph.Numbered) (hc : NoCustom cx.graph) (hg : Speaks cx.graph V) {hoist : Option Nat}
    {root : Nat} {head : Schema} {st : State} (hO : ∀ t ∈ st.order, V.link (pointer t)) (h : Outline cx hoist root head st)
    (o : Options) : ∃ B, (assemble o st head).root = ofBody B ∧ B.definitions = entries st ∧
      Tidy V { B with definitions := [] } ∧ ∀ s ∈ B.below, s.Everywhere (Tidy V) := by
  have hentries : ∀ e ∈ entries st, e.2.Everywhere (Tidy V) := by
    intro e he
    obtain ⟨t, -, d, -, hd⟩ := h.mem_entries he
    exact hd.tidy hnum hc hg hO
  -- the definitions go into the head, or into a level around it
  have hjoin {b : Body} (hb : (ofBody b).Everywhere (Tidy V)) :
      Tidy V { b with definitions := [] } ∧ ∀ s ∈ Body.below { b with definitions := entries st }, s.Everywhere (Tidy V) := by
    obtain ⟨level, below⟩ := everywhere_ofBody.1 hb
    refine ⟨⟨level.links, level.texts, level.keys, level.sorted, level.extra, rfl, level.defs⟩, fun s hs => ?_⟩
    have hold := below s
    simp only [Schema.mem_below] at hs hold
    by_cases hd : s ∈ (entries st).map (·.2)
    · obtain ⟨e, he, rfl⟩ := List.mem_map.1 hd
      exact hentries e he
    · exact hold (by grind)
  have hhead : head.Everywhere (Tidy V) := h.heads.tidy hnum hc hg hO
  have hpresent := h.heads.isAbsent hnum hc
  obtain rfl | ⟨b, rfl⟩ := Schema.eq_absent_or_ofBody head
  · cases hpresent
  obtain ⟨B, hB, hdefs, hlevel, hbelow⟩ : ∃ B, (if st.order.isEmpty then ofBody b else ofBody {
      (if (ofBody b).own.ref ≠ "" then ofBody { allOf := some [ofBody b] } else ofBody b).body with
        definitions := entries st }) = ofBody B ∧ B.definitions = entries st ∧ Tidy V { B with definitions := [] } ∧
        ∀ s ∈ B.below, s.Everywhere (Tidy V) := by
    split
    · rename_i hempty
      have hnone : b.definitions = [] := (everywhere_ofBody.1 hhead).1.definitions
      have hentries : entries st = [] := by
        rw [entries, List.isEmpty_iff.1 hempty]
        rfl
      refine ⟨b, rfl, hnone.trans hentries.symm, ?_⟩
      have := hjoin hhead
      rw [hentries, ← hnone] at this
      rwa [← hnone]
    · split
      · have hwrapped : (ofBody { allOf := some [ofBody b] }).Everywhere (Tidy V) := by
          refine tidy_above (links_none rfl rfl hg.words.link) (texts_typed hg.words.texts (t := "") (by decide)
            (by simp [plainTexts, Schema.Keywords.relink, Schema.Keywords.texts, Schema.Keywords.values])) (by simp) rfl rfl rfl ?_
          simpa using ⟨.absent, hhead⟩
        exact ⟨_, rfl, rfl, hjoin (b := { allOf := some [ofBody b] }) hwrapped⟩
      · exact ⟨_, rfl, rfl, hjoin (b := b) hhead⟩
  unfold assemble
  simp only
  split
  · refine ⟨{ B with own := { B.own with schemaUri := draftUri } }, ?_, hdefs, ⟨hlevel.links, ?_, hlevel.keys, hlevel.sorted,
      hlevel.extra, rfl, hlevel.defs⟩, hbelow⟩
    · exact (congrArg (fun s : Schema => s.mapOwn fun k => { k with schemaUri := draftUri }) hB).trans (Schema.mapOwn_ofBody B _)
    · intro t ht
      have hold := fun h => hlevel.texts t (mem_plainTexts.2 h)
      rcases mem_plainTexts.1 ht with ht | ht
      · simp only [List.mem_cons, List.not_mem_nil, or_false] at ht hold
        rcases ht with rfl | ht
        · exact hg.words.texts _ (by decide)
        · exact hold (.inl (.inr ht))
      · exact hold (.inr ht)
  · exact ⟨B, hB, hdefs, hlevel, hbelow⟩

theorem Outline.laid (hnum : cx.graph.Numbered) (hc : NoCustom cx.graph) (hg : Speaks cx.graph V) {hoist : Option Nat}
    {root : Nat} {head : Schema} {st : State} (hO : ∀ t ∈ st.order, V.link (pointer t)) (h : Outline cx hoist root head st)
    (o : Options) : (assemble o st head).root.Everywhere (Laid V (entries st)) := by
  obtain ⟨B, hB, hdefs, hlevel, hbelow⟩ := h.top hnum hc hg hO o
  rw [hB, everywhere_ofBody]
  exact ⟨⟨hlevel, .inr hdefs⟩, fun s hs => (hbelow s hs).imp fun b hb => hb.laid⟩

/-- the root of a document holds its definitions -/
theorem Outline.root_body (hnum : cx.graph.Numbered) (hc : NoCustom cx.graph) {hoist : Option Nat} {root : Nat}
    {head : Schema} {st : State} (h : Outline cx hoist root head st) (o : Options) :
    ∃ B, (assemble o st head).root = ofBody B ∧ B.definitions = entries st ∧ B.defs = [] := by
  obtain ⟨B, hB, hdefs, hlevel, -⟩ := h.top hnum hc (speaks_any _) (fun _ _ => trivial) o
  exact ⟨B, hB, hdefs, hlevel.defs⟩

end Nodes

end Document

end Schemata
