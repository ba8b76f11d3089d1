import Mathlib.Tactic
import Schemata.Proofs.Dict
import Schemata.Proofs.Schema.References

/-!
The links of a schema.

A schema refers to others by its references and by the targets of its mappings (`Schema.links`). `Schema.relink g`
changes these and nothing else. A schema whose other texts do not change when it is written, renamed and read again is
the schema that is read without the renaming, relinked (`reread_relink`).
-/

namespace Schemata

namespace Json

mutual

/-- two changes of strings that agree on the strings of a document change it alike -/
theorem mapStrings_congr {f g : String → String} : ∀ {j : Json}, (∀ s ∈ j.strings, f s = g s) → j.mapStrings f = j.mapStrings g
  | .null, _ => rfl
  | .bool _, _ => rfl
  | .number _, _ => rfl
  | .string s, h => by rw [mapStrings, mapStrings, h s (by simp [strings])]
  | .array xs, h => by rw [mapStrings, mapStrings, mapItems_congr h]
  | .object fs, h => by rw [mapStrings, mapStrings, mapMembers_congr h]

theorem mapItems_congr {f g : String → String} : ∀ {xs : List Json}, (∀ s ∈ stringsOf xs, f s = g s) → mapItems f xs = mapItems g xs
  | [], _ => rfl
  | x :: xs, h => by
    simp only [stringsOf, List.mem_append] at h
    rw [mapItems, mapItems, mapStrings_congr fun s hs => h s (.inl hs), mapItems_congr fun s hs => h s (.inr hs)]

theorem mapMembers_congr {f g : String → String} :
    ∀ {fs : List (String × Json)}, (∀ s ∈ stringsIn fs, f s = g s) → mapMembers f fs = mapMembers g fs
  | [], _ => rfl
  | (k, x) :: fs, h => by
    simp only [stringsIn, List.mem_cons, List.mem_append] at h
    rw [mapMembers, mapMembers, h k (.inl rfl), mapStrings_congr fun s hs => h s (.inr (.inl hs)),
      mapMembers_congr fun s hs => h s (.inr (.inr hs))]

end

end Json

theorem Value.reread_congr {f : String → String} {v : Value} (h : ∀ s ∈ v.texts, f s = s) : v.reread f = v.reread id := by
  rw [Value.reread, Value.reread, Json.mapStrings_congr (g := id) h]

namespace Schema

/-! ## Links and other texts -/

section Links

open Schema.Keywords (values)

/-- the texts of keywords that refer to a schema -/
def links (k : Keywords) : List String := k.ref :: (k.discriminator.toList.flatMap fun d => d.mapping.map (·.2))

/-- a mapping with its targets changed -/
def Discriminator.relink (g : String → String) (d : Discriminator) : Discriminator :=
  { d with mapping := d.mapping.map fun e => (e.1, g e.2) }

/-- keywords with their links changed -/
def Keywords.relink (g : String → String) (k : Keywords) : Keywords :=
  { k with ref := g k.ref, discriminator := k.discriminator.map (Discriminator.relink g) }

/-- the texts of keywords that do not refer to a schema -/
def plainTexts (k : Keywords) : List String := Keywords.texts (Keywords.relink (fun _ => "") k)

theorem mem_texts {k : Keywords} {t : String} : t ∈ Keywords.texts k ↔
    t ∈ [k.schemaUri, k.ref, k.title, k.description, k.format, k.pattern] ∨ t ∈ k.required ∨
      (∃ v ∈ values k, t ∈ v.texts) ∨ t ∈ k.extra.map (·.1) ∨ (∃ r ∈ k.rules, t = r.expr ∨ t = r.message) ∨
      ∃ d ∈ k.discriminator, t = d.propertyName ∨ ∃ e ∈ d.mapping, t = e.1 ∨ t = e.2 := by
  simp [Keywords.texts, or_assoc]

theorem mem_plainTexts {k : Keywords} {t : String} : t ∈ plainTexts k ↔
    t ∈ [k.schemaUri, "", k.title, k.description, k.format, k.pattern] ∨ t ∈ k.required ∨
      (∃ v ∈ values k, t ∈ v.texts) ∨ t ∈ k.extra.map (·.1) ∨ (∃ r ∈ k.rules, t = r.expr ∨ t = r.message) ∨
      ∃ d ∈ k.discriminator, t = d.propertyName ∨ ∃ e ∈ d.mapping, t = e.1 ∨ t = "" := by
  rw [plainTexts, mem_texts]
  simp only [Keywords.relink, Discriminator.relink, values, Option.mem_map, exists_exists_and_eq_and, List.mem_map]

/-- a text of keywords refers to a schema or does not -/
theorem links_or_plain {k : Keywords} {t : String} (h : t ∈ Keywords.texts k) : t ∈ links k ∨ t ∈ plainTexts k := by
  have hplain := fun h => mem_plainTexts (k := k) (t := t) |>.2 h
  rcases mem_texts.1 h with h | h | h | h | h | ⟨d, hd, h | ⟨e, he, h | h⟩⟩
  · simp only [List.mem_cons, List.not_mem_nil, or_false] at h hplain
    rcases h with h | h | h | h | h | h
    · exact .inr (hplain (.inl (.inl h)))
    · exact .inl (by simp [links, h])
    · exact .inr (hplain (.inl (.inr (.inr (.inl h)))))
    · exact .inr (hplain (.inl (.inr (.inr (.inr (.inl h))))))
    · exact .inr (hplain (.inl (.inr (.inr (.inr (.inr (.inl h)))))))
    · exact .inr (hplain (.inl (.inr (.inr (.inr (.inr (.inr h)))))))
  · exact .inr (hplain (.inr (.inl h)))
  · exact .inr (hplain (.inr (.inr (.inl h))))
  · exact .inr (hplain (.inr (.inr (.inr (.inl h)))))
  · exact .inr (hplain (.inr (.inr (.inr (.inr (.inl h))))))
  · exact .inr (hplain (.inr (.inr (.inr (.inr (.inr ⟨d, hd, .inl h⟩))))))
  · exact .inr (hplain (.inr (.inr (.inr (.inr (.inr ⟨d, hd, .inr ⟨e, he, .inl h⟩⟩))))))
  · exact .inl (List.mem_cons_of_mem _ (List.mem_flatMap.2 ⟨d, by simpa using hd, List.mem_map.2 ⟨e, he, h.symm⟩⟩))

end Links

/-! ## Other links -/

def Extent.ofBeyond : Beyond Schema → Extent
  | .unset => .unset
  | .flag b => .flag b
  | .sub s => .sub s

def Items.ofElements : Elements Schema → Items
  | .unset => .unset
  | .single s => .single s
  | .tuple ss => .tuple ss

/-- one level with its links changed, and without definitions -/
def Parts.relink (g : String → String) (p : Parts Schema) : Body where
  own := Keywords.relink g p.own
  properties := p.properties
  additional := Extent.ofBeyond p.additional
  propertyNames := p.propertyNames
  items := Items.ofElements p.items
  additionalItems := Extent.ofBeyond p.additionalItems
  anyOf := p.anyOf
  oneOf := p.oneOf
  allOf := p.allOf
  definitions := []
  defs := []

/-- the schema with all its links changed, and without definitions -/
def relink (g : String → String) : Schema → Schema := fold .absent fun p => ofBody (p.relink g)

variable {g : String → String}

theorem relink_ofBody (b : Body) : (ofBody b).relink g = ofBody ((b.parts (relink g)).relink g) := fold_ofBody _ _ b

@[simp] theorem relink_absent : Schema.absent.relink g = .absent := rfl

theorem relink_empty (hg : g "" = "") : Schema.empty.relink g = .empty := by
  change (ofBody {}).relink g = ofBody {}
  rw [relink_ofBody]
  simp [Parts.relink, Body.parts, Keywords.relink, hg, Beyond.ofExtent, Elements.ofItems, Extent.ofBeyond, Items.ofElements]

theorem isAbsent_relink (s : Schema) : (s.relink g).isAbsent = s.isAbsent := by
  obtain rfl | ⟨b, rfl⟩ := eq_absent_or_ofBody s
  · rfl
  · rw [relink_ofBody]
    rfl

/-- the schema without the definitions at its top -/
def bare (s : Schema) : Schema :=
  match s.body? with
  | none => .absent
  | some b => ofBody { b with definitions := [], defs := [] }

theorem bare_ofBody (b : Body) : (ofBody b).bare = ofBody { b with definitions := [], defs := [] } := rfl

@[simp] theorem bare_absent : Schema.absent.bare = .absent := rfl

/-! ## Reading with other links -/

/-- the texts of a level other than links stay as they are -/
structure Settled (g : String → String) (b : Body) : Prop where
  texts : ∀ t ∈ plainTexts b.own, g t = t
  keys : ∀ e ∈ b.properties.getD [], g e.1 = e.1

theorem Settled.own {b : Body} (h : Settled g b) : Keywords.reread g b.own = Keywords.relink g (Keywords.reread id b.own) := by
  have htexts := fun t ht => h.texts t (mem_plainTexts.2 ht)
  have hword {t : String} (ht : t ∈ [b.own.schemaUri, "", b.own.title, b.own.description, b.own.format, b.own.pattern]) :
      g t = t := htexts t (.inl ht)
  have hvalue {v : Value} (hv : v ∈ Keywords.values b.own) : v.reread g = v.reread id :=
    Value.reread_congr fun t ht => htexts t (.inr (.inr (.inl ⟨v, hv, ht⟩)))
  have hgiven {o : Option Value} (ho : ∀ v ∈ o.toList, v ∈ Keywords.values b.own) : rereadValue g o = rereadValue id o := by
    unfold rereadValue
    split
    · rfl
    · rfl
    · rw [hvalue (ho _ (by simp))]
  have hlist (vs : List Value) (hvs : ∀ v ∈ vs, v ∈ Keywords.values b.own) : vs.map (·.reread g) = vs.map (·.reread id) :=
    List.map_congr_left fun v hv => hvalue (hvs v hv)
  have hextra : rereadMap g (b.own.extra.map fun e => (e.1, e.2.reread g)) =
      rereadMap id (b.own.extra.map fun e => (e.1, e.2.reread id)) := by
    simp only [rereadMap, List.map_map]
    refine congrArg Dict.ofList (List.map_congr_left fun e he => ?_)
    simp only [Function.comp, id]
    rw [hvalue (by simp [Keywords.values, List.mem_map_of_mem he]),
      htexts e.1 (.inr (.inr (.inr (.inl (List.mem_map_of_mem he)))))]
  have hrules : (b.own.rules.map fun r => (⟨g r.expr, g r.message⟩ : Rule)) = b.own.rules.map fun r => ⟨id r.expr, id r.message⟩ := by
    refine List.map_congr_left fun r hr => ?_
    have hrule := fun t ht => htexts t (.inr (.inr (.inr (.inr (.inl ⟨r, hr, ht⟩)))))
    rw [hrule _ (.inl rfl), hrule _ (.inr rfl)]
    rfl
  have hdisc : b.own.discriminator.map (Discriminator.reread g) =
      (b.own.discriminator.map (Discriminator.reread id)).map (Discriminator.relink g) := by
    rw [Option.map_map]
    refine Option.map_congr fun d hd => ?_
    have hmem := fun t ht => htexts t (.inr (.inr (.inr (.inr (.inr ⟨d, hd, ht⟩)))))
    have hkeys : (d.mapping.map fun e => (e.1, g e.2)).map (fun e => (g e.1, e.2)) = d.mapping.map fun e => (e.1, g e.2) := by
      rw [List.map_map]
      refine List.map_congr_left fun e he => ?_
      simp only [Function.comp]
      rw [hmem e.1 (.inr ⟨e, he, .inl rfl⟩)]
    simp only [Function.comp, Discriminator.reread, Discriminator.relink, rereadMap, hkeys, hmem _ (.inl rfl)]
    rw [Dict.ofList_map fun e => g e.2]
    simp
  have hrequired : b.own.required.map g = b.own.required.map id :=
    List.map_congr_left fun t ht => htexts t (.inr (.inl ht))
  unfold Keywords.reread Keywords.relink
  simp only [hextra, hrules, hdisc, hrequired]
  rw [hword (t := b.own.schemaUri) (by simp), hword (t := b.own.title) (by simp), hword (t := b.own.description) (by simp),
    hword (t := b.own.format) (by simp), hword (t := b.own.pattern) (by simp),
    hlist b.own.examples (by simp +contextual [Keywords.values]),
    hlist (b.own.enum.getD []) (by simp +contextual [Keywords.values]),
    hgiven (o := b.own.type) (by simp +contextual [Keywords.values]),
    hgiven (o := b.own.default) (by simp +contextual [Keywords.values]),
    hgiven (o := b.own.const) (by simp +contextual [Keywords.values]),
    hgiven (o := b.own.exclusiveMinimum) (by simp +contextual [Keywords.values]),
    hgiven (o := b.own.exclusiveMaximum) (by simp +contextual [Keywords.values])]
  rfl

section Reread

/-- a schema that is read with other links as it is relinked -/
abbrev Relinks (g : String → String) (s : Schema) : Prop := s.reread g = (s.reread id).relink g

theorem reread_fields {fs : List (String × Schema)} (hkeys : ∀ e ∈ fs, g e.1 = e.1) (h : ∀ e ∈ fs, Relinks g e.2) :
    rereadMap g (fs.map fun e => (e.1, e.2.reread g)) =
      (rereadMap id (fs.map fun e => (e.1, e.2.reread id))).map fun e => (e.1, e.2.relink g) := by
  rw [rereadMap, rereadMap, ← Dict.ofList_map (fun e : String × Schema => e.2.relink g), List.map_map, List.map_map, List.map_map]
  refine congrArg Dict.ofList (List.map_congr_left fun e he => ?_)
  simp only [Function.comp, id, hkeys e he, h e he]

theorem reread_given {o : Option (List Schema)} (h : ∀ s ∈ o.getD [], Relinks g s) :
    nonEmpty ((o.map (·.map (Schema.reread g))).getD []) =
      (nonEmpty ((o.map (·.map (Schema.reread id))).getD [])).map (·.map (relink g)) := by
  obtain _ | (_ | ⟨s, ss⟩) := o
  · rfl
  · rfl
  · have hall : (s :: ss).map (Schema.reread g) = ((s :: ss).map (Schema.reread id)).map (relink g) := by
      rw [List.map_map]
      exact List.map_congr_left h
    simpa [nonEmpty] using hall

theorem reread_extent {x : Extent} (h : ∀ s ∈ Extent.toList x, Relinks g s) :
    (Beyond.ofExtent (Schema.reread g) x).reread =
      Extent.ofBeyond (.ofExtent (relink g) (Beyond.ofExtent (Schema.reread id) x).reread) := by
  cases x with
  | unset => rfl
  | flag b => rfl
  | sub s =>
    have hs : Relinks g s := h s (by simp [Extent.toList, Beyond.ofExtent, Beyond.toList])
    simp only [Beyond.ofExtent, Beyond.reread, isAbsent_reread]
    split
    · rfl
    · rw [hs]
      rfl

theorem reread_items (hempty : g "" = "") {x : Items} (h : ∀ s ∈ Items.toList x, Relinks g s) :
    (Elements.ofItems (Schema.reread g) x).reread =
      Items.ofElements (.ofItems (relink g) (Elements.ofItems (Schema.reread id) x).reread) := by
  cases x with
  | unset => rfl
  | single s =>
    have hs : Relinks g s := h s (by simp [Items.toList, Elements.ofItems, Elements.toList])
    simp only [Elements.ofItems, Elements.reread, isAbsent_reread]
    split
    · simp only [Items.ofElements, relink_empty hempty]
    · rw [hs]
      rfl
  | tuple ss =>
    have hall : ss.map (Schema.reread g) = (ss.map (Schema.reread id)).map (relink g) := by
      rw [List.map_map]
      exact List.map_congr_left fun s hs => h s (by simpa [Items.toList, Elements.ofItems, Elements.toList] using hs)
    simp only [Elements.ofItems, Elements.reread, Items.ofElements, hall]

theorem reread_properties {b : Body} (level : Settled g b) (h : b.Below (Relinks g)) :
    ((b.parts (Schema.reread g)).reread g).properties =
      (((b.parts (Schema.reread id)).reread id).properties).map fun fs => fs.map fun e => (e.1, e.2.relink g) := by
  cases hp : b.properties with
  | none => simp [Parts.reread, Body.parts, hp, nonEmpty]
  | some fs =>
    cases fs with
    | nil => simp [Parts.reread, Body.parts, hp, nonEmpty]
    | cons e fs =>
      have hmap := @reread_fields g (e :: fs) (fun e he => level.keys e (by rw [hp]; exact he))
        fun e he => h.properties e (by rw [hp]; exact he)
      simpa [Parts.reread, Body.parts, hp, nonEmpty] using hmap

/-- one level, but for its definitions -/
theorem bare_reread {b : Body} (level : Settled g b) (h : b.Below (Relinks g)) :
    ((ofBody b).reread g).bare = ((ofBody b).reread id).relink g := by
  have hempty : g "" = "" := level.texts "" (mem_plainTexts.2 (.inl (by simp)))
  rw [reread_ofBody, reread_ofBody, relink_ofBody, bare_ofBody]
  exact congrArg ofBody ((Body.mk.injEq ..).mpr ⟨level.own, reread_properties level h, reread_extent h.additional,
    h.propertyNames, reread_items hempty h.items, reread_extent h.additionalItems, reread_given h.anyOf,
    reread_given h.oneOf, reread_given h.allOf, rfl, rfl⟩)

/-- **Reading with other links.** -/
theorem reread_relink {s : Schema} (h : s.Everywhere fun b => Settled g b ∧ b.definitions = [] ∧ b.defs = []) :
    Relinks g s := by
  induction s using treeInduction with
  | absent => rfl
  | node b ih =>
    obtain ⟨⟨level, hdefinitions, hdefs⟩, below⟩ := everywhere_ofBody.1 h
    have hbelow : b.Below (Relinks g) := Body.forall_below.1 fun s hs => Body.forall_below.2 ih s hs (below s hs)
    have hnone : ((ofBody b).reread g).bare = (ofBody b).reread g := by
      rw [reread_ofBody, bare_ofBody]
      simp [Parts.reread, Body.parts, hdefinitions, hdefs, rereadMap, Dict.ofList]
    rw [Relinks, ← hnone, bare_reread level hbelow]

end Reread

end Schema

end Schemata
