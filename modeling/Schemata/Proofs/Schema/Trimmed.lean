import Schemata.Proofs.Schema.Accepted
import Schemata.Proofs.Schema.Links

/-!
Schemas that were read, written and read again.

A schema that was read comes back from its own text with its empty lists left out, and otherwise as it was (`trimmed`,
`reread_neat`); leaving them out changes nothing that is written (`json_trimmed`). So the text of a schema that was read is
stable: it is read again, and the schema that is read has the same text and the same further keywords (`text_stable`). The
reader goes only so deep, and this is the one thing that can stop it: a null in a list of rules is written as an object,
one level deeper than it was read (`text_unstable`).
-/

namespace Schemata.Schema

/-! ## What is left out -/

/-- a level whose empty lists are left out -/
def Parts.trim (p : Parts Schema) : Body where
  own := { p.own with enum := nonEmpty (p.own.enum.getD []) }
  properties := nonEmpty (p.properties.getD [])
  additional := Extent.ofBeyond p.additional
  propertyNames := p.propertyNames
  items := Items.ofElements p.items
  additionalItems := Extent.ofBeyond p.additionalItems
  anyOf := nonEmpty (p.anyOf.getD [])
  oneOf := nonEmpty (p.oneOf.getD [])
  allOf := nonEmpty (p.allOf.getD [])
  definitions := p.definitions
  defs := p.defs

/-- a schema whose empty lists are left out, on all levels -/
def trimmed : Schema → Schema := fold .absent fun p => ofBody p.trim

@[simp] theorem trimmed_absent : Schema.absent.trimmed = .absent := rfl

theorem trimmed_ofBody (b : Body) : (ofBody b).trimmed = ofBody (b.parts trimmed).trim := fold_ofBody _ _ b

@[simp] theorem getD_nonEmpty {α : Type} (xs : List α) : (nonEmpty xs).getD [] = xs := by
  cases xs <;> rfl

/-- two functions that agree below a level give the same parts -/
theorem parts_congr {α : Type} {g h : Schema → α} {b : Body} (hb : b.Below fun s => g s = h s) : b.parts g = b.parts h := by
  have hextent {x : Extent} (hx : ∀ s ∈ Extent.toList x, g s = h s) : Beyond.ofExtent g x = Beyond.ofExtent h x := by
    cases x with
    | sub s => exact congrArg _ (hx s (by simp [Extent.toList, Beyond.ofExtent, Beyond.toList]))
    | _ => rfl
  have hitems {x : Items} (hx : ∀ s ∈ Items.toList x, g s = h s) : Elements.ofItems g x = Elements.ofItems h x := by
    cases x with
    | unset => rfl
    | single s => exact congrArg _ (hx s (by simp [Items.toList, Elements.ofItems, Elements.toList]))
    | tuple ss =>
      refine congrArg _ (List.map_congr_left fun s hs => hx s ?_)
      simpa [Items.toList, Elements.ofItems, Elements.toList] using hs
  have hgiven {o : Option (List Schema)} (ho : ∀ s ∈ o.getD [], g s = h s) : o.map (·.map g) = o.map (·.map h) := by
    cases o with
    | none => rfl
    | some ss => exact congrArg some (List.map_congr_left ho)
  have hfields {fs : List (String × Schema)} (hfs : ∀ e ∈ fs, g e.2 = h e.2) :
      (fs.map fun e => (e.1, g e.2)) = fs.map fun e => (e.1, h e.2) :=
    List.map_congr_left fun e he => by rw [hfs e he]
  have hoptional {o : Option (List (String × Schema))} (ho : ∀ e ∈ o.getD [], g e.2 = h e.2) :
      (o.map fun fs => fs.map fun e => (e.1, g e.2)) = o.map fun fs => fs.map fun e => (e.1, h e.2) := by
    cases o with
    | none => rfl
    | some fs => exact congrArg some (hfields ho)
  simp only [Body.parts, hoptional hb.properties, hextent hb.additional, hb.propertyNames, hitems hb.items,
    hextent hb.additionalItems, hgiven hb.anyOf, hgiven hb.oneOf, hgiven hb.allOf, hfields hb.definitions, hfields hb.defs]

section

variable (b : Body) (g : Schema → Schema)

theorem ofExtent_ofBeyond {α : Type} (h : Schema → α) (x : Extent) :
    Beyond.ofExtent h (Extent.ofBeyond (Beyond.ofExtent g x)) = Beyond.ofExtent (fun s => h (g s)) x := by
  cases x <;> rfl

theorem ofItems_ofElements {α : Type} (h : Schema → α) (x : Items) :
    Elements.ofItems h (Items.ofElements (Elements.ofItems g x)) = Elements.ofItems (fun s => h (g s)) x := by
  cases x <;> simp [Elements.ofItems, Items.ofElements]

theorem map_nonEmpty {α β : Type} (f : List α → List β) (hf : f [] = []) (xs : List α) :
    ((nonEmpty xs).map f).getD [] = f xs := by
  cases xs with
  | nil => exact hf.symm
  | cons => rfl

/-- the keywords that are written are those of the level -/
theorem member_trim (w : Keyword) :
    ((b.parts g).trim.parts json).member w = (b.parts fun s => (g s).json).member w := by
  have hgiven (o : Option (List Schema)) :
      ((nonEmpty ((o.map (·.map g)).getD [])).map (·.map json)).getD [] = (o.map (·.map fun s => (g s).json)).getD [] := by
    rw [map_nonEmpty _ rfl]
    cases o <;> simp
  have hoptional (o : Option (List (String × Schema))) :
      ((nonEmpty ((o.map fun fs => fs.map fun e => (e.1, g e.2)).getD [])).map fun fs => fs.map fun e => (e.1, e.2.json)).getD []
        = (o.map fun fs => fs.map fun e => (e.1, (g e.2).json)).getD [] := by
    rw [map_nonEmpty _ rfl]
    cases o <;> simp
  cases w <;> simp [Parts.member, Parts.trim, Body.parts, ofExtent_ofBeyond, ofItems_ofElements, hgiven, hoptional, Function.comp_def]

/-- the levels below are those below, trimmed as well -/
theorem below_trim : (b.parts g).trim.below = b.below.map g := by
  have hextent (x : Beyond Schema) : (Beyond.ofExtent id (Extent.ofBeyond x)).toList = x.toList := by cases x <;> rfl
  have hitems (x : Elements Schema) : (Elements.ofItems id (Items.ofElements x)).toList = x.toList := by
    cases x <;> simp [Elements.ofItems, Items.ofElements, Elements.toList]
  rw [← Body.toList_parts]
  simp [Body.below, Parts.toList, Parts.trim, Body.parts, hextent, hitems, Function.comp_def]

end

/-- **The document stays the same** when empty lists are left out. -/
theorem json_trimmed (s : Schema) : s.trimmed.json = s.json := by
  induction s using treeInduction with
  | absent => rfl
  | node b hb =>
    have hmember : ((b.parts trimmed).trim.parts json).member = (b.parts json).member := by
      funext w
      rw [member_trim, parts_congr hb]
    have hmembers : ((b.parts trimmed).trim.parts json).members = (b.parts json).members :=
      List.flatMap_congr fun w _ => by rw [Parts.entry, Parts.entry, hmember]
    rw [trimmed_ofBody, json_ofBody, json_ofBody, Parts.fields, Parts.fields, hmembers]
    rfl

/-- further keywords stay, on all levels -/
theorem extra_trimmed (s : Schema) : s.trimmed.keywords.map (·.extra) = s.keywords.map (·.extra) := by
  induction s using treeInduction with
  | absent => rfl
  | node b hb =>
    rw [trimmed_ofBody, keywords_ofBody, keywords_ofBody, below_trim, List.map_cons, List.map_cons, List.map_flatMap,
      List.map_flatMap, List.flatMap_map]
    exact congrArg (b.own.extra :: ·) (List.flatMap_congr (Body.forall_below.2 hb))

/-! ## What is read back -/

theorem rereadValue_given {o : Option Value} (h : Given o) : rereadValue id o = o := by
  cases o with
  | none => rfl
  | some v =>
    obtain ⟨hv, hnull⟩ := h v rfl
    have hsame : some (v.reread id) = some v := congrArg some (Value.written_decoded hv)
    cases v <;> first | exact hsame | exact absurd rfl hnull

theorem map_reread {vs : List Value} (h : ∀ v ∈ vs, v.Decoded) : vs.map (·.reread id) = vs :=
  (List.map_congr_left fun v hv => Value.written_decoded (h v hv)).trans (List.map_id' vs)

theorem rereadMap_sorted {α : Type} {fs : Dict α} (h : Dict.Sorted fs) : rereadMap id fs = fs :=
  (congrArg Dict.ofList (List.map_id' fs)).trans (Dict.ofList_of_sorted h)

theorem reread_discriminator {d : Discriminator} (h : Dict.Sorted d.mapping) : Discriminator.reread id d = d :=
  congrArg (Discriminator.mk d.propertyName) ((congrArg (rereadMap id) (List.map_id' d.mapping)).trans (rereadMap_sorted h))

theorem reread_keywords {k : Keywords} (h : NeatKeywords k) :
    Keywords.reread id k = { k with enum := nonEmpty (k.enum.getD []) } := by
  have hdiscriminator : k.discriminator.map (Discriminator.reread id) = k.discriminator := by
    cases hd : k.discriminator with
    | none => rfl
    | some d => exact congrArg some (reread_discriminator (h.mapping d hd))
  have hextra : rereadMap id (k.extra.map fun e => (e.1, e.2.reread id)) = k.extra := by
    have hsame : (k.extra.map fun e => (e.1, e.2.reread id)) = k.extra :=
      (List.map_congr_left fun e he => congrArg (Prod.mk e.1) (Value.written_decoded (h.extra e he).2)).trans (List.map_id' _)
    rw [hsame, rereadMap_sorted h.sorted]
  have hrules : (k.rules.map fun r => (⟨r.expr, r.message⟩ : Rule)) = k.rules := List.map_id' k.rules
  simp only [Keywords.reread, rereadValue_given h.type, rereadValue_given h.default, rereadValue_given h.const,
    rereadValue_given h.exclusiveMinimum, rereadValue_given h.exclusiveMaximum, map_reread h.examples, map_reread h.enum,
    Document.rereadInt_word h.minLength, Document.rereadInt_word h.maxLength, Document.rereadInt_word h.minItems,
    Document.rereadInt_word h.maxItems, rereadFloat_finite h.bounds.minimum, rereadFloat_finite h.bounds.maximum,
    rereadFloat_finite h.bounds.multipleOf, hdiscriminator, hextra, List.map_id, id]
  rw [hrules]

/-- one level that was read comes back trimmed -/
theorem reread_parts {b : Body} (hb : Neat b) (g : Schema → Schema) (hg : ∀ s, (g s).isAbsent = s.isAbsent) :
    (b.parts g).reread id = (b.parts g).trim := by
  have hextent {x : Extent} (hx : x ≠ .sub .absent) : (Beyond.ofExtent g x).reread = (Extent.ofBeyond (Beyond.ofExtent g x)) := by
    cases x with
    | sub s =>
      refine if_neg ?_
      obtain rfl | ⟨c, rfl⟩ := eq_absent_or_ofBody s
      · exact absurd rfl hx
      · rw [hg]
        exact Bool.false_ne_true
    | _ => rfl
  have hitems : (Elements.ofItems g b.items).reread = Items.ofElements (Elements.ofItems g b.items) := by
    have hne := hb.items
    cases hx : b.items with
    | single s =>
      refine congrArg Items.single (if_neg ?_)
      obtain rfl | ⟨c, rfl⟩ := eq_absent_or_ofBody s
      · exact absurd hx hne
      · rw [hg]
        exact Bool.false_ne_true
    | _ => rfl
  have hsorted {fs : Dict Schema} (h : Dict.Sorted fs) : rereadMap id (fs.map fun e => (e.1, g e.2)) = fs.map fun e => (e.1, g e.2) :=
    rereadMap_sorted (List.pairwise_map.2 h)
  have hproperties : (nonEmpty ((b.parts g).properties.getD [])).map (rereadMap id) = nonEmpty ((b.parts g).properties.getD []) := by
    cases hp : b.properties with
    | none => simp [Body.parts, hp, nonEmpty]
    | some fs =>
      simp only [Body.parts, hp, Option.map_some, Option.getD_some, nonEmpty]
      split
      · rfl
      · exact congrArg some (hsorted (hb.properties fs hp))
  have hown : Keywords.reread id (b.parts g).own = _ := reread_keywords hb.own
  simp only [Parts.reread, Parts.trim, hown, hproperties]
  simp only [Body.parts, hextent hb.additional, hextent hb.additionalItems, hitems, hsorted hb.definitions, hsorted hb.defs]

/-- **What is written and read again comes back trimmed**, if it was read before. -/
theorem reread_neat {s : Schema} (h : s.Everywhere Neat) : s.reread id = s.trimmed := by
  induction s using treeInduction with
  | absent => rfl
  | node b hb =>
    obtain ⟨hneat, hbelow⟩ := everywhere_below.1 h
    rw [reread_ofBody, trimmed_ofBody, reread_parts hneat _ (isAbsent_reread id),
      parts_congr ((hb.and hbelow).imp fun s hs => hs.1 hs.2)]

/-! ## Templates that are read -/

/-- schemas that were read have a text -/
theorem hasText_neat {s : Schema} (h : s.Everywhere Neat) : HasText s := by
  induction s using treeInduction with
  | absent => exact ⟨_, rfl⟩
  | node b hb =>
    obtain ⟨hneat, hbelow⟩ := everywhere_below.1 h
    refine hasText_level ((hb.and hbelow).imp fun s hs => hs.1 hs.2) hneat.own.bounds fun v hv => Json.compact_decoded ?_
    have hgiven {o : Option Value} (ho : Given o) (hv : v ∈ o) : v.Decoded := (ho v hv).1
    simp only [Keywords.values, List.mem_append, Option.mem_toList] at hv
    rcases hv with ((((((hv | hv) | hv) | hv) | hv) | hv) | hv) | hv
    · exact hgiven hneat.own.type hv
    · exact hgiven hneat.own.default hv
    · exact hneat.own.examples v hv
    · exact hneat.own.enum v hv
    · exact hgiven hneat.own.const hv
    · exact hgiven hneat.own.exclusiveMinimum hv
    · exact hgiven hneat.own.exclusiveMaximum hv
    · obtain ⟨e, he, rfl⟩ := List.mem_map.1 hv
      exact (hneat.own.extra e he).2

theorem decode_present {d : String} {s : Schema} (h : decode d = .ok s) : s.isAbsent = false := by
  obtain ⟨j, hj, h⟩ := except_bind_ok h
  obtain ⟨t, ht, h⟩ := except_bind_ok h
  obtain rfl := Except.ok.inj h
  split
  · rfl
  · rename_i hpresent
    exact Bool.eq_false_iff.2 hpresent

theorem isAbsent_trimmed (s : Schema) : s.trimmed.isAbsent = s.isAbsent := by
  obtain rfl | ⟨b, rfl⟩ := eq_absent_or_ofBody s
  · rfl
  · rw [trimmed_ofBody]
    rfl

section

variable {s : Schema} {t : String} (hs : s.Everywhere Neat) (hpresent : s.isAbsent = false) (ht : text s = .ok t)

include hs hpresent ht

/-- whatever is read from the text of a schema that was read, is that schema, trimmed -/
theorem decode_trimmed {s' : Schema} (h : decode t = .ok s') : s' = s.trimmed := by
  rw [← reread_neat hs]
  exact Document.decode_template hpresent (hs.keywords fun _ hb e he => (hb.own.extra e he).1) ht h

omit hpresent in
/-- **Templates are read.** The text of a schema that was read is read again exactly if the reader goes as deep. -/
theorem decode_iff : (∃ s', decode t = .ok s') ↔ s.json.nesting ≤ Json.maxDepth := by
  obtain ⟨rfl, hspelled⟩ := text_writes ht
  have htext : s.json.text = String.ofList (Json.written Json.plainly s.json) := by rw [← Json.text_eq, String.ofList_toList]
  constructor
  · rintro ⟨s', h⟩
    obtain ⟨j, hj, -⟩ := decode_cases h
    rw [htext] at hj
    have hsame := Json.parse_written (f := id) hspelled (fun s _ => Json.spells_escaped s) hj
    rw [Json.mapStrings_id] at hsame
    rw [← hsame]
    exact Json.nesting_parse hj
  · intro hdepth
    have hparse : Json.parse s.json.text = .ok s.json := by
      rw [htext, Json.parse_accepts (w := Json.plainly) (f := id) (numbered_json hs) (fun s _ => Json.spells_escaped s) hdepth, Json.mapStrings_id]
    obtain ⟨s', hs'⟩ := readable_json hs {}
    refine ⟨if s'.isAbsent then .empty else s', ?_⟩
    unfold decode
    rw [hparse]
    change (ofJson {} s.json >>= _) = _
    rw [hs']
    rfl

end

/-- **Writing is stable.** A schema that was read has a text. The text is read again exactly if it is nested no deeper than
the reader goes; what is read is the schema with its empty lists left out, it has the same text, and the same further
keywords with the same values on all levels. -/
theorem text_stable {d : String} {s : Schema} (h : decode d = .ok s) : ∃ t, text s = .ok t ∧
    ((∃ s', decode t = .ok s') ↔ s.json.nesting ≤ Json.maxDepth) ∧
    ∀ s', decode t = .ok s' → s' = s.trimmed ∧ text s' = .ok t ∧ s'.keywords.map (·.extra) = s.keywords.map (·.extra) := by
  have hneat := decode_neat h
  have hpresent := decode_present h
  obtain ⟨t, ht⟩ := hasText_neat hneat
  refine ⟨t, ht, decode_iff hneat ht, fun s' hs' => ?_⟩
  obtain rfl := decode_trimmed hneat hpresent ht hs'
  refine ⟨rfl, ?_, extra_trimmed s⟩
  obtain ⟨t', ht'⟩ := hasText_neat (decode_neat hs')
  rw [ht', (text_writes ht').1, (text_writes ht).1, json_trimmed]

/-- empty lists are left out, further keywords stay -/
theorem text_stable_lists : ∃ s s', decode "\x7b\"required\":[null],\"x\":[],\"anyOf\":[],\"enum\":[]\x7d" = .ok s ∧
    text s = .ok "\x7b\"required\":[\"\"],\"x\":[]\x7d" ∧ decode "\x7b\"required\":[\"\"],\"x\":[]\x7d" = .ok s' ∧
    s' = s.trimmed ∧ text s' = .ok "\x7b\"required\":[\"\"],\"x\":[]\x7d" := by
  have heval : (decode "\x7b\"required\":[null],\"x\":[],\"anyOf\":[],\"enum\":[]\x7d").toOption.any (fun s =>
      decide (s.json.nesting ≤ Json.maxDepth) && (text s).toOption == some "\x7b\"required\":[\"\"],\"x\":[]\x7d") = true := by
    decide +kernel
  obtain ⟨s, hs, hall⟩ := ok_of_any heval
  obtain ⟨hdepth, htext⟩ := (Bool.and_eq_true _ _).mp hall
  obtain ⟨t, ht, hreads, hstable⟩ := text_stable hs
  have hsame : t = "\x7b\"required\":[\"\"],\"x\":[]\x7d" := by
    rw [ht] at htext
    exact Option.some.inj (eq_of_beq htext)
  subst hsame
  obtain ⟨s', hs'⟩ := hreads.2 (of_decide_eq_true hdepth)
  obtain ⟨htrimmed, htext', -⟩ := hstable s' hs'
  exact ⟨s, s', hs, ht, hs', htrimmed, htext'⟩

/-! ## Templates that are too deep -/

/-- a document as the only schema of a composition, again and again -/
def wrapped (j : Json) : Nat → Json
  | 0 => j
  | k + 1 => .object [("allOf", .array [wrapped j k])]

def composed (s : Schema) : Nat → Schema
  | 0 => s
  | k + 1 => ofBody { allOf := some [composed s k] }

theorem nesting_wrapped (j : Json) (k : Nat) : (wrapped j k).nesting = j.nesting + 2 * k := by
  induction k with
  | zero => rfl
  | succ k ih =>
    simp only [wrapped, Json.nesting, Json.nestingIn, Json.nestingOf, ih, Nat.max_zero]
    omega

theorem numerals_wrapped (j : Json) (k : Nat) : (wrapped j k).numerals = j.numerals := by
  induction k with
  | zero => rfl
  | succ k ih => simp [wrapped, Json.numerals, Json.numeralsIn, Json.numeralsOf, ih]

theorem ofJson_wrapped {j : Json} {s : Schema} (h : ofJson {} j = .ok s) (k : Nat) :
    ofJson {} (wrapped j k) = .ok (composed s k) := by
  induction k with
  | zero => exact h
  | succ k ih =>
    have hstep : ofJson {} (wrapped j (k + 1)) = (ofList [wrapped j k]).map fun ss => ofBody { allOf := some ss } := by
      rw [wrapped, ofJson]
      change ((ofList [wrapped j k] >>= fun ss => ofMembers { allOf := some ss } []).map ofBody) = _
      cases ofList [wrapped j k] <;> rfl
    rw [hstep, ofList, ih]
    rfl

theorem json_composed (s : Schema) (k : Nat) : (composed s k).json = wrapped s.json k := by
  induction k with
  | zero => rfl
  | succ k ih =>
    rw [composed, json_ofBody, wrapped, ← ih]
    rfl

theorem isAbsent_composed {s : Schema} (hs : s.isAbsent = false) (k : Nat) : (composed s k).isAbsent = false := by
  cases k with
  | zero => exact hs
  | succ k => rfl

/-- a wrapped document is read as the composed schema, unless it is too deep -/
theorem decode_wrapped {j : Json} {s : Schema} (h : ofJson {} j = .ok s) (hs : s.isAbsent = false) (hj : Numbered j) (k : Nat)
    (hdepth : (wrapped j k).nesting ≤ Json.maxDepth) : decode (wrapped j k).text = .ok (composed s k) := by
  have hnumbers : Numbered (wrapped j k) := by
    intro t ht
    rw [numerals_wrapped] at ht
    exact hj t ht
  have hparse : Json.parse (wrapped j k).text = .ok (wrapped j k) := by
    rw [← String.ofList_toList (s := (wrapped j k).text), Json.text_eq, Json.parse_accepts (w := Json.plainly) (f := id) hnumbers
      (fun s _ => Json.spells_escaped s) hdepth, Json.mapStrings_id]
  unfold decode
  rw [hparse]
  change (ofJson {} (wrapped j k) >>= _) = _
  rw [ofJson_wrapped h]
  change Except.ok (if (composed s k).isAbsent then empty else composed s k) = _
  rw [isAbsent_composed hs]
  rfl

/-- a null rule -/
def nullRule : Json := .object [("x-rules", .array [.null])]

/-- **Too deep.** A null rule is written as an object: a document that is nested as deep as the reader goes, with a null rule
in it, is read, and its template is not. -/
theorem text_unstable : ∃ s t, decode (wrapped nullRule 4999).text = .ok s ∧ text s = .ok t ∧ ¬ ∃ s', decode t = .ok s' := by
  have hnull : nullRule.nesting = 2 := rfl
  have hrule : (ofKeywords { rules := [⟨"", ""⟩] }).json.nesting = 3 := by decide +kernel
  have hmax : Json.maxDepth = 10000 := rfl
  have hdepth : (wrapped nullRule 4999).nesting ≤ Json.maxDepth := by
    rw [nesting_wrapped, hnull, hmax]
  have hread : ofJson {} nullRule = .ok (ofKeywords { rules := [⟨"", ""⟩] }) := rfl
  have hdecode := decode_wrapped hread rfl nofun 4999 hdepth
  have hneat := decode_neat hdecode
  obtain ⟨t, ht⟩ := hasText_neat hneat
  refine ⟨_, t, hdecode, ht, fun hreads => ?_⟩
  have hdeeper := (decode_iff hneat ht).1 hreads
  rw [json_composed, nesting_wrapped, hrule, hmax] at hdeeper
  omega

end Schemata.Schema
