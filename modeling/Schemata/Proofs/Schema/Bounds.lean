import Mathlib.Tactic
import Schemata.Proofs.Number.Whole
import Schemata.Proofs.Schema.References

/-!
Bounds that can be written.

A schema has a text only if all schemas below it have one (`below_texts`), so what the text of one level needs holds on
every level (`everywhere_of_text`). The bounds of numbers must be finite, and finite bounds are read back as they were.
-/

namespace Schemata.Schema

/-- there is a text of the schema -/
def HasText (s : Schema) : Prop := ∃ t, text s = .ok t

theorem hasText_list {ss : List Schema} {ts : List String} (h : textList ss = .ok ts) : ∀ s ∈ ss, HasText s := by
  induction ss generalizing ts with
  | nil => simp
  | cons s ss ih =>
    obtain ⟨t, ht, h⟩ := except_bind_ok h
    obtain ⟨us, hus, -⟩ := except_bind_ok h
    exact List.forall_mem_cons.2 ⟨⟨t, ht⟩, ih hus⟩

theorem hasText_given {o : Option (List Schema)} {ts : List String} (h : textGiven o = .ok ts) : ∀ s ∈ o.getD [], HasText s := by
  cases o with
  | none => simp
  | some ss => exact hasText_list h

theorem hasText_fields {fs : List (String × Schema)} {es : List Entry} (h : textFields fs = .ok es) :
    ∀ e ∈ fs, HasText e.2 := by
  induction fs generalizing es with
  | nil => simp
  | cons e fs ih =>
    obtain ⟨t, ht, h⟩ := except_bind_ok h
    obtain ⟨us, hus, -⟩ := except_bind_ok h
    exact List.forall_mem_cons.2 ⟨⟨t, ht⟩, ih hus⟩

theorem hasText_optional {o : Option (List (String × Schema))} {es : List Entry} (h : textOptional o = .ok es) :
    ∀ e ∈ o.getD [], HasText e.2 := by
  cases o with
  | none => simp
  | some fs => exact hasText_fields h

theorem hasText_extent {x : Extent} {ts : List String} (h : textExtent x = .ok ts) : ∀ s ∈ Extent.toList x, HasText s := by
  cases x with
  | unset => simp [Extent.toList, Beyond.ofExtent, Beyond.toList]
  | flag b => simp [Extent.toList, Beyond.ofExtent, Beyond.toList]
  | sub s =>
    obtain ⟨t, ht, -⟩ := except_map_ok h
    simpa [Extent.toList, Beyond.ofExtent, Beyond.toList] using ⟨t, ht⟩

theorem hasText_items {x : Items} {ts : List String} (h : textItems x = .ok ts) : ∀ s ∈ Items.toList x, HasText s := by
  cases x with
  | unset => simp [Items.toList, Elements.ofItems, Elements.toList]
  | single s =>
    have hs : HasText s := by
      obtain rfl | ⟨b, rfl⟩ := eq_absent_or_ofBody s
      · exact ⟨_, rfl⟩
      · obtain ⟨t, ht, -⟩ := except_map_ok h
        exact ⟨t, ht⟩
    simpa [Items.toList, Elements.ofItems, Elements.toList] using hs
  | tuple ss =>
    obtain ⟨us, hus, -⟩ := except_map_ok h
    simpa [Items.toList, Elements.ofItems, Elements.toList] using hasText_list hus

/-- the text of a schema is made of the texts below it -/
theorem below_texts {b : Body} (h : HasText (ofBody b)) :
    b.Below HasText ∧ ∃ below es, entries b.own below = .ok es := by
  obtain ⟨t, h⟩ := h
  rw [ofBody, text] at h
  obtain ⟨ps, hps, h⟩ := except_bind_ok h
  obtain ⟨add, hadd, h⟩ := except_bind_ok h
  obtain ⟨names, hnames, h⟩ := except_bind_ok h
  obtain ⟨its, hits, h⟩ := except_bind_ok h
  obtain ⟨addItems, haddItems, h⟩ := except_bind_ok h
  obtain ⟨anys, hanys, h⟩ := except_bind_ok h
  obtain ⟨ones, hones, h⟩ := except_bind_ok h
  obtain ⟨alls, halls, h⟩ := except_bind_ok h
  obtain ⟨ds1, hds1, h⟩ := except_bind_ok h
  obtain ⟨ds2, hds2, h⟩ := except_bind_ok h
  obtain ⟨es, hes, h⟩ := except_bind_ok h
  exact ⟨⟨hasText_optional hps, hasText_extent hadd, ⟨names, hnames⟩, hasText_items hits, hasText_extent haddItems,
    hasText_given hanys, hasText_given hones, hasText_given halls, hasText_fields hds1, hasText_fields hds2⟩, _, es, hes⟩

theorem textList_ok {ss : List Schema} (h : ∀ s ∈ ss, HasText s) : ∃ ts, textList ss = .ok ts := by
  induction ss with
  | nil => exact ⟨_, rfl⟩
  | cons s ss ih =>
    obtain ⟨t, ht⟩ := h s (by simp)
    obtain ⟨ts, hts⟩ := ih fun s' hs => h s' (by simp [hs])
    exact ⟨_, by rw [textList, ht, hts]; rfl⟩

theorem textFields_ok {fs : List (String × Schema)} (h : ∀ e ∈ fs, HasText e.2) : ∃ es, textFields fs = .ok es := by
  induction fs with
  | nil => exact ⟨_, rfl⟩
  | cons e fs ih =>
    obtain ⟨t, ht⟩ := h e (by simp)
    obtain ⟨ts, hts⟩ := ih fun e' he => h e' (by simp [he])
    exact ⟨_, by rw [textFields, ht, hts]; rfl⟩

theorem textGiven_ok {o : Option (List Schema)} (h : ∀ s ∈ o.getD [], HasText s) : ∃ ts, textGiven o = .ok ts := by
  cases o with
  | none => exact ⟨_, rfl⟩
  | some ss => exact textList_ok h

theorem textOptional_ok {o : Option (List (String × Schema))} (h : ∀ e ∈ o.getD [], HasText e.2) :
    ∃ es, textOptional o = .ok es := by
  cases o with
  | none => exact ⟨_, rfl⟩
  | some fs => exact textFields_ok h

theorem textExtent_ok {x : Extent} (h : ∀ s ∈ Extent.toList x, HasText s) : ∃ ts, textExtent x = .ok ts := by
  cases x with
  | sub s =>
    obtain ⟨t, ht⟩ := h s (by simp [Extent.toList, Beyond.ofExtent, Beyond.toList])
    exact ⟨_, by rw [textExtent, ht]; rfl⟩
  | _ => exact ⟨_, rfl⟩

theorem textItems_ok {x : Items} (h : ∀ s ∈ Items.toList x, HasText s) : ∃ ts, textItems x = .ok ts := by
  cases x with
  | unset => exact ⟨_, rfl⟩
  | single s =>
    obtain ⟨t, ht⟩ := h s (by simp [Items.toList, Elements.ofItems, Elements.toList])
    rw [textItems, ht]
    split
    · exact ⟨_, rfl⟩
    · exact ⟨_, rfl⟩
  | tuple ss =>
    obtain ⟨ts, hts⟩ := textList_ok fun s hs => h s (by simpa [Items.toList, Elements.ofItems, Elements.toList] using hs)
    exact ⟨_, by rw [textItems, hts]; rfl⟩

/-- a level has a text, if all below it and its keywords have one -/
theorem hasText_ofBody {b : Body} (hbelow : b.Below HasText) (hentries : ∀ below, ∃ es, entries b.own below = .ok es)
    (hextra : ∃ ts, Json.compactFields b.own.extra = .ok ts) : HasText (ofBody b) := by
  obtain ⟨ps, hps⟩ := textOptional_ok hbelow.properties
  obtain ⟨add, hadd⟩ := textExtent_ok hbelow.additional
  obtain ⟨names, hnames⟩ := hbelow.propertyNames
  obtain ⟨its, hits⟩ := textItems_ok hbelow.items
  obtain ⟨addItems, haddItems⟩ := textExtent_ok hbelow.additionalItems
  obtain ⟨anys, hanys⟩ := textGiven_ok hbelow.anyOf
  obtain ⟨ones, hones⟩ := textGiven_ok hbelow.oneOf
  obtain ⟨alls, halls⟩ := textGiven_ok hbelow.allOf
  obtain ⟨ds1, hds1⟩ := textFields_ok hbelow.definitions
  obtain ⟨ds2, hds2⟩ := textFields_ok hbelow.defs
  obtain ⟨further, hfurther⟩ := hextra
  unfold HasText
  rw [ofBody, text, hps, hadd, hnames, hits, haddItems, hanys, hones, halls, hds1, hds2]
  simp only [bind, Except.bind]
  obtain ⟨es, hes⟩ := hentries _
  rw [hes, hfurther]
  simp only
  split
  · exact ⟨_, rfl⟩
  · exact ⟨_, rfl⟩

/-- what the text of one level needs, holds on every level of a schema with a text -/
theorem everywhere_of_text {Q : Keywords → Prop} (hQ : ∀ k below es, entries k below = .ok es → Q k) {s : Schema}
    (h : HasText s) : s.Everywhere fun b => Q b.own := by
  refine treeInduction (P := fun s => HasText s → s.Everywhere fun b => Q b.own) (fun _ => .absent) (fun b hb h => ?_) s h
  obtain ⟨hbelow, below, es, hes⟩ := below_texts h
  exact everywhere_ofBody.2 ⟨hQ _ _ _ hes, fun s hs => Body.forall_below.2 hb s hs (Body.forall_below.2 hbelow s hs)⟩

/-! ## Finite bounds -/

/-- the bounds of numbers are finite -/
structure FiniteBounds (k : Keywords) : Prop where
  minimum : ∀ x, k.minimum = some x → Number.isFinite x = true
  maximum : ∀ x, k.maximum = some x → Number.isFinite x = true
  exclusiveMinimum : ∀ x, k.exclusiveMinimum = some (.float x) → Number.isFinite x = true
  exclusiveMaximum : ∀ x, k.exclusiveMaximum = some (.float x) → Number.isFinite x = true
  multipleOf : ∀ x, k.multipleOf = some x → Number.isFinite x = true

theorem finite_floatText {f : Number.BinaryFormat} {x : Float} {t : String} (h : Json.floatText f x = .ok t) :
    Number.isFinite x = true := by
  unfold Json.floatText at h
  split at h
  · assumption
  · cases h

theorem finite_entries {k : Keywords} {below : Below} {es : List Entry} (h : entries k below = .ok es) : FiniteBounds k := by
  obtain ⟨_, _, h⟩ := except_bind_ok h
  obtain ⟨_, _, h⟩ := except_bind_ok h
  obtain ⟨_, _, h⟩ := except_bind_ok h
  obtain ⟨_, _, h⟩ := except_bind_ok h
  obtain ⟨_, _, h⟩ := except_bind_ok h
  obtain ⟨_, hminimum, h⟩ := except_bind_ok h
  obtain ⟨_, hmaximum, h⟩ := except_bind_ok h
  obtain ⟨_, hexclusiveMinimum, h⟩ := except_bind_ok h
  obtain ⟨_, hexclusiveMaximum, h⟩ := except_bind_ok h
  obtain ⟨_, hmultipleOf, -⟩ := except_bind_ok h
  have hfloat {key : String} {o : Option Float} {es : List Entry} (h : floatEntry key o = .ok es) :
      ∀ x, o = some x → Number.isFinite x = true := by
    rintro x rfl
    obtain ⟨t, ht, -⟩ := except_map_ok h
    exact finite_floatText ht
  have hvalue {key : String} {o : Option Value} {es : List Entry} (h : valueEntry key o = .ok es) :
      ∀ x, o = some (.float x) → Number.isFinite x = true := by
    rintro x rfl
    obtain ⟨t, ht, -⟩ := except_map_ok h
    exact finite_floatText ht
  exact ⟨hfloat hminimum, hfloat hmaximum, hvalue hexclusiveMinimum, hvalue hexclusiveMaximum, hfloat hmultipleOf⟩

/-- **Written bounds are finite.** -/
theorem finiteBounds_of_text {s : Schema} (h : HasText s) : s.Everywhere fun b => FiniteBounds b.own :=
  everywhere_of_text (fun _ _ _ => finite_entries) h

theorem rereadFloat_finite {o : Option Float} (h : ∀ x, o = some x → Number.isFinite x = true) : rereadFloat o = o := by
  cases o with
  | none => rfl
  | some x =>
    change Number.parse? (Number.Layout.wire.text Number.double x) = some x
    rw [Number.parse?, Number.read_text _ le_rfl (h x rfl)]

theorem reread_finite (f : String → String) {x : Float} (h : Number.isFinite x = true) : (Value.float x).reread f = .float x := by
  change Value.float ((Number.parse? (Number.Layout.wire.text Number.double x)).getD 0.0) = .float x
  rw [Number.parse?, Number.read_text _ le_rfl h, Option.getD_some]

theorem rereadValue_finite (f : String → String) {o : Option Float} (h : ∀ x, o.map Value.float = some (.float x) →
    Number.isFinite x = true) : rereadValue f (o.map .float) = o.map .float := by
  cases o with
  | none => rfl
  | some x => exact congrArg some (reread_finite f (h x rfl))

end Schemata.Schema
