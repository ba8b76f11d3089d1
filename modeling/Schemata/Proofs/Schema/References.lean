import Mathlib.Tactic
import Schemata.Proofs.Schema.Reading
import Schemata.Proofs.Schema.Strings

/-!
The references of a schema.

`Schema.references` are the targets of all references in a schema. Writing a schema and reading it again changes each
of them as it changes every string (`mem_references_reread`), provided that no two names of one level become the same
(`Schema.Keyed`): of two members of one name only the last is read.

A schema is a tree of levels, and `Everywhere` says that something holds on each of them. Facts about all keywords, all
texts and all names of a schema are of this form, and are proved level by level.
-/

namespace Schemata.Schema

/-- the targets of all references of a schema -/
def references (s : Schema) : List String := (s.keywords.map (·.ref)).filter (· ≠ "")

theorem mem_references {s : Schema} {r : String} : r ∈ s.references ↔ r ≠ "" ∧ ∃ k ∈ s.keywords, k.ref = r := by
  simp [references, and_comm]

@[simp] theorem references_absent : Schema.absent.references = [] := rfl

theorem mem_references_ofBody {b : Body} {r : String} :
    r ∈ (ofBody b).references ↔ (r ≠ "" ∧ b.own.ref = r) ∨ ∃ s ∈ b.below, r ∈ s.references := by
  simp only [mem_references, keywords_ofBody, List.mem_cons, List.mem_flatMap]
  constructor
  · rintro ⟨hr, k, rfl | ⟨s, hs, hk⟩, hkr⟩
    · exact .inl ⟨hr, hkr⟩
    · exact .inr ⟨s, hs, hr, k, hk, hkr⟩
  · rintro (⟨hr, hkr⟩ | ⟨s, hs, hr, k, hk, hkr⟩)
    · exact ⟨hr, b.own, .inl rfl, hkr⟩
    · exact ⟨hr, k, .inr ⟨s, hs, hk⟩, hkr⟩

theorem references_subset_ofBody {b : Body} {s : Schema} (hs : s ∈ b.below) : s.references ⊆ (ofBody b).references :=
  fun _ hr => mem_references_ofBody.2 (.inr ⟨s, hs, hr⟩)

theorem below_ofKeywords (k : Keywords) : ({ own := k } : Body).below = [.absent] := rfl

theorem mem_references_ofKeywords {k : Keywords} {r : String} : r ∈ (ofKeywords k).references ↔ r ≠ "" ∧ k.ref = r := by
  simp [ofKeywords, mem_references_ofBody, below_ofKeywords]

theorem mem_references_reference {t r : String} : r ∈ (Schema.reference t).references ↔ r ≠ "" ∧ t = r :=
  mem_references_ofKeywords

/-- changes of other keywords leave the references alone -/
theorem references_mapOwn {s : Schema} {f : Keywords → Keywords} (hf : ∀ k, (f k).ref = k.ref) {r : String} :
    r ∈ (s.mapOwn f).references ↔ r ∈ s.references := by
  obtain rfl | ⟨b, rfl⟩ := eq_absent_or_ofBody s
  · rfl
  · have hmap : (ofBody b).mapOwn f = ofBody { b with own := f b.own } := rfl
    have hbelow : Body.below { b with own := f b.own } = b.below := rfl
    rw [hmap, mem_references_ofBody, mem_references_ofBody, hbelow, hf]

/-! ## Reading back -/

/-- the names of one level stay apart -/
structure Parts.Distinct {α : Type} (f : String → String) (p : Parts α) : Prop where
  properties : ((p.properties.getD []).map fun e => f e.1).Nodup
  definitions : (p.definitions.map fun e => f e.1).Nodup
  defs : (p.defs.map fun e => f e.1).Nodup

/-- the names of every level stay apart -/
def Keyed (f : String → String) : Schema → Prop := fold True fun p => p.Distinct f ∧ ∀ q ∈ p.toList, q

theorem keyed_ofBody {f : String → String} {b : Body} :
    (ofBody b).Keyed f ↔ (b.parts id).Distinct f ∧ b.Below (Keyed f) := by
  have hdistinct : (b.parts (Keyed f)).Distinct f ↔ (b.parts id).Distinct f := by
    have hiff {α β : Type} (p : Parts α) (q : Parts β)
        (h₁ : (p.properties.getD []).map (fun e => f e.1) = (q.properties.getD []).map fun e => f e.1)
        (h₂ : p.definitions.map (fun e => f e.1) = q.definitions.map fun e => f e.1)
        (h₃ : p.defs.map (fun e => f e.1) = q.defs.map fun e => f e.1) : p.Distinct f ↔ q.Distinct f :=
      ⟨fun h => ⟨h₁ ▸ h.properties, h₂ ▸ h.definitions, h₃ ▸ h.defs⟩,
        fun h => ⟨h₁ ▸ h.properties, h₂ ▸ h.definitions, h₃ ▸ h.defs⟩⟩
    refine hiff _ _ ?_ (by simp [Body.parts, Function.comp_def]) (by simp [Body.parts, Function.comp_def])
    cases hp : b.properties <;> simp [Body.parts, hp, Function.comp_def]
  rw [Keyed, fold_ofBody, ← Keyed, hdistinct, Body.toList_parts, ← Body.forall_below, List.forall_mem_map]

theorem mem_rereadMap {α : Type} {f : String → String} {fs : List (String × α)} {a : α}
    (h : a ∈ (rereadMap f fs).map (·.2)) : a ∈ fs.map (·.2) := by
  obtain ⟨e, he, rfl⟩ := List.mem_map.1 h
  obtain ⟨d, hd, rfl⟩ := List.mem_map.1 (Dict.mem_ofList he)
  exact List.mem_map.2 ⟨d, hd, rfl⟩

theorem mem_rereadMap_of_nodup {α : Type} {f : String → String} {fs : List (String × α)}
    (hn : (fs.map fun e => f e.1).Nodup) {e : String × α} (he : e ∈ fs) : (f e.1, e.2) ∈ rereadMap f fs := by
  have hmem : (f e.1, e.2) ∈ fs.map fun e => (f e.1, e.2) := List.mem_map.2 ⟨e, he, rfl⟩
  have hnodup : ((fs.map fun e => (f e.1, e.2)).map (·.1)).Nodup := by
    simpa [List.map_map, Function.comp_def] using hn
  refine (Dict.get?_eq_some (Dict.sorted_ofList _).nodup).1 ?_
  rw [Dict.get?_ofList, Dict.get?_reverse hnodup]
  exact (Dict.get?_eq_some hnodup).2 hmem

theorem mem_nonEmpty {α : Type} {xs : List α} {a : α} : a ∈ (nonEmpty xs).getD [] ↔ a ∈ xs := by
  cases xs <;> simp [nonEmpty]

theorem mem_below {b : Body} {s : Schema} : s ∈ b.below ↔
    s ∈ (b.properties.getD []).map (·.2) ∨ s ∈ Extent.toList b.additional ∨ s = b.propertyNames ∨
      s ∈ Items.toList b.items ∨ s ∈ Extent.toList b.additionalItems ∨ s ∈ b.anyOf.getD [] ∨ s ∈ b.oneOf.getD [] ∨
      s ∈ b.allOf.getD [] ∨ s ∈ b.definitions.map (·.2) ∨ s ∈ b.defs.map (·.2) := by
  simp [Body.below, Parts.toList, Body.parts, Extent.toList, Items.toList]

section Rereading

variable {f : String → String} {b : Body}

theorem mem_extent_reread {x : Extent} {s : Schema} (h : s ∈ Extent.toList (Beyond.ofExtent (Schema.reread f) x).reread) :
    ∃ t ∈ Extent.toList x, s = t.reread f := by
  cases x with
  | unset => cases h
  | flag b => cases h
  | sub t =>
    refine ⟨t, by simp [Extent.toList, Beyond.ofExtent, Beyond.toList], ?_⟩
    rw [Beyond.ofExtent, Beyond.reread] at h
    split at h
    · cases h
    · simpa [Extent.toList, Beyond.ofExtent, Beyond.toList] using h

theorem mem_items_reread {x : Items} {s : Schema} (h : s ∈ Items.toList (Elements.ofItems (Schema.reread f) x).reread) :
    s = .empty ∨ ∃ t ∈ Items.toList x, s = t.reread f := by
  cases x with
  | unset => cases h
  | single t =>
    rw [Elements.ofItems, Elements.reread] at h
    split at h
    · exact .inl (by simpa [Items.toList, Elements.ofItems, Elements.toList] using h)
    · exact .inr ⟨t, by simp [Items.toList, Elements.ofItems, Elements.toList],
        by simpa [Items.toList, Elements.ofItems, Elements.toList] using h⟩
  | tuple ts =>
    obtain ⟨t, ht, rfl⟩ : ∃ t ∈ ts, t.reread f = s := by
      simpa [Elements.reread, Items.toList, Elements.ofItems, Elements.toList] using h
    exact .inr ⟨t, by simpa [Items.toList, Elements.ofItems, Elements.toList] using ht, rfl⟩

theorem mem_given_reread {o : Option (List Schema)} {s : Schema} :
    s ∈ (nonEmpty ((o.map (·.map (Schema.reread f))).getD [])).getD [] ↔ ∃ t ∈ o.getD [], s = t.reread f := by
  rw [mem_nonEmpty]
  cases o <;> simp [eq_comm]

theorem mem_fields_reread {fs : List (String × Schema)} {s : Schema}
    (h : s ∈ (rereadMap f (fs.map fun e => (e.1, e.2.reread f))).map (·.2)) : ∃ t ∈ fs.map (·.2), s = t.reread f := by
  have hs := mem_rereadMap h
  rw [List.map_map] at hs
  obtain ⟨e, he, rfl⟩ := List.mem_map.1 hs
  exact ⟨e.2, List.mem_map_of_mem he, rfl⟩

theorem properties_reread : ((b.parts (Schema.reread f)).reread f).properties.getD [] =
    rereadMap f ((b.properties.getD []).map fun e => (e.1, e.2.reread f)) := by
  cases hp : b.properties with
  | none => simp [Parts.reread, Body.parts, hp, nonEmpty, rereadMap, Dict.ofList]
  | some fs => cases fs <;> simp [Parts.reread, Body.parts, hp, nonEmpty, rereadMap, Dict.ofList]

/-- what is read below comes from below -/
theorem mem_below_reread {s : Schema} (h : s ∈ ((b.parts (Schema.reread f)).reread f).below) :
    s = .empty ∨ ∃ t ∈ b.below, s = t.reread f := by
  have hfrom {ts : List Schema} (hsub : ∀ t ∈ ts, t ∈ b.below) (h : ∃ t ∈ ts, s = t.reread f) :
      s = .empty ∨ ∃ t ∈ b.below, s = t.reread f := by
    obtain ⟨t, ht, rfl⟩ := h
    exact .inr ⟨t, hsub t ht, rfl⟩
  rcases mem_below.1 h with h | h | h | h | h | h | h | h | h | h
  · rw [properties_reread] at h
    exact hfrom (fun t ht => mem_below.2 (by simp only [ht, true_or])) (mem_fields_reread h)
  · exact hfrom (fun t ht => mem_below.2 (by simp only [ht, true_or, or_true])) (mem_extent_reread h)
  · exact .inr ⟨b.propertyNames, mem_below.2 (by simp only [true_or, or_true]), h⟩
  · rcases mem_items_reread h with h | h
    · exact .inl h
    · exact hfrom (fun t ht => mem_below.2 (by simp only [ht, true_or, or_true])) h
  · exact hfrom (fun t ht => mem_below.2 (by simp only [ht, true_or, or_true])) (mem_extent_reread h)
  · exact hfrom (fun t ht => mem_below.2 (by simp only [ht, true_or, or_true])) (mem_given_reread.1 h)
  · exact hfrom (fun t ht => mem_below.2 (by simp only [ht, true_or, or_true])) (mem_given_reread.1 h)
  · exact hfrom (fun t ht => mem_below.2 (by simp only [ht, true_or, or_true])) (mem_given_reread.1 h)
  · exact hfrom (fun t ht => mem_below.2 (by simp only [ht, true_or, or_true])) (mem_fields_reread h)
  · exact hfrom (fun t ht => mem_below.2 (by simp only [ht, or_true])) (mem_fields_reread h)

theorem mem_fields_reread_of {fs : List (String × Schema)} (hn : (fs.map fun e => f e.1).Nodup) {t : Schema}
    (ht : t ∈ fs.map (·.2)) : t.reread f ∈ (rereadMap f (fs.map fun e => (e.1, e.2.reread f))).map (·.2) := by
  obtain ⟨e, he, rfl⟩ := List.mem_map.1 ht
  have hn' : ((fs.map fun e => (e.1, e.2.reread f)).map fun e => f e.1).Nodup := by
    simpa [Function.comp_def] using hn
  exact List.mem_map_of_mem (mem_rereadMap_of_nodup hn' (List.mem_map_of_mem he))

theorem mem_extent_reread_of {x : Extent} {t : Schema} (ht : t ∈ Extent.toList x) (ha : t.isAbsent = false) :
    t.reread f ∈ Extent.toList (Beyond.ofExtent (Schema.reread f) x).reread := by
  cases x with
  | unset => cases ht
  | flag b => cases ht
  | sub u =>
    obtain rfl : t = u := by simpa [Extent.toList, Beyond.ofExtent, Beyond.toList] using ht
    simp [Beyond.ofExtent, Beyond.reread, isAbsent_reread, ha, Extent.toList, Beyond.toList]

theorem mem_items_reread_of {x : Items} {t : Schema} (ht : t ∈ Items.toList x) (ha : t.isAbsent = false) :
    t.reread f ∈ Items.toList (Elements.ofItems (Schema.reread f) x).reread := by
  cases x with
  | unset => cases ht
  | single u =>
    obtain rfl : t = u := by simpa [Items.toList, Elements.ofItems, Elements.toList] using ht
    simp [Elements.ofItems, Elements.reread, isAbsent_reread, ha, Items.toList, Elements.toList]
  | tuple us =>
    have ht : t ∈ us := by simpa [Items.toList, Elements.ofItems, Elements.toList] using ht
    simpa [Elements.ofItems, Elements.reread, Items.toList, Elements.toList] using ⟨t, ht, rfl⟩

/-- what stands below is read, unless it is missing -/
theorem mem_below_reread_of (hd : (b.parts id).Distinct f) {t : Schema} (ht : t ∈ b.below) (ha : t.isAbsent = false) :
    t.reread f ∈ ((b.parts (Schema.reread f)).reread f).below := by
  have hprops : ((b.properties.getD []).map fun e => f e.1).Nodup := by
    have := hd.properties
    cases hp : b.properties <;> simp_all [Body.parts]
  have hdefs : (b.definitions.map fun e => f e.1).Nodup := by simpa [Body.parts] using hd.definitions
  have hdefs' : (b.defs.map fun e => f e.1).Nodup := by simpa [Body.parts] using hd.defs
  rw [mem_below]
  rcases mem_below.1 ht with h | h | h | h | h | h | h | h | h | h
  · rw [properties_reread]
    exact .inl (mem_fields_reread_of hprops h)
  · exact .inr (.inl (mem_extent_reread_of h ha))
  · exact .inr (.inr (.inl (congrArg _ h)))
  · exact .inr (.inr (.inr (.inl (mem_items_reread_of h ha))))
  · exact .inr (.inr (.inr (.inr (.inl (mem_extent_reread_of h ha)))))
  · exact .inr (.inr (.inr (.inr (.inr (.inl (mem_given_reread.2 ⟨t, h, rfl⟩))))))
  · exact .inr (.inr (.inr (.inr (.inr (.inr (.inl (mem_given_reread.2 ⟨t, h, rfl⟩)))))))
  · exact .inr (.inr (.inr (.inr (.inr (.inr (.inr (.inl (mem_given_reread.2 ⟨t, h, rfl⟩))))))))
  · exact .inr (.inr (.inr (.inr (.inr (.inr (.inr (.inr (.inl (mem_fields_reread_of hdefs h)))))))))
  · exact .inr (.inr (.inr (.inr (.inr (.inr (.inr (.inr (.inr (mem_fields_reread_of hdefs' h)))))))))

/-- **References read back.** The references of a schema that is written and read again are its references, each
changed as every string is. -/
theorem mem_references_reread (hf : f "" = "") {s : Schema} (hs : s.Keyed f) {r : String} :
    r ∈ (s.reread f).references ↔ r ≠ "" ∧ ∃ q ∈ s.references, f q = r := by
  induction s using treeInduction with
  | absent => simp
  | node b ih =>
    obtain ⟨hd, hb⟩ := keyed_ofBody.1 hs
    rw [reread_ofBody, mem_references_ofBody]
    constructor
    · rintro (⟨hr, hown⟩ | ⟨s, hs, hr⟩)
      · have hown : f b.own.ref = r := hown
        refine ⟨hr, b.own.ref, mem_references_ofBody.2 (.inl ⟨?_, rfl⟩), hown⟩
        rintro hempty
        exact hr (by rw [← hown, hempty, hf])
      · rcases mem_below_reread hs with rfl | ⟨t, ht, rfl⟩
        · simp [empty, mem_references_ofBody, below_ofKeywords] at hr
        · obtain ⟨hr, q, hq, hqr⟩ := (Body.forall_below.2 ih t ht (Body.forall_below.2 hb t ht)).1 hr
          exact ⟨hr, q, references_subset_ofBody ht hq, hqr⟩
    · rintro ⟨hr, q, hq, rfl⟩
      rcases mem_references_ofBody.1 hq with ⟨-, rfl⟩ | ⟨t, ht, hq⟩
      · exact .inl ⟨hr, rfl⟩
      · have ha : t.isAbsent = false := by
          obtain rfl | ⟨c, rfl⟩ := eq_absent_or_ofBody t
          · simp at hq
          · rfl
        exact .inr ⟨t.reread f, mem_below_reread_of hd ht ha,
          (Body.forall_below.2 ih t ht (Body.forall_below.2 hb t ht)).2 ⟨hr, q, hq, rfl⟩⟩

end Rereading

/-! ## Levels -/

/-- something holds on every level of a schema -/
inductive Everywhere (Q : Body → Prop) : Schema → Prop
  | absent : Everywhere Q .absent
  | node {b : Body} (level : Q b) (below : ∀ s ∈ b.below, Everywhere Q s) : Everywhere Q (ofBody b)

theorem ofBody_injective {b c : Body} (h : ofBody b = ofBody c) : b = c := by
  have := congrArg body h
  rwa [ofBody_body, ofBody_body] at this

theorem mapOwn_ofBody (b : Body) (f : Keywords → Keywords) : (ofBody b).mapOwn f = ofBody { b with own := f b.own } := rfl

variable {Q R : Body → Prop} {b : Body} {s : Schema}

theorem everywhere_ofBody : (ofBody b).Everywhere Q ↔ Q b ∧ ∀ s ∈ b.below, s.Everywhere Q := by
  constructor
  · intro h
    generalize hs : ofBody b = s at h
    cases h with
    | absent => cases hs
    | node level below =>
      obtain rfl := ofBody_injective hs
      exact ⟨level, below⟩
  · rintro ⟨level, below⟩
    exact .node level below

theorem everywhere_ofKeywords {k : Keywords} : (ofKeywords k).Everywhere Q ↔ Q { own := k } := by
  rw [ofKeywords, everywhere_ofBody, below_ofKeywords]
  simp [Everywhere.absent]

theorem Everywhere.imp (h : ∀ b, Q b → R b) (hs : s.Everywhere Q) : s.Everywhere R := by
  induction hs with
  | absent => exact .absent
  | node level _ ih => exact .node (h _ level) ih

/-- the level at the top changed, and nothing below it that is not as before -/
theorem Everywhere.top {c : Body} (hs : (ofBody b).Everywhere Q) (hc : Q c)
    (hbelow : ∀ s ∈ c.below, s ∈ b.below ∨ s.Everywhere Q) : (ofBody c).Everywhere Q := by
  refine everywhere_ofBody.2 ⟨hc, fun s h => ?_⟩
  rcases hbelow s h with h | h
  · exact (everywhere_ofBody.1 hs).2 s h
  · exact h

theorem Everywhere.mapOwn {f : Keywords → Keywords} (hs : s.Everywhere Q) (hf : ∀ b, Q b → Q { b with own := f b.own }) :
    (s.mapOwn f).Everywhere Q := by
  obtain rfl | ⟨b, rfl⟩ := eq_absent_or_ofBody s
  · exact .absent
  · obtain ⟨level, below⟩ := everywhere_ofBody.1 hs
    exact .node (hf b level) below

/-- keywords are those of the levels -/
theorem Everywhere.keywords {P : Keywords → Prop} (h : ∀ b, Q b → P b.own) (hs : s.Everywhere Q) : ∀ k ∈ s.keywords, P k := by
  induction hs with
  | absent => simp [Schema.keywords]
  | @node b level _ ih =>
    intro k hk
    rw [keywords_ofBody, List.mem_cons, List.mem_flatMap] at hk
    obtain rfl | ⟨s, hs, hk⟩ := hk
    · exact h b level
    · exact ih s hs k hk

/-- texts are those of the levels -/
theorem Everywhere.texts {P : String → Prop} (h : ∀ b, Q b → ∀ t ∈ Keywords.texts b.own ++ b.names, P t)
    (hs : s.Everywhere Q) : ∀ t ∈ s.texts, P t := by
  induction hs with
  | absent => simp [Schema.texts]
  | @node b level _ ih =>
    intro t ht
    rw [texts_ofBody, List.mem_append, List.mem_flatMap] at ht
    obtain ht | ⟨s, hs, ht⟩ := ht
    · exact h b level t ht
    · exact ih s hs t ht

theorem Everywhere.keyed {f : String → String} (h : ∀ b, Q b → (b.parts id).Distinct f) (hs : s.Everywhere Q) : s.Keyed f := by
  induction hs with
  | absent => trivial
  | @node b level _ ih => exact keyed_ofBody.2 ⟨h b level, Body.forall_below.1 ih⟩

end Schemata.Schema
