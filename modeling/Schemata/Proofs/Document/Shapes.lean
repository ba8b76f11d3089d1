import Mathlib.Tactic
import Schemata.Proofs.Document.Resolved
import Schemata.Proofs.Graph.Judging
import Schemata.Proofs.Program.Shapes
import Schemata.Proofs.Schema.Bounds

/-!
Shapes of renderings.

A rendering in the plain dialect is written, read back with its names filled in, and lowered. For each kind of node,
this gives the shape that comes out of it from the shapes of the renderings below. Annotations make no difference
(`lower_annotated`), and the texts of the graph come back as they were if they hold no token.
-/

namespace Schemata.Document

open Schema (Body ofBody FiniteBounds)
open Lowering (lower lowerList lowerFields lowerGiven typedShape impliedTypes listed PlainLevel)

/-- an integer of 64 bits -/
def IsWord (n : Int) : Prop := -2 ^ 63 ≤ n ∧ n < 2 ^ 63

instance (n : Int) : Decidable (IsWord n) := inferInstanceAs (Decidable (_ ∧ _))

/-- what filling in names keeps: all texts without tokens -/
def KeepsPlain (f : String → String) : Prop := ∀ s, Placeholder.occursIn s = false → f s = s

variable {L : Lowering.Context} {f : String → String} {x : Shape}

/-! ## Annotations -/

theorem lower_annotate {m : Meta} (hr : m.rules = []) (he : m.extensions = []) (S : Schema) :
    lower L ((annotate .plain m S).reread f) = lower L (S.reread f) := by
  obtain rfl | ⟨b, rfl⟩ := Schema.eq_absent_or_ofBody S
  · rfl
  · rw [annotate, Schema.mapOwn_ofBody, Schema.reread_ofBody, Schema.reread_ofBody, Lowering.lower_ofBody,
      Lowering.lower_ofBody]
    simp only [hr, he, List.append_nil, putAll, List.foldl_nil]
    rfl

theorem lower_annotated {ns : List Node} (hns : ∀ n ∈ ns, n.info.rules = [] ∧ n.info.extensions = []) (S : Schema) :
    lower L ((annotated .plain ns S).reread f) = lower L (S.reread f) := by
  induction ns generalizing S with
  | nil => rfl
  | cons n ns ih =>
    obtain ⟨hr, he⟩ := hns n (by simp)
    rw [annotated, List.foldl_cons, ← annotated, ih fun m hm => hns m (by simp [hm]), lower_annotate hr he]

theorem finite_annotated {d : Dialect} {ns : List Node} {S : Schema} :
    (annotated d ns S).Everywhere (fun b => FiniteBounds b.own) ↔ S.Everywhere fun b => FiniteBounds b.own := by
  induction ns generalizing S with
  | nil => rfl
  | cons n ns ih =>
    rw [annotated, List.foldl_cons, ← annotated, ih]
    obtain rfl | ⟨b, rfl⟩ := Schema.eq_absent_or_ofBody S
    · rfl
    · rw [annotate, Schema.mapOwn_ofBody, Schema.everywhere_ofBody, Schema.everywhere_ofBody]
      refine and_congr_left fun _ => ⟨fun h => ?_, fun h => ?_⟩
      · exact ⟨h.minimum, h.maximum, h.exclusiveMinimum, h.exclusiveMaximum, h.multipleOf⟩
      · exact ⟨h.minimum, h.maximum, h.exclusiveMinimum, h.exclusiveMaximum, h.multipleOf⟩

/-! ## Keywords that come back -/

theorem rereadInt_word {o : Option Int} (h : ∀ n ∈ o, IsWord n) : Schema.rereadInt o = o := by
  cases o with
  | none => rfl
  | some n =>
    obtain ⟨h1, h2⟩ := h n rfl
    exact congrArg some (Int.bmod_eq_of_le (by norm_num; exact h1) (by norm_num; omega))

theorem rereadValue_string (t : String) : Schema.rereadValue f (some (.string t)) = some (.string (f t)) := rfl

theorem nonEmpty_nil {α : Type} : Schema.nonEmpty ([] : List α) = none := rfl

variable (hL : L.options.dialect = .plain) (hf : KeepsPlain f)

include hL hf

/-- a level that is read back, of a rendering that is no reference, without rules -/
theorem plainLevel {b : Body} (hr : b.own.ref = "") (hrules : b.own.rules = []) (hone : b.oneOf = none) :
    PlainLevel L ((b.parts (Schema.reread f)).reread f) where
  dialect := hL
  ref := by
    change f b.own.ref = ""
    rw [hr, hf _ (by decide)]
  rules := by
    change b.own.rules.map _ = []
    rw [hrules, List.map_nil]
  oneOf := by
    change Schema.nonEmpty ((b.oneOf.map _).getD []) = none
    rw [hone]
    rfl

/-! ## Scalars -/

theorem shape_text {o : TextOptions} (hmin : ∀ n ∈ o.minLength, IsWord n) (hmax : ∀ n ∈ o.maxLength, IsWord n)
    (hpattern : Placeholder.occursIn o.pattern = false) (hformat : Placeholder.occursIn o.format = false)
    (h : lower L ((textSchema o).reread f) = .ok x) : x = .primitive {} {
      type := .string, minLength := o.minLength, maxLength := o.maxLength, pattern := o.pattern
      format := if (Format.ofName? o.format).isSome && L.options.formats then o.format else "" } := by
  rw [textSchema, Schema.ofKeywords, Schema.reread_ofBody,
    Lowering.lower_typed (plainLevel hL hf rfl rfl rfl) (t := "string") ?_ ?_ rfl rfl] at h
  · have hx := Lowering.stringShape_ok h
    simpa only [Schema.Parts.reread, Body.parts, Schema.Keywords.reread, typed, rereadInt_word hmin, rereadInt_word hmax,
      hf _ hpattern, hf _ hformat] using hx
  · simp [impliedTypes, Schema.Parts.reread, Body.parts, Schema.Keywords.reread, Keywords.types, typed, rereadValue_string,
      hf "string" (by decide)]
  · rfl

theorem shape_number {t : String} {k : Scalar} (ht : t = "number" ∧ k = .number ∨ t = "integer" ∧ k = .integer)
    {o : NumberOptions} (hfinite : (numberSchema .plain t o).Everywhere fun b => FiniteBounds b.own)
    (h : lower L ((numberSchema .plain t o).reread f) = .ok x) : x = .primitive {} {
      type := k
      min := (Lowering.bound (fun x y => x ≥ y) o.minimum (o.exclusiveMinimum.map .float)).1
      max := (Lowering.bound (fun x y => x ≤ y) o.maximum (o.exclusiveMaximum.map .float)).1
      exclusiveMin := (Lowering.bound (fun x y => x ≥ y) o.minimum (o.exclusiveMinimum.map .float)).2
      exclusiveMax := (Lowering.bound (fun x y => x ≤ y) o.maximum (o.exclusiveMaximum.map .float)).2
      multipleOf := o.multipleOf } := by
  have hform : numberSchema .plain t o = ofBody { own := {
      type := some (.string t), minimum := o.minimum, maximum := o.maximum, multipleOf := o.multipleOf
      exclusiveMinimum := o.exclusiveMinimum.map .float, exclusiveMaximum := o.exclusiveMaximum.map .float } } := rfl
  have hbounds := (Schema.everywhere_ofBody.1 (hform ▸ hfinite)).1
  have hword : f t = t := by obtain ⟨rfl, -⟩ | ⟨rfl, -⟩ := ht <;> exact hf _ (by decide)
  rw [hform, Schema.reread_ofBody, Lowering.lower_typed (plainLevel hL hf rfl rfl rfl) (t := t) ?_ ?_ rfl rfl] at h
  · simp only [Schema.Parts.reread, Body.parts, Schema.Keywords.reread, Schema.rereadFloat_finite hbounds.minimum,
      Schema.rereadFloat_finite hbounds.maximum, Schema.rereadFloat_finite hbounds.multipleOf,
      Schema.rereadValue_finite f fun x hx => hbounds.exclusiveMinimum x hx,
      Schema.rereadValue_finite f fun x hx => hbounds.exclusiveMaximum x hx] at h
    obtain ⟨rfl, rfl⟩ | ⟨rfl, rfl⟩ := ht
    · exact Lowering.numberShape_ok h
    · exact Lowering.numberShape_ok h
  · simp [impliedTypes, Schema.Parts.reread, Body.parts, Schema.Keywords.reread, Keywords.types, rereadValue_string, hword]
  · rfl

theorem shape_boolean (h : lower L ((Schema.ofKeywords (typed "boolean")).reread f) = .ok x) :
    x = .primitive {} { type := .boolean } := by
  rw [Schema.ofKeywords, Schema.reread_ofBody,
    Lowering.lower_typed (plainLevel hL hf rfl rfl rfl) (t := "boolean") ?_ ?_ rfl rfl] at h
  · exact (Except.ok.inj h).symm
  · simp [impliedTypes, Schema.Parts.reread, Body.parts, Schema.Keywords.reread, Keywords.types, typed, rereadValue_string,
      hf "boolean" (by decide)]
  · rfl

theorem shape_null (h : lower L (nullBranch.reread f) = .ok x) : x = .primitive {} { type := .null } := by
  rw [nullBranch, Schema.ofKeywords, Schema.reread_ofBody,
    Lowering.lower_typed (plainLevel hL hf rfl rfl rfl) (t := "null") ?_ ?_ rfl rfl] at h
  · exact (Except.ok.inj h).symm
  · simp [impliedTypes, Schema.Parts.reread, Body.parts, Schema.Keywords.reread, Keywords.types, rereadValue_string,
      hf "null" (by decide)]
  · rfl

/-! ## Compositions -/

omit hL in
/-- a level without keywords but listed values implies no type -/
theorem impliedTypes_bare {b : Body} (hown : b.own = { const := b.own.const, enum := b.own.enum })
    (hproperties : b.properties = none) (hadditional : b.additional = .unset) (hnames : b.propertyNames = .absent)
    (hitems : b.items = .unset) :
    impliedTypes ((b.parts (Schema.reread f)).reread f) = [] := by
  have hempty := hf "" (by decide)
  obtain ⟨own, _, _, _, _, _, _, _, _, _, _⟩ := b
  simp only at hown hproperties hadditional hnames hitems
  rw [hown]
  simp [impliedTypes, Schema.Parts.reread, Body.parts, Schema.Keywords.reread, hproperties, hadditional, hnames, hitems,
    hempty, Keywords.types, Schema.rereadValue, Schema.rereadInt, Schema.rereadFloat, nonEmpty_nil, Schema.Beyond.ofExtent,
    Schema.Beyond.reread, Schema.Elements.ofItems, Schema.Elements.reread]
  rfl

theorem shape_unknown (h : lower L (Schema.empty.reread f) = .ok x) : x = .any {} := by
  rw [Schema.empty, Schema.reread_ofBody, Lowering.lower_composed (plainLevel hL hf rfl rfl rfl)
    (impliedTypes_bare hf rfl rfl rfl rfl rfl) rfl] at h
  exact (Except.ok.inj h).symm

theorem shape_union {ss : List Schema} (hss : ss ≠ []) (h : lower L ((ofBody { anyOf := some ss }).reread f) = .ok x) :
    ∃ xs, List.Forall₂ (fun s y => lower L (s.reread f) = .ok y) ss xs ∧ x = .anyOf {} xs := by
  rw [Schema.reread_ofBody, Lowering.lower_composed (plainLevel hL hf rfl rfl rfl)
    (impliedTypes_bare hf rfl rfl rfl rfl rfl) rfl] at h
  have hgiven : lowerGiven L (Schema.nonEmpty (ss.map (Schema.reread f))) = lowerList L (ss.map (Schema.reread f)) := by
    rw [Schema.nonEmpty_of_ne (by simpa using hss)]
    rfl
  obtain ⟨xs, hxs, h⟩ := except_bind_ok h
  rw [show (((({ anyOf := some ss } : Body).parts (Schema.reread f)).reread f).anyOf) =
    Schema.nonEmpty (ss.map (Schema.reread f)) from rfl, hgiven] at hxs
  have hall := List.forall₂_map_left_iff.1 (Lowering.lowerList_ok hxs)
  refine ⟨xs, hall, ?_⟩
  have hne : xs.isEmpty = false := by
    cases hall with
    | nil => exact absurd rfl hss
    | cons => rfl
  obtain ⟨alls, halls, h⟩ := except_bind_ok h
  cases halls
  rw [← Except.ok.inj h, hne]
  rfl

theorem shape_intersection {ss : List Schema} (h : lower L ((ofBody { allOf := some ss }).reread f) = .ok x) :
    ∃ xs, List.Forall₂ (fun s y => lower L (s.reread f) = .ok y) ss xs ∧ x = Lowering.allShape xs := by
  rw [Schema.reread_ofBody, Lowering.lower_composed (plainLevel hL hf rfl rfl rfl)
    (impliedTypes_bare hf rfl rfl rfl rfl rfl) rfl] at h
  obtain ⟨anys, hanys, h⟩ := except_bind_ok h
  cases hanys
  obtain ⟨xs, hxs, h⟩ := except_bind_ok h
  refine ⟨xs, ?_, (Except.ok.inj h).symm⟩
  have hgiven : lowerGiven L (Schema.nonEmpty (ss.map (Schema.reread f))) = .ok xs := hxs
  rcases ss with _ | ⟨s, ss⟩
  · cases hgiven
    exact .nil
  · exact List.forall₂_map_left_iff.1 (Lowering.lowerList_ok hgiven)

/-! ## Lists and objects -/

theorem shape_array {n : Node} {S : Schema} (hS : S.isAbsent = false) (hmin : ∀ k ∈ n.arrayOptions.minItems, IsWord k)
    (hmax : ∀ k ∈ n.arrayOptions.maxItems, IsWord k) (h : lower L ((arraySchema n S).reread f) = .ok x) :
    ∃ item, lower L (S.reread f) = .ok item ∧ x = .array {} item n.arrayOptions := by
  rw [arraySchema, Schema.reread_ofBody,
    Lowering.lower_typed (plainLevel hL hf rfl rfl rfl) (t := "array") ?_ ?_ rfl rfl] at h
  · have hitems : (Schema.Elements.ofItems (Schema.reread f) (.single S)).reread = .single (S.reread f) := by
      simp only [Schema.Elements.ofItems, Schema.Elements.reread, Schema.isAbsent_reread, hS, Bool.false_eq_true, if_false]
    obtain ⟨item, hitem, rfl⟩ := Lowering.arrayShape_single hitems (by rw [Schema.isAbsent_reread, hS]) h
    refine ⟨item, hitem, ?_⟩
    simp only [Schema.Parts.reread, Body.parts, Schema.Keywords.reread, typed, rereadInt_word hmin, rereadInt_word hmax]
  · simp [impliedTypes, Schema.Parts.reread, Body.parts, Schema.Keywords.reread, Keywords.types, typed, rereadValue_string,
      hf "array" (by decide)]
  · rfl

/-- the shape of a tuple: its positions, and what follows them -/
theorem shape_tuple {k : Nat} {ss : List Schema} {rest : Option Schema} (hrest : ∀ s ∈ rest, s.isAbsent = false)
    (hk : IsWord k) (hlen : IsWord ss.length) (h : lower L ((tupleSchema .plain k ss rest).reread f) = .ok x) :
    ∃ shapes beyond, List.Forall₂ (fun s y => lower L (s.reread f) = .ok y) ss shapes ∧
      (match rest with
        | some s => lower L (s.reread f) = .ok beyond
        | none => beyond = .absent) ∧
      x = .tuple {} shapes beyond { minItems := k, closed := rest.isNone } := by
  have hform : tupleSchema .plain k ss rest = ofBody {
      own := { type := some (.string "array"), minItems := if k > 0 then some k else none
               maxItems := if rest.isNone then some ss.length else none }
      items := .tuple ss
      additionalItems := rest.elim (.flag false) .sub } := by cases rest <;> rfl
  rw [hform, Schema.reread_ofBody, Lowering.lower_typed (plainLevel hL hf rfl rfl rfl) (t := "array") ?_ ?_ rfl rfl] at h
  · obtain ⟨shapes, open_, beyond, hshapes, hbeyond, rfl⟩ := Lowering.arrayShape_tuple rfl h
    have hall := List.forall₂_map_left_iff.1 (Lowering.lowerList_ok hshapes)
    have hmin : (Schema.rereadInt (if k > 0 then some (k : Int) else none)).getD 0 = k := by
      split
      · rw [rereadInt_word (by simpa using hk), Option.getD_some]
      · rw [show Schema.rereadInt none = none from rfl, Option.getD_none]
        omega
    refine ⟨shapes, beyond, hall, ?_⟩
    cases rest with
    | some s =>
      have hpresent : (s.reread f).isAbsent = false := by rw [Schema.isAbsent_reread, hrest s rfl]
      change Lowering.lowerExtent L (if (s.reread f).isAbsent then .unset else .sub (s.reread f)) = _ at hbeyond
      rw [hpresent] at hbeyond
      obtain ⟨y, hy, heq⟩ := except_map_ok hbeyond
      cases heq
      refine ⟨hy, ?_⟩
      simp only [Schema.Parts.reread, Body.parts, Schema.Keywords.reread, hmin]
      rfl
    | none =>
      cases hbeyond
      refine ⟨rfl, ?_⟩
      have hmax : (Schema.rereadInt (some (ss.length : Int))).filter (fun n => decide (n < (shapes.length : Int))) = none := by
        rw [rereadInt_word (by simpa using hlen), hall.length_eq]
        simp
      simp only [Schema.Parts.reread, Body.parts, Schema.Keywords.reread, hmin, hmax, Option.isNone_none, if_true,
        Bool.false_eq_true, if_false, beq_self_eq_true]
  · simp [impliedTypes, Schema.Parts.reread, Body.parts, Schema.Keywords.reread, Keywords.types, rereadValue_string,
      hf "array" (by decide)]
  · rfl

theorem shape_record {n : Node} {S : Schema} (hS : S.isAbsent = false) (hp : Placeholder.occursIn n.keyPattern = false)
    (h : lower L ((recordSchema .plain n S).reread f) = .ok x) :
    ∃ value, lower L (S.reread f) = .ok value ∧
      x = .object {} [] value { unknown := .checked, keyPattern := n.keyPattern } := by
  have hform : recordSchema .plain n S = ofBody {
      own := { type := some (.string "object") }
      additional := .sub S
      propertyNames := if n.keyPattern = "" then .absent else .ofKeywords { pattern := n.keyPattern } } := by
    unfold recordSchema
    by_cases hk : n.keyPattern = "" <;> simp [hk, typed]
  rw [hform, Schema.reread_ofBody, Lowering.lower_typed (plainLevel hL hf rfl rfl rfl) (t := "object") ?_ ?_ rfl rfl] at h
  · obtain ⟨fields, unknown, extra, hfields, hextra, rfl⟩ := Lowering.objectShape_ok h
    have hpresent : (S.reread f).isAbsent = false := by rw [Schema.isAbsent_reread, hS]
    change Lowering.lowerExtent L (if (S.reread f).isAbsent then .unset else .sub (S.reread f)) = _ at hextra
    rw [hpresent] at hextra
    obtain ⟨value, hvalue, heq⟩ := except_map_ok hextra
    obtain ⟨rfl, rfl⟩ := Prod.mk.inj heq
    cases hfields
    refine ⟨value, hvalue, ?_⟩
    congr 2
    unfold Lowering.keyPatternOf
    by_cases hk : n.keyPattern = ""
    · simp only [Schema.Parts.reread, Body.parts, hk, if_true, Schema.reread_absent]
      rfl
    · have hnames : (Schema.ofKeywords { pattern := n.keyPattern }).reread f = _ := Schema.reread_ofBody f _
      simp only [Schema.Parts.reread, Body.parts, hk, if_false, hnames]
      change (if f n.keyPattern ≠ "" then f n.keyPattern else _) = n.keyPattern
      rw [hf _ hp, if_pos hk]
  · simp [impliedTypes, Schema.Parts.reread, Body.parts, Schema.Keywords.reread, Keywords.types, rereadValue_string,
      hf "object" (by decide)]
  · rfl

/-- the fields of an object are those of its rendering, in another order -/
theorem shape_object {cx : Context} {n : Node} {fs : List (String × Schema)} (hkeys : (fs.map (·.1)).Nodup)
    (htok : ∀ e ∈ fs, Placeholder.occursIn e.1 = false)
    (hrequired : ∀ k ∈ requiredKeys cx.graph (n.objectOptions.keys.zip n.children), Placeholder.occursIn k = false)
    (h : lower L ((objectSchema cx n fs).reread f) = .ok x) :
    ∃ fields xs, List.Forall₂ (fun e y => y.1 = e.1 ∧ lower L (e.2.reread f) = .ok y.2) fs xs ∧ xs.Perm fields ∧
      x = .object {} fields .absent {
        required := sortedSet (sortStrings (requiredKeys cx.graph (n.objectOptions.keys.zip n.children)))
        unknown := if cx.options.strict || n.objectOptions.unlisted = .reject then .strict else .allow } := by
  rw [objectSchema, Schema.reread_ofBody, Lowering.lower_typed (plainLevel hL hf rfl rfl rfl) (t := "object") ?_ ?_ rfl rfl] at h
  · obtain ⟨fields, unknown, extra, hfields, hextra, rfl⟩ := Lowering.objectShape_ok h
    -- the properties are those of the rendering, in another order
    have hperm : (Schema.rereadMap f ((Dict.ofList fs).map fun e => (e.1, e.2.reread f))).Perm
        (fs.map fun e => (e.1, e.2.reread f)) := by
      have hlist : (((Dict.ofList fs).map fun e => (e.1, e.2.reread f)).map fun e => (f e.1, e.2)).Perm
          (fs.map fun e => (e.1, e.2.reread f)) := by
        rw [List.map_map]
        refine ((perm_ofList hkeys).map _).trans (.of_eq (List.map_congr_left fun e he => ?_))
        simp only [Function.comp, hf _ (htok e he)]
      refine (perm_ofList ?_).trans hlist
      refine (hlist.map (·.1)).nodup_iff.2 ?_
      rwa [List.map_map]
    have hlower : ∃ ps, ps.Perm (fs.map fun e => (e.1, e.2.reread f)) ∧ lowerFields L ps = .ok fields := by
      change Lowering.lowerOptional L ((Schema.nonEmpty ((Dict.ofList fs).map fun e => (e.1, e.2.reread f))).map
        (Schema.rereadMap f)) = .ok fields at hfields
      rcases hd : (Dict.ofList fs).map fun e => (e.1, e.2.reread f) with _ | ⟨e, es⟩
      · rw [hd] at hperm hfields
        exact ⟨[], hperm, hfields⟩
      · rw [hd, Schema.nonEmpty_of_ne (by simp)] at hfields
        rw [hd] at hperm
        exact ⟨_, hperm, hfields⟩
    obtain ⟨ps, hps, hfields⟩ := hlower
    obtain ⟨xs, hxs, hperm⟩ := List.perm_comp_forall₂ hps.symm (Lowering.lowerFields_ok hfields)
    refine ⟨fields, xs, List.forall₂_map_left_iff.1 hxs, hperm, ?_⟩
    have hnames : (sortStrings (requiredKeys cx.graph (n.objectOptions.keys.zip n.children))).map f =
        sortStrings (requiredKeys cx.graph (n.objectOptions.keys.zip n.children)) := by
      refine (List.map_congr_left fun k hk => ?_).trans (List.map_id _)
      exact hf _ (hrequired k ((List.mergeSort_perm _ _).mem_iff.1 hk))
    change Lowering.lowerExtent L (.flag !(cx.options.strict || n.objectOptions.unlisted = .reject)) = _ at hextra
    have hpattern : Lowering.keyPatternOf (Schema.Parts.reread f (Body.parts {
        own := { typed "object" with
          required := sortStrings (requiredKeys cx.graph (n.objectOptions.keys.zip n.children)) }
        properties := some (Dict.ofList fs)
        additional := .flag !(cx.options.strict || n.objectOptions.unlisted = .reject) } (Schema.reread f))) = "" := rfl
    rw [hpattern]
    cases hstrict : cx.options.strict || n.objectOptions.unlisted = .reject <;> rw [hstrict] at hextra <;> cases hextra <;>
      simp only [Schema.Parts.reread, Body.parts, Schema.Keywords.reread, hnames] <;> rfl
  · simp [impliedTypes, Schema.Parts.reread, Body.parts, Schema.Keywords.reread, Keywords.types, typed, rereadValue_string,
      hf "object" (by decide)]
  · rfl

/-! ## Listed values -/

omit hL in
theorem reread_plain {v : Value} (hv : ∀ t ∈ v.texts, Placeholder.occursIn t = false) : v.reread f = v.written :=
  Value.reread_congr fun t ht => hf t (hv t ht)

theorem shape_const {v : Value} (hv : ∀ t ∈ v.texts, Placeholder.occursIn t = false) (hnull : v.isNull = false)
    (h : lower L ((constSchema .plain v).reread f) = .ok x) : x = .enum {} [v.written] := by
  have hconst : Schema.rereadValue f (some v) = some v.written := by
    rw [← reread_plain hf hv]
    cases v <;> first | rfl | cases hnull
  have hlisted : listed (Schema.Parts.reread f (Body.parts { own := { const := some v } } (Schema.reread f))).own =
      [v.written] := by
    simp only [listed, Schema.Parts.reread, Body.parts, Schema.Keywords.reread, hconst]
  have htypes : impliedTypes (Schema.Parts.reread f (Body.parts { own := { const := some v } } (Schema.reread f))) = [] :=
    impliedTypes_bare hf rfl rfl rfl rfl rfl
  rw [constSchema, Schema.ofKeywords, Schema.reread_ofBody,
    Lowering.lower_values (plainLevel hL hf rfl rfl rfl) htypes hlisted (by simp) rfl rfl] at h
  exact (Except.ok.inj h).symm

/-- the name is of a type of listed values -/
def IsLiteralType (t : String) : Prop := t = "string" ∨ t = "boolean" ∨ t = "integer" ∨ t = "number"

omit hL hf in
theorem literalTypeOf_type {v : Value} {t : String} (h : literalTypeOf v = .type t) : IsLiteralType t := by
  have hnumber (x : Float) : IsLiteralType (numberType x) := by
    unfold numberType IsLiteralType
    split <;> simp
  cases v <;> simp only [literalTypeOf, LiteralType.type.injEq, reduceCtorEq] at h <;> subst h <;>
    first | exact hnumber _ | simp [IsLiteralType]

omit hL hf in
/-- a type shared by all values is a type of each of them, but for integers among numbers -/
theorem literalType_eq {shared t : String} {vs : List Value} (h : literalType shared vs = t) (ht : t ≠ "")
    (hshared : shared = "" ∨ IsLiteralType shared) :
    IsLiteralType t ∧ (shared = "" ∨ shared = t ∨ shared = "integer" ∧ t = "number") ∧
      ∀ v ∈ vs, literalTypeOf v = .passes ∨ literalTypeOf v = .type t ∨ t = "number" ∧ literalTypeOf v = .type "integer" := by
  induction vs generalizing shared with
  | nil =>
    rw [literalType] at h
    subst h
    exact ⟨hshared.resolve_left ht, .inr (.inl rfl), by simp⟩
  | cons v vs ih =>
    rw [literalType] at h
    cases hv : literalTypeOf v with
    | passes =>
      rw [hv] at h
      obtain ⟨h1, h2, h3⟩ := ih h hshared
      exact ⟨h1, h2, List.forall_mem_cons.2 ⟨.inl hv, h3⟩⟩
    | mixed =>
      rw [hv] at h
      exact absurd h.symm ht
    | type u =>
      rw [hv] at h
      have hu := literalTypeOf_type hv
      have hune : u ≠ "" := by rcases hu with rfl | rfl | rfl | rfl <;> decide
      simp only [Bool.or_eq_true, decide_eq_true_eq, Bool.and_eq_true] at h
      split_ifs at h with hsame hmixed
      · obtain ⟨h1, h2, h3⟩ := ih h (.inr hu)
        have h2 := h2.resolve_left hune
        refine ⟨h1, ?_, List.forall_mem_cons.2 ⟨.inr ?_, h3⟩⟩
        · rcases hsame with hsame | rfl
          · exact .inl hsame
          · exact .inr h2
        · rcases h2 with rfl | ⟨rfl, rfl⟩
          · exact .inl hv
          · exact .inr ⟨rfl, hv⟩
      · obtain ⟨h1, h2, h3⟩ := ih h (.inr (by simp [IsLiteralType]))
        obtain rfl : "number" = t := by
          rcases h2 with h2 | h2 | ⟨h2, -⟩
          · exact absurd h2 (by decide)
          · exact h2
          · exact absurd h2 (by decide)
        refine ⟨h1, ?_, List.forall_mem_cons.2 ⟨.inr ?_, h3⟩⟩
        · rcases hmixed with ⟨rfl, -⟩ | ⟨rfl, -⟩
          · exact .inr (.inr ⟨rfl, rfl⟩)
          · exact .inr (.inl rfl)
        · rcases hmixed with ⟨-, rfl⟩ | ⟨-, rfl⟩
          · exact .inl hv
          · exact .inr ⟨rfl, hv⟩
      · exact absurd h.symm ht

omit hL hf in
/-- the rendering of a list of values: its type, if there is one, with null where null is listed -/
theorem enumSchema_ok {n : Node} {S : Schema} (h : enumSchema .plain n = .ok S) : n.enumValues ≠ [] ∧
    ∃ T, S = ofBody { own := { type := T, enum := some n.enumValues } } ∧
      (literalType "" n.enumValues = "" ∧ T = none ∨
        IsLiteralType (literalType "" n.enumValues) ∧ T = some (if n.enumValues.any Value.isNull
          then .array [.string (literalType "" n.enumValues), .string "null"]
          else .string (literalType "" n.enumValues))) := by
  unfold enumSchema at h
  simp only at h
  split at h
  · cases h
  · rename_i hempty
    refine ⟨by simpa using hempty, ?_⟩
    have h := Except.ok.inj h
    rw [← h]
    by_cases ht : literalType "" n.enumValues = ""
    · refine ⟨none, ?_, .inl ⟨ht, rfl⟩⟩
      by_cases hnull : n.enumValues.any Value.isNull = true <;> simp [ht, hnull, withType, widen, Schema.ofKeywords]
    · have htype := (literalType_eq rfl ht (.inl rfl)).1
      refine ⟨_, ?_, .inr ⟨htype, rfl⟩⟩
      have hnotnull : literalType "" n.enumValues ≠ "null" := by
        rcases htype with h | h | h | h <;> rw [h] <;> decide
      by_cases hnull : n.enumValues.any Value.isNull = true <;>
        simp [ht, hnull, withType, widen, Schema.ofKeywords, hnotnull]

/-- the shape of a list of values: the type is checked too where a value may have become one of another type -/
theorem shape_enum {n : Node} {S : Schema} (hS : enumSchema .plain n = .ok S)
    (htok : ∀ v ∈ n.enumValues, ∀ t ∈ v.texts, Placeholder.occursIn t = false) (h : lower L (S.reread f) = .ok x) :
    x = .enum {} (n.enumValues.map Value.written) ∨
      IsLiteralType (literalType "" n.enumValues) ∧
        (x = .enum { nullable := n.enumValues.any Value.isNull } (n.enumValues.map Value.written) ∨
          x = .allOf { nullable := n.enumValues.any Value.isNull }
            [.primitive {} { type := .ofName (literalType "" n.enumValues) }, .enum {} (n.enumValues.map Value.written)]) := by
  obtain ⟨hne, T, rfl, hT⟩ := enumSchema_ok hS
  have hvalues : n.enumValues.map (Value.reread f) = n.enumValues.map Value.written :=
    List.map_congr_left fun v hv => reread_plain hf (htok v hv)
  have hlisted : listed (Schema.Parts.reread f (Body.parts { own := { type := T, enum := some n.enumValues } }
      (Schema.reread f))).own = n.enumValues.map Value.written := by
    change (Schema.nonEmpty (n.enumValues.map (Value.reread f))).getD [] = _
    rw [Schema.nonEmpty_of_ne (by simpa using hne), hvalues, Option.getD_some]
  rw [Schema.reread_ofBody] at h
  rcases hT with ⟨-, rfl⟩ | ⟨ht, rfl⟩
  · refine .inl ?_
    rw [Lowering.lower_values (plainLevel hL hf rfl rfl rfl) (impliedTypes_bare hf rfl rfl rfl rfl rfl) hlisted
      (by simpa using hne) rfl rfl] at h
    exact (Except.ok.inj h).symm
  · refine .inr ⟨ht, ?_⟩
    set t := literalType "" n.enumValues with htdef
    have hword : f t = t := by rcases ht with h | h | h | h <;> rw [h] <;> exact hf _ (by decide)
    have htypes : impliedTypes (Schema.Parts.reread f (Body.parts { own := {
        type := some (if n.enumValues.any Value.isNull then .array [.string t, .string "null"] else .string t)
        enum := some n.enumValues } } (Schema.reread f))) =
        if n.enumValues.any Value.isNull = true then [t, "null"] else [t] := by
      have hnull := hf "null" (by decide)
      by_cases hany : n.enumValues.any Value.isNull = true <;>
        simp [impliedTypes, Schema.Parts.reread, Body.parts, Schema.Keywords.reread, Keywords.types, hany, Schema.rereadValue,
          Value.reread, Json.ofData, Json.ofDataItems, Json.mapStrings, Json.mapItems, Json.toValue, Json.toValues, hword, hnull]
    have hshape : typedShape L (Schema.Parts.reread f (Body.parts { own := {
        type := some (if n.enumValues.any Value.isNull then .array [.string t, .string "null"] else .string t)
        enum := some n.enumValues } } (Schema.reread f))) t = .ok (.primitive {} { type := .ofName t }) := by
      have hempty := hf "" (by decide)
      rcases ht with h | h | h | h <;> rw [h] <;>
        simp [typedShape, Lowering.stringShape, Lowering.numberShape, Schema.Parts.reread, Body.parts, Schema.Keywords.reread,
          hempty, Schema.rereadInt, Schema.rereadFloat, Schema.rereadValue, Lowering.bound, Scalar.ofName, Format.ofName?,
          pure, Except.pure]
    rw [Lowering.lower_typedValues (plainLevel hL hf rfl rfl rfl) (by rcases ht with h | h | h | h <;> rw [h] <;> decide)
      htypes hlisted (by simpa using hne) rfl rfl hshape] at h
    rw [← Except.ok.inj h]
    exact ite_eq_or_eq _ _ _

/-! ## References -/

omit hf in
theorem shape_reference {q r : String} (hq : f q = r) (hr : r ≠ "") (h : lower L ((Schema.reference q).reread f) = .ok x) :
    Lowering.reference L r = .ok x := by
  rw [Schema.reference, Schema.ofKeywords, Schema.reread_ofBody, Lowering.lower_ofBody] at h
  change (if f q ≠ "" then Lowering.reference L (f q) >>= _ else _) = _ at h
  rw [hq, if_pos hr] at h
  obtain ⟨y, hy, h⟩ := except_bind_ok h
  rw [Lowering.finished_same hL rfl] at h
  rw [hy, ← Except.ok.inj h]

end Schemata.Document
