import Mathlib.Tactic
import Schemata.Proofs.Program.Relinking
import Schemata.Proofs.Program.Shapes
import Schemata.Proofs.Program.Walk

/-!
What lowering reaches.

Lowering a document goes through its root and its definitions, and from each level on to the schemas that the level
meets (`Reached met`). Where it succeeds, all of them have shapes (`Reached.lowered`). A level that lists values of
its own types drops the checks of the types, so only some of those shapes are part of the program (`kept`). A shape that
is part of it may carry the null flag and the rules of the levels around it, for a part that is alone takes the place of
the whole: this is `Within`, and `Reached.within` says that what is kept all the way from the top is within the program.
-/

namespace Schemata

namespace Shape

theorem mapBase_mapBase (f g : Base → Base) (s : Shape) : (s.mapBase f).mapBase g = s.mapBase (g ∘ f) := by
  cases s <;> rfl

theorem mapBase_id (s : Shape) : s.mapBase id = s := by
  cases s <;> rfl

theorem base_mapBase {f : Base → Base} {s : Shape} (h : s.isAbsent = false) : (s.mapBase f).base = f s.base := by
  cases s with
  | absent => cases h
  | _ => rfl

/-- the nodes below are those of the shape whatever its base -/
theorem nodes_mapBase {s : Shape} (h : s.isAbsent = false) :
    ∃ ts, s.nodes = s :: ts ∧ ∀ f, (s.mapBase f).nodes = s.mapBase f :: ts := by
  cases s with
  | absent => cases h
  | foreign b => exact ⟨[], by simp [nodes], fun f => by simp [mapBase, nodes]⟩
  | any b => exact ⟨[], by simp [nodes], fun f => by simp [mapBase, nodes]⟩
  | primitive b q => exact ⟨[], by simp [nodes], fun f => by simp [mapBase, nodes]⟩
  | enum b vs => exact ⟨[], by simp [nodes], fun f => by simp [mapBase, nodes]⟩
  | ref b n => exact ⟨[], by simp [nodes], fun f => by simp [mapBase, nodes]⟩
  | array b i l => exact ⟨_, by rw [nodes], fun f => by rw [mapBase, nodes]⟩
  | tuple b is r l => exact ⟨_, by rw [nodes], fun f => by rw [mapBase, nodes]⟩
  | object b fs a q => exact ⟨_, by rw [nodes], fun f => by rw [mapBase, nodes]⟩
  | oneOf b vs d => exact ⟨_, by rw [nodes], fun f => by rw [mapBase, nodes]⟩
  | anyOf b vs => exact ⟨_, by rw [nodes], fun f => by rw [mapBase, nodes]⟩
  | allOf b ps => exact ⟨_, by rw [nodes], fun f => by rw [mapBase, nodes]⟩

theorem self_mem_nodes {s : Shape} (h : s.isAbsent = false) : s ∈ s.nodes := by
  obtain ⟨ts, hs⟩ := nodes_ne_nil h
  simp [hs]

/-- a shape that stands in another, but for the base that it has there -/
def Within (y x : Shape) : Prop := ∃ f, y.mapBase f ∈ x.nodes

theorem Within.of_mem {y x : Shape} (h : y ∈ x.nodes) : Within y x := ⟨id, by rwa [mapBase_id]⟩

theorem Within.mapBase {y : Shape} (h : y.isAbsent = false) (f : Base → Base) : Within y (y.mapBase f) := by
  obtain ⟨ts, -, hf⟩ := nodes_mapBase h
  exact ⟨f, by rw [hf]; exact List.mem_cons_self⟩

theorem Within.trans {z y x : Shape} (hzy : Within z y) (hyx : Within y x) : Within z x := by
  obtain ⟨g, hg⟩ := hzy
  obtain ⟨f, hf⟩ := hyx
  have hpresent : y.isAbsent = false := by
    cases y with
    | absent => simp [nodes] at hg
    | _ => rfl
  obtain ⟨ts, hts, hbase⟩ := nodes_mapBase hpresent
  rw [hts] at hg
  rcases List.mem_cons.1 hg with heq | hmem
  · refine ⟨f ∘ g, ?_⟩
    rw [← mapBase_mapBase, heq]
    exact hf
  · refine ⟨g, nodes_trans hf ?_⟩
    rw [hbase]
    exact List.mem_cons_of_mem _ hmem

end Shape

namespace Lowering

open Schema (Body ofBody)
open Shape (Within)

variable {L : Context} {b : Body}

/-- the partner of a member -/
theorem forall₂_mem {α β : Type} {R : α → β → Prop} {xs : List α} {ys : List β} (h : List.Forall₂ R xs ys) {x : α}
    (hx : x ∈ xs) : ∃ y ∈ ys, R x y := by
  induction h with
  | nil => cases hx
  | cons hr _ ih =>
    rcases List.mem_cons.1 hx with rfl | hx
    · exact ⟨_, List.mem_cons_self, hr⟩
    · obtain ⟨y, hy, hxy⟩ := ih hx
      exact ⟨y, List.mem_cons_of_mem _ hy, hxy⟩

/-! ## One level -/

/-- a level that is no reference, and the shapes of its parts -/
theorem lower_parts (href : b.own.ref = "") {x : Shape} (h : lower L (ofBody b) = .ok x) :
    ∃ shapes nullable anys ones d alls,
      typedShapes ((impliedTypes b).length > 1) (typedShape L b) (impliedTypes b) = .ok (shapes, nullable) ∧
      lowerGiven L b.anyOf = .ok anys ∧ lowerGiven L b.oneOf = .ok ones ∧ dispatched L b ones = .ok d ∧
      lowerGiven L b.allOf = .ok alls ∧ checkedRules b.own.rules = .ok () ∧
      x = (allShape (partsOf b shapes anys ones d alls)).mapBase fun base => {
        nullable := base.nullable || nullable || (L.options.dialect == .openapi && b.own.nullable)
        rules := base.rules ++ b.own.rules } := by
  rw [lower_ofBody, if_neg (not_not.2 href)] at h
  obtain ⟨⟨shapes, nullable⟩, hshapes, h⟩ := except_bind_ok h
  obtain ⟨anys, hanys, h⟩ := except_bind_ok h
  obtain ⟨ones, hones, h⟩ := except_bind_ok h
  obtain ⟨d, hd, h⟩ := except_bind_ok h
  obtain ⟨alls, halls, h⟩ := except_bind_ok h
  obtain ⟨⟨⟩, hrules, h⟩ := except_bind_ok h
  exact ⟨shapes, nullable, anys, ones, d, alls, hshapes, hanys, hones, hd, halls, hrules, (Except.ok.inj h).symm⟩

/-- a level that is a reference -/
theorem lower_reference (href : b.own.ref ≠ "") {x : Shape} (h : lower L (ofBody b) = .ok x) :
    ∃ name, reference L b.own.ref = .ok (.ref {} name) ∧ x = .ref {
      nullable := L.options.dialect == .openapi && b.own.nullable
      rules := b.own.rules } name := by
  rw [lower_ofBody, if_pos href] at h
  obtain ⟨y, hy, h⟩ := except_bind_ok h
  obtain ⟨name, rfl⟩ := reference_ok hy
  obtain ⟨⟨⟩, -, h⟩ := except_bind_ok h
  refine ⟨name, hy, ?_⟩
  rw [← Except.ok.inj h]
  simp [Shape.mapBase]

/-- the declared types one by one: null beside others is a flag, every other type has a shape -/
theorem typedShapes_ok {several : Bool} {typed : String → Outcome Shape} {ts : List String} {ss : List Shape}
    {nullable : Bool} (h : typedShapes several typed ts = .ok (ss, nullable)) :
    (nullable = true ↔ several = true ∧ "null" ∈ ts) ∧
      List.Forall₂ (fun t s => typed t = .ok s) (ts.filter fun t => !(t = "null" && several)) ss := by
  induction ts generalizing ss nullable with
  | nil =>
    cases h
    simp
  | cons t ts ih =>
    rw [typedShapes] at h
    split at h
    · rename_i hnull
      obtain ⟨⟨us, m⟩, hus, heq⟩ := except_map_ok h
      cases heq
      have hnull' : t = "null" ∧ several = true := by simpa using hnull
      refine ⟨by simp [hnull'], ?_⟩
      rw [List.filter_cons_of_neg (by simp [hnull'])]
      exact (ih hus).2
    · rename_i hnull
      obtain ⟨s, hs, h⟩ := except_bind_ok h
      obtain ⟨⟨us, m⟩, hus, h⟩ := except_bind_ok h
      cases h
      obtain ⟨hm, hus⟩ := ih hus
      refine ⟨?_, ?_⟩
      · rw [hm, List.mem_cons]
        constructor
        · exact fun h => ⟨h.1, .inr h.2⟩
        · rintro ⟨hseveral, hhead | htail⟩
          · exact absurd (by simp [← hhead, hseveral]) hnull
          · exact ⟨hseveral, htail⟩
      · rw [List.filter_cons_of_pos (by simpa [imp_iff_not_or] using hnull)]
        exact .cons hs hus

theorem typedShapes_mem {several : Bool} {typed : String → Outcome Shape} {ts : List String} {ss : List Shape}
    {nullable : Bool} (h : typedShapes several typed ts = .ok (ss, nullable)) {t : String} (ht : t ∈ ts)
    (hne : t ≠ "null") : ∃ s ∈ ss, typed t = .ok s := by
  have hmem : t ∈ ts.filter fun t => !(t = "null" && several) := List.mem_filter.2 ⟨ht, by simp [hne]⟩
  obtain ⟨s, hs, hts⟩ := forall₂_mem (typedShapes_ok h).2 hmem
  exact ⟨s, hs, hts⟩

/-! ## Shapes below -/

theorem lowerList_mem {ss : List Schema} {xs : List Shape} (h : lowerList L ss = .ok xs) {s : Schema} (hs : s ∈ ss) :
    ∃ y ∈ xs, lower L s = .ok y :=
  forall₂_mem (lowerList_ok h) hs

theorem lowerGiven_mem {o : Option (List Schema)} {xs : List Shape} (h : lowerGiven L o = .ok xs) {s : Schema}
    (hs : s ∈ o.getD []) : ∃ y ∈ xs, lower L s = .ok y :=
  forall₂_mem (lowerGiven_ok h) hs

theorem lowerExtent_mem {x : Extent} {beyond : Option Bool} {y : Shape} (h : lowerExtent L x = .ok (beyond, y)) {s : Schema}
    (hs : s ∈ Schema.Extent.toList x) : lower L s = .ok y := by
  cases x with
  | unset => cases hs
  | flag c => cases hs
  | sub t =>
    obtain rfl : s = t := by simpa [Schema.Extent.toList, Schema.Beyond.ofExtent, Schema.Beyond.toList] using hs
    obtain ⟨z, hz, heq⟩ := except_map_ok h
    cases heq
    exact hz

/-- the member schemas have their shapes in the shape of the object -/
theorem object_within {x : Shape} (h : objectShape L b = .ok x) {s : Schema} (hs : s ∈ memberSchemas b) :
    ∃ y, lower L s = .ok y ∧ Within y x := by
  obtain ⟨fields, unknown, extra, hfields, hextra, rfl⟩ := objectShape_ok h
  rcases List.mem_append.1 hs with hs | hs
  · cases hp : b.properties with
    | none =>
      rw [hp] at hs
      cases hs
    | some fs =>
      rw [hp] at hs hfields
      obtain ⟨e, he, rfl⟩ := List.mem_map.1 hs
      obtain ⟨f, hf, -, hy⟩ := forall₂_mem (lowerFields_ok hfields) he
      refine ⟨f.2, hy, Within.of_mem ?_⟩
      rw [Shape.nodes, Shape.nodesFields_eq]
      refine List.mem_cons_of_mem _ (List.mem_append_left _ ?_)
      exact Shape.nodes_subset_all (List.mem_map_of_mem hf) (Shape.self_mem_nodes (lower_present hy))
  · have hy := lowerExtent_mem hextra hs
    refine ⟨extra, hy, Within.of_mem ?_⟩
    rw [Shape.nodes]
    exact List.mem_cons_of_mem _ (List.mem_append_right _ (Shape.self_mem_nodes (lower_present hy)))

/-- the item schemas have their shapes in the shape of the list -/
theorem array_within {x : Shape} (h : arrayShape L b = .ok x) {s : Schema} (hs : s ∈ itemSchemas b) :
    ∃ y, lower L s = .ok y ∧ Within y x := by
  unfold itemSchemas at hs
  split at hs
  · cases hs
  · rename_i t heq
    split at hs
    · cases hs
    · rename_i habs
      obtain rfl : s = t := by simpa using hs
      obtain ⟨item, hitem, rfl⟩ := arrayShape_single heq (by simpa using habs) h
      refine ⟨item, hitem, Within.of_mem ?_⟩
      rw [Shape.nodes]
      exact List.mem_cons_of_mem _ (Shape.self_mem_nodes (lower_present hitem))
  · rename_i ss heq
    obtain ⟨shapes, beyond, rest, hshapes, hrest, rfl⟩ := arrayShape_tuple heq h
    rcases List.mem_append.1 hs with hs | hs
    · obtain ⟨y, hy, hsy⟩ := lowerList_mem hshapes hs
      refine ⟨y, hsy, Within.of_mem ?_⟩
      rw [Shape.nodes]
      refine List.mem_cons_of_mem _ (List.mem_append_left _ ?_)
      exact Shape.nodes_subset_all hy (Shape.self_mem_nodes (lower_present hsy))
    · have hy := lowerExtent_mem hrest hs
      refine ⟨rest, hy, Within.of_mem ?_⟩
      rw [Shape.nodes]
      exact List.mem_cons_of_mem _ (List.mem_append_right _ (Shape.self_mem_nodes (lower_present hy)))

/-- the schemas that the types of a level need have their shapes in the shape of one of the types -/
theorem typed_within {several : Bool} {shapes : List Shape} {nullable : Bool}
    (h : typedShapes several (typedShape L b) (impliedTypes b) = .ok (shapes, nullable)) {s : Schema}
    (hs : s ∈ typedSchemas b) : ∃ y, lower L s = .ok y ∧ ∃ x ∈ shapes, Within y x := by
  rcases List.mem_append.1 hs with hs | hs
  · split at hs
    · rename_i ht
      obtain ⟨x, hx, htyped⟩ := typedShapes_mem h ht (by decide)
      obtain ⟨y, hy, hyx⟩ := object_within htyped hs
      exact ⟨y, hy, x, hx, hyx⟩
    · cases hs
  · split at hs
    · rename_i ht
      obtain ⟨x, hx, htyped⟩ := typedShapes_mem h ht (by decide)
      obtain ⟨y, hy, hyx⟩ := array_within htyped hs
      exact ⟨y, hy, x, hx, hyx⟩
    · cases hs

/-- a part stands in the whole, or takes its place -/
theorem part_within {ps : List Shape} {q : Shape} (hq : q ∈ ps) (hpresent : q.isAbsent = false) (f : Base → Base) :
    Within q ((allShape ps).mapBase f) := by
  unfold allShape
  split
  · cases hq
  · obtain rfl : q = _ := List.mem_singleton.1 hq
    exact Within.mapBase hpresent f
  · refine Within.of_mem ?_
    rw [Shape.mapBase, Shape.nodes]
    exact List.mem_cons_of_mem _ (Shape.nodes_subset_all hq (Shape.self_mem_nodes hpresent))

/-- an alternative stands among the others, or takes their place -/
theorem anyShape_within {ss : List Shape} {q : Shape} (hq : q ∈ ss) (hpresent : q.isAbsent = false) :
    Within q (anyShape ss) := by
  unfold anyShape
  split
  · obtain rfl : q = _ := List.mem_singleton.1 hq
    exact Within.of_mem (Shape.self_mem_nodes hpresent)
  · refine Within.of_mem ?_
    rw [Shape.nodes]
    exact List.mem_cons_of_mem _ (Shape.nodes_subset_all hq (Shape.self_mem_nodes hpresent))

/-- do the listed values stand for the types as well? -/
def shortcut (b : Body) : Bool := !(listed b.own).isEmpty && conforms (impliedTypes b) (listed b.own)

/-- the schemas right below a level whose shapes are part of its own -/
def kept (b : Body) : List Schema :=
  if b.own.ref ≠ "" then [] else (if shortcut b then [] else typedSchemas b) ++ composedSchemas b

/-- without the shortcut, the types are among the parts -/
theorem anyShape_mem_valueParts {shapes : List Shape} (hs : shapes ≠ []) (h : shortcut b = false) :
    anyShape shapes ∈ valueParts (impliedTypes b) shapes (listed b.own) := by
  unfold shortcut at h
  unfold valueParts
  split
  · rw [if_neg (by simpa using hs)]
    exact List.mem_cons_self
  · rename_i hlisted
    rw [if_neg (by simpa [hlisted] using h)]
    exact List.mem_cons_self

/-- **One level.** The schemas that a level meets have shapes, and the shapes of those that it keeps stand in its own. -/
theorem lower_below {x : Shape} (h : lower L (ofBody b) = .ok x) :
    (∀ s ∈ met b, ∃ y, lower L s = .ok y) ∧ ∀ s ∈ kept b, ∃ y, lower L s = .ok y ∧ Within y x := by
  by_cases href : b.own.ref = ""
  · obtain ⟨shapes, nullable, anys, ones, d, alls, hshapes, hanys, hones, hd, halls, -, rfl⟩ := lower_parts href h
    -- a composed schema has its shape in the part of its keyword
    have hcomposed : ∀ s ∈ composedSchemas b, ∃ y, lower L s = .ok y ∧
        ∃ q ∈ partsOf b shapes anys ones d alls, q.isAbsent = false ∧ Within y q := by
      intro s hs
      simp only [composedSchemas, List.mem_append] at hs
      rcases hs with (hs | hs) | hs
      · obtain ⟨y, hy, hsy⟩ := lowerGiven_mem hanys hs
        refine ⟨y, hsy, .anyOf {} anys, ?_, rfl, Within.of_mem ?_⟩
        · have hne : anys.isEmpty = false := List.isEmpty_eq_false_iff.2 (List.ne_nil_of_mem hy)
          simp [partsOf, hne]
        · rw [Shape.nodes]
          exact List.mem_cons_of_mem _ (Shape.nodes_subset_all hy (Shape.self_mem_nodes (lower_present hsy)))
      · obtain ⟨y, hy, hsy⟩ := lowerGiven_mem hones hs
        refine ⟨y, hsy, .oneOf {} ones d, ?_, rfl, Within.of_mem ?_⟩
        · have hne : ones.isEmpty = false := List.isEmpty_eq_false_iff.2 (List.ne_nil_of_mem hy)
          simp [partsOf, hne]
        · rw [Shape.nodes]
          exact List.mem_cons_of_mem _ (Shape.nodes_subset_all hy (Shape.self_mem_nodes (lower_present hsy)))
      · obtain ⟨y, hy, hsy⟩ := lowerGiven_mem halls hs
        exact ⟨y, hsy, y, by simp [partsOf, hy], lower_present hsy, Within.of_mem (Shape.self_mem_nodes (lower_present hsy))⟩
    constructor
    · intro s hs
      rw [met_plain href] at hs
      rcases List.mem_append.1 hs with hs | hs
      · obtain ⟨y, hy, -⟩ := typed_within hshapes hs
        exact ⟨y, hy⟩
      · obtain ⟨y, hy, -⟩ := hcomposed s hs
        exact ⟨y, hy⟩
    · intro s hs
      rw [kept, if_neg (not_not.2 href)] at hs
      rcases List.mem_append.1 hs with hs | hs
      · split at hs
        · cases hs
        · rename_i hshort
          obtain ⟨y, hy, z, hz, hyz⟩ := typed_within hshapes hs
          have hzpresent := present_typedShapes hshapes z hz
          have hpart := anyShape_mem_valueParts (b := b) (List.ne_nil_of_mem hz) (by simpa using hshort)
          have hpresent := present_valueParts (present_typedShapes hshapes) (listed b.own) _ hpart
          refine ⟨y, hy, hyz.trans ((anyShape_within hz hzpresent).trans (part_within ?_ hpresent _))⟩
          simp [partsOf, hpart]
      · obtain ⟨y, hy, q, hq, hpresent, hyq⟩ := hcomposed s hs
        exact ⟨y, hy, hyq.trans (part_within hq hpresent _)⟩
  · constructor
    · intro s hs
      rw [met_reference href] at hs
      cases hs
    · intro s hs
      rw [kept, if_pos href] at hs
      cases hs

/-! ## Documents -/

/-- the root, the definitions and what levels lead to below them -/
inductive Reached (next : Body → List Schema) (L : Context) : Schema → Prop
  | root : Reached next L (ofBody L.document)
  | definition {e : String × String} (he : e ∈ L.index) : Reached next L (L.definition e.2)
  | step {b : Body} {s : Schema} (hb : Reached next L (ofBody b)) (hs : s ∈ next b) : Reached next L s

variable {S : Schema} {o : CompileOptions} {p : Program}

/-- the root and the definitions of a program -/
theorem program_top (h : Program.lower S o = .ok p) :
    lower (contextOf S o) (ofBody S.body) = .ok p.root ∧
      ∀ e ∈ (contextOf S o).index, ∃ x, lower (contextOf S o) ((contextOf S o).definition e.2) = .ok x ∧
        p.definition e.2 = x ∧ e.2 ∈ p.order := by
  obtain ⟨hroot, hdefs, horder⟩ := lower_program h
  refine ⟨hroot, fun e he => ?_⟩
  have hmem : e.2 ∈ p.order := by
    rw [horder, sortStrings, List.mem_mergeSort]
    exact List.mem_map_of_mem he
  obtain ⟨x, hx⟩ := lowerNamed_isOk.1 ⟨p.defs, hdefs⟩ e.2 hmem
  have hshape : (contextOf S o).shape e.2 = x := by
    rw [Context.shape, hx]
    rfl
  refine ⟨x, hx, ?_, hmem⟩
  rw [Program.definition, lowerNamed_ok hdefs, Dict.get?_keyed, if_pos hmem, Option.getD_some, hshape]

/-- **What is met has a shape.** -/
theorem Reached.lowered (h : Program.lower S o = .ok p) {s : Schema} (hs : Reached met (contextOf S o) s) :
    ∃ x, lower (contextOf S o) s = .ok x := by
  induction hs with
  | root => exact ⟨p.root, (program_top h).1⟩
  | definition he =>
    obtain ⟨x, hx, -⟩ := (program_top h).2 _ he
    exact ⟨x, hx⟩
  | step _ hs ih =>
    obtain ⟨x, hx⟩ := ih
    exact (lower_below hx).1 _ hs

/-- **What is kept is part of the program.** -/
theorem Reached.within (h : Program.lower S o = .ok p) {s : Schema} (hs : Reached kept (contextOf S o) s) :
    ∃ x, lower (contextOf S o) s = .ok x ∧ ∃ f, x.mapBase f ∈ p.nodes := by
  have htop {x : Shape} {s : Schema} (hx : lower (contextOf S o) s = .ok x) (hmem : x ∈ p.shapes) :
      ∃ f, x.mapBase f ∈ p.nodes := by
    refine ⟨id, ?_⟩
    rw [Shape.mapBase_id, Program.nodes_eq]
    exact Shape.nodes_subset_all hmem (Shape.self_mem_nodes (lower_present hx))
  induction hs with
  | root => exact ⟨p.root, (program_top h).1, htop (program_top h).1 List.mem_cons_self⟩
  | definition he =>
    obtain ⟨x, hx, hdefinition, hmem⟩ := (program_top h).2 _ he
    refine ⟨x, hx, htop hx (List.mem_cons_of_mem _ ?_)⟩
    rw [← hdefinition]
    exact List.mem_map_of_mem (Program.mem_names.2 hmem)
  | @step b s _ hs ih =>
    obtain ⟨x, hx, f, hf⟩ := ih
    obtain ⟨y, hy, g, hg⟩ := (lower_below hx).2 s hs
    refine ⟨y, hy, ?_⟩
    obtain ⟨r, hr, hrx⟩ : ∃ r ∈ p.shapes, x.mapBase f ∈ r.nodes := List.mem_flatMap.1 hf
    obtain ⟨k, hk⟩ := Within.trans ⟨g, hg⟩ ⟨f, hrx⟩
    exact ⟨k, List.mem_flatMap.2 ⟨r, hr, hk⟩⟩

/-! ## Answers about values -/

/-- does the program find nothing wrong with the value? -/
def passes (o : CompileOptions) (v : Value) (p : Program) : Bool :=
  (p.validate o.coerce (fun _ _ => "") v).toOption.any List.isEmpty

/-- does the program find something wrong with the value? -/
def refuses (o : CompileOptions) (v : Value) (p : Program) : Bool :=
  (p.validate o.coerce (fun _ _ => "") v).toOption.any fun is => !is.isEmpty

/-- has the document a program that finds nothing wrong with the value? -/
def accepts (o : CompileOptions) (v : Value) (S : Schema) : Bool := (Program.lower S o).toOption.any (passes o v)

/-- has the document a program that finds something wrong with the value? -/
def rejects (o : CompileOptions) (v : Value) (S : Schema) : Bool := (Program.lower S o).toOption.any (refuses o v)

/-- lowering of a document whose definitions come in the order of their names -/
def lowerInOrder (S : Schema) (o : CompileOptions) : Outcome Program := do
  let defs ← lowerNamed (contextOf S o) ((contextOf S o).index.map (·.2))
  let root ← lower (contextOf S o) (ofBody S.body)
  let title ← title S.body
  return { root, defs, order := (contextOf S o).index.map (·.2), title }

theorem lowerInOrder_eq (h : ((contextOf S o).index.map (·.2)).Pairwise fun m n => Text.le m n = true) :
    Program.lower S o = lowerInOrder S o := by
  rw [program_lower, sortStrings, List.mergeSort_of_pairwise h]
  rfl

/-- is the document, whose definitions come in order, lowered to a program that passes the check? -/
def lowersTo (o : CompileOptions) (P : Program → Bool) (S : Schema) : Bool :=
  decide (((contextOf S o).index.map (·.2)).Pairwise fun m n => Text.le m n = true) && (lowerInOrder S o).toOption.any P

theorem lower_of_lowersTo {P : Program → Bool} (h : lowersTo o P S = true) : ∃ p, Program.lower S o = .ok p ∧ P p = true := by
  obtain ⟨horder, hall⟩ := Bool.and_eq_true_iff.1 h
  rw [lowerInOrder_eq (of_decide_eq_true horder)]
  exact ok_of_any hall

theorem any_of_lowersTo {P : Program → Bool} (h : lowersTo o P S = true) : (Program.lower S o).toOption.any P = true := by
  obtain ⟨p, hp, hall⟩ := lower_of_lowersTo h
  rw [hp]
  exact hall

end Lowering

end Schemata
