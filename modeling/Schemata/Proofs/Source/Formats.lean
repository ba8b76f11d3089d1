import Mathlib.Tactic
import Schemata.Proofs.Source.Comments

/-!
The formats that a validator checks.

Lowering gives a format to checks of strings only, and only one that is known (`lower_wellFormed`). So each node of a program with
a format becomes a function that calls the check of this format, no other function calls one (`body_formats`), and
generation never comes to a format that it does not know (`generate_knows`). Main result: `mem_usedFormats_iff`. The formats
that a program reports are those whose checks its generated file calls.
-/

namespace Schemata

namespace Shape

/-- only a check of strings names a format, one that is known, and only where formats are checked -/
def Formatted (formats : Bool) : Shape → Prop
  | primitive _ q => q.format = "" ∨ formats = true ∧ q.type = .string ∧ (Format.ofName? q.format).isSome = true
  | _ => True

/-- the shapes right below -/
def parts : Shape → List Shape
  | array _ i _ => [i]
  | tuple _ is r _ => is ++ [r]
  | object _ fs a _ => fs.map (·.2) ++ [a]
  | oneOf _ vs _ => vs
  | anyOf _ vs => vs
  | allOf _ ps => ps
  | _ => []

/-- the shapes right below that have to be there -/
def listed : Shape → List Shape
  | tuple _ is _ _ => is
  | object _ fs _ _ => fs.map (·.2)
  | oneOf _ vs _ => vs
  | anyOf _ vs => vs
  | allOf _ ps => ps
  | _ => []

/-- no shape of a list is missing -/
def Complete (s : Shape) : Prop := ∀ t ∈ s.listed, t.isAbsent = false

/-- all nodes of the shape are complete, and their checks are so -/
def WellFormed (formats : Bool) (s : Shape) : Prop := ∀ t ∈ s.nodes, t.Formatted formats ∧ t.Complete

variable {formats : Bool} {s : Shape} {ss : List Shape}

theorem mem_nodesAll {t : Shape} : t ∈ nodesAll ss ↔ ∃ s ∈ ss, t ∈ s.nodes := by
  induction ss with
  | nil => simp [nodesAll]
  | cons s ss ih => simp [nodesAll, ih]

theorem wellFormed_all :
    (∀ t ∈ nodesAll ss, t.Formatted formats ∧ t.Complete) ↔ ∀ s ∈ ss, s.WellFormed formats := by
  simp only [mem_nodesAll, WellFormed]
  exact ⟨fun h s hs t ht => h t ⟨s, hs, ht⟩, fun h t ⟨s, hs, ht⟩ => h s hs t ht⟩

theorem mem_nodes {t : Shape} : t ∈ s.nodes ↔ (s.isAbsent = false ∧ t = s) ∨ t ∈ nodesAll s.parts := by
  cases s <;> simp [nodes, parts, nodesAll, nodesFields_eq, mem_nodesAll, isAbsent]

/-- the nodes of a shape are itself and those right below -/
theorem wellFormed_iff : s.WellFormed formats ↔ (s.Formatted formats ∧ s.Complete) ∧ ∀ t ∈ s.parts, t.WellFormed formats := by
  rw [← wellFormed_all]
  constructor
  · intro h
    refine ⟨?_, fun t ht => h t (mem_nodes.2 (.inr ht))⟩
    cases habs : s.isAbsent with
    | false => exact h s (mem_nodes.2 (.inl ⟨habs, rfl⟩))
    | true => cases s <;> first | exact absurd habs Bool.false_ne_true | exact ⟨trivial, by simp [Complete, listed]⟩
  · rintro ⟨hs, hparts⟩ t ht
    rcases mem_nodes.1 ht with ⟨-, rfl⟩ | ht
    · exact hs
    · exact hparts t ht

theorem wellFormed_mapBase (h : s.WellFormed formats) (f : Base → Base) : (s.mapBase f).WellFormed formats := by
  have hparts : (s.mapBase f).parts = s.parts := by cases s <;> rfl
  have hown : ((s.mapBase f).Formatted formats ∧ (s.mapBase f).Complete) ↔ (s.Formatted formats ∧ s.Complete) := by
    cases s <;> exact Iff.rfl
  rw [wellFormed_iff] at h ⊢
  rwa [hparts, hown]

theorem wellFormed_leaf (hs : s.Formatted formats) (h : s.parts = []) : s.WellFormed formats := by
  have hcomplete : s.Complete := by cases s <;> simp_all [Complete, listed, parts]
  exact wellFormed_iff.2 ⟨⟨hs, hcomplete⟩, by simp [h]⟩

end Shape

namespace Lowering

open Schema (Body ofBody)
open Shape (wellFormed_iff wellFormed_leaf wellFormed_mapBase)

variable {L : Context} {b : Body}

/-! ## Lowering -/

/-- the shapes of the schema are well formed -/
def Forms (L : Context) (s : Schema) : Prop := ∀ x, lower L s = .ok x → x.WellFormed L.options.formats

theorem wellFormed_list {ss : List Schema} {xs : List Shape} (hs : ∀ s ∈ ss, Forms L s)
    (h : List.Forall₂ (fun s x => lower L s = .ok x) ss xs) : ∀ x ∈ xs, x.WellFormed L.options.formats := by
  intro x hx
  obtain ⟨s, hmem, hsx⟩ := forall₂_mem h.flip hx
  exact hs s hmem x hsx

theorem present_listed {ss : List Schema} {xs : List Shape} (h : List.Forall₂ (fun s x => lower L s = .ok x) ss xs) :
    ∀ x ∈ xs, x.isAbsent = false := by
  intro x hx
  obtain ⟨s, -, hsx⟩ := forall₂_mem h.flip hx
  exact lower_present hsx

theorem wellFormed_extent {x : Extent} {beyond : Option Bool} {y : Shape} (hs : ∀ s ∈ Schema.Extent.toList x, Forms L s)
    (h : lowerExtent L x = .ok (beyond, y)) : y.WellFormed L.options.formats := by
  cases x with
  | unset =>
    cases h
    exact wellFormed_leaf trivial rfl
  | flag c =>
    cases h
    exact wellFormed_leaf trivial rfl
  | sub s =>
    obtain ⟨z, hz, heq⟩ := except_map_ok h
    cases heq
    exact hs s (by simp [Schema.Extent.toList, Schema.Beyond.ofExtent, Schema.Beyond.toList]) _ hz

theorem wellFormed_string {k : Keywords} {x : Shape} (h : stringShape L k = .ok x) : x.WellFormed L.options.formats := by
  rw [stringShape_ok h]
  refine wellFormed_leaf ?_ rfl
  by_cases hk : ((Format.ofName? k.format).isSome && L.options.formats) = true
  · simp only [Bool.and_eq_true] at hk
    exact .inr ⟨hk.2, rfl, by simp [hk]⟩
  · exact .inl (if_neg hk)

theorem wellFormed_object (ih : b.Below (Forms L)) {x : Shape} (h : objectShape L b = .ok x) :
    x.WellFormed L.options.formats := by
  obtain ⟨fields, unknown, extra, hfields, hextra, rfl⟩ := objectShape_ok h
  refine wellFormed_iff.2 ⟨⟨trivial, List.forall_mem_map.2 fun f hf => ?_⟩,
    List.forall_mem_append.2 ⟨List.forall_mem_map.2 fun f hf => ?_,
      List.forall_mem_singleton.2 (wellFormed_extent ih.additional hextra)⟩⟩
  all_goals obtain ⟨e, he, -, hef⟩ := forall₂_mem (lowerOptional_ok hfields).flip hf
  · exact lower_present hef
  · exact ih.properties e he _ hef

theorem wellFormed_array (ih : b.Below (Forms L)) {x : Shape} (h : arrayShape L b = .ok x) :
    x.WellFormed L.options.formats := by
  obtain ⟨⟨o, single⟩, hitems, h⟩ := except_bind_ok h
  cases hb : b.items with
  | unset =>
    rw [hb] at hitems
    cases hitems
    cases h
    exact wellFormed_iff.2 ⟨⟨trivial, List.forall_mem_nil _⟩, List.forall_mem_singleton.2 (wellFormed_leaf trivial rfl)⟩
  | single s =>
    rw [hb, lowerItems] at hitems
    split at hitems
    · cases hitems
      cases h
      exact wellFormed_iff.2 ⟨⟨trivial, List.forall_mem_nil _⟩, List.forall_mem_singleton.2 (wellFormed_leaf trivial rfl)⟩
    · obtain ⟨y, hy, heq⟩ := except_map_ok hitems
      cases heq
      cases h
      refine wellFormed_iff.2 ⟨⟨trivial, List.forall_mem_nil _⟩, List.forall_mem_singleton.2 (ih.items s ?_ _ hy)⟩
      rw [hb]
      simp [Schema.Items.toList, Schema.Elements.ofItems, Schema.Elements.toList]
  | tuple ss =>
    rw [hb, lowerItems] at hitems
    obtain ⟨ys, hys, heq⟩ := except_map_ok hitems
    cases heq
    obtain ⟨⟨beyond, rest⟩, hrest, h⟩ := except_bind_ok h
    cases h
    refine wellFormed_iff.2 ⟨⟨trivial, present_listed (lowerList_ok hys)⟩,
      List.forall_mem_append.2 ⟨wellFormed_list (fun s hs => ih.items s ?_) (lowerList_ok hys),
        List.forall_mem_singleton.2 (wellFormed_extent ih.additionalItems hrest)⟩⟩
    rw [hb]
    simpa [Schema.Items.toList, Schema.Elements.ofItems, Schema.Elements.toList] using hs

theorem wellFormed_typed (ih : b.Below (Forms L)) {t : String} {x : Shape} (h : typedShape L b t = .ok x) :
    x.WellFormed L.options.formats := by
  unfold typedShape at h
  split at h
  · exact wellFormed_string h
  · rw [numberShape_ok h]
    exact wellFormed_leaf (.inl rfl) rfl
  · rw [numberShape_ok h]
    exact wellFormed_leaf (.inl rfl) rfl
  · cases h
    exact wellFormed_leaf (.inl rfl) rfl
  · cases h
    exact wellFormed_leaf (.inl rfl) rfl
  · exact wellFormed_object ih h
  · exact wellFormed_array ih h
  · cases h

theorem wellFormed_anyShape {ss : List Shape} (hs : ∀ s ∈ ss, s.isAbsent = false)
    (h : ∀ s ∈ ss, s.WellFormed L.options.formats) : (anyShape ss).WellFormed L.options.formats := by
  unfold anyShape
  split
  · exact h _ (by simp)
  · exact wellFormed_iff.2 ⟨⟨trivial, hs⟩, h⟩

theorem wellFormed_allShape {ss : List Shape} (h : ∀ s ∈ ss, s.isAbsent = false ∧ s.WellFormed L.options.formats) :
    (allShape ss).WellFormed L.options.formats := by
  unfold allShape
  split
  · exact wellFormed_leaf trivial rfl
  · exact (h _ (by simp)).2
  · exact wellFormed_iff.2 ⟨⟨trivial, fun s hs => (h s hs).1⟩, fun s hs => (h s hs).2⟩

theorem wellFormed_valueParts {types : List String} {ss : List Shape} (hs : ∀ s ∈ ss, s.isAbsent = false)
    (h : ∀ s ∈ ss, s.WellFormed L.options.formats) (vs : List Value) :
    ∀ s ∈ valueParts types ss vs, s.WellFormed L.options.formats := by
  have hany := wellFormed_anyShape hs h
  have henum : (Shape.enum {} vs).WellFormed L.options.formats := wellFormed_leaf trivial rfl
  unfold valueParts
  split_ifs <;> simp [hany, henum]

/-- **Only checks of strings have formats**, and no shape of a list is missing. -/
theorem lower_wellFormed {s : Schema} {x : Shape} (h : lower L s = .ok x) : x.WellFormed L.options.formats := by
  induction s using Schema.treeInduction generalizing x with
  | absent =>
    cases h
    exact wellFormed_leaf trivial rfl
  | node b ih =>
    have ih : b.Below (Forms L) := ih.imp fun s hs x hx => hs hx
    by_cases href : b.own.ref = ""
    · obtain ⟨shapes, nullable, anys, ones, d, alls, hshapes, hanys, hones, -, halls, -, rfl⟩ := lower_parts href h
      refine wellFormed_mapBase (wellFormed_allShape fun s hs => ?_) _
      have hpresent := present_typedShapes hshapes
      have hshapes : ∀ s ∈ shapes, s.WellFormed L.options.formats := fun s hs => by
        obtain ⟨t, -, ht⟩ := forall₂_mem (typedShapes_ok hshapes).2.flip hs
        exact wellFormed_typed ih ht
      have hanys := lowerGiven_ok hanys
      have hones := lowerGiven_ok hones
      have halls := lowerGiven_ok halls
      simp only [partsOf, List.mem_append] at hs
      rcases hs with ((hs | hs) | hs) | hs
      · exact ⟨present_valueParts hpresent _ s hs, wellFormed_valueParts hpresent hshapes _ s hs⟩
      · split at hs <;> simp at hs
        rw [hs]
        exact ⟨rfl, wellFormed_iff.2 ⟨⟨trivial, present_listed hanys⟩, wellFormed_list ih.anyOf hanys⟩⟩
      · split at hs <;> simp at hs
        rw [hs]
        exact ⟨rfl, wellFormed_iff.2 ⟨⟨trivial, present_listed hones⟩, wellFormed_list ih.oneOf hones⟩⟩
      · exact ⟨present_listed halls s hs, wellFormed_list ih.allOf halls s hs⟩
    · obtain ⟨name, -, rfl⟩ := lower_reference href h
      exact wellFormed_leaf trivial rfl

/-- all nodes of the program of a document are so -/
theorem program_wellFormed {S : Schema} {o : CompileOptions} {p : Program} (h : Program.lower S o = .ok p) :
    ∀ t ∈ p.nodes, t.Formatted o.formats ∧ t.Complete := by
  obtain ⟨hroot, hdefinitions⟩ := program_top h
  rw [Program.nodes_eq]
  refine Shape.wellFormed_all.2 fun s hs => ?_
  rcases List.mem_cons.1 hs with rfl | hs
  · exact lower_wellFormed hroot
  · obtain ⟨name, hname, rfl⟩ := List.mem_map.1 hs
    have hin := Program.mem_names.1 hname
    rw [(lower_program h).2.2, sortStrings, List.mem_mergeSort] at hin
    obtain ⟨e, he, rfl⟩ := List.mem_map.1 hin
    obtain ⟨x, hx, hdefinition, -⟩ := hdefinitions e he
    rw [hdefinition]
    exact lower_wellFormed hx

theorem program_formatted {S : Schema} {o : CompileOptions} {p : Program} (h : Program.lower S o = .ok p) :
    ∀ t ∈ p.nodes, t.Formatted o.formats := fun t ht => (program_wellFormed h t ht).1

theorem program_complete {S : Schema} {o : CompileOptions} {p : Program} (h : Program.lower S o = .ok p) :
    ∀ t ∈ p.nodes, t.Complete := fun t ht => (program_wellFormed h t ht).2

end Lowering

namespace Format

theorem ofName?_eq_some {s : String} {k : Format} : ofName? s = some k ↔ s = k.name := by
  constructor
  · intro h
    have := List.find?_some h
    exact (beq_iff_eq.1 this).symm
  · rintro rfl
    cases k <;> rfl

theorem name_ne_empty (k : Format) : k.name ≠ "" := by cases k <;> decide

/-- no two formats share a check -/
theorem functionName_injective {k l : Format} (h : k.functionName = l.functionName) : k = l := by
  revert h
  cases k <;> cases l <;> decide

end Format

/-- the format that a node checks -/
def Shape.format? : Shape → Option Format
  | .primitive _ q => match q.type with
    | .string => Format.ofName? q.format
    | _ => none
  | _ => none

namespace Source

/-! ## Calls of format checks -/

def Statement.format? : Statement → Option Format
  | .format _ k => some k
  | _ => none

/-- the formats whose checks the statements call -/
def formatsOf (ss : List Statement) : List Format := ss.filterMap Statement.format?

/-- the format checks that a file calls, by their names in the source -/
def File.checkers (f : File) : List String := f.functions.flatMap fun g => (formatsOf g.body).map Format.functionName

theorem formatsOf_append (ss ts : List Statement) : formatsOf (ss ++ ts) = formatsOf ss ++ formatsOf ts :=
  List.filterMap_append

theorem formatsOf_eq_nil {ss : List Statement} (h : ∀ t ∈ ss, t.format? = none) : formatsOf ss = [] :=
  List.filterMap_eq_nil_iff.2 h

theorem formatsOf_when {α : Type} (o : Option α) {f : α → Statement} (hf : ∀ a, (f a).format? = none) :
    formatsOf (when? o f) = [] := by
  cases o <;> simp [when?, formatsOf, hf]

theorem formatsOf_pattern {make : Variable → Statement} (hmake : ∀ v, (make v).format? = none) {pattern : String}
    {ss : List Statement} (h : patternStatements make pattern ss) : formatsOf ss = [] := by
  rcases h with ⟨-, rfl⟩ | ⟨-, n, rfl⟩
  · rfl
  · simp [formatsOf, hmake]

theorem formatsOf_format {format : String} {ss : List Statement} (h : formatStatements format ss) :
    formatsOf ss = (Format.ofName? format).toList := by
  rcases h with ⟨rfl, rfl⟩ | ⟨f, hf, rfl⟩
  · rfl
  · simp [formatsOf, Statement.format?, hf]

theorem formatsOf_number (a : Assertion) (q : Primitive) : formatsOf (numberBody a q) = [] := by
  unfold numberBody
  split
  · rfl
  · rw [← List.singleton_append]
    simp only [formatsOf_append, formatsOf_when q.min (f := fun x => .minimum x q.exclusiveMin) fun _ => rfl,
      formatsOf_when q.max (f := fun x => .maximum x q.exclusiveMax) fun _ => rfl,
      formatsOf_when q.multipleOf (f := Statement.multipleOf) fun _ => rfl, List.append_nil]
    rfl

theorem formatsOf_array (item : Option Nat) (l : ArrayLimits) : formatsOf (arrayBody item l) = [] := by
  unfold arrayBody
  split
  · rfl
  · rw [← List.singleton_append]
    simp only [formatsOf_append, formatsOf_when l.minItems (f := Statement.minItems) fun _ => rfl,
      formatsOf_when l.maxItems (f := Statement.maxItems) fun _ => rfl,
      formatsOf_when item (f := Statement.items) fun _ => rfl, List.append_nil]
    cases l.unique <;> rfl

theorem formatsOf_beyond (fields : List (String × Shape)) (additional : Option Nat) (q : ObjectPolicy) :
    formatsOf (beyondStatements fields additional q) = [] := by
  unfold beyondStatements
  split
  · rfl
  · split
    · exact formatsOf_when _ fun _ => rfl
    · rfl

theorem formatsOf_string {q : Primitive} {pool pool' : Pool} {ss : List Statement} (hs : pool.Sound)
    (h : stringBody q pool = .ok (ss, pool')) : formatsOf ss = (Format.ofName? q.format).toList := by
  rcases (stringBody_made hs h).2 with ⟨-, -, -, hformat, rfl⟩ | ⟨ps, fs, hps, hfs, rfl⟩
  · rw [hformat]
    rfl
  · rw [← List.singleton_append]
    simp only [formatsOf_append, formatsOf_when q.minLength (f := Statement.minLength) fun _ => rfl,
      formatsOf_when q.maxLength (f := Statement.maxLength) fun _ => rfl, formatsOf_pattern (fun _ => rfl) hps,
      formatsOf_format hfs, List.append_nil]
    rfl

theorem formatsOf_object {fields : List (String × Shape)} {ns : List Nat} {additional : Option Nat} {q : ObjectPolicy}
    {pool pool' : Pool} {ss : List Statement} (hs : pool.Sound)
    (h : objectBody fields ns additional q pool = .ok (ss, pool')) : formatsOf ss = [] := by
  rcases (objectBody_made hs h).2 with ⟨-, rfl⟩ | ⟨ks, hks, rfl⟩
  · rfl
  · rw [← List.singleton_append]
    simp only [formatsOf_append, formatsOf_beyond, formatsOf_pattern (fun _ => rfl) hks, List.append_nil]
    rw [formatsOf_eq_nil (List.forall_mem_map.2 fun _ _ => rfl), List.append_nil]
    split <;> rfl

/-- **The function of a node calls the check of the format that the node names.** -/
theorem body_formats {es : List (String × Nat)} {coerce : Bool} {id : Nat} {s : Shape} {pool pool' : Pool}
    {ss : List Statement} (hs : pool.Sound) (h : body es coerce id s pool = .ok (ss, pool')) :
    formatsOf ss = s.format?.toList := by
  have hpure {ts : List Statement} (hts : formatsOf ts = []) (h : (pure ts : Gen _) pool = .ok (ss, pool')) :
      formatsOf ss = [] := by
    obtain ⟨rfl, rfl⟩ := gen_pure_ok h
    exact hts
  cases s with
  | absent => exact hpure rfl h
  | foreign b => simp [body, fail] at h
  | any b => exact hpure rfl h
  | primitive b q =>
    simp only [body, primitiveBody] at h
    simp only [Shape.format?]
    cases hq : q.type <;> simp only [hq] at h ⊢
    case string => exact formatsOf_string hs h
    case number => exact hpure (formatsOf_number _ q) h
    case integer => exact hpure (formatsOf_number _ q) h
    case boolean => exact hpure rfl h
    case null => exact hpure rfl h
    case other => simp [fail] at h
  | array b i l => exact hpure (formatsOf_array _ l) h
  | tuple b is r l =>
    refine hpure ?_ h
    rw [← List.singleton_append]
    simp only [formatsOf_append, formatsOf_when l.maxItems (f := Statement.maxItems) fun _ => rfl, List.append_nil]
    cases l.unique <;> rfl
  | object b fs a q => exact formatsOf_object hs h
  | oneOf b vs d =>
    simp only [body] at h
    split at h
    · exact hpure rfl h
    · cases ht : taggedVariants (numbers (id + 1) vs) (d.mapping.getD []) with
      | ok ts =>
        rw [ht] at h
        exact hpure rfl h
      | error e => simp [ht, fail] at h
  | anyOf b vs => exact hpure rfl h
  | allOf b ps => exact hpure (formatsOf_eq_nil (List.forall_mem_map.2 fun _ _ => rfl)) h
  | enum b vs =>
    simp only [body] at h
    cases hl : literals vs with
    | error e => simp [hl, fail] at h
    | ok ts =>
      simp only [hl] at h
      obtain ⟨v, mid, -, h⟩ := gen_bind_ok h
      obtain ⟨rfl, rfl⟩ := gen_pure_ok h
      rfl
  | ref b n =>
    simp only [body] at h
    cases hn : entryOf? es n with
    | some k =>
      simp only [hn] at h
      exact hpure rfl h
    | none => simp [hn, fail] at h

/-- the checks that a file calls are those of the formats of the program's nodes -/
theorem mem_checkers {p : Program} {o : Options} {file : File} (h : file.Made p o) {name : String} :
    name ∈ file.checkers ↔ ∃ s ∈ p.nodes, ∃ k, s.format? = some k ∧ k.functionName = name := by
  have hbody {i : Nat} {s : Shape} {g : Function} (hof : FunctionOf (entries p) o.coerce i s g) :
      formatsOf g.body = s.format?.toList := by
    obtain ⟨pool, pool', hsound, hbody⟩ := hof.body
    exact body_formats hsound hbody
  simp only [File.checkers, List.mem_flatMap, List.mem_map]
  constructor
  · rintro ⟨g, hg, k, hk, hname⟩
    obtain ⟨i, hi⟩ := List.mem_iff_getElem?.1 hg
    have hlt : i < p.nodes.length := by
      rw [← h.count]
      exact (List.getElem?_eq_some_iff.1 hi).1
    obtain ⟨g', hg', hof⟩ := h.functions i _ (List.getElem?_eq_getElem hlt)
    obtain rfl := Option.some.inj (hi.symm.trans hg')
    rw [hbody hof, Option.mem_toList] at hk
    exact ⟨_, List.getElem_mem hlt, k, hk, hname⟩
  · rintro ⟨s, hs, k, hk, hname⟩
    obtain ⟨i, hi⟩ := List.mem_iff_getElem?.1 hs
    obtain ⟨g, hg, hof⟩ := h.functions i s hi
    exact ⟨g, List.mem_of_getElem? hg, k, by rw [hbody hof, Option.mem_toList, hk], hname⟩

/-! ## Unknown formats -/

/-- a step that never comes to a format that it does not know -/
def Knows {α : Type} (x : Gen α) : Prop := ∀ pool n, x pool ≠ .error (.unknownFormat n)

theorem knows_pure {α : Type} (a : α) : Knows (pure a) := fun _ _ h => by cases h

theorem knows_fail {α : Type} {e : GenerateError} (he : ∀ n, e ≠ .unknownFormat n) : Knows (fail e : Gen α) := fun _ n h =>
  he n (Except.error.inj h)

theorem knows_bind {α β : Type} {x : Gen α} {f : α → Gen β} (hx : Knows x) (hf : ∀ a, Knows (f a)) : Knows (x >>= f) := by
  intro pool n h
  cases hr : x pool with
  | error e =>
    refine hx pool n ?_
    rw [hr]
    simpa [bind, StateT.bind, Except.bind, hr] using h
  | ok r => exact hf r.1 r.2 n (by simpa [bind, StateT.bind, Except.bind, hr] using h)

theorem knows_newVariable (i : Initial) : Knows (newVariable i) := fun _ _ h => by cases h

theorem knows_pattern (make : Variable → Statement) (pattern : String) : Knows (patternStep make pattern) := by
  unfold patternStep
  split
  · exact knows_pure _
  · exact knows_bind (knows_newVariable _) fun _ => knows_pure _

theorem knows_format {format : String} (h : format = "" ∨ (Format.ofName? format).isSome = true) : Knows (formatStep format) := by
  unfold formatStep
  split
  · exact knows_pure _
  · rename_i hne
    obtain ⟨k, hk⟩ := Option.isSome_iff_exists.1 (h.resolve_left hne)
    rw [hk]
    exact knows_pure _

mutual

theorem literal_knows {n : String} : ∀ v : Value, literal v ≠ .error (.unknownFormat n)
  | .null, h => by simp [literal] at h
  | .bool _, h => by simp [literal] at h
  | .string _, h => by simp [literal] at h
  | .float x, h => by
    rw [literal] at h
    split at h <;> cases h
  | .int signed width _, h => by
    cases signed <;> cases width <;> simp [literal] at h
  | .single _, h => by simp [literal] at h
  | .literal _, h => by simp [literal] at h
  | .array xs, h => by
    rw [literal] at h
    cases hxs : literals xs with
    | ok ts => simp [hxs, Except.map] at h
    | error e => exact literals_knows xs (by simpa [hxs, Except.map] using h)
  | .object fs, h => by
    rw [literal] at h
    cases hfs : literalFields fs with
    | ok ts => simp [hfs, Except.map] at h
    | error e => exact literalFields_knows fs (by simpa [hfs, Except.map] using h)

theorem literals_knows {n : String} : ∀ vs : List Value, literals vs ≠ .error (.unknownFormat n)
  | [], h => by simp [literals] at h
  | v :: vs, h => by
    rw [literals] at h
    cases hv : literal v with
    | error e => exact literal_knows v (by simpa [hv, bind, Except.bind] using h)
    | ok t =>
      cases hvs : literals vs with
      | error e => exact literals_knows vs (by simpa [hv, hvs, bind, Except.bind] using h)
      | ok ts => simp [hv, hvs, bind, Except.bind, pure, Except.pure] at h

theorem literalFields_knows {n : String} : ∀ fs : List (String × Value), literalFields fs ≠ .error (.unknownFormat n)
  | [], h => by simp [literalFields] at h
  | (k, v) :: fs, h => by
    rw [literalFields] at h
    cases hv : literal v with
    | error e => exact literal_knows v (by simpa [hv, bind, Except.bind] using h)
    | ok t =>
      cases hfs : literalFields fs with
      | error e => exact literalFields_knows fs (by simpa [hv, hfs, bind, Except.bind] using h)
      | ok ts => simp [hv, hfs, bind, Except.bind, pure, Except.pure] at h

end

theorem taggedVariants_knows {ns : List Nat} {n : String} (es : List (String × Int)) :
    taggedVariants ns es ≠ .error (.unknownFormat n) := by
  induction es with
  | nil => simp [taggedVariants]
  | cons e es ih =>
    intro h
    unfold taggedVariants at h
    split at h
    · cases h
    · cases hes : taggedVariants ns es with
      | error e => exact ih (by simpa [hes, Except.map] using h)
      | ok ts => simp [hes, Except.map] at h

theorem body_knows {formats : Bool} {s : Shape} (hs : s.Formatted formats) (es : List (String × Nat)) (coerce : Bool) (id : Nat) :
    Knows (body es coerce id s) := by
  cases s with
  | absent => exact knows_pure _
  | foreign b => exact knows_fail fun _ h => by cases h
  | any b => exact knows_pure _
  | primitive b q =>
    simp only [body, primitiveBody]
    cases hq : q.type with
    | string =>
      simp only
      rw [stringBody_eq]
      split
      · exact knows_pure _
      · refine knows_bind (knows_pattern _ _) fun _ => knows_bind (knows_format ?_) fun _ => knows_pure _
        exact hs.imp_right fun h => h.2.2
    | number => exact knows_pure _
    | integer => exact knows_pure _
    | boolean => exact knows_pure _
    | null => exact knows_pure _
    | other n => exact knows_fail fun _ h => by cases h
  | array b i l => exact knows_pure _
  | tuple b is r l => exact knows_pure _
  | object b fs a q =>
    simp only [body]
    rw [objectBody_eq]
    split
    · exact knows_pure _
    · exact knows_bind (knows_pattern _ _) fun _ => knows_pure _
  | oneOf b vs d =>
    simp only [body]
    split
    · exact knows_pure _
    · cases ht : taggedVariants (numbers (id + 1) vs) (d.mapping.getD []) with
      | ok ts => exact knows_pure _
      | error e =>
        refine knows_fail fun n he => ?_
        subst he
        exact taggedVariants_knows _ ht
  | anyOf b vs => exact knows_pure _
  | allOf b ps => exact knows_pure _
  | enum b vs =>
    simp only [body]
    cases hl : literals vs with
    | ok ts => exact knows_bind (knows_newVariable _) fun _ => knows_pure _
    | error e =>
      refine knows_fail fun n he => ?_
      subst he
      exact literals_knows vs hl
  | ref b n =>
    simp only [body]
    cases entryOf? es n with
    | some k => exact knows_pure _
    | none => exact knows_fail fun _ h => by cases h

theorem ruleVariables_knows (rs : List Rule) : Knows (ruleVariables rs) := by
  induction rs with
  | nil => exact knows_pure _
  | cons r rs ih =>
    unfold ruleVariables
    cases Rule.compile r.expr with
    | error e => exact knows_fail fun _ h => by cases h
    | ok _ => exact knows_bind (knows_newVariable _) fun _ => knows_bind ih fun _ => knows_pure _

theorem functions_knows {formats : Bool} {ss : List Shape} (hs : ∀ s ∈ ss, s.Formatted formats) (es : List (String × Nat))
    (coerce : Bool) (id : Nat) : Knows (functions es coerce id ss) := by
  induction ss generalizing id with
  | nil => exact knows_pure _
  | cons s ss ih =>
    obtain ⟨hfirst, hrest⟩ := List.forall_mem_cons.1 hs
    have hfunction : Knows (function es coerce id s) :=
      knows_bind (ruleVariables_knows _) fun _ => knows_bind (body_knows hfirst _ _ _) fun _ => knows_pure _
    exact knows_bind hfunction fun _ => knows_bind (ih hrest _) fun _ => knows_pure _

/-- **Formats that are known do not stop generation.** -/
theorem generate_knows {formats : Bool} {p : Program} (h : ∀ s ∈ p.nodes, s.Formatted formats) (o : Options) (n : String) :
    generate p o ≠ .error (.unknownFormat n) := by
  intro hgen
  unfold generate at hgen
  cases hf : functions (entries p) o.coerce 0 p.nodes {} with
  | error e =>
    simp only [hf] at hgen
    obtain rfl : e = .unknownFormat n := Except.error.inj hgen
    exact functions_knows h _ _ _ _ n hf
  | ok r => simp [hf] at hgen

end Source

/-! ## The formats of a program -/

namespace Program

theorem mem_usedFormats {p : Program} {f : String} :
    f ∈ p.usedFormats ↔ f ≠ "" ∧ ∃ b q, Shape.primitive b q ∈ p.nodes ∧ q.format = f := by
  rw [usedFormats, mem_sortedSet, List.mem_filterMap]
  constructor
  · rintro ⟨s, hs, hf⟩
    cases s <;> simp only [reduceCtorEq] at hf
    case primitive b q =>
      split at hf
      · cases hf
      · rename_i hne
        cases hf
        exact ⟨hne, b, q, hs, rfl⟩
  · rintro ⟨hne, b, q, hs, rfl⟩
    exact ⟨_, hs, if_neg hne⟩

theorem usedFormats_sorted (p : Program) : p.usedFormats.Pairwise (· < ·) :=
  List.pairwise_map.2 (Dict.sorted_ofList _)

/-- the formats that a program reports are those whose checks its file calls -/
theorem mem_usedFormats_iff {S : Schema} {c : CompileOptions} {p : Program} (h : Program.lower S c = .ok p) {o : Source.Options}
    {file : Source.File} (hfile : Source.generate p o = .ok file) (f : String) :
    f ∈ p.usedFormats ↔ ∃ k, Format.ofName? f = some k ∧ k.functionName ∈ file.checkers := by
  have hformatted := Lowering.program_formatted h
  simp only [mem_usedFormats, Source.mem_checkers (Source.generate_made hfile)]
  constructor
  · rintro ⟨hne, b, q, hq, rfl⟩
    obtain ⟨-, htype, hknown⟩ := (hformatted _ hq).resolve_left hne
    obtain ⟨k, hk⟩ := Option.isSome_iff_exists.1 hknown
    exact ⟨k, hk, _, hq, k, by simp only [Shape.format?, htype, hk], rfl⟩
  · rintro ⟨k, hk, s, hs, l, hl, hname⟩
    obtain rfl := Format.functionName_injective hname
    cases s <;> simp only [Shape.format?, reduceCtorEq] at hl
    case primitive b q =>
      split at hl
      · rw [Format.ofName?_eq_some] at hk hl
        refine ⟨?_, b, q, hs, hl.trans hk.symm⟩
        rw [hk]
        exact l.name_ne_empty
      · cases hl

/-- no formats are reported where they are not asked for -/
theorem usedFormats_off {S : Schema} {c : CompileOptions} {p : Program} (h : Program.lower S c = .ok p) (hc : c.formats = false) :
    p.usedFormats = [] := by
  refine List.eq_nil_iff_forall_not_mem.2 fun f hf => ?_
  obtain ⟨hne, b, q, hq, rfl⟩ := mem_usedFormats.1 hf
  have hon := (Lowering.program_formatted h _ hq).resolve_left hne
  rw [hc] at hon
  cases hon.1

end Program

end Schemata
