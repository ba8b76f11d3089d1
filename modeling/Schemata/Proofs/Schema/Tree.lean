import Mathlib.Tactic
import Schemata.Schema.Basic

/-!
Schemas as trees.

`Schema.Parts` is one level of a schema with anything in the places of the schemas below; `Schema.fold` computes from
the leaves up, one level at a time, and `Schema.treeInduction` proves so. With them a function of whole schemas is a
function of one level, and its properties are about one level too.
-/

namespace Schemata.Schema

/-- what may stand beyond the listed properties or positions -/
inductive Beyond (α : Type) where
  | unset
  | flag (allowed : Bool)
  | sub (a : α)

/-- one for all items, or one for each position -/
inductive Elements (α : Type) where
  | unset
  | single (a : α)
  | tuple (as : List α)

/-- one level of a schema -/
structure Parts (α : Type) where
  own : Keywords
  properties : Option (List (String × α))
  additional : Beyond α
  propertyNames : α
  items : Elements α
  additionalItems : Beyond α
  anyOf : Option (List α)
  oneOf : Option (List α)
  allOf : Option (List α)
  definitions : List (String × α)
  defs : List (String × α)

variable {α : Type}

def Beyond.toList : Beyond α → List α
  | .sub a => [a]
  | _ => []

def Elements.toList : Elements α → List α
  | .unset => []
  | .single a => [a]
  | .tuple as => as

/-- all that stands in the places of schemas -/
def Parts.toList (p : Parts α) : List α :=
  (p.properties.getD []).map (·.2) ++ p.additional.toList ++ [p.propertyNames] ++ p.items.toList
    ++ p.additionalItems.toList ++ p.anyOf.getD [] ++ p.oneOf.getD [] ++ p.allOf.getD []
    ++ p.definitions.map (·.2) ++ p.defs.map (·.2)

def Beyond.ofExtent (g : Schema → α) : Extent → Beyond α
  | .unset => .unset
  | .flag b => .flag b
  | .sub s => .sub (g s)

def Elements.ofItems (g : Schema → α) : Items → Elements α
  | .unset => .unset
  | .single s => .single (g s)
  | .tuple ss => .tuple (ss.map g)

/-- one level of a schema, with a function applied below it -/
def Body.parts (b : Body) (g : Schema → α) : Parts α where
  own := b.own
  properties := b.properties.map fun fs => fs.map fun e => (e.1, g e.2)
  additional := .ofExtent g b.additional
  propertyNames := g b.propertyNames
  items := .ofItems g b.items
  additionalItems := .ofExtent g b.additionalItems
  anyOf := b.anyOf.map (·.map g)
  oneOf := b.oneOf.map (·.map g)
  allOf := b.allOf.map (·.map g)
  definitions := b.definitions.map fun e => (e.1, g e.2)
  defs := b.defs.map fun e => (e.1, g e.2)

/-- the schemas one level below -/
def Body.below (b : Body) : List Schema := (b.parts id).toList

def Extent.toList (x : Extent) : List Schema := (Beyond.ofExtent id x).toList

def Items.toList (x : Items) : List Schema := (Elements.ofItems id x).toList

/-- something holds of all schemas one level below, place by place -/
structure Body.Below (P : Schema → Prop) (b : Body) : Prop where
  properties : ∀ e ∈ b.properties.getD [], P e.2
  additional : ∀ s ∈ Extent.toList b.additional, P s
  propertyNames : P b.propertyNames
  items : ∀ s ∈ Items.toList b.items, P s
  additionalItems : ∀ s ∈ Extent.toList b.additionalItems, P s
  anyOf : ∀ s ∈ b.anyOf.getD [], P s
  oneOf : ∀ s ∈ b.oneOf.getD [], P s
  allOf : ∀ s ∈ b.allOf.getD [], P s
  definitions : ∀ e ∈ b.definitions, P e.2
  defs : ∀ e ∈ b.defs, P e.2

theorem Body.forall_below {P : Schema → Prop} {b : Body} : (∀ s ∈ b.below, P s) ↔ b.Below P := by
  simp only [Body.below, Parts.toList, Body.parts, List.mem_append, List.mem_singleton, id, List.map_id,
    List.map_id_fun', Option.map_id_fun']
  constructor
  · intro h
    exact ⟨fun e he => h e.2 (by simp [List.mem_map_of_mem he]), fun s hs => h s (by simp_all [Extent.toList]),
      h _ (by simp), fun s hs => h s (by simp_all [Items.toList]), fun s hs => h s (by simp_all [Extent.toList]),
      fun s hs => h s (by simp [hs]), fun s hs => h s (by simp [hs]), fun s hs => h s (by simp [hs]),
      fun e he => h e.2 (by simp [List.mem_map_of_mem he]), fun e he => h e.2 (by simp [List.mem_map_of_mem he])⟩
  · rintro h s (((((((((hs | hs) | rfl) | hs) | hs) | hs) | hs) | hs) | hs) | hs)
    · obtain ⟨e, he, rfl⟩ := List.mem_map.1 hs
      exact h.properties e he
    · exact h.additional s hs
    · exact h.propertyNames
    · exact h.items s hs
    · exact h.additionalItems s hs
    · exact h.anyOf s hs
    · exact h.oneOf s hs
    · exact h.allOf s hs
    · obtain ⟨e, he, rfl⟩ := List.mem_map.1 hs
      exact h.definitions e he
    · obtain ⟨e, he, rfl⟩ := List.mem_map.1 hs
      exact h.defs e he

/-! ## Computing from the leaves up -/

mutual

def fold (missing : α) (node : Parts α → α) : Schema → α
  | .absent => missing
  | .node own properties additional propertyNames items additionalItems anyOf oneOf allOf definitions defs =>
    node {
      own
      properties := foldOptional missing node properties
      additional := foldExtent missing node additional
      propertyNames := fold missing node propertyNames
      items := foldItems missing node items
      additionalItems := foldExtent missing node additionalItems
      anyOf := foldGiven missing node anyOf
      oneOf := foldGiven missing node oneOf
      allOf := foldGiven missing node allOf
      definitions := foldFields missing node definitions
      defs := foldFields missing node defs }

def foldList (missing : α) (node : Parts α → α) : List Schema → List α
  | [] => []
  | s :: ss => fold missing node s :: foldList missing node ss

def foldGiven (missing : α) (node : Parts α → α) : Option (List Schema) → Option (List α)
  | none => none
  | some ss => some (foldList missing node ss)

def foldFields (missing : α) (node : Parts α → α) : List (String × Schema) → List (String × α)
  | [] => []
  | (k, s) :: ss => (k, fold missing node s) :: foldFields missing node ss

def foldOptional (missing : α) (node : Parts α → α) : Option (List (String × Schema)) → Option (List (String × α))
  | none => none
  | some fs => some (foldFields missing node fs)

def foldExtent (missing : α) (node : Parts α → α) : Extent → Beyond α
  | .unset => .unset
  | .flag b => .flag b
  | .sub s => .sub (fold missing node s)

def foldItems (missing : α) (node : Parts α → α) : Items → Elements α
  | .unset => .unset
  | .single s => .single (fold missing node s)
  | .tuple ss => .tuple (foldList missing node ss)

end

section

variable (missing : α) (node : Parts α → α)

theorem foldList_eq (ss : List Schema) : foldList missing node ss = ss.map (fold missing node) := by
  induction ss with
  | nil => rfl
  | cons s ss ih => rw [foldList, ih, List.map_cons]

theorem foldFields_eq (fs : List (String × Schema)) :
    foldFields missing node fs = fs.map fun e => (e.1, fold missing node e.2) := by
  induction fs with
  | nil => rfl
  | cons e fs ih => rw [foldFields, ih, List.map_cons]

theorem foldGiven_eq (o : Option (List Schema)) : foldGiven missing node o = o.map (·.map (fold missing node)) := by
  cases o <;> simp [foldGiven, foldList_eq]

theorem foldOptional_eq (o : Option (List (String × Schema))) :
    foldOptional missing node o = o.map fun fs => fs.map fun e => (e.1, fold missing node e.2) := by
  cases o <;> simp [foldOptional, foldFields_eq]

theorem foldExtent_eq (x : Extent) : foldExtent missing node x = .ofExtent (fold missing node) x := by
  cases x <;> rfl

theorem foldItems_eq (x : Items) : foldItems missing node x = .ofItems (fold missing node) x := by
  cases x <;> simp [foldItems, Elements.ofItems, foldList_eq]

@[simp] theorem fold_absent : fold missing node .absent = missing := rfl

theorem fold_ofBody (b : Body) : fold missing node (ofBody b) = node (b.parts (fold missing node)) := by
  rw [ofBody, fold, Body.parts]
  simp only [foldGiven_eq, foldOptional_eq, foldExtent_eq, foldItems_eq, foldFields_eq]

end

/-! ## Proving from the leaves up -/

theorem ofBody_body (b : Body) : (ofBody b).body = b := rfl

/-- a schema is missing, or it has parts -/
theorem eq_absent_or_ofBody (s : Schema) : s = .absent ∨ ∃ b, s = ofBody b := by
  cases s with
  | absent => exact .inl rfl
  | node own ps add names its addIts anys ones alls ds dds =>
    exact .inr ⟨⟨own, ps, add, names, its, addIts, anys, ones, alls, ds, dds⟩, rfl⟩

theorem sizeOf_lt_of_mem_fields {fs : List (String × Schema)} {e : String × Schema} (h : e ∈ fs) :
    sizeOf e.2 < sizeOf fs := by
  have := List.sizeOf_lt_of_mem h
  obtain ⟨k, s⟩ := e
  rw [Prod.mk.sizeOf_spec] at this
  simp only
  omega

theorem sizeOf_lt_of_mem_extent {x : Extent} {s : Schema} (h : s ∈ Extent.toList x) :
    sizeOf s < sizeOf x := by
  cases x with
  | sub t =>
    obtain rfl : s = t := by simpa [Extent.toList, Beyond.ofExtent, Beyond.toList] using h
    rw [Extent.sub.sizeOf_spec]
    omega
  | _ => simp [Extent.toList, Beyond.ofExtent, Beyond.toList] at h

theorem sizeOf_lt_of_mem_items {x : Items} {s : Schema} (h : s ∈ Items.toList x) :
    sizeOf s < sizeOf x := by
  cases x with
  | unset => simp [Items.toList, Elements.ofItems, Elements.toList] at h
  | single t =>
    obtain rfl : s = t := by simpa [Items.toList, Elements.ofItems, Elements.toList] using h
    rw [Items.single.sizeOf_spec]
    omega
  | tuple ss =>
    have := List.sizeOf_lt_of_mem (show s ∈ ss by simpa [Items.toList, Elements.ofItems, Elements.toList] using h)
    rw [Items.tuple.sizeOf_spec]
    omega

theorem sizeOf_lt_of_mem_given {o : Option (List Schema)} {s : Schema} (h : s ∈ o.getD []) : sizeOf s < sizeOf o := by
  cases o with
  | none => cases h
  | some ss =>
    have := List.sizeOf_lt_of_mem (show s ∈ ss from h)
    rw [Option.some.sizeOf_spec]
    omega

theorem sizeOf_lt_of_mem_optional {o : Option (List (String × Schema))} {e : String × Schema} (h : e ∈ o.getD []) :
    sizeOf e.2 < sizeOf o := by
  cases o with
  | none => cases h
  | some fs =>
    have := sizeOf_lt_of_mem_fields (show e ∈ fs from h)
    rw [Option.some.sizeOf_spec]
    omega

theorem below_lt (b : Body) : ∀ s ∈ b.below, sizeOf s < sizeOf (ofBody b) := by
  rw [ofBody, node.sizeOf_spec, Body.forall_below]
  constructor
  · intro e he; have := sizeOf_lt_of_mem_optional he; omega
  · intro s hs; have := sizeOf_lt_of_mem_extent hs; omega
  · omega
  · intro s hs; have := sizeOf_lt_of_mem_items hs; omega
  · intro s hs; have := sizeOf_lt_of_mem_extent hs; omega
  · intro s hs; have := sizeOf_lt_of_mem_given hs; omega
  · intro s hs; have := sizeOf_lt_of_mem_given hs; omega
  · intro s hs; have := sizeOf_lt_of_mem_given hs; omega
  · intro e he; have := sizeOf_lt_of_mem_fields he; omega
  · intro e he; have := sizeOf_lt_of_mem_fields he; omega

/-- **Induction on schemas.** What holds of a missing schema, and of a schema if it holds one level below, holds of
every schema. -/
theorem treeInduction {P : Schema → Prop} (absent : P .absent)
    (node : ∀ b : Body, b.Below P → P (ofBody b)) (s : Schema) : P s := by
  induction hn : sizeOf s using Nat.strong_induction_on generalizing s with
  | _ n ih =>
    obtain rfl | ⟨b, rfl⟩ := eq_absent_or_ofBody s
    · exact absent
    · exact node b (Body.forall_below.1 fun t ht => ih _ (hn ▸ below_lt b t ht) t rfl)

/-! ## All keywords -/

theorem Body.toList_parts (b : Body) (g : Schema → α) : (b.parts g).toList = b.below.map g := by
  have hextent (x : Extent) : (Beyond.ofExtent g x).toList = (Beyond.ofExtent id x).toList.map g := by cases x <;> rfl
  have hitems (x : Items) : (Elements.ofItems g x).toList = (Elements.ofItems id x).toList.map g := by
    cases x <;> simp [Elements.ofItems, Elements.toList]
  have hgiven (o : Option (List Schema)) : (o.map (·.map g)).getD [] = ((o.map (·.map id)).getD []).map g := by
    cases o <;> simp
  have hfields (fs : List (String × Schema)) :
      (fs.map fun e => (e.1, g e.2)).map (·.2) = ((fs.map fun e => (e.1, id e.2)).map (·.2)).map g := by simp
  have hoptional (o : Option (List (String × Schema))) : ((o.map fun fs => fs.map fun e => (e.1, g e.2)).getD []).map (·.2)
      = (((o.map fun fs => fs.map fun e => (e.1, id e.2)).getD []).map (·.2)).map g := by
    cases o <;> simp
  simp only [Body.below, Parts.toList, Body.parts, List.map_append, hextent, hitems, hgiven, hfields, hoptional,
    List.map_cons, List.map_nil, id]

/-- the keywords of a schema and of all schemas below it -/
def keywords : Schema → List Keywords := fold [] fun p => p.own :: p.toList.flatten

theorem keywords_ofBody (b : Body) : (ofBody b).keywords = b.own :: b.below.flatMap keywords := by
  rw [keywords, fold_ofBody, Body.toList_parts, List.flatMap_def]
  rfl

theorem forall_keywords {P : Keywords → Prop} {b : Body} :
    (∀ k ∈ (ofBody b).keywords, P k) ↔ P b.own ∧ b.Below fun s => ∀ k ∈ s.keywords, P k := by
  rw [keywords_ofBody, List.forall_mem_cons, ← Body.forall_below]
  simp only [List.mem_flatMap, forall_exists_index, and_imp]
  exact and_congr_right fun _ => ⟨fun h s hs k hk => h k s hs hk, fun h k s hs hk => h s hs k hk⟩

theorem Body.Below.and {P Q : Schema → Prop} {b : Body} (hp : b.Below P) (hq : b.Below Q) : b.Below fun s => P s ∧ Q s :=
  Body.forall_below.1 fun s hs => ⟨Body.forall_below.2 hp s hs, Body.forall_below.2 hq s hs⟩

theorem Body.Below.imp {P Q : Schema → Prop} {b : Body} (h : ∀ s, P s → Q s) (hp : b.Below P) : b.Below Q :=
  Body.forall_below.1 fun s hs => h s (Body.forall_below.2 hp s hs)

end Schemata.Schema
