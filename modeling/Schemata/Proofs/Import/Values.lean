import Mathlib.Tactic
import Schemata.Import
import Schemata.Proofs.Dict
import Schemata.Proofs.Graph.Building

/-!
What an import reads off the values of a document.

An import goes down from a schema to the schemas inside it, and across from a reference to whatever a fragment leads to.
Down it comes to values that are nested less deep (`Below`), across to any that stand in the document; both ways they
hold no texts but those of the document (`find?_texts`). The settings that it reads off a schema hang no hooks on
nodes and are no patterns for keys (`Tame`).
-/

namespace Schemata.Import

open Setting (isTame Plain Tame)

/-! ## Values inside values -/

mutual

/-- the texts that stand in a value -/
def texts : Value → List String
  | .string s => [s]
  | .array xs => textsOf xs
  | .object fs => textsIn fs
  | _ => []

def textsOf : List Value → List String
  | [] => []
  | x :: xs => texts x ++ textsOf xs

def textsIn : List (String × Value) → List String
  | [] => []
  | (_, x) :: rest => texts x ++ textsIn rest

end

/-- a value nested less deep than another, with no texts but those of the other -/
structure Below (v w : Value) : Prop where
  texts : texts v ⊆ texts w
  nesting : nesting v < nesting w

theorem Below.trans {u v w : Value} (h : Below u v) (h' : Below v w) : Below u w :=
  ⟨fun _ hs => h'.texts (h.texts hs), h.nesting.trans h'.nesting⟩

theorem nesting_pos (v : Value) : 0 < nesting v := by
  cases v <;> simp [nesting]

theorem texts_item {xs : List Value} {x : Value} (h : x ∈ xs) : texts x ⊆ textsOf xs := by
  induction xs with
  | nil => cases h
  | cons y ys ih =>
    intro s hs
    rw [textsOf, List.mem_append]
    rcases List.mem_cons.1 h with rfl | h
    · exact .inl hs
    · exact .inr (ih h hs)

theorem nesting_item {xs : List Value} {x : Value} (h : x ∈ xs) : nesting x ≤ nestingOf xs := by
  induction xs with
  | nil => cases h
  | cons y ys ih =>
    rw [nestingOf]
    rcases List.mem_cons.1 h with rfl | h
    · exact le_max_left _ _
    · exact (ih h).trans (le_max_right _ _)

theorem textsIn_eq (fs : List (String × Value)) : textsIn fs = textsOf (fs.map (·.2)) := by
  induction fs with
  | nil => rfl
  | cons e fs ih => rw [textsIn, List.map_cons, textsOf, ih]

theorem nestingIn_eq (fs : List (String × Value)) : nestingIn fs = nestingOf (fs.map (·.2)) := by
  induction fs with
  | nil => rfl
  | cons e fs ih => rw [nestingIn, List.map_cons, nestingOf, ih]

theorem below_item {xs : List Value} {x : Value} (h : x ∈ xs) : Below x (.array xs) := by
  refine ⟨fun s hs => texts_item h hs, ?_⟩
  rw [nesting]
  exact Nat.lt_one_add_iff.2 (nesting_item h)

theorem below_field {fs : List (String × Value)} {k : String} {x : Value} (h : (k, x) ∈ fs) : Below x (.object fs) := by
  have hx : x ∈ fs.map (·.2) := List.mem_map_of_mem (f := (·.2)) h
  refine ⟨fun s hs => ?_, ?_⟩
  · rw [texts, textsIn_eq]
    exact texts_item hx hs
  · rw [nesting, nestingIn_eq]
    exact Nat.lt_one_add_iff.2 (nesting_item hx)

variable {m : Dict Value} {key : String}

theorem below_get? {v : Value} (h : m.get? key = some v) : Below v (.object m) := below_field (Dict.mem_of_get? h)

theorem get?_of_list? {vs : List Value} (h : list? m key = some vs) : m.get? key = some (.array vs) := by
  unfold list? at h
  split at h
  · rename_i hget
    rw [hget, Option.some.inj h]
  · cases h

theorem below_list? {vs : List Value} (h : list? m key = some vs) {v : Value} (hv : v ∈ vs) : Below v (.object m) :=
  (below_item hv).trans (below_get? (get?_of_list? h))

theorem below_object? {fs : Dict Value} (h : object? m key = some fs) {k : String} {v : Value} (hv : (k, v) ∈ fs) :
    Below v (.object m) := by
  unfold object? at h
  split at h
  · rename_i hget
    obtain rfl := Option.some.inj h
    exact (below_field hv).trans (below_get? hget)
  · cases h

/-- what stands in the place of a schema that an object does not have -/
theorem below_true {v : Value} (h : m.get? key = some v) : Below (.bool true) (.object m) := by
  refine ⟨by simp [texts], ?_⟩
  calc nesting (.bool true) = 1 := rfl
    _ ≤ nesting v := nesting_pos v
    _ < nesting (.object m) := (below_get? h).nesting

theorem texts_text? {s : String} (h : text? m key = some s) : s ∈ texts (.object m) := by
  unfold text? at h
  split at h
  · rename_i hget
    obtain rfl := Option.some.inj h
    exact (below_get? hget).texts (by simp [texts])
  · cases h

/-- **Across.** What a fragment leads to stands in the document. -/
theorem find?_texts {root v : Value} {fragment : String} (h : Fragment.find? root fragment = some v) :
    texts v ⊆ texts root ∧ nesting v ≤ nesting root := by
  have hstep {w x : Value} {s : String} (h : Fragment.step? w s = some x) : Below x w := by
    unfold Fragment.step? at h
    split at h
    · exact below_get? h
    · obtain ⟨i, -, hi⟩ := Option.bind_eq_some_iff.1 h
      exact below_item (List.mem_of_getElem? hi)
    · cases h
  have hwalk (steps : List String) : ∀ w, Fragment.walk? w steps = some v → texts v ⊆ texts w ∧ nesting v ≤ nesting w := by
    induction steps with
    | nil =>
      intro w hw
      obtain rfl := Option.some.inj hw
      exact ⟨fun _ hs => hs, le_rfl⟩
    | cons s steps ih =>
      intro w hw
      obtain ⟨x, hx, hw⟩ := Option.bind_eq_some_iff.1 hw
      obtain ⟨htexts, hnesting⟩ := ih x hw
      exact ⟨fun _ hs => (hstep hx).texts (htexts hs), hnesting.trans (hstep hx).nesting.le⟩
  unfold Fragment.find? at h
  split at h
  · split at h
    · cases h
    · obtain rfl := Option.some.inj h
      exact ⟨fun _ hs => hs, le_rfl⟩
  · exact hwalk _ _ h

/-! ## Settings -/

theorem tame_nil : Tame [] := by simp [Tame]

theorem plain_nil : Plain [] := tame_nil.plain

theorem tame_append {l l' : List Setting} : Tame (l ++ l') ↔ Tame l ∧ Tame l' := by
  simp [Tame, or_imp, forall_and]

theorem tame_option {α : Type} {f : α → Setting} (hf : ∀ a, isTame (f a) = true) (o : Option α) :
    Tame (o.map f).toList := by
  cases o with
  | none => exact tame_nil
  | some a => simp [Tame, hf]

theorem tame_textSettings (m : Dict Value) : Tame (textSettings m) := by
  simp only [textSettings, tame_append]
  exact ⟨⟨⟨tame_option (fun _ => rfl) _, tame_option (fun _ => rfl) _⟩, tame_option (fun _ => rfl) _⟩,
    tame_option (fun _ => rfl) _⟩

theorem tame_numberSettings (m : Dict Value) : Tame (numberSettings m) := by
  simp only [numberSettings, tame_append]
  refine ⟨⟨⟨⟨tame_option (fun _ => ?_) _, tame_option (fun _ => ?_) _⟩, tame_option (fun _ => rfl) _⟩,
    tame_option (fun _ => rfl) _⟩, tame_option (fun _ => rfl) _⟩
  all_goals split <;> rfl

theorem tame_itemSettings (m : Dict Value) : Tame (itemSettings m) := by
  simp only [itemSettings, tame_append]
  refine ⟨⟨tame_option (fun _ => rfl) _, tame_option (fun _ => rfl) _⟩, ?_⟩
  split <;> simp [Tame, isTame]

theorem tame_annotationSettings (m : Dict Value) : Tame (annotationSettings m) := by
  simp only [annotationSettings, tame_append]
  refine ⟨⟨⟨⟨⟨⟨tame_option (fun _ => rfl) _, tame_option (fun _ => rfl) _⟩, tame_option (fun _ => rfl) _⟩, ?_⟩, ?_⟩,
    tame_option (fun _ => rfl) _⟩, tame_option (fun _ => rfl) _⟩
  all_goals split <;> simp [Tame, isTame]

theorem tame_extensionSettings (m : Dict Value) : Tame (extensionSettings m) := by
  intro s hs
  obtain ⟨e, -, rfl⟩ := List.mem_map.1 hs
  rfl

end Schemata.Import
