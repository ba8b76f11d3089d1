import Mathlib.Tactic
import Schemata.Proofs.Program.Verified
import Schemata.Proofs.Source.Interpreter

/-!
Where the functions of shapes stand in a generated file.

A shape is placed at a number when its nodes are the nodes of the program from there on; the shapes below it are then placed
at the numbers that generation gives them (`placed_numbers`), and the entry of a definition leads to the place of its shape
(`entryOf_placed`). In a generated file the function of that number is found (`Made.function_at`), and so is every variable
by its name (`Made.variable_eq`).
-/

namespace Schemata.Source

theorem forall₂_getElem? {α β : Type} {R : α → β → Prop} {l : List α} {m : List β} (h : List.Forall₂ R l m) {i : Nat}
    {a : α} {b : β} (ha : l[i]? = some a) (hb : m[i]? = some b) : R a b := by
  obtain ⟨hi, rfl⟩ := List.getElem?_eq_some_iff.1 ha
  obtain ⟨hj, rfl⟩ := List.getElem?_eq_some_iff.1 hb
  exact h.get hi hj

/-! ## Places -/

/-- a stretch of a list that begins at a position -/
def Placed {α : Type} (ns : List α) (k : Nat) (part : List α) : Prop := ∃ pre post, ns = pre ++ part ++ post ∧ pre.length = k

section Placed

variable {α : Type} {ns : List α} {k : Nat} {part : List α}

theorem Placed.head {a : α} (h : Placed ns k (a :: part)) : ns[k]? = some a := by
  obtain ⟨pre, post, rfl, rfl⟩ := h
  simp

theorem Placed.tail {a : α} (h : Placed ns k (a :: part)) : Placed ns (k + 1) part := by
  obtain ⟨pre, post, rfl, rfl⟩ := h
  exact ⟨pre ++ [a], post, by simp, by simp⟩

theorem Placed.left {next : List α} (h : Placed ns k (part ++ next)) : Placed ns k part := by
  obtain ⟨pre, post, rfl, rfl⟩ := h
  exact ⟨pre, next ++ post, by simp, rfl⟩

theorem Placed.right {next : List α} (h : Placed ns k (part ++ next)) : Placed ns (k + part.length) next := by
  obtain ⟨pre, post, rfl, rfl⟩ := h
  exact ⟨pre ++ part, post, by simp, by simp⟩

end Placed

variable {ns : List Shape} {k : Nat}

/-- siblings that are all present are placed at their numbers -/
theorem placed_numbers {ss : List Shape} (h : Placed ns k (Shape.nodesAll ss)) (hs : ∀ s ∈ ss, s.isAbsent = false) :
    List.Forall₂ (fun n s => Placed ns n s.nodes) (numbers k ss) ss := by
  induction ss generalizing k with
  | nil => exact .nil
  | cons s ss ih =>
    rw [Shape.nodesAll] at h
    have hnext := h.right
    rw [Shape.length_nodes] at hnext
    simp only [numbers, hs s (by simp), Bool.false_eq_true, if_false]
    exact .cons h.left (ih hnext fun t ht => hs t (List.mem_cons_of_mem s ht))

/-! ## Entries -/

theorem placed_root {p : Program} : Placed p.nodes 0 p.root.nodes := by
  refine ⟨[], Shape.nodesAll (p.names.map p.definition), ?_, rfl⟩
  rw [Program.nodes_eq, Program.shapes, Shape.nodesAll, List.nil_append]

theorem entries_eq {p : Program} (hroot : p.root.isAbsent = false) : entries p =
    p.names.zip (numbers p.root.size (p.names.map p.definition)) ++ [("", 0)] := by
  simp [entries, Program.shapes, numbers, hroot]

theorem entryOf_root {p : Program} (hroot : p.root.isAbsent = false) : entryOf? (entries p) "" = some 0 := by
  simp [entryOf?, entries_eq hroot]

/-- the entry of a name but the empty one is that of a definition -/
theorem entryOf_listed {p : Program} (hroot : p.root.isAbsent = false) {name : String} (hname : name ≠ "") {n : Nat}
    (h : entryOf? (entries p) name = some n) :
    (name, n) ∈ p.names.zip (numbers p.root.size (p.names.map p.definition)) := by
  unfold entryOf? at h
  rw [entries_eq hroot, List.reverse_append, List.reverse_singleton, List.singleton_append, List.find?_cons_of_neg
    (by simpa using fun h => hname h)] at h
  obtain ⟨⟨m, j⟩, hfind, rfl⟩ := Option.map_eq_some_iff.1 h
  obtain rfl : m = name := by simpa using List.find?_some hfind
  exact List.mem_reverse.1 (List.mem_of_find?_eq_some hfind)

/-- present definitions are placed one behind the other, after the root -/
theorem placed_definitions {p : Program} (hpresent : ∀ s ∈ p.shapes, s.isAbsent = false) :
    List.Forall₂ (fun n s => Placed p.nodes n s.nodes) (numbers p.root.size (p.names.map p.definition))
      (p.names.map p.definition) := by
  apply placed_numbers
  · refine ⟨p.root.nodes, [], ?_, Shape.length_nodes _⟩
    rw [Program.nodes_eq, Program.shapes, Shape.nodesAll, List.append_nil]
  · exact fun s hs => hpresent s (List.mem_cons_of_mem _ hs)

/-- the entry of a name leads to the shape that a reference of the name leads to -/
theorem entryOf_placed {p : Program} (hv : p.verify = .ok ()) {name : String} {n : Nat}
    (h : entryOf? (entries p) name = some n) : ∃ s, p.target? name = some s ∧ Placed p.nodes n s.nodes := by
  have hpresent : ∀ s ∈ p.shapes, s.isAbsent = false := fun s hs => Verify.present (verified_shapes hv s hs)
  have hroot := hpresent p.root List.mem_cons_self
  by_cases hname : name = ""
  · subst hname
    rw [entryOf_root hroot] at h
    obtain rfl : 0 = n := by simpa using h
    exact ⟨p.root, by simp [Program.target?], placed_root⟩
  · obtain ⟨i, hi⟩ := List.mem_iff_getElem?.1 (entryOf_listed hroot hname h)
    obtain ⟨hi, hn⟩ := List.getElem?_zip_eq_some.1 hi
    refine ⟨p.definition name, ?_, ?_⟩
    · have hin := Program.mem_names.1 (List.mem_of_getElem? hi)
      simp [Program.target?, hname, hin]
    · exact forall₂_getElem? (placed_definitions hpresent) hn (by simp [hi])

/-! ## Functions and variables of a file -/

/-- the digits of a name are those of its number -/
theorem name_digits (v : Variable) : v.name.toList.filter Char.isDigit = Nat.toDigits 10 v.number := by
  have hdigits : (Nat.toDigits 10 v.number).filter Char.isDigit = Nat.toDigits 10 v.number :=
    List.filter_eq_self.2 fun c hc => Nat.isDigit_of_mem_toDigits (by decide) (by decide) hc
  have hname (t : String) (ht : t.toList.filter Char.isDigit = []) :
      (t ++ toString v.number).toList.filter Char.isDigit = Nat.toDigits 10 v.number := by
    rw [String.toList_append, List.filter_append, ht, Text.toList_toString_nat, List.nil_append, hdigits]
  unfold Variable.name
  cases v.initial with
  | pattern t => exact hname "re" (by decide)
  | rule r => exact hname "rule" (by decide)
  | values ts => exact hname "enum" (by decide)

theorem number_of_name {v w : Variable} (h : v.name = w.name) : v.number = w.number := by
  have hd := name_digits v
  rw [h, name_digits w] at hd
  rw [← Nat.ofDigitChars_ten_toDigits (n := v.number), ← hd, Nat.ofDigitChars_ten_toDigits]

namespace File.Made

variable {p : Program} {o : Options} {f : File}

/-- a declared variable is found by its name -/
theorem variable_eq (h : f.Made p o) {v : Variable} (hv : v ∈ f.vars) : f.variable? v.name = some v.initial := by
  unfold File.variable?
  cases hfind : f.vars.find? (·.name == v.name) with
  | none => exact absurd (List.find?_eq_none.1 hfind v hv) (by simp)
  | some w =>
    have hname : w.name = v.name := by simpa using List.find?_some hfind
    have hw := List.mem_of_find?_eq_some hfind
    have hsame : w = v := List.inj_on_of_nodup_map h.distinct hw hv (number_of_name hname)
    rw [hsame, Option.map_some]

theorem function_at (h : f.Made p o) {k : Nat} {s : Shape} (hk : p.nodes[k]? = some s) :
    ∃ g, f.functions.find? (·.number == k) = some g ∧ g ∈ f.functions ∧ FunctionOf (entries p) o.coerce k s g := by
  have hnumber (i : Nat) (g : Function) (hg : f.functions[i]? = some g) : g.number = i := by
    have hi : i < p.nodes.length := by
      rw [← h.count]
      exact (List.getElem?_eq_some_iff.1 hg).1
    obtain ⟨g', hg', hof⟩ := h.functions i _ (List.getElem?_eq_getElem hi)
    obtain rfl : g = g' := by
      rw [hg] at hg'
      exact Option.some.inj hg'
    exact hof.number
  obtain ⟨g, hg, hof⟩ := h.functions k s hk
  refine ⟨g, ?_, List.mem_of_getElem? hg, hof⟩
  obtain ⟨hlt, rfl⟩ := List.getElem?_eq_some_iff.1 hg
  refine List.find?_eq_some_iff_getElem.2 ⟨by simp [hof.number], k, hlt, rfl, fun j hj => ?_⟩
  have := hnumber j _ (List.getElem?_eq_getElem (hj.trans hlt))
  simp [this, hj.ne]

end File.Made

end Schemata.Source
